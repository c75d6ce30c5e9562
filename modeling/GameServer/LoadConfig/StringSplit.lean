/-
  `string.split` of `src/load_config.lua`, beside `Split`.

  It appends the delimiter to the string and collects the stretches in front of delimiters, so
  what it returns is the cut of the longer string without its last field. This is what `Split`
  returns if and only if the appended delimiter is found where it was put, and not begun by
  the end of the string (`splitters_agree_iff`). A delimiter of one character always is
  (`splitters_agree_char`). With the empty delimiter `string.split` ends, other than `Split`
  (`stringSplit_empty`).
-/
import GameServer.LoadConfig.Split

namespace GameServer.LoadConfig

open Lua Separated

variable (patterns : Patterns)

/-- `string.split`; `none` is `nil`. -/
def stringSplit (fuel : Nat) (str delimiter : Option Bytes) : Except Stop (Option (List Bytes)) :=
  match str, delimiter with
  | some str, some delimiter =>
    if str = [] then .ok none
    else do
      let captures ← stringGmatch patterns fuel (str ++ delimiter) (lazyCapture ++ delimiter)
      return some (captures.foldl (fun result capture => result ++ [capture]) [])
  | _, _ => .ok none

/-- Both end, and return the same fields. -/
def SplittersAgree (s d : Bytes) : Prop :=
  ∃ fields,
    (∀ fuel, (s ++ d).length < fuel →
      stringSplit patterns fuel (some s) (some d) = .ok (some fields)) ∧
    ∀ fuel, s.length < fuel → split patterns fuel s d = .ok fields

variable {patterns} {s d : Bytes}

/-- The loop over the captures copies them. -/
theorem foldl_insert (captures result : List Bytes) :
    captures.foldl (fun result capture => result ++ [capture]) result = result ++ captures := by
  induction captures generalizing result with
  | nil => exact (List.append_nil result).symm
  | cons capture captures ih => rw [List.foldl_cons, ih, List.append_assoc, List.singleton_append]

theorem stringSplit_captures (hs : s ≠ []) {fuel : Nat} {captures : List Bytes}
    (h : stringGmatch patterns fuel (s ++ d) (lazyCapture ++ d) = .ok captures) :
    stringSplit patterns fuel (some s) (some d) = .ok (some captures) := by
  unfold stringSplit
  simp only
  rw [if_neg hs, h]
  show Except.ok (some (List.foldl _ [] _)) = _
  rw [foldl_insert, List.nil_append]

theorem stringSplit_cut (hs : s ≠ []) (hd : d ≠ []) (hplain : NoMagic d) {fields : List Bytes}
    (h : Cut d (s ++ d) fields) {fuel : Nat} (hfuel : (s ++ d).length < fuel) :
    stringSplit patterns fuel (some s) (some d) = .ok (some fields.dropLast) := by
  refine stringSplit_captures hs ?_
  rw [stringGmatch_lazy patterns hplain]
  exact lazyMatches_cut hd h rfl (Nat.zero_le _) fuel hfuel

/-- The two agree if and only if the appended delimiter is leftmost in what is left behind the
    last one. -/
theorem agree_iff_leftmost (hs : s ≠ []) (hd : d ≠ []) (hplain : NoMagic d) {t : Bytes}
    (ht : Remainder d s t) : SplittersAgree patterns s d ↔ Leftmost d t := by
  obtain ⟨fields, hcut⟩ := ht
  obtain ⟨fields', hcut'⟩ := exists_cut hd (s ++ d)
  rw [← dropLast_cut_append hd hcut hcut']
  constructor
  · rintro ⟨result, hstring, hsplit⟩
    have hfields' := (stringSplit_cut hs hd hplain hcut' (Nat.lt_succ_self _)).symm.trans
      (hstring _ (Nat.lt_succ_self _))
    have hfields := (split_cut hd hplain hcut (Nat.lt_succ_self _)).symm.trans
      (hsplit _ (Nat.lt_succ_self _))
    rw [Except.ok.injEq] at hfields hfields'
    rw [hfields]
    exact Option.some.inj hfields'
  · intro hsame
    refine ⟨fields ++ [t], fun fuel hfuel => ?_, fun fuel hfuel => split_cut hd hplain hcut hfuel⟩
    rw [← hsame]
    exact stringSplit_cut hs hd hplain hcut' hfuel

/-- For every string and delimiter that are not empty, the delimiter without magic characters:
    the two functions return the same fields if and only if what is left behind the last
    delimiter does not end with a piece of one that the appended delimiter completes. -/
theorem splitters_agree_iff (patterns : Patterns) (s d : Bytes) (hs : s ≠ []) (hd : d ≠ [])
    (hplain : NoMagic d) :
    SplittersAgree patterns s d ↔ ∀ t, Remainder d s t → ¬ Straddled d t := by
  obtain ⟨t, ht⟩ := exists_remainder hd s
  rw [agree_iff_leftmost hs hd hplain ht, leftmost_iff (ht.not_infix hd)]
  constructor
  · intro hnot t' ht'
    rw [← ht.unique ht']
    exact hnot
  · exact fun hall => hall t ht

/-- A string that ends with half a delimiter. -/
theorem half_delimiter :
    SplittersAgree plainOnly (ascii "a=>b=") (ascii "=>") ↔
      ∀ t, Remainder (ascii "=>") (ascii "a=>b=") t → ¬ Straddled (ascii "=>") t :=
  splitters_agree_iff plainOnly (ascii "a=>b=") (ascii "=>") (by decide) (by decide)
    (by decide +kernel)

/-- The appended delimiter is found one character early. -/
theorem delimiter_found_early :
    stringSplit plainOnly 4 (some (ascii "a")) (some (ascii "aa")) = .ok (some [[]]) ∧
      split plainOnly 2 (ascii "a") (ascii "aa") = .ok [ascii "a"] ∧
      ¬ SplittersAgree plainOnly (ascii "a") (ascii "aa") := by
  have hstring : stringSplit plainOnly 4 (some (ascii "a")) (some (ascii "aa")) =
      .ok (some [[]]) := by decide +kernel
  have hsplit : split plainOnly 2 (ascii "a") (ascii "aa") = .ok [ascii "a"] := rfl
  refine ⟨hstring, hsplit, ?_⟩
  rintro ⟨fields, hstring', hsplit'⟩
  have hone := hstring.symm.trans (hstring' 4 (by decide))
  have htwo := hsplit.symm.trans (hsplit' 2 (by decide))
  rw [Except.ok.injEq] at hone htwo
  rw [← htwo] at hone
  exact absurd hone (by decide)

/-- A delimiter of one character has no pieces. -/
theorem splitters_agree_char (patterns : Patterns) (s : Bytes) (c : UInt8) (hs : s ≠ [])
    (hc : NoMagic [c]) : SplittersAgree patterns s [c] := by
  have hne : [c] ≠ [] := List.cons_ne_nil c []
  obtain ⟨t, ht⟩ := exists_remainder hne s
  rw [agree_iff_leftmost hs hne hc ht, leftmost_iff (ht.not_infix hne)]
  rintro ⟨u, v, hcut, hu, hv, -, -⟩
  have hlen := congrArg List.length hcut
  have hposu := List.length_pos_iff.2 hu
  have hposv := List.length_pos_iff.2 hv
  rw [List.length_append, List.length_singleton] at hlen
  omega

/-! ## The empty delimiter -/

/-- A match of no characters goes on one position behind, so the captures end with the string. -/
theorem lazyMatches_empty (s : Bytes) (left : Nat) :
    ∀ src, src + left = s.length + 1 → ∀ fuel, left < fuel →
      lazyMatches s [] fuel src = .ok (List.replicate left []) := by
  induction left with
  | zero =>
    intro src hsrc fuel hfuel
    cases fuel with
    | zero => omega
    | succ fuel => exact if_pos (by omega)
  | succ left ih =>
    intro src hsrc fuel hfuel
    cases fuel with
    | zero => omega
    | succ fuel =>
      have hfound : search [] (s.drop src) = some 0 := search_of_prefix List.nil_prefix
      have hlater := ih (src + 1) (by omega) fuel (by omega)
      rw [lazyMatches, if_neg (by omega), hfound]
      simp only [List.length_nil, Nat.add_zero, if_true]
      rw [hlater]
      rfl

/-- For every string that is not empty: with the empty delimiter `string.split` ends, where
    `Split` does not (`split_endless`). It returns an empty field for every position. -/
theorem stringSplit_empty (patterns : Patterns) (hs : s ≠ []) {fuel : Nat}
    (hfuel : s.length + 1 < fuel) :
    stringSplit patterns fuel (some s) (some []) =
      .ok (some (List.replicate (s.length + 1) [])) := by
  refine stringSplit_captures hs ?_
  rw [stringGmatch_lazy patterns noMagic_nil, List.append_nil]
  exact lazyMatches_empty s (s.length + 1) 0 (Nat.zero_add _) fuel hfuel

end GameServer.LoadConfig
