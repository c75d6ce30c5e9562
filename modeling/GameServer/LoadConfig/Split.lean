/-
  `Split` of `src/load_config.lua`.

  The loop looks for the separator from `nFindStartIndex` on, stores what is in front of it
  and goes on behind it; when there is no separator any more it stores the rest. With a
  separator that is not empty it runs along the cut of the string (`splitLoop_cut`), so its
  result is the list of fields between the leftmost separators, and joining them gives the
  string back (`split_inverse`).

  The next search begins behind the separator that was found. An empty one leaves it where it
  was, so the loop never ends then, and otherwise it ends after one round for each field
  (`split_ends_iff`).
-/
import GameServer.Lib.LuaString

namespace GameServer.LoadConfig

open Lua Separated

/-- `t[i] = v`, for a sequence `t` and an index up to the one behind its last entry. -/
def assign (t : List Bytes) (i : Nat) (v : Bytes) : List Bytes := t.take (i - 1) ++ [v] ++ t.drop i

variable (patterns : Patterns)

/-- The `while` loop of `Split`, at most `fuel` times round. -/
def splitLoop (szFullString szSeparator : Bytes) :
    Nat → Int → Nat → List Bytes → Except Stop (List Bytes)
  | 0, _, _, _ => .error .cutOff
  | fuel + 1, nFindStartIndex, nSplitIndex, nSplitArray => do
    match ← stringFind patterns szFullString szSeparator nFindStartIndex with
    | none =>
      return assign nSplitArray nSplitIndex
        (stringSub szFullString nFindStartIndex szFullString.length)
    | some (nFindLastIndex, _) =>
      splitLoop szFullString szSeparator fuel (nFindLastIndex + szSeparator.length)
        (nSplitIndex + 1)
        (assign nSplitArray nSplitIndex
          (stringSub szFullString nFindStartIndex (nFindLastIndex - 1)))

/-- `Split` -/
def split (fuel : Nat) (szFullString szSeparator : Bytes) : Except Stop (List Bytes) :=
  splitLoop patterns szFullString szSeparator fuel 1 1 []

example (patterns : Patterns) :
    split patterns 4 (ascii "=a==") (ascii "=") = .ok [[], ascii "a", [], []] := rfl

/-- What splitting undoes. -/
structure InverseOfJoin (sep s : Bytes) (fields : List Bytes) : Prop where
  nonempty : 1 ≤ fields.length
  join : sep.intercalate fields = s
  free : ∀ field ∈ fields, ¬ sep <:+: field
  cut : Cut sep s fields

theorem assign_end (t : List Bytes) (v : Bytes) : assign t (t.length + 1) v = t ++ [v] := by
  unfold assign
  rw [Nat.add_sub_cancel, List.take_length, List.drop_eq_nil_of_le (by omega), List.append_nil]

variable {patterns}

/-- One time round the loop, with a separator behind `field`. -/
theorem splitLoop_more {s sep field rest : Bytes} (hplain : NoMagic sep)
    (hfield : Leftmost sep field) {a : Nat} (hdrop : s.drop a = field ++ sep ++ rest)
    (ha : a ≤ s.length) (fuel : Nat) (done : List Bytes) :
    splitLoop patterns s sep (fuel + 1) (a + 1) (done.length + 1) done =
      splitLoop patterns s sep fuel ((a + field.length + sep.length : Nat) + 1)
        ((done ++ [field]).length + 1) (done ++ [field]) := by
  have hle := (drop_more hdrop ha).2
  have hsub : stringSub s (a + 1) (a + 1 + field.length - 1) = field := by
    have hlast : (a : Int) + 1 + field.length - 1 = a + field.length := by omega
    rw [hlast, stringSub_eq (by omega), hdrop, List.append_assoc, List.take_left]
  have hnext : (a : Int) + 1 + field.length + sep.length =
      (a + field.length + sep.length : Nat) + 1 := by omega
  have hlen : (done ++ [field]).length = done.length + 1 := List.length_append
  rw [splitLoop, stringFind_eq patterns hplain ha, hdrop, search_leftmost hfield]
  show splitLoop patterns s sep fuel _ _ (assign done (done.length + 1) (stringSub s (a + 1) _)) = _
  rw [hsub, assign_end, hnext, hlen]

/-- The last time round. -/
theorem splitLoop_last {s sep field : Bytes} (hplain : NoMagic sep) (hnot : ¬ sep <:+: field)
    {a : Nat} (hdrop : s.drop a = field) (ha : a ≤ s.length) (fuel : Nat) (done : List Bytes) :
    splitLoop patterns s sep (fuel + 1) (a + 1) (done.length + 1) done = .ok (done ++ [field]) := by
  have hlen : a + field.length = s.length := by
    rw [← hdrop, List.length_drop]
    omega
  have hsub : stringSub s (a + 1) s.length = field := by
    have hcast : (s.length : Int) = a + field.length := by omega
    rw [hcast, stringSub_eq (by omega), hdrop, List.take_length]
  rw [splitLoop, stringFind_eq patterns hplain ha, hdrop, search_eq_none hnot]
  show Except.ok (assign done (done.length + 1) (stringSub s (a + 1) s.length)) = _
  rw [hsub, assign_end]

/-- The loop stores the fields of what is still to come behind those it has, one each time
    round. The induction is on the cut of the rest. -/
theorem splitLoop_cut {s sep r : Bytes} (hplain : NoMagic sep) {fields : List Bytes}
    (h : Cut sep r fields) :
    ∀ {a : Nat} (done : List Bytes), s.drop a = r → a ≤ s.length →
      ∀ fuel, fields.length ≤ fuel →
        splitLoop patterns s sep fuel (a + 1) (done.length + 1) done = .ok (done ++ fields) := by
  induction h with
  | last hnot =>
    intro a done hdrop ha fuel hfuel
    cases fuel with
    | zero => exact absurd hfuel (by simp)
    | succ fuel => exact splitLoop_last hplain hnot hdrop ha fuel done
  | @more field rest fields hfield tail ih =>
    intro a done hdrop ha fuel hfuel
    obtain ⟨hrest, hle⟩ := drop_more hdrop ha
    cases fuel with
    | zero => exact absurd hfuel (by simp)
    | succ fuel =>
      rw [splitLoop_more hplain hfield hdrop ha,
        ih (done ++ [field]) hrest hle fuel (Nat.le_of_succ_le_succ hfuel),
        List.append_assoc, List.singleton_append]

theorem split_cut {s sep : Bytes} (hsep : sep ≠ []) (hplain : NoMagic sep) {fields : List Bytes}
    (h : Cut sep s fields) {fuel : Nat} (hfuel : s.length < fuel) :
    split patterns fuel s sep = .ok fields :=
  splitLoop_cut hplain h [] rfl (Nat.zero_le _) fuel ((h.length_le hsep).trans hfuel)

/-- For every string and every separator that is not empty and has no magic characters:
    `Split` ends, and its result is the inverse of joining. -/
theorem split_inverse (patterns : Patterns) (s sep : Bytes) (hsep : sep ≠ [])
    (hplain : NoMagic sep) :
    ∃ fields, (∀ fuel, s.length < fuel → split patterns fuel s sep = .ok fields) ∧
      InverseOfJoin sep s fields := by
  obtain ⟨fields, hcut⟩ := exists_cut hsep s
  exact ⟨fields, fun fuel hfuel => split_cut hsep hplain hcut hfuel,
    List.length_pos_iff.2 hcut.ne_nil, hcut.join, hcut.not_infix hsep, hcut⟩

/-- No pattern but the plain ones. -/
def plainOnly : Patterns := ⟨fun _ _ _ => .error .error, fun _ _ => .error .error⟩

/-- A separator that overlaps itself. -/
theorem split_overlapping :
    ∃ fields, (∀ fuel, 4 < fuel → split plainOnly fuel (ascii "aaab") (ascii "aa") = .ok fields) ∧
      InverseOfJoin (ascii "aa") (ascii "aaab") fields :=
  split_inverse plainOnly (ascii "aaab") (ascii "aa") (by decide) (by decide +kernel)

/-! ## Times round the loop -/

/-- `Split` ends after at most `rounds` times round its loop. -/
def EndsWithin (patterns : Patterns) (rounds : Nat) (s sep : Bytes) : Prop :=
  ∃ fields, split patterns rounds s sep = .ok fields

/-- The rounds are as many as the fields: with fewer the loop is cut off. -/
theorem splitLoop_short {s sep r : Bytes} (hplain : NoMagic sep) {fields : List Bytes}
    (h : Cut sep r fields) :
    ∀ {a : Nat} (done : List Bytes), s.drop a = r → a ≤ s.length →
      ∀ fuel, fuel < fields.length →
        splitLoop patterns s sep fuel (a + 1) (done.length + 1) done = .error .cutOff := by
  induction h with
  | last hnot =>
    intro a done hdrop ha fuel hfuel
    obtain rfl : fuel = 0 := Nat.lt_one_iff.1 hfuel
    rfl
  | @more field rest fields hfield tail ih =>
    intro a done hdrop ha fuel hfuel
    obtain ⟨hrest, hle⟩ := drop_more hdrop ha
    cases fuel with
    | zero => rfl
    | succ fuel =>
      rw [splitLoop_more hplain hfield hdrop ha,
        ih (done ++ [field]) hrest hle fuel (Nat.lt_of_succ_lt_succ hfuel)]

theorem endsWithin_iff_fields {s sep : Bytes} (hplain : NoMagic sep) {fields : List Bytes}
    (h : Cut sep s fields) (rounds : Nat) :
    EndsWithin patterns rounds s sep ↔ fields.length ≤ rounds := by
  constructor
  · rintro ⟨result, hends⟩
    by_contra hshort
    have hcutOff : split patterns rounds s sep = .error .cutOff :=
      splitLoop_short hplain h [] rfl (Nat.zero_le _) rounds (Nat.lt_of_not_le hshort)
    rw [hcutOff] at hends
    cases hends
  · exact fun hle => ⟨fields, splitLoop_cut hplain h [] rfl (Nat.zero_le _) rounds hle⟩

/-- An empty separator is found where the search begins, and the loop goes on from there. -/
theorem splitLoop_stays {s : Bytes} {a : Nat} (ha : a ≤ s.length) (fuel index : Nat)
    (array : List Bytes) :
    splitLoop patterns s [] (fuel + 1) (a + 1) index array =
      splitLoop patterns s [] fuel (a + 1) (index + 1) (assign array index []) := by
  have hfound : search [] (s.drop a) = some 0 := search_of_prefix List.nil_prefix
  have hsub : stringSub s (a + 1) (a + 1 + (0 : Nat) - 1) = [] := by
    have hlast : (a : Int) + 1 + (0 : Nat) - 1 = a + (0 : Nat) := by omega
    rw [hlast, stringSub_eq (by omega), List.take_zero]
  have hnext : (a : Int) + 1 + (0 : Nat) + ([] : Bytes).length = a + 1 := by simp
  rw [splitLoop, stringFind_eq patterns noMagic_nil ha, hfound]
  show splitLoop patterns s [] fuel _ _ (assign array index (stringSub s (a + 1) _)) = _
  rw [hsub, hnext]

/-- No number of times round is enough. -/
theorem splitLoop_endless {s : Bytes} {a : Nat} (ha : a ≤ s.length) (fuel index : Nat)
    (array : List Bytes) : splitLoop patterns s [] fuel (a + 1) index array = .error .cutOff := by
  induction fuel generalizing index array with
  | zero => rfl
  | succ fuel ih => rw [splitLoop_stays ha, ih]

theorem split_endless (fuel : Nat) (s : Bytes) : split patterns fuel s [] = .error .cutOff :=
  splitLoop_endless (Nat.zero_le _) fuel 1 []

/-- For every string and every separator without magic characters: `Split` ends after at most
    `string.len(s) + 1` times round its loop if and only if the separator is not empty. -/
theorem split_ends_iff (patterns : Patterns) (s sep : Bytes) (hplain : NoMagic sep) :
    EndsWithin patterns (s.length + 1) s sep ↔ sep ≠ [] := by
  constructor
  · rintro ⟨fields, hends⟩ rfl
    rw [split_endless] at hends
    cases hends
  · intro hsep
    obtain ⟨fields, hcut⟩ := exists_cut hsep s
    exact (endsWithin_iff_fields hplain hcut _).2 (hcut.length_le hsep)

/-- Three separators, four times round. -/
theorem separators_only_ends : EndsWithin plainOnly 4 (ascii "===") (ascii "=") :=
  (split_ends_iff plainOnly (ascii "===") (ascii "=") (by decide +kernel)).2 (by decide)

/-- `Split("a", "")` -/
theorem empty_separator_endless :
    NoMagic [] ∧ (∀ rounds, split plainOnly rounds (ascii "a") [] = .error .cutOff) ∧
      ¬ EndsWithin plainOnly ((ascii "a").length + 1) (ascii "a") [] := by
  refine ⟨noMagic_nil, fun rounds => split_endless rounds _, ?_⟩
  rintro ⟨fields, hends⟩
  rw [split_endless] at hends
  cases hends

end GameServer.LoadConfig
