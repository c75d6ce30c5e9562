/-
  `string.find` and `string.match`.

  The loop of `str_find_aux` makes one attempt at each position. It finds the leftmost match, as
  long as the repetitions last for what the attempts cost together (`findLoop_exact`).
  `string.find` looks for a pattern without special characters with `memchr` and `memcmp`
  instead (`lmemfind_eq`). The values are those of the leftmost match either way
  (`find_leftmost`).
-/
import GameServer.LuaPattern.Interp

namespace GameServer.LuaPattern

open Lua Separated

/-- The items of a pattern that is well formed. -/
structure WellFormed (p : Bytes) (items : List Item) : Prop where
  parses : parse (p.length + 1) p = .ok items
  static : Static items [] = true
  shallow : nesting items < maxccalls

/-- The items of a pattern, none if it is malformed. -/
def itemsOf (p : Bytes) : List Item := ((parse (p.length + 1) p).toOption).getD []

def checkPattern (p : Bytes) : Bool :=
  (parse (p.length + 1) p).isOk && Static (itemsOf p) [] && decide (nesting (itemsOf p) < maxccalls)

theorem WellFormed.of_check {p : Bytes} (h : checkPattern p = true) : WellFormed p (itemsOf p) := by
  unfold checkPattern at h
  rw [Bool.and_eq_true, Bool.and_eq_true, decide_eq_true_eq] at h
  obtain ⟨⟨hparse, hstatic⟩, hnesting⟩ := h
  refine ⟨?_, hstatic, hnesting⟩
  unfold itemsOf
  cases hp : parse (p.length + 1) p with
  | error err =>
    rw [hp] at hparse
    cases hparse
  | ok items => rfl

section Match

variable {p : Bytes} {items : List Item} {ms : MatchState} {s : Nat}

theorem doMatch_settle (h : WellFormed p items) (hcap : ms.capture = [])
    (hdepth : ms.matchdepth = maxccalls) (hs : s ≤ ms.src.length) :
    doMatch ms s p = settle ms (attempt ms.src items s []) := by
  have hst : Static items (statuses ms.capture) = true := by
    rw [hcap]
    exact h.static
  have hd := h.shallow
  have hmatch := (matchInit_settle h.parses).descend hst (by rw [hdepth]; exact hd) hs
  rw [hcap] at hmatch
  exact hmatch

theorem no_open {c : List Capture} (h : (!(statuses c).contains true) = true) :
    ∀ cap ∈ c, cap.len ≠ .unfinished := by
  intro cap hcap hopen
  have hmem : true ∈ statuses c := List.mem_map.2 ⟨cap, hcap, (isOpen_iff cap).2 hopen⟩
  simp [hmem] at h

/-- No capture is left open by a match of the whole pattern. -/
theorem Matches.closed {src : Bytes} {s e : Nat} {c c' : List Capture}
    (h : Matches src items s c e c') (hst : Static items (statuses c) = true) :
    ∀ cap ∈ c', cap.len ≠ .unfinished := by
  induction h with
  | nil s c => exact no_open hst
  | openCapture h ih =>
    rw [Static, Bool.and_eq_true] at hst
    exact ih (by rw [statuses_append]; exact hst.2)
  | positionCapture h ih =>
    rw [Static, Bool.and_eq_true] at hst
    exact ih (by rw [statuses_append]; exact hst.2)
  | @closeCapture items s c e c' l hl h ih =>
    obtain ⟨l', hclose, -, hst⟩ := static_close hst
    unfold toClose at hl
    rw [hclose] at hl
    obtain rfl : l' = l := Option.some.inj hl
    exact ih (hst s)
  | final => exact no_open hst
  | balance hb h ih => exact ih hst
  | frontier hf h ih => exact ih hst
  | back hl h ih =>
    rw [Static, Bool.and_eq_true] at hst
    exact ih hst.2
  | one h1 h ih => exact ih hst
  | optional hn hall h ih => exact ih hst
  | star hall h ih => exact ih hst
  | plus hn hall h ih => exact ih hst
  | minus hall h ih => exact ih hst

/-- The value of a capture that is not open. -/
def captureValue (src : Bytes) (cap : Capture) : Value :=
  match cap.len with
  | .closed l => .string ((src.drop cap.init).take l)
  | _ => .integer (cap.init + 1)

theorem pushOnecapture_eq {i : Nat} {cap : Capture} (hcap : ms.capture[i]? = some cap)
    (hclosed : cap.len ≠ .unfinished) (s e : Nat) :
    pushOnecapture ms i s e = .ok (captureValue ms.src cap) := by
  unfold pushOnecapture captureValue
  rw [hcap]
  cases hlen : cap.len with
  | unfinished => exact absurd hlen hclosed
  | position => simp [hlen]
  | closed l => simp [hlen]

theorem pushLoop_eq (hclosed : ∀ cap ∈ ms.capture, cap.len ≠ .unfinished) (s e : Nat) {n i : Nat}
    (hn : i + n = ms.capture.length) :
    pushLoop ms s e n i = .ok ((ms.capture.drop i).map (captureValue ms.src)) := by
  induction n generalizing i with
  | zero =>
    rw [List.drop_eq_nil_of_le (by omega)]
    rfl
  | succ n ih =>
    have hlt : i < ms.capture.length := by omega
    have hcap := List.getElem?_eq_getElem hlt
    rw [pushLoop, pushOnecapture_eq hcap (hclosed _ (List.getElem_mem hlt)), ok_bind,
      ih (by omega), ok_bind, List.drop_eq_getElem_cons hlt]
    rfl

/-- All captures, in order. -/
theorem pushCaptures_eq (hclosed : ∀ cap ∈ ms.capture, cap.len ≠ .unfinished) {whole : Bool}
    (hw : whole = true → ms.capture ≠ []) (s e : Nat) :
    pushCaptures ms whole s e = .ok (ms.capture.map (captureValue ms.src)) := by
  unfold pushCaptures
  rw [if_neg fun h => hw h.2 h.1]
  exact pushLoop_eq hclosed s e (Nat.zero_add _)

/-- Without captures, the whole match. -/
theorem pushCaptures_whole (hnone : ms.capture = []) (s e : Nat) :
    pushCaptures ms true s e = .ok [.string ((ms.src.drop s).take (e - s))] := by
  unfold pushCaptures
  rw [if_pos ⟨hnone, rfl⟩]
  simp [pushLoop, pushOnecapture, hnone]
  rfl

end Match

/-! ## The leftmost match -/

/-- A match: where it begins and ends, and its captures. -/
abbrev Match := Nat × Nat × List Capture

/-- From `s` on the items match. -/
def MatchesAt (src : Bytes) (items : List Item) (s : Nat) : Prop :=
  ∃ e c, Matches src items s [] e c

theorem attempt_none_iff {src : Bytes} {items : List Item} {s : Nat} :
    (attempt src items s []).result = none ↔ ¬ MatchesAt src items s := by
  constructor
  · rintro hnone ⟨e, c, hm⟩
    exact attempt_complete hm hnone
  · intro hno
    cases hr : (attempt src items s []).result with
    | none => rfl
    | some r => exact absurd ⟨_, _, attempt_sound hr⟩ hno

/-- The leftmost match from `start` on; of those that begin there, the one that `match` tries
    first. An anchored pattern matches only at `start`. -/
inductive Leftmost (src : Bytes) (items : List Item) (anchor : Bool) (start : Nat) :
    Option Match → Prop
  | found {b e : Nat} {c : List Capture} (hb : start ≤ b) (hend : b ≤ src.length)
      (hanchor : anchor = true → b = start)
      (hm : (attempt src items b []).result = some (e, c))
      (hleft : ∀ b', start ≤ b' → b' < b → ¬ MatchesAt src items b') :
      Leftmost src items anchor start (some (b, e, c))
  | none (h : ∀ b, start ≤ b → b ≤ src.length → (anchor = true → b = start) →
      ¬ MatchesAt src items b) : Leftmost src items anchor start none

/-- What the attempts at `k` positions from `s` on cost. -/
def attemptsCost (src : Bytes) (items : List Item) : Nat → Nat → Nat
  | _, 0 => 0
  | s, k + 1 => (attempt src items s []).cost + attemptsCost src items (s + 1) k

/-- What the search from `start` on costs: an attempt at every position up to the match. -/
def searchCost (src : Bytes) (items : List Item) (anchor : Bool) (start : Nat) :
    Option Match → Nat
  | some m => attemptsCost src items start (m.1 + 1 - start)
  | none => attemptsCost src items start
      (if anchor ∧ start ≤ src.length then 1 else src.length + 1 - start)

/-- What the loop over the positions returns. -/
def searched (ms : MatchState) (r : Option Match) (cost : Nat) :
    Result (Option (Nat × Nat) × MatchState) :=
  if cost ≤ ms.nrep then
    .ok (r.map fun m => (m.1, m.2.1),
      ⟨ms.src, ms.nrep - cost, ms.matchdepth, (r.map fun m => m.2.2).getD []⟩)
  else .error .tooComplex

section Leftmost

variable {src : Bytes} {items : List Item} {anchor : Bool} {s : Nat} {r : Option Match}

theorem Leftmost.here {out : Nat × List Capture} (hs : s ≤ src.length)
    (hm : (attempt src items s []).result = some out) :
    Leftmost src items anchor s (some (s, out)) :=
  .found (Nat.le_refl s) hs (fun _ => rfl) hm fun _ h1 h2 => absurd h2 (Nat.not_lt.2 h1)

/-- Where there is no match, the leftmost one is the leftmost one behind it. -/
theorem Leftmost.later (hm : ¬ MatchesAt src items s) (h : Leftmost src items false (s + 1) r) :
    Leftmost src items false s r := by
  cases h with
  | found hb hend _ hm' hleft =>
    refine .found (Nat.le_of_succ_le hb) hend (fun h => absurd h Bool.false_ne_true) hm' ?_
    intro b' h1 h2
    rcases Nat.eq_or_lt_of_le h1 with rfl | h1
    · exact hm
    · exact hleft b' h1 h2
  | none hno =>
    refine .none fun b h1 h2 h => ?_
    rcases Nat.eq_or_lt_of_le h1 with rfl | h1
    · exact hm
    · exact hno b h1 h2 fun h => absurd h Bool.false_ne_true

theorem Leftmost.matches {m : Match} (h : Leftmost src items anchor s (some m)) :
    Matches src items m.1 [] m.2.1 m.2.2 := by
  cases h with
  | found hb hend hanchor hm hleft => exact attempt_sound hm

theorem searchCost_here (anchor : Bool) (out : Nat × List Capture) :
    searchCost src items anchor s (some (s, out)) = (attempt src items s []).cost := by
  rw [searchCost, Nat.add_sub_cancel_left, attemptsCost, attemptsCost, Nat.add_zero]

theorem searchCost_later (h : Leftmost src items false (s + 1) r) (hs : s < src.length) :
    searchCost src items false s r =
      (attempt src items s []).cost + searchCost src items false (s + 1) r := by
  cases h with
  | @found b e c hb hend hanchor hm hleft =>
    have hpositions : b + 1 - s = b + 1 - (s + 1) + 1 := by omega
    rw [searchCost, searchCost, hpositions, attemptsCost]
  | none hno =>
    have hpositions : src.length + 1 - s = src.length + 1 - (s + 1) + 1 := by omega
    rw [searchCost, searchCost, if_neg fun h => Bool.false_ne_true h.1,
      if_neg fun h => Bool.false_ne_true h.1, hpositions, attemptsCost]

end Leftmost

section Loop

variable {p : Bytes} {items : List Item} {ms : MatchState}

/-- `match` at one of the positions, with enough repetitions left. -/
theorem doMatch_enough (h : WellFormed p items) (hd : ms.matchdepth = maxccalls) {s : Nat}
    (hs : s ≤ ms.src.length) (hcost : (attempt ms.src items s []).cost ≤ ms.nrep) :
    doMatch ms.reprep s p = .ok ((attempt ms.src items s []).result.map Prod.fst,
      ⟨ms.src, ms.nrep - (attempt ms.src items s []).cost, ms.matchdepth,
        ((attempt ms.src items s []).result.map Prod.snd).getD []⟩) := by
  have hdo : doMatch ms.reprep s p = settle ms.reprep (attempt ms.src items s []) :=
    doMatch_settle h rfl hd hs
  rw [hdo]
  exact if_pos hcost

theorem doMatch_tooComplex (h : WellFormed p items) (hd : ms.matchdepth = maxccalls) {s : Nat}
    (hs : s ≤ ms.src.length) (hcost : ms.nrep < (attempt ms.src items s []).cost) :
    doMatch ms.reprep s p = .error .tooComplex := by
  have hdo : doMatch ms.reprep s p = settle ms.reprep (attempt ms.src items s []) :=
    doMatch_settle h rfl hd hs
  rw [hdo]
  exact if_neg (Nat.not_le.2 hcost)

theorem searched_tooComplex {r : Option Match} {cost : Nat} (h : ms.nrep < cost) :
    searched ms r cost = .error .tooComplex := if_neg (Nat.not_le.2 h)

theorem searched_enough {r : Option Match} {cost : Nat} (h : cost ≤ ms.nrep) :
    searched ms r cost = .ok (r.map fun m => (m.1, m.2.1),
      ⟨ms.src, ms.nrep - cost, ms.matchdepth, (r.map fun m => m.2.2).getD []⟩) := if_pos h

/-- A search that ends at its first position. -/
theorem findLoop_first (h : WellFormed p items) (anchor : Bool) {n s : Nat}
    (hd : ms.matchdepth = maxccalls) (hs : s ≤ ms.src.length)
    (hfirst : n = 0 ∨ anchor = true ∨ (attempt ms.src items s []).result ≠ none) :
    findLoop p anchor n ms s =
      searched ms ((attempt ms.src items s []).result.map fun out => (s, out))
        (attempt ms.src items s []).cost := by
  by_cases hc : (attempt ms.src items s []).cost ≤ ms.nrep
  · rw [searched_enough hc]
    have hdo := doMatch_enough h hd hs hc
    cases n with
    | zero =>
      rw [findLoop, hdo, ok_bind]
      cases (attempt ms.src items s []).result <;> rfl
    | succ n =>
      rw [findLoop, hdo, ok_bind]
      cases hr : (attempt ms.src items s []).result with
      | some out => rfl
      | none =>
        rw [hr] at hfirst
        obtain rfl : anchor = true := by simpa using hfirst
        rfl
  · rw [searched_tooComplex (Nat.lt_of_not_le hc)]
    have hdo := doMatch_tooComplex h hd hs (Nat.lt_of_not_le hc)
    cases n with
    | zero =>
      rw [findLoop, hdo]
      rfl
    | succ n =>
      rw [findLoop, hdo]
      rfl

/-- The loop finds the leftmost match, as long as the repetitions last for the search. -/
theorem findLoop_exact (h : WellFormed p items) (anchor : Bool) {n s1 : Nat}
    (hd : ms.matchdepth = maxccalls) (hn : s1 + n = ms.src.length) :
    ∃ r, Leftmost ms.src items anchor s1 r ∧
      findLoop p anchor n ms s1 = searched ms r (searchCost ms.src items anchor s1 r) := by
  induction n generalizing ms s1 with
  | zero =>
    rw [findLoop_first h anchor hd (by omega) (Or.inl rfl)]
    cases hr : (attempt ms.src items s1 []).result with
    | some out => exact ⟨_, .here (by omega) hr, by rw [searchCost_here]; rfl⟩
    | none =>
      refine ⟨none, .none fun b h1 h2 _ => ?_, ?_⟩
      · obtain rfl : b = s1 := by omega
        exact attempt_none_iff.1 hr
      · have hone : (if anchor = true ∧ s1 ≤ ms.src.length then 1
            else ms.src.length + 1 - s1) = 1 := by
          split <;> omega
        rw [searchCost, hone, attemptsCost, attemptsCost, Nat.add_zero]
        rfl
  | succ n ih =>
    have hs : s1 ≤ ms.src.length := by omega
    cases hr : (attempt ms.src items s1 []).result with
    | some out =>
      refine ⟨_, .here hs hr, ?_⟩
      rw [findLoop_first h anchor hd hs (Or.inr (Or.inr (by simp [hr]))),
        searchCost_here, hr]
      rfl
    | none =>
      have hno := attempt_none_iff.1 hr
      cases anchor with
      | true =>
        refine ⟨none, .none fun b _ _ hb => ?_, ?_⟩
        · rw [hb rfl]
          exact hno
        · rw [findLoop_first h true hd hs (Or.inr (Or.inl rfl)), searchCost,
            if_pos ⟨rfl, hs⟩, attemptsCost, attemptsCost, Nat.add_zero, hr]
          rfl
      | false =>
        -- the later attempts have what this one leaves of the repetitions
        obtain ⟨r, hleft, hloop⟩ := @ih
          ⟨ms.src, ms.nrep - (attempt ms.src items s1 []).cost, ms.matchdepth, []⟩ (s1 + 1) hd
          (show s1 + 1 + n = ms.src.length by omega)
        refine ⟨r, hleft.later hno, ?_⟩
        have hcost := searchCost_later hleft (show s1 < ms.src.length by omega)
        dsimp only at hcost hloop
        by_cases hc : (attempt ms.src items s1 []).cost ≤ ms.nrep
        · rw [findLoop, doMatch_enough h hd hs hc, ok_bind, hr]
          dsimp only [Option.map_none, Option.getD_none]
          rw [if_neg Bool.false_ne_true, hloop, hcost]
          unfold searched
          dsimp only
          rw [Nat.sub_sub]
          by_cases hrest : searchCost ms.src items false (s1 + 1) r ≤
              ms.nrep - (attempt ms.src items s1 []).cost
          · rw [if_pos hrest, if_pos (by omega)]
          · rw [if_neg hrest, if_neg (by omega)]
        · rw [findLoop, doMatch_tooComplex h hd hs (by omega), searched_tooComplex (by omega)]
          rfl

end Loop

/-! ## Plain patterns -/

theorem plain_ne {x c : UInt8} (hx : x ∉ specials) (hc : c ∈ specials) : x ≠ c :=
  fun heq => hx (heq ▸ hc)

theorem head_plain {p : Bytes} (hplain : nospecials p = true) {c : UInt8} (hc : c ∈ specials)
    (h0 : c ≠ 0) : head p ≠ c := by
  cases p with
  | nil => exact Ne.symm h0
  | cons x p =>
    rw [nospecials, List.all_cons, Bool.and_eq_true, decide_eq_true_eq] at hplain
    exact plain_ne hplain.1 hc

/-- The first item of a plain pattern is its first character, unless that is a bracket. -/
theorem parseItem_plain {x : UInt8} {p : Bytes} (hplain : nospecials (x :: p) = true)
    (hclose : x ≠ chr ')') : parseItem (x :: p) = .ok (.one fun c => x = c, p) := by
  rw [nospecials, List.all_cons, Bool.and_eq_true, decide_eq_true_eq] at hplain
  obtain ⟨hx, hp⟩ := hplain
  have hp : nospecials p = true := hp
  have hopen : head (x :: p) ≠ chr '(' := plain_ne hx (by decide +kernel)
  have hdollar : head (x :: p) ≠ chr '$' := plain_ne hx (by decide +kernel)
  have hesc : head (x :: p) ≠ chr '%' := plain_ne hx (by decide +kernel)
  have hset : head (x :: p) ≠ chr '[' := plain_ne hx (by decide +kernel)
  have hdot : head (x :: p) ≠ chr '.' := plain_ne hx (by decide +kernel)
  have hclass : classend (x :: p) = .ok p := by
    unfold classend
    rw [if_neg hesc, if_neg hset, List.tail_cons]
  have haccepts : accepts (x :: p) p = fun c => decide (x = c) := by
    funext c
    unfold accepts
    rw [if_neg hdot, if_neg hesc, if_neg hset]
    rfl
  have hsuffix : suffixItem (accepts (x :: p) p) p = (.one (accepts (x :: p) p), p) := by
    unfold suffixItem
    rw [if_neg (head_plain hp (by decide +kernel) (by decide)),
      if_neg (head_plain hp (by decide +kernel) (by decide)),
      if_neg (head_plain hp (by decide +kernel) (by decide)),
      if_neg (head_plain hp (by decide +kernel) (by decide))]
  have hclose : head (x :: p) ≠ chr ')' := hclose
  unfold parseItem
  rw [if_neg hopen, if_neg hclose, if_neg (fun h => hdollar h.1), if_neg (fun h => hesc h.1),
    if_neg (fun h => hesc h.1), if_neg (fun h => hesc h.1), hclass, ok_bind, hsuffix, haccepts]
  rfl

/-- One character that is given. -/
theorem single_eq_iff {src : Bytes} {x : UInt8} {s : Nat} :
    single src (fun c => x = c) s = true ↔ src[s]? = some x := by
  unfold single
  cases src[s]? with
  | none => simp
  | some y =>
    rw [Option.map_some, Option.getD_some, decide_eq_true_eq, Option.some.injEq]
    exact eq_comm

/-- A pattern without special characters that is well formed stands for its characters. -/
theorem plain_matches {fuel : Nat} {p : Bytes} {items : List Item} (hplain : nospecials p = true)
    (hparse : parse fuel p = .ok items) (hst : Static items [] = true) {src : Bytes} {s e : Nat}
    {c : List Capture} (hs : s ≤ src.length) :
    Matches src items s [] e c ↔ p <+: src.drop s ∧ e = s + p.length ∧ c = [] := by
  induction fuel generalizing p items s with
  | zero => cases hparse
  | succ fuel ih =>
    rw [parse] at hparse
    cases p with
    | nil =>
      rw [if_pos rfl] at hparse
      obtain rfl := Except.ok.inj hparse
      constructor
      · rintro ⟨⟩
        exact ⟨List.nil_prefix, rfl, rfl⟩
      · rintro ⟨-, rfl, rfl⟩
        exact .nil _ []
    | cons x p =>
      rw [if_neg (List.cons_ne_nil x p)] at hparse
      have hp : nospecials p = true := by
        rw [nospecials, List.all_cons, Bool.and_eq_true] at hplain
        exact hplain.2
      by_cases hclose : x = chr ')'
      · subst hclose
        have hitem : parseItem (chr ')' :: p) = .ok (.closeCapture, p) := rfl
        rw [hitem, ok_bind] at hparse
        dsimp only at hparse
        cases hrest : parse fuel p with
        | error err =>
          rw [hrest] at hparse
          cases hparse
        | ok items' =>
          rw [hrest] at hparse
          obtain rfl := Except.ok.inj hparse
          cases hst
      · rw [parseItem_plain hplain hclose, ok_bind] at hparse
        dsimp only at hparse
        cases hrest : parse fuel p with
        | error err =>
          rw [hrest] at hparse
          cases hparse
        | ok items' =>
          rw [hrest] at hparse
          obtain rfl := Except.ok.inj hparse
          have hsingle : single src (fun c => x = c) s = true ↔ src[s]? = some x := single_eq_iff
          constructor
          · intro h
            cases h with
            | one h1 h =>
              have hlt := single_lt h1
              obtain ⟨hpre, rfl, rfl⟩ := (ih hp hrest hst hlt).1 h
              obtain ⟨_, hx⟩ := List.getElem?_eq_some_iff.1 (hsingle.1 h1)
              refine ⟨?_, by rw [List.length_cons]; omega, rfl⟩
              rw [List.drop_eq_getElem_cons hlt, hx]
              exact List.cons_prefix_cons.2 ⟨rfl, hpre⟩
          · rintro ⟨hpre, rfl, rfl⟩
            have hlt : s < src.length := by
              have := hpre.length_le
              rw [List.length_cons, List.length_drop] at this
              omega
            rw [List.drop_eq_getElem_cons hlt, List.cons_prefix_cons] at hpre
            have hat : src[s]? = some x := by
              rw [List.getElem?_eq_getElem hlt, hpre.1]
            refine .one (hsingle.2 hat) ((ih hp hrest hst hlt).2 ⟨hpre.2, ?_, rfl⟩)
            rw [List.length_cons]
            omega

/-! ## Plain search -/

theorem memchr_none {s1 : Bytes} {c : UInt8} {l1 : Nat} (h : memchr s1 c l1 = none) {i : Nat}
    (hi : i < l1) : s1[i]? ≠ some c := by
  intro hat
  have hmem : c ∈ s1.take l1 := by
    apply List.mem_of_getElem? (i := i)
    rw [List.getElem?_take_of_lt hi, hat]
  have hc := List.findIdx?_eq_none_iff.1 h c hmem
  simp at hc

theorem memchr_some {s1 : Bytes} {c : UInt8} {l1 j : Nat} (h : memchr s1 c l1 = some j) :
    j < l1 ∧ s1[j]? = some c ∧ ∀ i < j, s1[i]? ≠ some c := by
  obtain ⟨hlt, hj, hbefore⟩ := List.findIdx?_eq_some_iff_getElem.1 h
  have hle : j < l1 := Nat.lt_of_lt_of_le hlt (List.length_take_le _ _)
  have hlen : j < s1.length := Nat.lt_of_lt_of_le hlt (List.length_take_le' _ _)
  have hget : s1[j] = c := by simpa using hj
  refine ⟨hle, ?_, fun i hi hat => ?_⟩
  · rw [List.getElem?_eq_getElem hlen, hget]
  · have hi' := hbefore i hi
    rw [List.getElem?_eq_getElem (Nat.lt_trans hi hlen), Option.some.injEq] at hat
    simp [hat] at hi'

/-- An occurrence begins with the first character, and what is behind it follows. -/
theorem prefix_drop_iff {c : UInt8} {t s : Bytes} {i : Nat} :
    c :: t <+: s.drop i ↔ s[i]? = some c ∧ t <+: s.drop (i + 1) := by
  by_cases hi : i < s.length
  · rw [List.drop_eq_getElem_cons hi, List.cons_prefix_cons, List.getElem?_eq_getElem hi,
      Option.some.injEq, eq_comm]
  · rw [List.drop_eq_nil_of_le (Nat.le_of_not_lt hi), List.getElem?_eq_none (Nat.le_of_not_lt hi)]
    simp

/-- The loop looks only at the positions of the first character. -/
theorem lmemfindLoop_eq (c : UInt8) (t : Bytes) {fuel : Nat} {s1 : Bytes}
    (hfuel : s1.length < fuel) (off : Nat) :
    lmemfindLoop (c :: t) fuel s1 (s1.length - t.length) off =
      (search (c :: t) s1).map (off + ·) := by
  induction fuel generalizing s1 off with
  | zero => omega
  | succ fuel ih =>
    -- an occurrence ends before the string does
    have hroom : ∀ i, c :: t <+: s1.drop i → i < s1.length - t.length := by
      intro i hpre
      have := hpre.length_le
      rw [List.length_cons, List.length_drop] at this
      omega
    rw [lmemfindLoop]
    by_cases hl : s1.length - t.length > 0
    · rw [if_pos hl]
      have hhead : head (c :: t) = c := rfl
      rw [hhead]
      cases hmem : memchr s1 c (s1.length - t.length) with
      | none =>
        rw [search_none_iff.2]
        · rfl
        · intro i _ hpre
          exact memchr_none hmem (hroom i hpre) (prefix_drop_iff.1 hpre).1
      | some j =>
        obtain ⟨hj, hc, hbefore⟩ := memchr_some hmem
        have hnone : ∀ i < j, ¬ c :: t <+: s1.drop i := fun i hi hpre =>
          hbefore i hi (prefix_drop_iff.1 hpre).1
        dsimp only
        rw [List.length_cons, Nat.add_sub_cancel, List.tail_cons]
        by_cases htail : (s1.drop (j + 1)).take t.length = t
        · have hpre : t <+: s1.drop (j + 1) := List.prefix_iff_eq_take.2 htail.symm
          rw [if_pos htail, search_some_iff.2 ⟨by omega, prefix_drop_iff.2 ⟨hc, hpre⟩, hnone⟩]
          rfl
        · have hnot : ¬ c :: t <+: s1.drop j := fun hpre =>
            htail (List.prefix_iff_eq_take.1 (prefix_drop_iff.1 hpre).2).symm
          have hskip : ∀ i < j + 1, ¬ c :: t <+: s1.drop i := by
            intro i hi
            rcases Nat.lt_succ_iff_lt_or_eq.1 hi with hi | rfl
            · exact hnone i hi
            · exact hnot
          have hlen : (s1.drop (j + 1)).length = s1.length - (j + 1) := List.length_drop
          have hshort : (s1.drop (j + 1)).length < fuel := by omega
          have hrest := ih hshort (off + j + 1)
          rw [hlen] at hrest
          rw [if_neg htail, search_skip (by omega) hskip, Option.map_map,
            show s1.length - t.length - (j + 1) = s1.length - (j + 1) - t.length by omega, hrest]
          congr 1
          funext k
          simp only [Function.comp_apply]
          omega
    · rw [if_neg hl, search_none_iff.2 fun i hi hpre => by have := hroom i hpre; omega]
      rfl

theorem lmemfind_eq (s1 s2 : Bytes) : lmemfind s1 s2 = search s2 s1 := by
  unfold lmemfind
  cases s2 with
  | nil =>
    rw [if_pos List.length_nil, search_of_prefix List.nil_prefix]
  | cons c t =>
    rw [if_neg (List.length_eq_zero_iff.not.2 (List.cons_ne_nil c t))]
    by_cases hlong : (c :: t).length > s1.length
    · rw [if_pos hlong, search_none_iff.2]
      intro i hi hpre
      have := hpre.length_le
      rw [List.length_drop] at this
      omega
    · rw [if_neg hlong, List.length_cons, Nat.add_sub_cancel,
        lmemfindLoop_eq c t (Nat.lt_succ_self _)]
      simp

/-! ## `string.find` and `string.match` -/

/-- The values for a match: its first and its last position, counting from 1, and the captures;
    `string.match` returns only these, or the whole match if there are none. -/
def findValues (src : Bytes) (find : Bool) : Option (Nat × Nat × List Capture) → List Value
  | none => [.nil]
  | some (b, e, c) =>
    if find then .integer (b + 1) :: .integer e :: c.map (captureValue src)
    else if c = [] then [.string ((src.drop b).take (e - b))]
    else c.map (captureValue src)

theorem attempt_plain {s p : Bytes} {items : List Item} (hp : WellFormed p items)
    (hplain : nospecials p = true) {b : Nat} (hb : b ≤ s.length) (hpre : p <+: s.drop b) :
    (attempt s items b []).result = some (b + p.length, []) := by
  have hm := (plain_matches hplain hp.parses hp.static hb).2 ⟨hpre, rfl, rfl⟩
  cases hr : (attempt s items b []).result with
  | none => exact absurd hr (attempt_complete hm)
  | some out =>
    obtain ⟨-, he, hc⟩ := (plain_matches hplain hp.parses hp.static hb).1 (attempt_sound hr)
    rw [← he, ← hc]

theorem find_plain {s p : Bytes} {items : List Item} (hp : WellFormed p items)
    (hplain : nospecials p = true) {a : Nat} (ha : a ≤ s.length) :
    Leftmost s items false a
      ((lmemfind (s.drop a) p).map fun k => (a + k, a + k + p.length, [])) := by
  have hmatch : ∀ b, b ≤ s.length → (MatchesAt s items b ↔ p <+: s.drop b) := by
    intro b hb
    constructor
    · intro ⟨e, c, hm⟩
      exact ((plain_matches hplain hp.parses hp.static hb).1 hm).1
    · intro hpre
      exact ⟨_, _, (plain_matches hplain hp.parses hp.static hb).2 ⟨hpre, rfl, rfl⟩⟩
  rw [lmemfind_eq]
  cases hk : search p (s.drop a) with
  | none =>
    refine .none fun b h1 h2 _ hm => ?_
    refine search_none_iff.1 hk (b - a) ?_ ?_
    · rw [List.length_drop]
      omega
    · rw [List.drop_drop, Nat.add_sub_cancel' h1]
      exact (hmatch b h2).1 hm
  | some k =>
    obtain ⟨hle, hpre, hbefore⟩ := search_some_iff.1 hk
    rw [List.length_drop] at hle
    rw [List.drop_drop] at hpre
    refine .found (Nat.le_add_right a k) (by omega) (fun h => absurd h Bool.false_ne_true)
      (attempt_plain hp hplain (by omega) hpre) ?_
    intro b h1 h2 hm
    refine hbefore (b - a) (by omega) ?_
    rw [List.drop_drop, Nat.add_sub_cancel' h1]
    exact (hmatch b (by omega)).1 hm

theorem prepstate_matchdepth (src : Bytes) : (prepstate src).matchdepth = maxccalls := rfl

theorem head_anchor {p : Bytes} (hplain : nospecials p = true) : head p ≠ chr '^' :=
  head_plain hplain (by decide +kernel) (by decide)

/-- The pattern without the `^` that anchors it. -/
def unanchored (p : Bytes) : Bytes := if head p = chr '^' then p.tail else p

/-- Where the search starts, counting from 0, for a third argument `init`. -/
def startOf (init : Int) (len : Nat) : Nat := (max 1 (posrelat init len) - 1).toNat

/-- The repetitions that `prepstate` allows. -/
def repetitions (s : Bytes) : Nat := aReps * s.length + bReps

theorem findValues_pushed {p : Bytes} {items : List Item} (hp : WellFormed p items)
    (ms : MatchState) {anchor : Bool} {a : Nat} {m : Match}
    (h : Leftmost ms.src items anchor a (some m)) (hcap : ms.capture = m.2.2) (find : Bool) :
    (if find = true then do
        let captures ← pushCaptures ms false m.1 m.2.1
        return .integer (m.1 + 1) :: .integer m.2.1 :: captures
      else pushCaptures ms true m.1 m.2.1) = .ok (findValues ms.src find (some m)) := by
  have hclosed : ∀ cap ∈ ms.capture, cap.len ≠ .unfinished := by
    rw [hcap]
    exact h.matches.closed hp.static
  rw [findValues, ← hcap]
  cases find with
  | true =>
    rw [if_pos rfl, if_pos rfl, pushCaptures_eq hclosed (fun h => absurd h Bool.false_ne_true)]
    rfl
  | false =>
    rw [if_neg Bool.false_ne_true, if_neg Bool.false_ne_true]
    by_cases hnone : ms.capture = []
    · rw [if_pos hnone, pushCaptures_whole hnone]
    · rw [if_neg hnone, pushCaptures_eq hclosed (fun _ => hnone)]

/-- The values are those of the leftmost match, whichever way `str_find_aux` takes. The pattern
    is too complex exactly if the backtracking search costs more than the repetitions allowed. -/
theorem find_leftmost {s p : Bytes} {items : List Item} (hp : WellFormed (unanchored p) items)
    (find : Bool) (init : Int) :
    ∃ r, Leftmost s items (head p = chr '^') (startOf init s.length) r ∧
      strFindAux find s p init false =
        if (find = true ∧ nospecials p = true) ∨
            searchCost s items (head p = chr '^') (startOf init s.length) r ≤ repetitions s then
          .ok (findValues s find r)
        else .error .tooComplex := by
  have hstart : (if posrelat init s.length < 1 then 1 else posrelat init s.length) =
      (startOf init s.length : Int) + 1 := by
    unfold startOf
    split <;> omega
  unfold strFindAux
  dsimp only
  rw [hstart]
  generalize startOf init s.length = a
  by_cases ha : a ≤ s.length
  · rw [if_neg (by omega), Int.add_sub_cancel, Int.toNat_natCast]
    by_cases hplain : find = true ∧ (false = true ∨ nospecials p = true)
    · obtain ⟨rfl, hplain⟩ := hplain
      have hplain := hplain.resolve_left Bool.false_ne_true
      have hanchor := head_anchor hplain
      rw [unanchored, if_neg hanchor] at hp
      have hleft := find_plain hp hplain ha
      rw [if_pos ⟨rfl, Or.inr hplain⟩, decide_eq_false hanchor]
      refine ⟨_, hleft, ?_⟩
      rw [if_pos (Or.inl ⟨rfl, hplain⟩)]
      cases lmemfind (s.drop a) p with
      | none => rfl
      | some k => simp [findValues]
    · rw [if_neg hplain]
      obtain ⟨r, hleft, hloop⟩ := findLoop_exact hp (head p = chr '^') (n := s.length - a)
        (prepstate_matchdepth s)
        (show a + (s.length - a) = (prepstate s).src.length from Nat.add_sub_cancel' ha)
      rw [unanchored] at hloop
      have hsrc : (prepstate s).src = s := rfl
      rw [hsrc] at hleft hloop
      refine ⟨r, hleft, ?_⟩
      have hnot : ¬ (find = true ∧ nospecials p = true) := fun h => hplain ⟨h.1, Or.inr h.2⟩
      rw [hloop]
      by_cases hc : searchCost s items (head p = chr '^') a r ≤ repetitions s
      · rw [searched_enough hc, if_pos (Or.inr hc), ok_bind]
        cases r with
        | none => rfl
        | some m =>
          exact findValues_pushed hp ⟨s, repetitions s - _, maxccalls, m.2.2⟩ hleft rfl find
      · rw [searched_tooComplex (Nat.lt_of_not_le hc), if_neg (by tauto)]
        rfl
  · -- the search starts behind the end
    have hnone : Leftmost s items (head p = chr '^') a none := .none fun b h1 h2 _ => by omega
    refine ⟨none, hnone, ?_⟩
    have hcost : searchCost s items (head p = chr '^') a none = 0 := by
      rw [searchCost, if_neg fun h => ha h.2, show s.length + 1 - a = 0 by omega, attemptsCost]
    rw [if_pos (by omega), if_pos (Or.inr (by rw [hcost]; exact Nat.zero_le _))]
    rfl

theorem find_leftmost_pair :
    ∃ r, Leftmost (ascii "=a =bc=d") (itemsOf (ascii "(%a+)=")) false 2 r ∧
      findValues (ascii "=a =bc=d") true r = [.integer 5, .integer 7, .string (ascii "bc")] := by
  obtain ⟨r, h, heq⟩ := find_leftmost (s := ascii "=a =bc=d") (p := ascii "(%a+)=")
    (WellFormed.of_check (by decide +kernel)) true (-6)
  refine ⟨r, h, ?_⟩
  have hfound : strFindAux true (ascii "=a =bc=d") (ascii "(%a+)=") (-6) false =
      .ok [.integer 5, .integer 7, .string (ascii "bc")] := by decide +kernel
  rw [hfound] at heq
  split at heq
  · exact (Except.ok.inj heq).symm
  · cases heq

end GameServer.LuaPattern
