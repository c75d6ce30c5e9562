/-
  `match` tries the items of its pattern in order.

  The C function keeps captures, the recursion depth and the number of repetitions left in
  `MatchState`, and takes back what it has changed when an attempt fails. `matchInit_settle`:
  on a pattern whose captures are in order (`Static`) and that is not nested too deeply
  (`nesting`), it does what `attempt` says, and stops with "pattern too complex" if and only
  if that costs more than `nrep` (`settle`). No other error can occur then.
-/
import GameServer.LuaPattern.Items

namespace GameServer.LuaPattern

open Lua

/-! ## Patterns in order -/

/-- The last open one of the first `n` captures. -/
def lastOpen (st : List Bool) : Nat → Option Nat
  | 0 => none
  | n + 1 => if st[n]? = some true then some n else lastOpen st n

/-- The captures of a pattern are in order: there are not too many, a bracket closes one that
    is open, a copy is one of a capture that is not, and none is open at the end. `st` says
    which are. -/
def Static : List Item → List Bool → Bool
  | [], st => !st.contains true
  | .final :: _, st => !st.contains true
  | .openCapture :: items, st => st.length < luaMaxcaptures && Static items (st ++ [true])
  | .positionCapture :: items, st => st.length < luaMaxcaptures && Static items (st ++ [false])
  | .closeCapture :: items, st =>
    match lastOpen st st.length with
    | none => false
    | some l => Static items (st.set l false)
  | .back l :: items, st =>
    chr '1' ≤ l && st[l.toNat - (chr '1').toNat]? == some false && Static items st
  | _ :: items, st => Static items st

/-- The item calls `match` for what is behind it. -/
def Item.descends : Item → Bool
  | .openCapture | .positionCapture | .closeCapture => true
  | .optional _ | .star _ | .plus _ | .minus _ => true
  | _ => false

/-- How deep the calls of `match` can get below the first one. -/
def nesting (items : List Item) : Nat := items.countP Item.descends

/-! ## Outcomes -/

/-- What `match` returns for an attempt. -/
def settle (ms : MatchState) (a : Attempt) : Result Outcome :=
  if a.cost ≤ ms.nrep then
    .ok (a.result.map Prod.fst,
      { ms with
        nrep := ms.nrep - a.cost
        capture := (a.result.map Prod.snd).getD ms.capture })
  else .error .tooComplex

/-- The state with so many repetitions left. -/
def MatchState.left (ms : MatchState) (r : Nat) : MatchState := { ms with nrep := r }

@[simp] theorem left_src (ms : MatchState) (r : Nat) : (ms.left r).src = ms.src := rfl

@[simp] theorem left_left (ms : MatchState) (r r' : Nat) : (ms.left r).left r' = ms.left r' := rfl

section Settle

variable {ms : MatchState}

theorem settle_fail (ms : MatchState) : settle ms .fail = .ok (none, ms) := by
  unfold settle
  exact if_pos (Nat.zero_le _)

theorem settle_succeed (ms : MatchState) (s : Nat) :
    settle ms ⟨some (s, ms.capture), 0⟩ = .ok (some s, ms) := by
  unfold settle
  exact if_pos (Nat.zero_le _)

/-- One more character. -/
theorem settle_tick {a : Attempt} {body : Result Outcome}
    (h : ms.nrep ≠ 0 → body = settle (ms.left (ms.nrep - 1)) a) :
    (if ms.nrep = 0 then .error .tooComplex else body) = settle ms a.tick := by
  unfold settle Attempt.tick
  split
  · next h0 => rw [if_neg (by dsimp only; omega)]
  · next h0 =>
    rw [h h0]
    unfold settle MatchState.left
    dsimp only
    by_cases hc : a.cost ≤ ms.nrep - 1
    · rw [if_pos hc, if_pos (by omega), Nat.sub_sub, Nat.add_comm 1]
    · rw [if_neg hc, if_neg (by omega)]

/-- A second attempt after one that failed starts with the same captures. -/
theorem settle_orElse {a b : Attempt} {first : Result Outcome} (ha : first = settle ms a)
    {k : MatchState → Result Outcome} (hk : ∀ r, k (ms.left r) = settle (ms.left r) b) :
    (first >>= fun out => if out.1 = none then k out.2 else .ok out) = settle ms (a.orElse b) := by
  subst ha
  unfold settle Attempt.orElse
  by_cases hc : a.cost ≤ ms.nrep
  · rw [if_pos hc]
    cases hr : a.result with
    | none =>
      show k (ms.left (ms.nrep - a.cost)) = _
      rw [hk]
      unfold settle MatchState.left
      dsimp only
      by_cases hb : b.cost ≤ ms.nrep - a.cost
      · rw [if_pos hb, if_pos rfl, if_pos (by dsimp only; omega), Nat.sub_sub]
      · rw [if_neg hb, if_pos rfl, if_neg (by dsimp only; omega)]
    | some r =>
      rw [if_neg (Option.some_ne_none r), if_pos hc, hr]
      rfl
  · rw [if_neg hc]
    have hcost : ¬ (if a.result = none then ⟨b.result, a.cost + b.cost⟩ else a : Attempt).cost ≤
        ms.nrep := by
      split
      · dsimp only
        omega
      · exact hc
    rw [if_neg hcost]
    rfl

/-- A call with other captures, which are taken back if it fails. -/
theorem settle_undo {c : List Capture} {a : Attempt} {call : Result Outcome}
    (hcall : call = settle { ms with capture := c } a) {u : MatchState → MatchState}
    (hundo : ∀ r, u { ms with nrep := r, capture := c } = ms.left r) :
    (call >>= fun out => if out.1 = none then .ok (none, u out.2) else .ok out) =
      settle ms a := by
  subst hcall
  unfold settle
  dsimp only
  split
  · cases hr : a.result with
    | none => exact congrArg (fun ms => Except.ok (none, ms)) (hundo (ms.nrep - a.cost))
    | some r => rfl
  · rfl

theorem settle_descend {body : Matcher} {s : Nat} {p : Bytes} {a : Attempt}
    (hd : ms.matchdepth ≠ 0)
    (h : body { ms with matchdepth := ms.matchdepth - 1 } s p =
      settle { ms with matchdepth := ms.matchdepth - 1 } a) :
    descend body ms s p = settle ms a := by
  have hback : ms.matchdepth - 1 + 1 = ms.matchdepth := by omega
  unfold descend
  rw [if_neg hd, h]
  unfold settle
  dsimp only
  split
  · show Except.ok _ = Except.ok _
    rw [hback]
  · rfl

end Settle

/-! ## Repetitions -/

section Repetitions

variable {ms : MatchState} {s : Nat} {p ep : Bytes}

theorem singlematch_eq (ms : MatchState) (s : Nat) (p ep : Bytes) :
    singlematch ms s p ep = single ms.src (accepts p ep) s := by
  unfold singlematch single MatchState.at
  by_cases hs : s < ms.src.length
  · rw [if_neg (by omega), List.getElem?_eq_getElem hs, List.getD_eq_getElem?_getD,
      List.getElem?_eq_getElem hs]
    rfl
  · rw [if_pos (by omega), List.getElem?_eq_none (by omega)]
    rfl

theorem single_lt {src : Bytes} {set : UInt8 → Bool} (h : single src set s = true) :
    s < src.length := by
  unfold single at h
  by_contra hs
  rw [List.getElem?_eq_none (by omega)] at h
  cases h

theorem span_le (src : Bytes) (set : UInt8 → Bool) (s : Nat) :
    span src set s ≤ src.length - s := by
  unfold span
  rw [← List.length_drop]
  exact (List.takeWhile_prefix _).length_le

theorem countMax_eq (n i : Nat) (hn : span ms.src (accepts p ep) (s + i) ≤ n) :
    countMax ms s p ep n i = i + span ms.src (accepts p ep) (s + i) := by
  induction n generalizing i with
  | zero =>
    rw [Nat.le_zero.1 hn]
    rfl
  | succ n ih =>
    rw [countMax, singlematch_eq]
    cases h : single ms.src (accepts p ep) (s + i) with
    | true =>
      rw [span_of_single h] at hn ⊢
      rw [if_pos rfl, ih (i + 1) (Nat.le_of_succ_le_succ hn), ← Nat.add_assoc s i 1]
      omega
    | false =>
      rw [span_of_not h]
      rfl

/-- `go` does what `f` says, with any number of repetitions left. -/
def Follows (go : Matcher) (ms : MatchState) (p : Bytes) (f : Nat → Attempt) : Prop :=
  ∀ r s, s ≤ ms.src.length → go (ms.left r) s p = settle (ms.left r) (f s)

theorem expandDown_settle {go : Matcher} {f : Nat → Attempt} (hgo : Follows go ms p f) (k : Nat)
    (hk : s + k ≤ ms.src.length) (r : Nat) :
    expandDown go s p k (ms.left r) = settle (ms.left r) (.firstOf f (downFrom s k)) := by
  induction k generalizing r with
  | zero =>
    rw [downFrom, Attempt.firstOf, Attempt.firstOf, Attempt.orElse_fail]
    exact hgo r s (by omega)
  | succ k ih =>
    rw [expandDown]
    exact settle_orElse (hgo r _ hk) fun r => ih (by omega) r

theorem expandUp_settle {go : Matcher} {f : Nat → Attempt} (hgo : Follows go ms ep.tail f) (n : Nat)
    (hn : s + n = ms.src.length) (r : Nat) :
    expandUp go p ep n (ms.left r) s =
      settle (ms.left r) (.firstOf f (upFrom s (span ms.src (accepts p ep) s))) := by
  have hfail : ∀ r, (.ok (none, ms.left r) : Result Outcome) = settle (ms.left r) .fail :=
    fun r => (settle_fail _).symm
  induction n generalizing s r with
  | zero =>
    have hzero : span ms.src (accepts p ep) s = 0 := by
      have := span_le ms.src (accepts p ep) s
      omega
    rw [hzero, expandUp]
    exact settle_orElse (k := fun ms => .ok (none, ms)) (hgo r s (by omega)) hfail
  | succ n ih =>
    rw [expandUp]
    cases h : single ms.src (accepts p ep) s with
    | true =>
      rw [span_of_single h]
      refine settle_orElse (k := fun ms =>
        if singlematch ms s p ep then expandUp go p ep n ms (s + 1) else .ok (none, ms))
        (hgo r s (by omega)) fun r => ?_
      rw [singlematch_eq, left_left, left_src, if_pos h]
      exact ih (by omega) r
    | false =>
      rw [span_of_not h]
      refine settle_orElse (k := fun ms =>
        if singlematch ms s p ep then expandUp go p ep n ms (s + 1) else .ok (none, ms))
        (hgo r s (by omega)) fun r => ?_
      rw [singlematch_eq, left_left, left_src, h]
      exact hfail r

end Repetitions

/-! ## Captures -/

/-- Which captures are open. -/
def statuses (c : List Capture) : List Bool := c.map Capture.isOpen

@[simp] theorem statuses_append (c : List Capture) (cap : Capture) :
    statuses (c ++ [cap]) = statuses c ++ [cap.isOpen] := List.map_append ..

@[simp] theorem statuses_length (c : List Capture) : (statuses c).length = c.length :=
  List.length_map ..

theorem statuses_close (c : List Capture) (l s : Nat) :
    statuses (c.modify l (Capture.close s)) = (statuses c).set l false := by
  apply List.ext_getElem?
  intro i
  unfold statuses
  rw [List.getElem?_map, List.getElem?_modify, List.getElem?_set, List.length_map,
    List.getElem?_map]
  by_cases hl : l = i
  · subst hl
    rw [if_pos rfl]
    by_cases hlt : l < c.length
    · rw [List.getElem?_eq_getElem hlt, if_pos hlt]
      simp [Capture.isOpen, Capture.close]
    · rw [List.getElem?_eq_none (Nat.le_of_not_lt hlt), if_neg hlt]
      rfl
  · rw [if_neg hl]
    simp [hl]

@[simp] theorem statuses_getElem? (captures : List Capture) (i : Nat) :
    (statuses captures)[i]? = captures[i]?.map Capture.isOpen := List.getElem?_map ..

theorem isOpen_iff (cap : Capture) : cap.isOpen = true ↔ cap.len = .unfinished := by
  simp [Capture.isOpen]

/-- The capture to close, by what is open. -/
theorem captureToClose_eq {captures : List Capture} {n l : Nat}
    (h : lastOpen (statuses captures) n = some l) :
    captureToCloseLoop captures n = .ok l := by
  induction n with
  | zero => cases h
  | succ n ih =>
    rw [lastOpen, statuses_getElem?] at h
    rw [captureToCloseLoop]
    cases hn : captures[n]? with
    | none =>
      rw [hn, if_neg (by simp)] at h
      rw [if_neg (by simp)]
      exact ih h
    | some cap =>
      rw [hn] at h
      by_cases hopen : cap.len = .unfinished
      · rw [if_pos (by simp [(isOpen_iff cap).2 hopen])] at h
        rw [if_pos (by simp [hopen]), Option.some.inj h]
      · have hclosed : ¬ cap.isOpen = true := fun ho => hopen ((isOpen_iff cap).1 ho)
        rw [if_neg (by simp [hclosed])] at h
        rw [if_neg (by simp [hopen])]
        exact ih h

theorem lastOpen_some {st : List Bool} {n l : Nat} (h : lastOpen st n = some l) :
    st[l]? = some true := by
  induction n with
  | zero => cases h
  | succ n ih =>
    rw [lastOpen] at h
    split at h
    · next hn => exact Option.some.inj h ▸ hn
    · exact ih h

/-- What a pattern in order closes, and what is open then. -/
theorem static_close {items : List Item} {c : List Capture}
    (h : Static (.closeCapture :: items) (statuses c) = true) :
    ∃ l, captureToCloseLoop c c.length = .ok l ∧ (statuses c)[l]? = some true ∧
      ∀ s, Static items (statuses (c.modify l (Capture.close s))) = true := by
  rw [Static, statuses_length] at h
  cases hl : lastOpen (statuses c) c.length with
  | none =>
    rw [hl] at h
    cases h
  | some l =>
    rw [hl] at h
    exact ⟨l, captureToClose_eq hl, lastOpen_some hl, fun s => by rw [statuses_close]; exact h⟩

/-- Opening a capture again that was closed. -/
theorem reopen {c : List Capture} {l : Nat} (h : (statuses c)[l]? = some true) (s : Nat) :
    (c.modify l (Capture.close s)).modify l (fun cap => { cap with len := .unfinished }) = c := by
  rw [statuses_getElem?] at h
  obtain ⟨cap, hcap, hopen⟩ := Option.map_eq_some_iff.1 h
  have hlen := (isOpen_iff cap).1 hopen
  rw [List.modify_modify_eq]
  apply List.ext_getElem?
  intro i
  rw [List.getElem?_modify]
  by_cases hl : l = i
  · subst hl
    rw [hcap]
    cases cap with
    | mk init len =>
      obtain rfl : len = .unfinished := hlen
      simp [Capture.close]
  · simp [hl]

/-! ## The items -/

theorem ok_bind {α β : Type} (a : α) (f : α → Result β) : (Except.ok a >>= f) = f a := rfl

/-- On the pattern `p` the matcher does what `attempt` says of `items`. -/
def Interprets (init : Matcher) (p : Bytes) (items : List Item) : Prop :=
  ∀ ms s, Static items (statuses ms.capture) = true → nesting items ≤ ms.matchdepth →
    s ≤ ms.src.length → init ms s p = settle ms (attempt ms.src items s ms.capture)

section Interprets

variable {init : Matcher} {p ep rest : Bytes} {items : List Item} {ms : MatchState} {s : Nat}

theorem nesting_cons {item : Item} (h : item.descends = true) (items : List Item) :
    nesting (item :: items) = nesting items + 1 := by
  unfold nesting
  rw [List.countP_cons_of_pos h]

theorem nesting_cons_of_not {item : Item} (h : item.descends = false) (items : List Item) :
    nesting (item :: items) = nesting items := by
  unfold nesting
  rw [List.countP_cons_of_neg (by rw [h]; exact Bool.false_ne_true)]

theorem Interprets.descend (h : Interprets init p items)
    (hst : Static items (statuses ms.capture) = true) (hd : nesting items + 1 ≤ ms.matchdepth)
    (hs : s ≤ ms.src.length) :
    descend init ms s p = settle ms (attempt ms.src items s ms.capture) := by
  refine settle_descend (by omega) ?_
  exact h _ _ hst (show nesting items ≤ ms.matchdepth - 1 by omega) hs

theorem Interprets.follows (h : Interprets init p items)
    (hst : Static items (statuses ms.capture) = true) (hd : nesting items + 1 ≤ ms.matchdepth) :
    Follows (LuaPattern.descend init) ms p (fun s => attempt ms.src items s ms.capture) :=
  fun _ _ hs => h.descend hst hd hs

/-- A class without a suffix, or with one of the five. -/
theorem dflt_settle {item : Item} (hclass : classend p = .ok ep)
    (hsuffix : suffixItem (accepts p ep) ep = (item, rest)) (h : Interprets init rest items)
    (hst : Static (item :: items) (statuses ms.capture) = true)
    (hd : nesting (item :: items) ≤ ms.matchdepth) (hs : s ≤ ms.src.length) :
    dflt init ms s p = settle ms (attempt ms.src (item :: items) s ms.capture) := by
  unfold dflt
  rw [hclass, ok_bind, singlematch_eq]
  have hfail := (settle_fail ms).symm
  unfold suffixItem at hsuffix
  by_cases hopt : head ep = chr '?'
  · rw [if_pos hopt] at hsuffix
    obtain ⟨rfl, rfl⟩ := Prod.mk.inj hsuffix
    have hst : Static items (statuses ms.capture) = true := hst
    rw [nesting_cons rfl] at hd
    rw [attempt]
    by_cases h1 : single ms.src (accepts p ep) s = true
    · rw [if_neg (not_not.2 h1), if_pos h1]
      refine settle_tick fun _ => ?_
      rw [if_pos hopt]
      have hbody := h.follows hst hd (ms.nrep - 1) (s + 1) (single_lt h1)
      exact settle_orElse (k := fun ms => init ms s ep.tail) hbody
        fun r => h _ _ hst (Nat.le_of_succ_le hd) hs
    · rw [if_pos h1, if_neg h1, if_pos (Or.inr (Or.inl hopt))]
      exact h _ _ hst (Nat.le_of_succ_le hd) hs
  rw [if_neg hopt] at hsuffix
  by_cases hstar : head ep = chr '*'
  · rw [if_pos hstar] at hsuffix
    obtain ⟨rfl, rfl⟩ := Prod.mk.inj hsuffix
    have hst : Static items (statuses ms.capture) = true := hst
    rw [nesting_cons rfl] at hd
    rw [attempt]
    by_cases h1 : single ms.src (accepts p ep) s = true
    · rw [if_neg (not_not.2 h1), if_pos h1]
      refine settle_tick fun _ => ?_
      have hplus : head ep ≠ chr '+' := by rw [hstar]; decide
      have hle := span_le ms.src (accepts p ep) s
      have hlt := single_lt h1
      rw [if_neg hopt, if_neg hplus, if_pos hstar, maxExpand]
      show expandDown _ s ep.tail (countMax (ms.left _) s p ep (ms.src.length - s) 0) _ = _
      rw [countMax_eq _ _ hle, Nat.zero_add]
      exact expandDown_settle (h.follows hst hd) _ (show s + span ms.src _ s ≤ _ by omega) _
    · rw [if_pos h1, if_neg h1, if_pos (Or.inl hstar)]
      exact h _ _ hst (Nat.le_of_succ_le hd) hs
  rw [if_neg hstar] at hsuffix
  by_cases hplus : head ep = chr '+'
  · rw [if_pos hplus] at hsuffix
    obtain ⟨rfl, rfl⟩ := Prod.mk.inj hsuffix
    have hst : Static items (statuses ms.capture) = true := hst
    rw [nesting_cons rfl] at hd
    rw [attempt]
    by_cases h1 : single ms.src (accepts p ep) s = true
    · rw [if_neg (not_not.2 h1), if_pos h1]
      refine settle_tick fun _ => ?_
      have hle := span_le ms.src (accepts p ep) (s + 1)
      have hlt := single_lt h1
      have hcount : countMax (ms.left (ms.nrep - 1)) (s + 1) p ep (ms.src.length - (s + 1)) 0 =
          0 + span ms.src (accepts p ep) (s + 1) := countMax_eq _ 0 hle
      rw [if_neg hopt, if_pos hplus, maxExpand]
      show expandDown _ (s + 1) ep.tail
        (countMax (ms.left _) (s + 1) p ep (ms.src.length - (s + 1)) 0) _ = _
      rw [hcount, Nat.zero_add]
      exact expandDown_settle (h.follows hst hd) _
        (show s + 1 + span ms.src _ (s + 1) ≤ _ by omega) _
    · have hminus : head ep ≠ chr '-' := by rw [hplus]; decide
      rw [if_pos h1, if_neg h1, if_neg (by simp [hopt, hstar, hminus])]
      exact hfail
  rw [if_neg hplus] at hsuffix
  by_cases hminus : head ep = chr '-'
  · rw [if_pos hminus] at hsuffix
    obtain ⟨rfl, rfl⟩ := Prod.mk.inj hsuffix
    have hst : Static items (statuses ms.capture) = true := hst
    rw [nesting_cons rfl] at hd
    rw [attempt]
    by_cases h1 : single ms.src (accepts p ep) s = true
    · rw [if_neg (not_not.2 h1), if_pos h1]
      refine settle_tick fun _ => ?_
      rw [if_neg hopt, if_neg hplus, if_neg hstar, if_pos hminus, minExpand]
      exact expandUp_settle (h.follows hst hd) _ (Nat.add_sub_of_le hs) _
    · rw [if_pos h1, if_neg h1, if_pos (Or.inr (Or.inr hminus))]
      exact h _ _ hst (Nat.le_of_succ_le hd) hs
  rw [if_neg hminus] at hsuffix
  obtain ⟨rfl, rfl⟩ := Prod.mk.inj hsuffix
  have hst : Static items (statuses ms.capture) = true := hst
  rw [nesting_cons_of_not rfl] at hd
  rw [attempt]
  by_cases h1 : single ms.src (accepts p ep) s = true
  · rw [if_neg (not_not.2 h1), if_pos h1]
    refine settle_tick fun _ => ?_
    rw [if_neg hopt, if_neg hplus, if_neg hstar, if_neg hminus]
    exact h _ _ hst hd (single_lt h1)
  · rw [if_pos h1, if_neg h1, if_neg (by simp [hopt, hstar, hminus])]
    exact hfail

theorem startCapture_settle (what : CapLen) (h : Interprets init p items)
    (hlen : ms.capture.length < luaMaxcaptures)
    (hst : Static items (statuses (ms.capture ++ [⟨s, what⟩])) = true)
    (hd : nesting items + 1 ≤ ms.matchdepth) (hs : s ≤ ms.src.length) :
    startCapture (descend init) ms s p what =
      settle ms (attempt ms.src items s (ms.capture ++ [⟨s, what⟩])) := by
  have hgo : descend init { ms with capture := ms.capture ++ [⟨s, what⟩] } s p =
      settle { ms with capture := ms.capture ++ [⟨s, what⟩] }
        (attempt ms.src items s (ms.capture ++ [⟨s, what⟩])) := h.descend hst hd hs
  unfold startCapture
  rw [if_neg (Nat.not_le.2 hlen)]
  refine settle_undo (u := fun ms => { ms with capture := ms.capture.dropLast }) hgo fun r => ?_
  dsimp only
  rw [List.dropLast_concat]
  rfl

theorem endCapture_settle (h : Interprets init p items)
    (hst : Static (.closeCapture :: items) (statuses ms.capture) = true)
    (hd : nesting items + 1 ≤ ms.matchdepth) (hs : s ≤ ms.src.length) :
    endCapture (descend init) ms s p =
      settle ms (attempt ms.src (.closeCapture :: items) s ms.capture) := by
  obtain ⟨l, hclose, hopen, hst⟩ := static_close hst
  have hto : toClose ms.capture = some l := by
    unfold toClose
    rw [hclose]
    rfl
  have hgo : descend init (ms.setLen l fun cap => .closed (s - cap.init)) s p =
      settle { ms with capture := ms.capture.modify l (Capture.close s) }
        (attempt ms.src items s (ms.capture.modify l (Capture.close s))) :=
    h.descend (hst s) hd hs
  unfold endCapture captureToClose
  rw [hclose, ok_bind, attempt, hto]
  refine settle_undo (u := fun ms => ms.setLen l fun _ => .unfinished) hgo fun r => ?_
  unfold MatchState.setLen
  dsimp only
  rw [reopen hopen s]
  rfl

theorem matchbalance_eq (ms : MatchState) (s : Nat) (b e : UInt8) (after : Bytes) :
    matchbalance ms s (b :: e :: after) = .ok (balanced ms.src b e s) := by
  rw [matchbalance, balanced, MatchState.at]
  by_cases hb : ms.src.getD s 0 ≠ b
  · rw [if_pos hb, if_pos hb]
  · rw [if_neg hb, if_neg hb]

theorem balanceLoop_le {b e : UInt8} {rest : Bytes} {s cont s' : Nat}
    (h : balanceLoop b e rest s cont = some s') : s' ≤ s + rest.length := by
  induction rest generalizing s cont with
  | nil => cases h
  | cons c rest ih =>
    rw [List.length_cons]
    rw [balanceLoop] at h
    split at h
    · split at h
      · obtain rfl := Option.some.inj h
        omega
      · have := ih h
        omega
    · split at h
      · have := ih h
        omega
      · have := ih h
        omega

theorem balanced_le {src : Bytes} {b e : UInt8} {s s' : Nat} (h : balanced src b e s = some s')
    (hs : s ≤ src.length) : s' ≤ src.length := by
  unfold balanced at h
  split at h
  · cases h
  · have hle := balanceLoop_le h
    rw [List.length_drop] at hle
    by_cases hend : s = src.length
    · rw [List.drop_eq_nil_of_le (by omega)] at h
      cases h
    · omega

theorem copied_le {src : Bytes} {c : List Capture} {l : UInt8} {s s' : Nat}
    (h : copied src c l s = some s') (hs : s ≤ src.length) : s' ≤ src.length := by
  unfold copied at h
  split at h
  · split at h
    · next hlen =>
      obtain rfl := Option.some.inj h
      omega
    · cases h
  · cases h

/-- A copy of a capture that exists and is not open. -/
theorem matchCapture_eq {l : UInt8} (h : Static (.back l :: items) (statuses ms.capture) = true)
    (s : Nat) : matchCapture ms s l = .ok (copied ms.src ms.capture l s) := by
  rw [Static, Bool.and_eq_true, Bool.and_eq_true, decide_eq_true_eq, beq_iff_eq] at h
  obtain ⟨⟨hl, hat⟩, -⟩ := h
  have hpos : (chr '1').toNat ≤ l.toNat := UInt8.le_iff_toNat_le.1 hl
  have hidx : ((l.toNat : Int) - (chr '1').toNat).toNat = l.toNat - (chr '1').toNat := by omega
  have hmap : (statuses ms.capture)[l.toNat - (chr '1').toNat]? =
      ms.capture[l.toNat - (chr '1').toNat]?.map Capture.isOpen := List.getElem?_map ..
  rw [hmap] at hat
  obtain ⟨cap, hcap, hopen⟩ := Option.map_eq_some_iff.1 hat
  have hclosed : cap.len ≠ .unfinished := by
    intro hun
    rw [(isOpen_iff cap).2 hun] at hopen
    cases hopen
  have hcheck : checkCapture ms l = .ok cap := by
    unfold checkCapture
    dsimp only
    rw [if_neg (by omega), hidx, hcap]
    exact if_neg hclosed
  unfold matchCapture copied
  rw [hcheck, ok_bind, hcap]
  cases cap with
  | mk start len =>
    cases len with
    | unfinished => exact absurd rfl hclosed
    | position => rfl
    | closed n =>
      dsimp only
      split <;> rfl

theorem frontier_settle (hset : head p = chr '[') (hclass : classend p = .ok ep)
    (h : Interprets init ep items) (hst : Static items (statuses ms.capture) = true)
    (hd : nesting items ≤ ms.matchdepth) (hs : s ≤ ms.src.length) :
    frontier init ms s p = settle ms
      (attempt ms.src (.frontier (fun c => matchbracketclass c p ep) :: items) s ms.capture) := by
  unfold frontier
  rw [if_neg (not_not.2 hset), hclass, ok_bind, attempt]
  have hiff : (¬ matchbracketclass (if s = 0 then 0 else ms.at (s - 1)) p ep = true ∧
      matchbracketclass (ms.at s) p ep = true) ↔
        isFrontier ms.src (fun c => matchbracketclass c p ep) s = true := by
    unfold isFrontier MatchState.at
    rw [Bool.and_eq_true, Bool.not_eq_true', Bool.not_eq_true]
  by_cases hf : isFrontier ms.src (fun c => matchbracketclass c p ep) s = true
  · rw [if_pos (hiff.2 hf), if_pos hf]
    exact h ms s hst hd hs
  · rw [if_neg fun hc => hf (hiff.1 hc), if_neg hf]
    exact (settle_fail ms).symm

end Interprets

/-! ## The whole pattern -/

/-- The first item, and what is behind it. -/
theorem matchInit_item {fuel : Nat} {p rest : Bytes} {item : Item} {items : List Item}
    (hne : p ≠ []) (hitem : parseItem p = .ok (item, rest))
    (h : Interprets (matchInit fuel) rest items) :
    Interprets (matchInit (fuel + 1)) p (item :: items) := by
  intro ms s hst hd hs
  unfold parseItem at hitem
  rw [matchInit, if_neg hne]
  by_cases hopen : head p = chr '('
  · rw [if_pos hopen] at hitem ⊢
    by_cases hpos : head p.tail = chr ')'
    · rw [if_pos hpos] at hitem ⊢
      obtain ⟨rfl, rfl⟩ := Prod.mk.inj (Except.ok.inj hitem)
      rw [Static, Bool.and_eq_true, decide_eq_true_eq, statuses_length] at hst
      rw [nesting_cons rfl] at hd
      exact startCapture_settle .position h hst.1 (by rw [statuses_append]; exact hst.2) hd hs
    · rw [if_neg hpos] at hitem ⊢
      obtain ⟨rfl, rfl⟩ := Prod.mk.inj (Except.ok.inj hitem)
      rw [Static, Bool.and_eq_true, decide_eq_true_eq, statuses_length] at hst
      rw [nesting_cons rfl] at hd
      exact startCapture_settle .unfinished h hst.1 (by rw [statuses_append]; exact hst.2) hd hs
  rw [if_neg hopen] at hitem ⊢
  by_cases hclose : head p = chr ')'
  · rw [if_pos hclose] at hitem ⊢
    obtain ⟨rfl, rfl⟩ := Prod.mk.inj (Except.ok.inj hitem)
    rw [nesting_cons rfl] at hd
    exact endCapture_settle h hst hd hs
  rw [if_neg hclose] at hitem ⊢
  by_cases hfinal : head p = chr '$' ∧ p.tail = []
  · rw [if_pos hfinal] at hitem ⊢
    obtain ⟨rfl, rfl⟩ := Prod.mk.inj (Except.ok.inj hitem)
    rw [attempt]
    split
    · exact (settle_succeed ms s).symm
    · exact (settle_fail ms).symm
  rw [if_neg hfinal] at hitem ⊢
  by_cases hbalance : head p = chr '%' ∧ head p.tail = chr 'b'
  · rw [if_pos hbalance] at hitem ⊢
    have hdrop : p.drop 4 = p.tail.tail.drop 2 := by
      rw [← List.drop_one, ← List.drop_one, List.drop_drop, List.drop_drop]
    rw [hdrop]
    generalize p.tail.tail = args at hitem
    cases args with
    | nil => cases hitem
    | cons b args =>
      cases args with
      | nil => cases hitem
      | cons e after =>
        obtain ⟨rfl, rfl⟩ := Prod.mk.inj (Except.ok.inj hitem)
        rw [nesting_cons_of_not rfl] at hd
        rw [matchbalance_eq, ok_bind, attempt]
        cases hend : balanced ms.src b e s with
        | none => exact (settle_fail ms).symm
        | some s' => exact h ms s' hst hd (balanced_le hend hs)
  rw [if_neg hbalance] at hitem ⊢
  by_cases hfrontier : head p = chr '%' ∧ head p.tail = chr 'f'
  · rw [if_pos hfrontier] at hitem ⊢
    by_cases hset : head p.tail.tail = chr '['
    · rw [if_neg (not_not.2 hset)] at hitem
      cases hclass : classend p.tail.tail with
      | error e =>
        rw [hclass] at hitem
        cases hitem
      | ok ep =>
        rw [hclass] at hitem
        obtain ⟨rfl, rfl⟩ := Prod.mk.inj (Except.ok.inj hitem)
        rw [nesting_cons_of_not rfl] at hd
        exact frontier_settle hset hclass h hst hd hs
    · rw [if_pos hset] at hitem
      cases hitem
  rw [if_neg hfrontier] at hitem ⊢
  by_cases hback : head p = chr '%' ∧ isDigit (head p.tail) = true
  · rw [if_pos hback] at hitem ⊢
    obtain ⟨rfl, rfl⟩ := Prod.mk.inj (Except.ok.inj hitem)
    rw [nesting_cons_of_not rfl] at hd
    rw [matchCapture_eq hst, ok_bind, attempt]
    have hst' : Static items (statuses ms.capture) = true := by
      rw [Static, Bool.and_eq_true] at hst
      exact hst.2
    cases hend : copied ms.src ms.capture (head p.tail) s with
    | none => exact (settle_fail ms).symm
    | some s' => exact h ms s' hst' hd (copied_le hend hs)
  rw [if_neg hback] at hitem ⊢
  cases hclass : classend p with
  | error e =>
    rw [hclass] at hitem
    cases hitem
  | ok ep =>
    rw [hclass] at hitem
    exact dflt_settle hclass (Except.ok.inj hitem) h hst hd hs

/-- `match` from `init` on does what `attempt` says of the items of its pattern. -/
theorem matchInit_settle {fuel : Nat} {p : Bytes} {items : List Item}
    (h : parse fuel p = .ok items) : Interprets (matchInit fuel) p items := by
  induction fuel generalizing p items with
  | zero => cases h
  | succ fuel ih =>
    rw [parse] at h
    by_cases hne : p = []
    · rw [if_pos hne] at h
      obtain rfl := Except.ok.inj h
      intro ms s _ _ _
      rw [matchInit, if_pos hne]
      exact (settle_succeed ms s).symm
    · rw [if_neg hne] at h
      cases hitem : parseItem p with
      | error e =>
        rw [hitem] at h
        cases h
      | ok first =>
        obtain ⟨item, rest⟩ := first
        rw [hitem, ok_bind] at h
        dsimp only at h
        cases hrest : parse fuel rest with
        | error e =>
          rw [hrest] at h
          cases h
        | ok items' =>
          rw [hrest] at h
          obtain rfl := Except.ok.inj h
          exact matchInit_item hne hitem (ih hrest)

end GameServer.LuaPattern
