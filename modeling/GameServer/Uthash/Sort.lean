/-
  `HASH_SRT`, a merge sort from the bottom up on the links of the app order.

  While a merge runs, the elements behind `_hs_tail` are linked for the result, those ahead of
  `_hs_p` and `_hs_q` for the list the pass started from, and the link of `_hs_tail` itself is
  stale until the next element is appended: `Built` is the chain with this link cut.
-/
import GameServer.Uthash.Live
import GameServer.Lib.BottomUp

namespace GameServer.Uthash

open DoublyLinked

variable {α τ : Type} [DecidableEq α]

/-! ## The macro -/

/-- The variables that a pass writes: the links, `_hs_list` and `_hs_tail`. -/
structure SortState (α τ : Type) where
  hh : Handles α τ
  list : Option α
  tail : Option α

/-- `_hs_e` goes behind `_hs_tail`. -/
def SortState.emit (st : SortState α τ) (e : α) : SortState α τ where
  hh := { st.hh with
    next := setAt st.hh.next st.tail (some e)
    prev := Function.update st.hh.prev e st.tail }
  list := if st.tail = none then some e else st.list
  tail := some e

/-- Whether `_hs_e` comes from `_hs_p`. -/
def fromP (cmp : α → α → Int) (p : Option α) (psize : Nat) (q : Option α) (qsize : Nat) : Bool :=
  if psize = 0 then false
  else if qsize = 0 ∨ q = none then true
  else
    match p, q with
    | some p, some q => decide (cmp p q ≤ 0)
    | _, _ => true

/-- The merge of the runs at `_hs_p` and `_hs_q`. -/
def hashMerge (cmp : α → α → Int) :
    Nat → Option α → Nat → Option α → Nat → SortState α τ → Except Halt (Option α × SortState α τ)
  | 0, _, psize, q, qsize, st =>
    if 0 < psize ∨ (0 < qsize ∧ q ≠ none) then .error .rounds else .ok (q, st)
  | rounds + 1, p, psize, q, qsize, st =>
    if 0 < psize ∨ (0 < qsize ∧ q ≠ none) then
      if fromP cmp p psize q qsize then
        match p with
        | none => .error .wild
        | some e => hashMerge cmp rounds (st.hh.next e) (psize - 1) q qsize (st.emit e)
      else
        match q with
        | none => .error .wild
        | some e => hashMerge cmp rounds p psize (st.hh.next e) (qsize - 1) (st.emit e)
    else .ok (q, st)

/-- The loop that steps `_hs_q` over a run, and `_hs_psize`. -/
def advance (hh : Handles α τ) : Nat → α → Nat → Option α × Nat
  | 0, q, psize => (some q, psize)
  | n + 1, q, psize =>
    match hh.next q with
    | none => (none, psize + 1)
    | some q => advance hh n q (psize + 1)

/-- One pass over the list, with the number of its merges. -/
def srtPass (cmp : α → α → Int) (insize rounds : Nat) :
    Nat → Option α → Nat → SortState α τ → Except Halt (Nat × SortState α τ)
  | _, none, nmerges, st => .ok (nmerges, st)
  | 0, some _, _, _ => .error .rounds
  | k + 1, some p, nmerges, st => do
    let (q, psize) := advance st.hh insize p 0
    let (q, st) ← hashMerge cmp rounds (some p) psize q insize st
    srtPass cmp insize rounds k q (u32 (nmerges + 1)) st

/-- The passes, until one does a single merge. -/
def srtLoop (cmp : α → α → Int) (rounds : Nat) :
    Nat → Nat → Option α → Handles α τ → Except Halt (SortState α τ)
  | 0, _, _, _ => .error .rounds
  | k + 1, insize, list, hh => do
    let (nmerges, st) ← srtPass cmp insize rounds rounds list 0 ⟨hh, none, none⟩
    match st.tail with
    | none => .error .wild
    | some tail =>
      let hh := { st.hh with next := Function.update st.hh.next tail none }
      if nmerges ≤ 1 then .ok ⟨hh, st.list, some tail⟩
      else srtLoop cmp rounds k (u32 (insize * 2)) st.list hh

/-- `HASH_SRT`. -/
def hashSrt [DecidableEq τ] (cmp : α → α → Int) (rounds : Nat) (head : Option α) (s : Store α τ) :
    Except Halt (Option α × Store α τ) :=
  match head with
  | none => .ok (none, s)
  | some head => do
    let st ← srtLoop cmp rounds rounds 1 (some head) s.hh
    let s := { s with hh := st.hh }
    let (t, T) ← s.tbl (some head)
    .ok (st.list, s.setTable t (some { T with tail := st.tail }))

/-! ## What a pass leaves alone -/

/-- The handles differ in nothing but the app order of those in `l`. -/
structure Reordered (hh hh' : Handles α τ) (l : List α) : Prop where
  fields : hh' = { hh with next := hh'.next, prev := hh'.prev }
  next : ∀ a ∉ l, hh'.next a = hh.next a
  prev : ∀ a ∉ l, hh'.prev a = hh.prev a

variable {hh hh' hh'' : Handles α τ} {st : SortState α τ} {l l' out P Q R : List α}
  {e : α} {p q : Option α} {qsize : Nat} {cmp : α → α → Int} {rounds : Nat}

omit [DecidableEq α] in
theorem Reordered.trans (h : Reordered hh hh' l) (h' : Reordered hh' hh'' l) :
    Reordered hh hh'' l := by
  refine ⟨?_, fun a ha => (h'.next a ha).trans (h.next a ha),
    fun a ha => (h'.prev a ha).trans (h.prev a ha)⟩
  rw [h'.fields, h.fields]

omit [DecidableEq α] in
theorem Reordered.mono (h : Reordered hh hh' l) (hsub : ∀ a ∈ l, a ∈ l') :
    Reordered hh hh' l' :=
  ⟨h.fields, fun a ha => h.next a fun hmem => ha (hsub a hmem),
    fun a ha => h.prev a fun hmem => ha (hsub a hmem)⟩

/-! ## A merge -/

structure Built (st : SortState α τ) (out : List α) : Prop where
  list : st.list = out.head?
  tail : st.tail = out.getLast?
  chain : Chain (setAt st.hh.next st.tail none) st.hh.prev none out

theorem Built.emit (h : Built st out) (hnd : out.Nodup) (he : e ∉ out) :
    Built (st.emit e) (out ++ [e]) := by
  refine ⟨?_, List.getLast?_concat.symm, h.chain.snoc hnd ?_ ?_ (fun b hb => ?_) fun b hb => ?_⟩
  · show (if st.tail = none then some e else st.list) = _
    rw [h.tail, h.list]
    cases out with
    | nil => rfl
    | cons a out =>
      rw [if_neg]
      · rfl
      · rw [List.getLast?_eq_none_iff]
        exact List.cons_ne_nil a out
  · exact setAt_apply.trans (if_pos rfl)
  · rw [Option.or_none, ← h.tail]
    exact Function.update_self e _ _
  · have hbe : ¬ some e = some b := fun heq => he (Option.some.inj heq ▸ hb)
    show setAt (setAt _ _ _) (some e) none b = _
    rw [setAt_apply, if_neg hbe, setAt_apply, setAt_apply, h.tail]
    split <;> rfl
  · exact Function.update_of_ne (ne_of_mem_of_not_mem hb he) _ _

theorem Built.reordered (h : Built st out) (e : α) :
    Reordered st.hh (st.emit e).hh (out ++ [e]) := by
  refine ⟨rfl, fun a ha => ?_, fun a ha => ?_⟩
  · rw [List.mem_append, not_or] at ha
    refine setAt_apply.trans (if_neg fun heq => ha.1 ?_)
    exact List.mem_of_getLast? (h.tail ▸ heq)
  · rw [List.mem_append, List.mem_singleton, not_or] at ha
    exact Function.update_of_ne ha.2 _ _

/-- The state of a merge: `out` is done, `P` and `Q` are the rest of the runs, and `R` is behind
    them. -/
structure Merging (st : SortState α τ) (out P Q R : List α) (p q : Option α) (qsize : Nat) :
    Prop where
  built : Built st out
  nodup : (out ++ (P ++ (Q ++ R))).Nodup
  pathP : ∃ last, Path st.hh.next last P
  pathQ : Path st.hh.next none (Q ++ R)
  p : P ≠ [] → p = P.head?
  q : q = (Q ++ R).head?
  short : Q.length ≤ qsize
  full : Q.length < qsize → R = []

namespace Merging

variable {a b : α}

/-- Appending an element does not disturb the links ahead. -/
theorem emit_next (h : Merging st out P Q R p q qsize) (e : α) :
    ∀ a ∈ P ++ (Q ++ R), (st.emit e).hh.next a = st.hh.next a := by
  intro a ha
  refine setAt_apply.trans (if_neg fun heq => ?_)
  have hout : a ∈ out := List.mem_of_getLast? (h.built.tail ▸ heq)
  exact (List.nodup_append.1 h.nodup).2.2 a hout a ha rfl

theorem takeP (h : Merging st out (a :: P) Q R p q qsize) :
    p = some a ∧ Merging (st.emit a) (out ++ [a]) P Q R (st.hh.next a) q qsize := by
  have hnd := List.nodup_append.1 h.nodup
  have hnext := h.emit_next a
  have ha : a ∉ out := fun hmem => hnd.2.2 a hmem a List.mem_cons_self rfl
  obtain ⟨last, hP⟩ := h.pathP
  refine ⟨h.p (List.cons_ne_nil a P), h.built.emit hnd.1 ha, ?_, ⟨last, ?_⟩, ?_, fun hne => ?_,
    h.q, h.short, h.full⟩
  · rw [List.append_assoc, List.singleton_append]
    exact h.nodup
  · exact hP.2.congr fun b hb => hnext b (List.mem_append_left _ (List.mem_cons_of_mem a hb))
  · exact h.pathQ.congr fun b hb => hnext b (List.mem_append_right _ hb)
  · rw [hP.1, List.head?_eq_some_head hne, Option.some_or]

theorem takeQ (h : Merging st out P (b :: Q) R p q qsize) :
    q = some b ∧ Merging (st.emit b) (out ++ [b]) P Q R p (st.hh.next b) (qsize - 1) := by
  have hnd := List.nodup_append.1 h.nodup
  have hb : b ∈ P ++ (b :: Q ++ R) := List.mem_append_right P List.mem_cons_self
  have hnext := h.emit_next b
  obtain ⟨last, hP⟩ := h.pathP
  have hshort := h.short
  rw [List.length_cons] at hshort
  refine ⟨h.q, h.built.emit hnd.1 fun hmem => hnd.2.2 b hmem b hb rfl, ?_, ⟨last, ?_⟩, ?_, h.p, ?_,
    by omega, fun hlt => h.full ?_⟩
  · refine (List.Perm.nodup_iff ?_).1 h.nodup
    rw [List.append_assoc, List.singleton_append]
    exact List.perm_middle.append_left out
  · exact hP.congr fun a ha => hnext a (List.mem_append_left _ ha)
  · exact h.pathQ.2.congr fun a ha => hnext a (List.mem_append_right _ (List.mem_cons_of_mem b ha))
  · rw [h.pathQ.1, Option.or_none]
    rfl
  · rw [List.length_cons]
    omega

end Merging

/-- The comparison of a sort. -/
def le (cmp : α → α → Int) (a b : α) : Bool := decide (cmp a b ≤ 0)

/-- Both runs are used up. -/
theorem hashMerge_stop (cmp : α → α → Int) (rounds : Nat)
    (h : Merging st out [] [] R p q qsize) :
    hashMerge cmp rounds p 0 q qsize st = .ok (R.head?, st) := by
  have hstop : ¬ (0 < 0 ∨ (0 < qsize ∧ q ≠ none)) := by
    rintro (hlt | ⟨hlt, hq⟩)
    · exact Nat.lt_irrefl 0 hlt
    · refine hq (h.q.trans ?_)
      rw [h.full hlt]
      rfl
  cases rounds <;> unfold hashMerge <;> rw [if_neg hstop, h.q, List.nil_append]

theorem hashMerge_takeP {a : α} (h : Merging st out (a :: P) Q R p q qsize)
    (hfrom : fromP cmp p (P.length + 1) q qsize = true) (rounds : Nat) :
    hashMerge cmp (rounds + 1) p (P.length + 1) q qsize st =
      hashMerge cmp rounds (st.hh.next a) P.length q qsize (st.emit a) := by
  obtain ⟨rfl, -⟩ := h.takeP
  conv_lhs => unfold hashMerge
  rw [if_pos (Or.inl (Nat.succ_pos _)), if_pos hfrom]
  rfl

theorem hashMerge_takeQ {b : α} (h : Merging st out P (b :: Q) R p q qsize)
    (hfrom : fromP cmp p P.length q qsize = false) (rounds : Nat) :
    hashMerge cmp (rounds + 1) p P.length q qsize st =
      hashMerge cmp rounds p P.length (st.hh.next b) (qsize - 1) (st.emit b) := by
  have hpos : 0 < qsize := Nat.lt_of_lt_of_le (Nat.succ_pos _) h.short
  obtain ⟨rfl, -⟩ := h.takeQ
  have hgo : 0 < P.length ∨ (0 < qsize ∧ some b ≠ none) := Or.inr ⟨hpos, Option.some_ne_none b⟩
  have hfrom' : ¬ fromP cmp p P.length (some b) qsize = true := by
    rw [hfrom]
    exact Bool.false_ne_true
  conv_lhs => unfold hashMerge
  rw [if_pos hgo, if_neg hfrom']

theorem fromP_nil {a : α} (h : Merging st out (a :: P) [] R p q qsize) :
    fromP cmp p (P.length + 1) q qsize = true := by
  have hend : qsize = 0 ∨ q = none := by
    rcases Nat.eq_zero_or_pos qsize with h0 | hpos
    · exact Or.inl h0
    · refine Or.inr (h.q.trans ?_)
      rw [h.full hpos]
      rfl
  unfold fromP
  rw [if_neg (Nat.succ_ne_zero _), if_pos hend]

theorem fromP_cons {a b : α} (h : Merging st out (a :: P) (b :: Q) R p q qsize) :
    fromP cmp p (P.length + 1) q qsize = le cmp a b := by
  have hpos : 0 < qsize := Nat.lt_of_lt_of_le (Nat.succ_pos _) h.short
  obtain ⟨rfl, -⟩ := h.takeP
  obtain ⟨rfl, -⟩ := h.takeQ
  have hgo : ¬ (qsize = 0 ∨ some b = none) := by
    rintro (h0 | hnone)
    · omega
    · exact Option.some_ne_none b hnone
  unfold fromP
  rw [if_neg (Nat.succ_ne_zero _), if_neg hgo]
  rfl

/-- What a merge achieves from `st` on, `out` being done. -/
def Merges (cmp : α → α → Int) (rounds : Nat) (st : SortState α τ) (out P Q R : List α)
    (p q : Option α) (qsize : Nat) : Prop :=
  ∃ st', hashMerge cmp rounds p P.length q qsize st = .ok (R.head?, st') ∧
    Built st' (out ++ P.merge Q (le cmp)) ∧ Reordered st.hh st'.hh (out ++ (P ++ Q))

theorem merges_nil (cmp : α → α → Int) (rounds : Nat) (h : Merging st out [] [] R p q qsize) :
    Merges cmp rounds st out [] [] R p q qsize := by
  refine ⟨st, hashMerge_stop cmp rounds h, ?_, ⟨rfl, fun _ _ => rfl, fun _ _ => rfl⟩⟩
  rw [List.nil_merge, List.append_nil]
  exact h.built

/-- An element of either run goes behind the others. -/
theorem Merges.step {P' Q' : List α} {p' q' : Option α} {qsize' : Nat} (h : Built st out)
    (hrest : Merges cmp rounds (st.emit e) (out ++ [e]) P' Q' R p' q' qsize')
    (hrun : hashMerge cmp (rounds + 1) p P.length q qsize st =
      hashMerge cmp rounds p' P'.length q' qsize' (st.emit e))
    (hmerge : P.merge Q (le cmp) = e :: P'.merge Q' (le cmp))
    (hperm : (e :: (P' ++ Q')).Perm (P ++ Q)) :
    Merges cmp (rounds + 1) st out P Q R p q qsize := by
  obtain ⟨st', hrun', hbuilt, hre⟩ := hrest
  have hmem : ∀ b, b ∈ out ++ [e] ++ (P' ++ Q') → b ∈ out ++ (P ++ Q) := by
    intro b hb
    rw [List.append_assoc] at hb
    exact (hperm.append_left out).mem_iff.1 hb
  refine ⟨st', hrun.trans hrun', ?_, ?_⟩
  · rwa [hmerge, ← List.singleton_append, ← List.append_assoc]
  · exact ((h.reordered e).mono fun b hb => hmem b (List.mem_append_left _ hb)).trans
      (hre.mono hmem)

/-- A merge of two runs is the merge of two lists. -/
theorem hashMerge_spec (cmp : α → α → Int) (h : Merging st out P Q R p q qsize)
    (hrounds : P.length + Q.length ≤ rounds) : Merges cmp rounds st out P Q R p q qsize := by
  induction rounds generalizing out P Q p q qsize st with
  | zero =>
    obtain rfl : P = [] := List.length_eq_zero_iff.1 (by omega)
    obtain rfl : Q = [] := List.length_eq_zero_iff.1 (by omega)
    exact merges_nil cmp 0 h
  | succ rounds ih =>
    have stepP : ∀ a P', P = a :: P' → fromP cmp p P.length q qsize = true →
        P.merge Q (le cmp) = a :: P'.merge Q (le cmp) →
        Merges cmp (rounds + 1) st out P Q R p q qsize := by
      rintro a P' rfl hfrom hmerge
      rw [List.length_cons] at hrounds
      exact (ih h.takeP.2 (by omega)).step h.built (hashMerge_takeP h hfrom rounds) hmerge
        (List.Perm.refl _)
    have stepQ : ∀ b Q', Q = b :: Q' → fromP cmp p P.length q qsize = false →
        P.merge Q (le cmp) = b :: P.merge Q' (le cmp) →
        Merges cmp (rounds + 1) st out P Q R p q qsize := by
      rintro b Q' rfl hfrom hmerge
      rw [List.length_cons] at hrounds
      exact (ih h.takeQ.2 (by omega)).step h.built (hashMerge_takeQ h hfrom rounds) hmerge
        List.perm_middle.symm
    cases P with
    | nil =>
      cases Q with
      | nil => exact merges_nil cmp _ h
      | cons b Q => exact stepQ b Q rfl rfl (by rw [List.nil_merge, List.nil_merge])
    | cons a P =>
      cases Q with
      | nil => exact stepP a P rfl (fromP_nil h) (by rw [List.merge_right, List.merge_right])
      | cons b Q =>
        cases hab : le cmp a b with
        | true =>
          exact stepP a P rfl ((fromP_cons h).trans hab)
            (List.cons_merge_cons_pos (le cmp) P Q hab)
        | false =>
          refine stepQ b Q rfl ((fromP_cons h).trans hab)
            (List.cons_merge_cons_neg (le cmp) P Q ?_)
          rw [hab]
          exact Bool.false_ne_true

/-! ## A pass -/

omit [DecidableEq α] in
theorem advance_spec {q : α} (n : Nat) (psize : Nat) (h : Path hh.next none (q :: l)) :
    advance hh n q psize =
      (((q :: l).drop n).head?, psize + ((q :: l).take n).length) := by
  induction n generalizing q l psize with
  | zero => rfl
  | succ n ih =>
    unfold advance
    rw [h.1, Option.or_none, List.drop_succ_cons, List.take_succ_cons, List.length_cons]
    cases l with
    | nil => rw [List.head?_nil, List.drop_nil, List.take_nil]; rfl
    | cons q' l =>
      rw [List.head?_cons]
      dsimp only
      rw [ih (psize + 1) h.2, Nat.add_assoc, Nat.add_comm 1]

/-- The two runs at the start of a pass. -/
theorem merging_start {n : Nat} (hn : 0 < n) (hbuilt : Built st out)
    (hpath : Path st.hh.next none (e :: l)) (hnd : (out ++ e :: l).Nodup) :
    Merging st out ((e :: l).take n) (((e :: l).drop n).take n) ((e :: l).drop (2 * n)) (some e)
      ((e :: l).drop n).head? n := by
  have hQR : ((e :: l).drop n).take n ++ (e :: l).drop (2 * n) = (e :: l).drop n := by
    rw [Nat.two_mul, ← List.drop_drop, List.take_append_drop]
  have hPQR := List.take_append_drop n (e :: l)
  have hsplit := Path.append.1 (hPQR.symm ▸ hpath)
  refine ⟨hbuilt, ?_, ⟨_, hsplit.1⟩, ?_, fun _ => ?_, ?_, List.length_take_le _ _, fun hlt => ?_⟩
  · rwa [hQR, hPQR]
  · rw [hQR]
    exact hsplit.2
  · rw [List.head?_take, if_neg (by omega), List.head?_cons]
  · rw [hQR]
  · rw [List.length_take, List.length_drop] at hlt
    exact List.drop_eq_nil_of_le (by omega)

/-- The number of merges of a pass. -/
theorem merges_cons {n : Nat} (hn : 0 < n) (len : Nat) (hlen : 0 < len) :
    (len + (2 * n - 1)) / (2 * n) = 1 + (len - 2 * n + (2 * n - 1)) / (2 * n) := by
  rcases Nat.lt_or_ge len (2 * n) with hlt | hge
  · rw [Nat.sub_eq_zero_of_le (Nat.le_of_lt hlt), Nat.zero_add,
      Nat.div_eq_of_lt (by omega : 2 * n - 1 < 2 * n)]
    exact Nat.div_eq_of_lt_le (by omega) (by omega)
  · obtain ⟨m, rfl⟩ := Nat.exists_eq_add_of_le hge
    rw [Nat.add_sub_cancel_left, Nat.add_assoc, Nat.add_div_left _ (by omega), Nat.add_comm]

/-- The end of a pass. -/
theorem srtPass_nil (cmp : α → α → Int) {n : Nat} (hn : 0 < n) (hbuilt : Built st out)
    (rounds k nmerges : Nat) :
    ∃ st', srtPass cmp n rounds k none nmerges st =
        .ok (nmerges + (([] : List α).length + (2 * n - 1)) / (2 * n), st') ∧
      Built st' (out ++ BottomUp.pass (le cmp) n []) ∧ Reordered st.hh st'.hh (out ++ []) := by
  refine ⟨st, ?_, ?_, ⟨rfl, fun _ _ => rfl, fun _ _ => rfl⟩⟩
  · rw [List.length_nil, Nat.zero_add, Nat.div_eq_of_lt (by omega : 2 * n - 1 < 2 * n)]
    cases k <;> rfl
  · rwa [BottomUp.pass_nil, List.append_nil]

/-- A pass merges the runs of the list in pairs. -/
theorem srtPass_spec (cmp : α → α → Int) {n k nmerges : Nat} (hn : 0 < n) (hbuilt : Built st out)
    (hpath : Path st.hh.next none l) (hnd : (out ++ l).Nodup) (hrounds : l.length ≤ rounds)
    (hk : l.length ≤ k) (hm : nmerges + l.length < 2 ^ 32) :
    ∃ st', srtPass cmp n rounds k l.head? nmerges st =
        .ok (nmerges + (l.length + (2 * n - 1)) / (2 * n), st') ∧
      Built st' (out ++ BottomUp.pass (le cmp) n l) ∧ Reordered st.hh st'.hh (out ++ l) := by
  induction k generalizing l out st nmerges with
  | zero =>
    obtain rfl : l = [] := List.length_eq_zero_iff.1 (by omega)
    exact srtPass_nil cmp hn hbuilt rounds 0 nmerges
  | succ k ih =>
    cases l with
    | nil => exact srtPass_nil cmp hn hbuilt rounds (k + 1) nmerges
    | cons e l =>
      have hstart := merging_start hn hbuilt hpath hnd
      have hruns := BottomUp.take_block n (e :: l)
      have hlist := List.take_append_drop (2 * n) (e :: l)
      have hlen : ((e :: l).take n).length + (((e :: l).drop n).take n).length ≤ rounds := by
        rw [← List.length_append, hruns]
        exact (List.length_take_le' _ _).trans hrounds
      obtain ⟨st₁, hmerge, hbuilt₁, hre₁⟩ := hashMerge_spec cmp hstart hlen
      rw [hruns] at hre₁
      have hperm : (out ++ ((e :: l).take n).merge (((e :: l).drop n).take n) (le cmp) ++
          (e :: l).drop (2 * n)).Perm (out ++ e :: l) := by
        conv_rhs => rw [← hlist, ← hruns]
        rw [← List.append_assoc]
        exact ((List.merge_perm_append (le cmp)).append_left out).append_right _
      -- what is behind the two runs is linked as it was
      have hpath₁ : Path st₁.hh.next none ((e :: l).drop (2 * n)) := by
        rw [← hlist] at hpath hnd
        refine (Path.append.1 hpath).2.congr fun b hb => hre₁.next b fun hmem => ?_
        rw [← List.append_assoc] at hnd
        exact (List.nodup_append.1 hnd).2.2 b hmem b hb rfl
      have hrest : ((e :: l).drop (2 * n)).length < (e :: l).length := by
        rw [List.length_drop, List.length_cons]
        omega
      have hsub : ∀ a ∈ (e :: l).take (2 * n) ++ (e :: l).drop (2 * n), a ∈ e :: l := by
        rw [hlist]
        exact fun a ha => ha
      obtain ⟨st₂, hpass, hbuilt₂, hre₂⟩ := @ih _ _ _ (nmerges + 1) hbuilt₁ hpath₁
        (hperm.nodup_iff.2 hnd) (by omega) (by omega) (by omega)
      refine ⟨st₂, ?_, ?_, (hre₁.mono fun a ha => ?_).trans (hre₂.mono fun a ha => ?_)⟩
      · have hu : u32 (nmerges + 1) = nmerges + 1 := u32_eq (by rw [List.length_cons] at hm; omega)
        rw [List.head?_cons]
        simp only [srtPass, advance_spec n 0 hpath, Nat.zero_add, hmerge, bind, Except.bind, hu,
          hpass]
        rw [merges_cons hn (e :: l).length (Nat.succ_pos _), List.length_drop,
          Nat.add_assoc]
      · rwa [BottomUp.pass_cons (by omega) (List.cons_ne_nil e l), ← List.append_assoc]
      · rcases List.mem_append.1 ha with ha | ha
        · exact List.mem_append_left _ ha
        · exact List.mem_append_right out (List.mem_of_mem_take ha)
      · exact hperm.mem_iff.1 ha

/-! ## The sort -/

/-- One merge is enough for two runs. -/
theorem merges_le_one {n len : Nat} (hn : 0 < n) :
    (len + (2 * n - 1)) / (2 * n) ≤ 1 ↔ len ≤ 2 * n := by
  rw [Nat.div_le_iff_le_mul_add_pred (by omega), Nat.mul_one]
  omega

/-- The passes sort, and leave the result linked both ways. -/
theorem srtLoop_spec (cmp : α → α → Int) {k n : Nat} (hn : 0 < n) (hne : l ≠ [])
    (hpath : Path hh.next none l) (hnd : l.Nodup) (hrounds : l.length ≤ rounds)
    (hlt : l.length < 2 ^ 32) (hk : 0 < k) (hlen : l.length ≤ 2 ^ k * n) :
    ∃ st, srtLoop cmp rounds k n l.head? hh = .ok st ∧
      st.list = (BottomUp.sortFrom (le cmp) k n l).head? ∧
      st.tail = (BottomUp.sortFrom (le cmp) k n l).getLast? ∧
      Chain st.hh.next st.hh.prev none (BottomUp.sortFrom (le cmp) k n l) ∧
      Reordered hh st.hh l := by
  induction k generalizing l n hh with
  | zero => exact absurd hk (Nat.lt_irrefl 0)
  | succ k ih =>
    have hstart : Built (⟨hh, none, none⟩ : SortState α τ) [] := ⟨rfl, rfl, trivial⟩
    have hm : 0 + l.length < 2 ^ 32 := by omega
    obtain ⟨st, hpass, hbuilt, hre⟩ := srtPass_spec cmp hn hstart hpath hnd hrounds hrounds hm
    rw [List.nil_append] at hbuilt hre
    rw [Nat.zero_add] at hpass
    have hperm := BottomUp.pass_perm (le cmp) n l
    have hne' : BottomUp.pass (le cmp) n l ≠ [] := fun hnil => hne (hnil ▸ hperm).symm.eq_nil
    obtain ⟨tail, htail⟩ : ∃ tail, st.tail = some tail :=
      ⟨_, hbuilt.tail.trans (List.getLast?_eq_some_getLast hne')⟩
    have hchain := hbuilt.chain
    rw [htail] at hchain
    -- the list of the pass ends where its last element is linked to nothing
    have hre' : Reordered hh { st.hh with next := Function.update st.hh.next tail none } l := by
      refine ⟨?_, fun a ha => ?_, hre.prev⟩
      · rw [hre.fields]
      · refine (Function.update_of_ne ?_ _ _).trans (hre.next a ha)
        rintro rfl
        exact ha (hperm.mem_iff.1 (List.mem_of_getLast? (hbuilt.tail.symm.trans htail)))
    by_cases hone : l.length ≤ 2 * n
    · refine ⟨⟨{ st.hh with next := Function.update st.hh.next tail none }, st.list, some tail⟩,
        ?_, ?_, ?_, ?_, hre'⟩
      · simp only [srtLoop, hpass, htail, bind, Except.bind, if_pos ((merges_le_one hn).2 hone)]
      · rw [BottomUp.sortFrom, if_pos hone]
        exact hbuilt.list
      · rw [BottomUp.sortFrom, if_pos hone, ← hbuilt.tail, htail]
      · rw [BottomUp.sortFrom, if_pos hone]
        exact hchain
    · have hinsize : u32 (n * 2) = 2 * n := by
        rw [Nat.mul_comm]
        exact u32_eq (by omega)
      have hk' : 0 < k := by
        rcases Nat.eq_zero_or_pos k with rfl | hpos
        · rw [Nat.zero_add, Nat.pow_one] at hlen
          exact absurd hlen hone
        · exact hpos
      rw [← BottomUp.length_pass (le cmp) n l] at hrounds hlt hlen
      rw [Nat.pow_succ, Nat.mul_assoc] at hlen
      obtain ⟨st', hloop, hlist', htail', hchain', hre''⟩ :=
        @ih { st.hh with next := Function.update st.hh.next tail none } _ (2 * n) (by omega) hne'
          hchain.path (hperm.nodup_iff.2 hnd) hrounds hlt hk' hlen
      rw [BottomUp.sortFrom, if_neg hone]
      refine ⟨st', ?_, hlist', htail', hchain',
        hre'.trans (hre''.mono fun a ha => hperm.mem_iff.1 ha)⟩
      rw [← hbuilt.list] at hloop
      simp only [srtLoop, hpass, htail, bind, Except.bind, hinsize, hloop,
        if_neg fun h => hone ((merges_le_one hn).1 h)]

/-- `HASH_SRT` puts the elements in the order of the merge sort, and changes nothing else. -/
theorem hashSrt_spec [DecidableEq τ] {s : Store α τ} {t : τ} {T : Table α}
    {fcn : List UInt8 → UInt32} (cmp : α → α → Int) (h : Live fcn s t T l) (hne : l ≠ [])
    (hlt : l.length < 2 ^ 32) (hrounds : l.length ≤ rounds) :
    ∃ s' T', hashSrt cmp rounds l.head? s = .ok ((BottomUp.sort (le cmp) l).head?, s') ∧
      Live fcn s' t T' (BottomUp.sort (le cmp) l) ∧ Frame s s' l t ∧ s'.hh.key = s.hh.key := by
  have hpos : 0 < l.length := List.length_pos_iff.2 hne
  have hpow : l.length ≤ 2 ^ l.length * 1 := by
    rw [Nat.mul_one]
    exact Nat.le_of_lt Nat.lt_two_pow_self
  have hpow' : l.length ≤ 2 ^ rounds * 1 :=
    hpow.trans (Nat.mul_le_mul_right 1 (Nat.pow_le_pow_right (by omega) hrounds))
  obtain ⟨st, hloop, hlist, htail, hchain, hre⟩ := srtLoop_spec cmp Nat.one_pos hne h.order.path
    h.buckets.nodup hrounds hlt (by omega) hpow'
  have hsort : BottomUp.sortFrom (le cmp) rounds 1 l = BottomUp.sort (le cmp) l :=
    BottomUp.sortFrom_enough hrounds hpow
  rw [hsort] at hlist htail hchain
  have hperm := BottomUp.sort_perm (le cmp) l
  have htbl : st.hh.tbl = s.hh.tbl := by rw [hre.fields]
  have hkey : st.hh.key = s.hh.key := by rw [hre.fields]
  have hhashv : st.hh.hashv = s.hh.hashv := by rw [hre.fields]
  have hB : Bucketed st.hh T l := by
    rw [hre.fields]
    exact h.buckets.congr (fun _ _ => rfl) (fun _ _ => rfl) fun _ _ => rfl
  have hread : Store.tbl { s with hh := st.hh } (some (l.head hne)) = .ok (t, T) := by
    refine tbl_eq ?_ h.table
    rw [htbl]
    exact h.tbl _ (List.head_mem hne)
  refine ⟨⟨st.hh, Function.update s.tables t (some { T with tail := st.tail })⟩,
    { T with tail := st.tail }, ?_, ⟨Function.update_self t _ _, fun a ha => ?_, fun a ha => ?_,
      hchain, htail, h.items.trans hperm.length_eq.symm, ?_⟩, ⟨fun a ha => ?_, fun t' ht' =>
      Function.update_of_ne ht' _ _⟩, hkey⟩
  · rw [List.head?_eq_some_head hne] at hloop ⊢
    simp only [hashSrt, hloop, bind, Except.bind, hread, hlist, Store.setTable]
  · show st.hh.tbl a = some t
    rw [htbl]
    exact h.tbl a (hperm.mem_iff.1 ha)
  · show st.hh.hashv a = fcn (st.hh.key a)
    rw [hhashv, hkey]
    exact h.hashv a (hperm.mem_iff.1 ha)
  · have hB' := hB.perm hperm.symm
    exact ⟨hB'.log2, hB'.num, hB'.length, hB'.filled, hB'.loaded⟩
  · refine ⟨?_, hre.prev a ha, hre.next a ha, ?_, ?_, ?_, ?_⟩ <;> rw [hre.fields]

end GameServer.Uthash
