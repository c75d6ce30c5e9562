/-
  Doubly linked lists.

  `next` and `prev` are what the nodes store. `Chain next prev before l`: the nodes of `l` are
  linked in this order, the last one to nothing and the first one back to `before`. An operation
  is given by the links it changes, and each one has its rule: a node in front (`Chain.cons`),
  at the end (`Chain.snoc`), one taken out (`Chain.erase`), links of other nodes
  (`Chain.congr`). `Path` is the same for the forward links alone.
-/
import Mathlib.Data.List.Basic
import Mathlib.Logic.Function.Basic

namespace DoublyLinked

variable {α : Type*}

def Chain (next prev : α → Option α) : Option α → List α → Prop
  | _, [] => True
  | before, a :: l => prev a = before ∧ next a = l.head? ∧ Chain next prev (some a) l

/-- The nodes of `l` are linked forwards, the last one to `last`. -/
def Path (next : α → Option α) (last : Option α) : List α → Prop
  | [] => True
  | a :: l => next a = l.head?.or last ∧ Path next last l

variable {next next' prev prev' : α → Option α} {before : Option α} {l : List α} {a : α}

/-- Only the links of the nodes of the list matter. -/
theorem Chain.congr (h : Chain next prev before l) (hnext : ∀ b ∈ l, next' b = next b)
    (hprev : ∀ b ∈ l, prev' b = prev b) : Chain next' prev' before l := by
  induction l generalizing before with
  | nil => trivial
  | cons x l ih =>
    obtain ⟨hp, hn, htail⟩ := h
    refine ⟨?_, ?_, ih htail (fun b hb => hnext b (List.mem_cons_of_mem x hb))
      fun b hb => hprev b (List.mem_cons_of_mem x hb)⟩
    · rw [hprev x List.mem_cons_self, hp]
    · rw [hnext x List.mem_cons_self, hn]

theorem Chain.path (h : Chain next prev before l) : Path next none l := by
  induction l generalizing before with
  | nil => trivial
  | cons x l ih => exact ⟨h.2.1.trans (Option.or_none).symm, ih h.2.2⟩

theorem Path.congr {last : Option α} (h : Path next last l) (hnext : ∀ b ∈ l, next' b = next b) :
    Path next' last l := by
  induction l with
  | nil => trivial
  | cons x l ih =>
    exact ⟨(hnext x List.mem_cons_self).trans h.1,
      ih h.2 fun b hb => hnext b (List.mem_cons_of_mem x hb)⟩

theorem Path.append {last : Option α} {l₁ l₂ : List α} :
    Path next last (l₁ ++ l₂) ↔ Path next (l₂.head?.or last) l₁ ∧ Path next last l₂ := by
  induction l₁ with
  | nil => exact ⟨fun h => ⟨trivial, h⟩, fun h => h.2⟩
  | cons x l₁ ih =>
    have hhead : (l₁ ++ l₂).head?.or last = l₁.head?.or (l₂.head?.or last) := by
      rw [List.head?_append, Option.or_assoc]
    constructor
    · rintro ⟨hx, hrest⟩
      exact ⟨⟨hx.trans hhead, (ih.1 hrest).1⟩, (ih.1 hrest).2⟩
    · rintro ⟨⟨hx, h₁⟩, h₂⟩
      exact ⟨hx.trans hhead.symm, ih.2 ⟨h₁, h₂⟩⟩

/-- What a node in the list is linked to. -/
theorem Chain.links {l₁ l₂ : List α} (h : Chain next prev before (l₁ ++ a :: l₂)) :
    next a = l₂.head? ∧ prev a = l₁.getLast?.or before := by
  induction l₁ generalizing before with
  | nil => exact ⟨h.2.1, h.1⟩
  | cons x l₁ ih =>
    obtain ⟨hnext, hprev⟩ := ih h.2.2
    refine ⟨hnext, hprev.trans ?_⟩
    cases l₁ with
    | nil => rfl
    | cons y l₁ =>
      rw [List.getLast?_cons_cons, List.getLast?_cons]
      rfl

/-- The links of a node lead to other nodes of the list, or out of it. -/
theorem Chain.next_mem (h : Chain next prev before l) (hnd : l.Nodup) (ha : a ∈ l) {b : α}
    (hb : next a = some b) : b ∈ l ∧ b ≠ a := by
  obtain ⟨l₁, l₂, rfl⟩ := List.append_of_mem ha
  rw [h.links.1] at hb
  have hmem : b ∈ l₂ := List.mem_of_head? hb
  refine ⟨List.mem_append_right l₁ (List.mem_cons_of_mem a hmem), ?_⟩
  rintro rfl
  exact (List.nodup_cons.1 (List.nodup_append.1 hnd).2.1).1 hmem

theorem Chain.prev_mem (h : Chain next prev none l) (hnd : l.Nodup) (ha : a ∈ l) {b : α}
    (hb : prev a = some b) : b ∈ l ∧ b ≠ a := by
  obtain ⟨l₁, l₂, rfl⟩ := List.append_of_mem ha
  rw [h.links.2, Option.or_none] at hb
  have hmem : b ∈ l₁ := List.mem_of_getLast? hb
  refine ⟨List.mem_append_left _ hmem, ?_⟩
  rintro rfl
  exact (List.nodup_append.1 hnd).2.2 b hmem b List.mem_cons_self rfl

/-- The only node of a list is linked to nothing. -/
theorem Chain.alone_iff (h : Chain next prev none l) (ha : a ∈ l) :
    prev a = none ∧ next a = none ↔ l = [a] := by
  constructor
  · rintro ⟨hprev, hnext⟩
    obtain ⟨l₁, l₂, rfl⟩ := List.append_of_mem ha
    rw [h.links.1, List.head?_eq_none_iff] at hnext
    rw [h.links.2, Option.or_none, List.getLast?_eq_none_iff] at hprev
    rw [hprev, hnext, List.nil_append]
  · rintro rfl
    exact ⟨h.1, h.2.1⟩

/-- The node with nothing before it is the first. -/
theorem Chain.first_iff (h : Chain next prev none l) (hnd : l.Nodup) (ha : a ∈ l) :
    prev a = none ↔ l.head? = some a := by
  obtain ⟨l₁, l₂, rfl⟩ := List.append_of_mem ha
  rw [h.links.2, Option.or_none, List.getLast?_eq_none_iff]
  constructor
  · rintro rfl
    rfl
  · intro hhead
    cases l₁ with
    | nil => rfl
    | cons y l₁ =>
      obtain rfl : y = a := Option.some.inj hhead
      exact absurd (List.mem_append_right l₁ List.mem_cons_self) (List.nodup_cons.1 hnd).1

variable [DecidableEq α]

/-- The first node of a list without one of its nodes. -/
theorem Chain.head_erase (h : Chain next prev before l) :
    (l.erase a).head? = if l.head? = some a then next a else l.head? := by
  cases l with
  | nil => rfl
  | cons x l =>
    by_cases hx : x = a
    · subst hx
      rw [List.erase_cons_head, List.head?_cons, if_pos rfl, h.2.1]
    · rw [List.erase_cons_tail (by simpa using hx), List.head?_cons, List.head?_cons,
        if_neg fun h => hx (Option.some.inj h)]

/-- The last node of a list without one of its nodes. -/
theorem Chain.getLast_erase (h : Chain next prev none l) (hnd : l.Nodup) :
    (l.erase a).getLast? = if l.getLast? = some a then prev a else l.getLast? := by
  by_cases ha : a ∈ l
  · obtain ⟨l₁, l₂, rfl⟩ := List.append_of_mem ha
    have hnd' := List.nodup_append.1 hnd
    have hl₁ : a ∉ l₁ := fun h => hnd'.2.2 a h a List.mem_cons_self rfl
    have hl₂ : a ∉ l₂ := (List.nodup_cons.1 hnd'.2.1).1
    rw [List.erase_append_right _ hl₁, List.erase_cons_head, h.links.2, Option.or_none]
    rcases List.eq_nil_or_concat l₂ with rfl | ⟨l₂, y, rfl⟩
    · rw [List.append_nil, List.getLast?_concat, if_pos rfl]
    · rw [List.concat_eq_append] at hl₂ ⊢
      have hy : ¬ some y = some a := fun heq =>
        hl₂ (List.mem_append_right l₂ (List.mem_singleton.2 (Option.some.inj heq).symm))
      rw [← List.append_assoc, ← List.cons_append, ← List.append_assoc, List.getLast?_concat,
        List.getLast?_concat, if_neg hy]
  · rw [List.erase_of_not_mem ha, if_neg fun h => ha (List.mem_of_getLast? h)]

/-- Another node before the list. -/
theorem Chain.rebase (h : Chain next prev before l) (hnd : l.Nodup) {before' : Option α}
    (hnext : ∀ b ∈ l, next' b = next b)
    (hprev : ∀ b ∈ l, prev' b = if l.head? = some b then before' else prev b) :
    Chain next' prev' before' l := by
  cases l with
  | nil => trivial
  | cons x l =>
    obtain ⟨hp, hn, htail⟩ := h
    rw [List.nodup_cons] at hnd
    refine ⟨?_, ?_, htail.congr (fun b hb => hnext b (List.mem_cons_of_mem x hb)) fun b hb => ?_⟩
    · rw [hprev x List.mem_cons_self, List.head?_cons, if_pos rfl]
    · rw [hnext x List.mem_cons_self, hn]
    · have hne : ¬ some x = some b := fun h => hnd.1 (Option.some.inj h ▸ hb)
      rw [hprev b (List.mem_cons_of_mem x hb), List.head?_cons, if_neg hne]

/-- A node in front. -/
theorem Chain.cons (h : Chain next prev before l) (hnd : l.Nodup) {before' : Option α}
    (ha : next' a = l.head?) (ha' : prev' a = before') (hnext : ∀ b ∈ l, next' b = next b)
    (hprev : ∀ b ∈ l, prev' b = if l.head? = some b then some a else prev b) :
    Chain next' prev' before' (a :: l) :=
  ⟨ha', ha, h.rebase hnd hnext hprev⟩

/-- A node at the end. -/
theorem Chain.snoc (h : Chain next prev before l) (hnd : l.Nodup) (ha : next' a = none)
    (ha' : prev' a = l.getLast?.or before)
    (hnext : ∀ b ∈ l, next' b = if l.getLast? = some b then some a else next b)
    (hprev : ∀ b ∈ l, prev' b = prev b) : Chain next' prev' before (l ++ [a]) := by
  induction l generalizing before with
  | nil => exact ⟨ha', ha, trivial⟩
  | cons x l ih =>
    obtain ⟨hp, hn, htail⟩ := h
    rw [List.nodup_cons] at hnd
    refine ⟨?_, ?_, ih htail hnd.2 ?_ ?_ fun b hb => hprev b (List.mem_cons_of_mem x hb)⟩
    · rw [hprev x List.mem_cons_self, hp]
    · rw [hnext x List.mem_cons_self]
      cases l with
      | nil => exact if_pos rfl
      | cons y l =>
        have hne : ¬ (x :: y :: l).getLast? = some x := by
          rw [List.getLast?_cons_cons]
          exact fun h => hnd.1 (List.mem_of_getLast? h)
        rw [if_neg hne, hn]
        rfl
    · rw [ha']
      cases l with
      | nil => rfl
      | cons y l =>
        rw [List.getLast?_cons_cons, List.getLast?_cons]
        rfl
    · intro b hb
      rw [hnext b (List.mem_cons_of_mem x hb)]
      obtain ⟨y, l, rfl⟩ := List.exists_cons_of_ne_nil (List.ne_nil_of_mem hb)
      rw [List.getLast?_cons_cons]

/-- A node taken out: the one before it is linked to the one behind it. -/
theorem Chain.erase (h : Chain next prev before l) (hnd : l.Nodup) (ha : a ∈ l)
    (hbefore : ∀ b ∈ l, before ≠ some b)
    (hnext : ∀ b ∈ l, b ≠ a → next' b = if prev a = some b then next a else next b)
    (hprev : ∀ b ∈ l, b ≠ a → prev' b = if next a = some b then prev a else prev b) :
    Chain next' prev' before (l.erase a) := by
  induction l generalizing before with
  | nil => trivial
  | cons x l ih =>
    obtain ⟨hp, hn, htail⟩ := h
    rw [List.nodup_cons] at hnd
    by_cases hx : x = a
    · subst hx
      rw [List.erase_cons_head]
      have hne : ∀ b ∈ l, b ≠ x := fun b hb heq => hnd.1 (heq ▸ hb)
      refine htail.rebase hnd.2 (fun b hb => ?_) fun b hb => ?_
      · rw [hnext b (List.mem_cons_of_mem x hb) (hne b hb), hp,
          if_neg (hbefore b (List.mem_cons_of_mem x hb))]
      · rw [hprev b (List.mem_cons_of_mem x hb) (hne b hb), hn, hp]
    · have hal : a ∈ l := (List.mem_cons.1 ha).resolve_left (Ne.symm hx)
      rw [List.erase_cons_tail (by simpa using hx)]
      have hxb : ∀ b ∈ l, some x ≠ some b := fun b hb heq => hnd.1 (Option.some.inj heq ▸ hb)
      refine ⟨?_, ?_, ih htail hnd.2 hal hxb
        (fun b hb => hnext b (List.mem_cons_of_mem x hb))
        fun b hb => hprev b (List.mem_cons_of_mem x hb)⟩
      · -- what is behind the node in the list is not in front of the list
        obtain ⟨l₁, l₂, rfl⟩ := List.append_of_mem hal
        rw [hprev x List.mem_cons_self hx, htail.links.1, if_neg, hp]
        exact fun h => hnd.1 (List.mem_append_right l₁
          (List.mem_cons_of_mem a (List.mem_of_head? h)))
      · rw [hnext x List.mem_cons_self hx]
        cases l with
        | nil => cases hal
        | cons y l =>
          by_cases hy : y = a
          · subst hy
            rw [htail.1, if_pos rfl, htail.2.1, List.erase_cons_head]
          · obtain ⟨l₁, l₂, hsplit⟩ := List.append_of_mem hal
            cases l₁ with
            | nil => exact absurd (List.cons.inj hsplit).1 hy
            | cons z l₁ =>
              have hprev' : prev a ≠ some x := by
                rw [hsplit] at htail hnd
                rw [htail.links.2]
                cases hlast : (z :: l₁).getLast? with
                | none => exact absurd (List.getLast?_eq_none_iff.1 hlast) (List.cons_ne_nil z l₁)
                | some w =>
                  intro h
                  obtain rfl : w = x := Option.some.inj h
                  exact hnd.1 (List.mem_append_left _ (List.mem_of_getLast? hlast))
              rw [if_neg hprev', hn, List.erase_cons_tail (by simpa using hy)]
              rfl

end DoublyLinked
