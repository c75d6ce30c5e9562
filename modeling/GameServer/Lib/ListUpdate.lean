/-
  Lists of records in which one entry is replaced: what a projection of the entries, a sum
  over them or a property of all of them does under `List.set` and `List.modify`.
-/
import Mathlib.Algebra.Ring.Int.Defs
import Mathlib.Algebra.Ring.Nat
import Mathlib.Tactic.TypeStar

namespace ListUpdate

variable {α β : Type*}

/-- An update that keeps the projection `f` of the entry keeps the projection of the list. -/
theorem map_set_eq {l : List α} {i : Nat} {a b : α} {f : α → β} (ha : l[i]? = some a)
    (hf : f b = f a) : (l.set i b).map f = l.map f := by
  obtain ⟨hi, rfl⟩ := List.getElem?_eq_some_iff.1 ha
  apply List.ext_getElem?
  intro j
  rw [List.getElem?_map, List.getElem?_map, List.getElem?_set]
  by_cases hij : i = j
  · subst hij
    simp [hi, hf]
  · simp [hij]

theorem map_modify_eq (l : List α) (i : Nat) {f : α → β} {g : α → α} (hf : ∀ a, f (g a) = f a) :
    (l.modify i g).map f = l.map f := by
  apply List.ext_getElem?
  intro j
  rw [List.getElem?_map, List.getElem?_map, List.getElem?_modify]
  cases l[j]? with
  | none => simp
  | some a => by_cases hij : i = j <;> simp [hij, hf]

theorem sum_map_set {l : List α} {i : Nat} {a b : α} {f : α → Int} (ha : l[i]? = some a) :
    ((l.set i b).map f).sum = (l.map f).sum - f a + f b := by
  induction l generalizing i with
  | nil => simp at ha
  | cons x l ih =>
    cases i with
    | zero =>
      obtain rfl : x = a := by simpa using ha
      simp only [List.set_cons_zero, List.map_cons, List.sum_cons]
      omega
    | succ i =>
      have h := ih (i := i) (by simpa using ha)
      simp only [List.set_cons_succ, List.map_cons, List.sum_cons, h]
      omega

/-- An entry after an entry was replaced. -/
theorem set_cases {l : List α} {i j : Nat} {a b : α} (hb : (l.set i a)[j]? = some b) :
    j = i ∧ b = a ∨ j ≠ i ∧ l[j]? = some b := by
  rw [List.getElem?_set] at hb
  by_cases hij : i = j
  · rw [if_pos hij] at hb
    split at hb
    · exact Or.inl ⟨hij.symm, (Option.some.inj hb).symm⟩
    · cases hb
  · rw [if_neg hij] at hb
    exact Or.inr ⟨Ne.symm hij, hb⟩

theorem singleton_cases {a b : α} {i : Nat} (hb : [a][i]? = some b) : i = 0 ∧ b = a := by
  rw [List.getElem?_singleton] at hb
  split at hb
  · next h0 => exact ⟨h0, (Option.some.inj hb).symm⟩
  · cases hb

theorem set_eq_modify {l : List α} {i : Nat} {a : α} (ha : l[i]? = some a) {f : α → α} :
    l.set i (f a) = l.modify i f := by
  apply List.ext_getElem?
  intro j
  rw [List.getElem?_set, List.getElem?_modify]
  by_cases hj : i = j
  · subst hj
    rw [if_pos rfl, ha, if_pos (List.getElem?_eq_some_iff.1 ha).1]
    simp
  · simp [hj]

theorem mem_modify {l : List α} {i : Nat} {g : α → α} {x : α} (hx : x ∈ l.modify i g) :
    x ∈ l ∨ ∃ a, l[i]? = some a ∧ x = g a := by
  obtain ⟨j, hj, rfl⟩ := List.getElem_of_mem hx
  rw [List.getElem_modify]
  rw [List.length_modify] at hj
  by_cases hij : i = j
  · subst hij
    rw [if_pos rfl]
    exact Or.inr ⟨l[i], List.getElem?_eq_getElem hj, rfl⟩
  · rw [if_neg hij]
    exact Or.inl (List.getElem_mem hj)

/-- What holds of all entries holds after an update, if it holds of the new entry. -/
theorem forall_set {P : α → Prop} {l : List α} (hall : ∀ x ∈ l, P x) (i : Nat) {a : α} (ha : P a) :
    ∀ x ∈ l.set i a, P x := by
  intro x hx
  rcases List.mem_or_eq_of_mem_set hx with hold | rfl
  · exact hall x hold
  · exact ha

theorem forall_modify {P : α → Prop} {l : List α} (hall : ∀ x ∈ l, P x) {i : Nat} {g : α → α}
    (hg : ∀ a, l[i]? = some a → P (g a)) : ∀ x ∈ l.modify i g, P x := by
  intro x hx
  rcases mem_modify hx with hold | ⟨a, ha, rfl⟩
  · exact hall x hold
  · exact hg a ha

/-- Two entries of a list whose entries are pairwise related are the same or related. -/
theorem eq_or_rel_of_pairwise {R : α → α → Prop} (hR : ∀ a b, R a b → R b a) {l : List α}
    (hl : l.Pairwise R) {i j : Nat} {a b : α} (ha : l[i]? = some a) (hb : l[j]? = some b) :
    i = j ∨ R a b := by
  obtain ⟨hi, rfl⟩ := List.getElem?_eq_some_iff.1 ha
  obtain ⟨hj, rfl⟩ := List.getElem?_eq_some_iff.1 hb
  rcases Nat.lt_trichotomy i j with h | h | h
  · exact Or.inr (List.pairwise_iff_getElem.1 hl i j hi hj h)
  · exact Or.inl h
  · exact Or.inr (hR _ _ (List.pairwise_iff_getElem.1 hl j i hj hi h))

/-- A list of lists around one of its entries. -/
theorem flatten_split {L : List (List α)} {i : Nat} {l : List α} (hl : L[i]? = some l) :
    ∃ rest, L.flatten.Perm (l ++ rest) ∧ ∀ l', (L.set i l').flatten.Perm (l' ++ rest) := by
  induction L generalizing i with
  | nil => cases hl
  | cons x L ih =>
    cases i with
    | zero =>
      obtain rfl : x = l := Option.some.inj hl
      exact ⟨L.flatten, List.Perm.refl _, fun l' => List.Perm.refl _⟩
    | succ i =>
      obtain ⟨rest, hold, hnew⟩ := ih (i := i) hl
      exact ⟨x ++ rest, (hold.append_left x).trans (List.perm_append_comm_assoc x l rest),
        fun l' => ((hnew l').append_left x).trans (List.perm_append_comm_assoc x l' rest)⟩

/-- The first lists, one after the other. -/
theorem flatten_take_succ {L : List (List α)} {m : Nat} {l : List α} (hl : L[m]? = some l) :
    (L.take (m + 1)).flatten = (L.take m).flatten ++ l := by
  rw [List.take_add_one, hl, List.flatten_append, Option.toList_some, List.flatten_singleton]

theorem flatten_take_sublist (L : List (List α)) (m : Nat) :
    (L.take m).flatten.Sublist L.flatten := by
  conv_rhs => rw [← List.take_append_drop m L, List.flatten_append]
  exact List.sublist_append_left _ _

/-- Reading a list at all its positions, in order. -/
theorem filterMap_range (l : List α) : (List.range l.length).filterMap (l[·]?) = l := by
  induction l with
  | nil => rfl
  | cons a l ih =>
    rw [List.length_cons, List.range_succ_eq_map, List.filterMap_cons, List.filterMap_map]
    simpa [Function.comp_def] using ih

end ListUpdate
