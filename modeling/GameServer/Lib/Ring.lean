/-
  Ring buffers with one slot kept free.

  `n` slots, and the positions `head` and `tail` below `n`: the entries are the slots from
  `head` up to `tail`, wrapping after the last one. The ring is empty when the positions
  agree, so one slot always stays unused.

  The rules say what the two operations do to the list of entries: `contents_push` (store at
  `tail`, advance it) appends, `contents_pop` (advance `head`) drops the first. Storing
  outside the entries changes nothing (`contents_update_head`, a slot just left). Advancing
  the `head` of an empty ring is the mistake that turns it into a ring with `n - 1` entries
  (`count_overrun`).
-/
import Mathlib.Logic.Function.Basic
import Mathlib.Tactic.TypeStar

namespace Ring

variable {α : Type*}

/-- The position after `i`. -/
def next (n i : Nat) : Nat := (i + 1) % n

/-- Number of slots from `head` up to `tail`. -/
def count (n head tail : Nat) : Nat := (tail + n - head) % n

/-- The entries, from `head` on. -/
def contents (n : Nat) (slots : Nat → α) (head tail : Nat) : List α :=
  (List.range (count n head tail)).map fun i => slots ((head + i) % n)

section Positions

variable {n head tail : Nat}

theorem next_lt (hh : head < n) : next n head < n := Nat.mod_lt _ (Nat.zero_lt_of_lt hh)

theorem count_lt (hh : head < n) (tail : Nat) : count n head tail < n :=
  Nat.mod_lt _ (Nat.zero_lt_of_lt hh)

/-- `count` without a division. -/
theorem count_cases (hh : head < n) (ht : tail < n) :
    (head ≤ tail ∧ count n head tail + head = tail) ∨
      (tail < head ∧ count n head tail + head = tail + n) := by
  unfold count
  by_cases h : head ≤ tail
  · have heq : tail + n - head = tail - head + n := by omega
    rw [heq, Nat.add_mod_right, Nat.mod_eq_of_lt (by omega)]
    omega
  · rw [Nat.mod_eq_of_lt (by omega)]
    omega

/-- `next` without a division. -/
theorem next_cases (hh : head < n) :
    (head + 1 < n ∧ next n head = head + 1) ∨ (head + 1 = n ∧ next n head = 0) := by
  unfold next
  by_cases h : head + 1 < n
  · rw [Nat.mod_eq_of_lt h]
    omega
  · have heq : head + 1 = n := by omega
    rw [heq, Nat.mod_self]
    omega

theorem count_eq_zero (hh : head < n) (ht : tail < n) : count n head tail = 0 ↔ head = tail := by
  have := count_cases hh ht
  omega

theorem count_push (hh : head < n) (ht : tail < n) (hroom : head ≠ next n tail) :
    count n head (next n tail) = count n head tail + 1 := by
  have := count_cases hh ht
  have := count_cases hh (next_lt ht)
  have := next_cases ht
  omega

theorem count_pop (hh : head < n) (ht : tail < n) (hne : head ≠ tail) :
    count n (next n head) tail + 1 = count n head tail := by
  have := count_cases hh ht
  have := count_cases (next_lt hh) ht
  have := next_cases hh
  omega

/-- Advancing the head of an empty ring makes it look full. -/
theorem count_overrun (hh : head < n) : count n (next n head) head + 1 = n := by
  have := count_cases (next_lt hh) hh
  have := next_cases hh
  omega

/-- All slots but one are used when the tail is right behind the head. -/
theorem count_full_iff (hh : head < n) (ht : tail < n) :
    count n head tail + 1 = n ↔ head = next n tail := by
  have := count_cases hh ht
  have := next_cases ht
  omega

/-- Two positions less than a round apart are different. -/
theorem offset_inj {i j : Nat} (hh : head < n) (hi : i < n) (hj : j < n)
    (h : (head + i) % n = (head + j) % n) : i = j := by
  have hmod : ∀ k, k < n → (head + k) % n = if head + k < n then head + k else head + k - n := by
    intro k hk
    split
    · exact Nat.mod_eq_of_lt ‹_›
    · rw [Nat.mod_eq_sub_mod (by omega), Nat.mod_eq_of_lt (by omega)]
  rw [hmod i hi, hmod j hj] at h
  split at h <;> split at h <;> omega

end Positions

/-! ## Entries -/

section Contents

variable {n head tail : Nat} (slots : Nat → α)

theorem length_contents (n head tail : Nat) :
    (contents n slots head tail).length = count n head tail := by
  simp [contents]

theorem contents_self (n head : Nat) : contents n slots head head = [] := by
  simp [contents, count]

theorem contents_eq_nil (hh : head < n) (ht : tail < n) :
    contents n slots head tail = [] ↔ head = tail := by
  rw [← List.length_eq_zero_iff, length_contents, count_eq_zero hh ht]

/-- A store in a slot that holds no entry. -/
theorem contents_update (tail : Nat) {k : Nat} (hh : head < n) (hk : k < n)
    (hout : count n head tail ≤ k) (a : α) :
    contents n (Function.update slots ((head + k) % n) a) head tail =
      contents n slots head tail := by
  have hlt := count_lt hh tail
  refine List.map_congr_left fun i hi => Function.update_of_ne (fun heq => ?_) _ _
  have hi := List.mem_range.1 hi
  have := offset_inj hh (by omega) hk heq
  omega

theorem contents_push (hh : head < n) (ht : tail < n) (hroom : head ≠ next n tail) (a : α) :
    contents n (Function.update slots tail a) head (next n tail) =
      contents n slots head tail ++ [a] := by
  have hcount := count_push hh ht hroom
  have hlt := count_lt hh (next n tail)
  have hat : (head + count n head tail) % n = tail := by
    rcases count_cases hh ht with ⟨-, h⟩ | ⟨-, h⟩
    · rw [Nat.add_comm, h, Nat.mod_eq_of_lt ht]
    · rw [Nat.add_comm, h, Nat.add_mod_right, Nat.mod_eq_of_lt ht]
  have hold := contents_update slots tail hh (by omega) (Nat.le_refl _) a
  rw [hat] at hold
  rw [← hold]
  unfold contents
  rw [hcount, List.range_succ, List.map_append, List.map_singleton, hat, Function.update_self]

theorem contents_pop (hh : head < n) (ht : tail < n) (hne : head ≠ tail) :
    contents n slots head tail = slots head :: contents n slots (next n head) tail := by
  unfold contents
  rw [← count_pop hh ht hne, List.range_succ_eq_map, List.map_cons, List.map_map, Nat.add_zero,
    Nat.mod_eq_of_lt hh]
  congr 1
  refine List.map_congr_left fun i _ => ?_
  rw [next, Function.comp_apply, Nat.mod_add_mod, Nat.succ_eq_add_one, Nat.add_assoc,
    Nat.add_comm 1 i]

/-- The slot just left holds no entry. -/
theorem contents_update_head (hh : head < n) (ht : tail < n) (hne : head ≠ tail) (a : α) :
    contents n (Function.update slots head a) (next n head) tail =
      contents n slots (next n head) tail := by
  have hn := next_lt hh
  have hat : (next n head + (n - 1)) % n = head := by
    rcases next_cases hh with ⟨h, heq⟩ | ⟨h, heq⟩
    · have hsum : next n head + (n - 1) = head + n := by omega
      rw [hsum, Nat.add_mod_right, Nat.mod_eq_of_lt hh]
    · have hsum : next n head + (n - 1) = head := by omega
      rw [hsum, Nat.mod_eq_of_lt hh]
  have hpop := count_pop hh ht hne
  have hlt := count_lt hh tail
  have hupd := contents_update slots tail hn (show n - 1 < n by omega) (by omega) a
  rwa [hat] at hupd

end Contents

end Ring
