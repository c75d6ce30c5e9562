/-
  Stretches of a list that stands for memory: `slice l p n` are the `n` elements from
  position `p`, `overwrite l p data` is the list after `data` was stored at `p`.
-/
import Mathlib.Data.List.Basic

namespace GameServer.Slice

variable {α : Type*} {l data : List α} {p q m n : Nat}

def slice (l : List α) (p n : Nat) : List α := (l.drop p).take n

def overwrite (l : List α) (p : Nat) (data : List α) : List α :=
  l.take p ++ data ++ l.drop (p + data.length)

@[simp] theorem slice_zero (l : List α) (p : Nat) : slice l p 0 = [] := rfl

theorem length_slice (h : p + n ≤ l.length) : (slice l p n).length = n := by
  unfold slice
  rw [List.length_take, List.length_drop]
  omega

theorem slice_add (l : List α) (p m n : Nat) :
    slice l p (m + n) = slice l p m ++ slice l (p + m) n := by
  unfold slice
  rw [List.take_add, List.drop_drop]

theorem take_slice (h : m ≤ n) : (slice l p n).take m = slice l p m := by
  unfold slice
  rw [List.take_take, Nat.min_eq_left h]

theorem drop_slice (l : List α) (p m n : Nat) :
    (slice l p n).drop m = slice l (p + m) (n - m) := by
  unfold slice
  rw [List.drop_take, List.drop_drop]

theorem length_overwrite (h : p + data.length ≤ l.length) :
    (overwrite l p data).length = l.length := by
  unfold overwrite
  rw [List.length_append, List.length_append, List.length_take, List.length_drop]
  omega

/-- What was stored is read back. -/
theorem slice_overwrite (h : p ≤ l.length) : slice (overwrite l p data) p data.length = data := by
  unfold slice overwrite
  rw [List.append_assoc, List.drop_append_of_le_length (by rw [List.length_take]; omega),
    List.drop_eq_nil_of_le (by rw [List.length_take]; omega), List.nil_append,
    List.take_left]

/-- Nothing before the store changes. -/
theorem slice_overwrite_before (h : q + n ≤ p) (hp : p ≤ l.length) :
    slice (overwrite l p data) q n = slice l q n := by
  unfold slice overwrite
  rw [List.append_assoc, List.drop_append_of_le_length (by rw [List.length_take]; omega),
    List.take_append_of_le_length (by rw [List.length_drop, List.length_take]; omega),
    List.drop_take, List.take_take, Nat.min_eq_left (by omega)]

/-- A store behind a stretch makes it longer by what was stored. -/
theorem slice_overwrite_append (h : q + n ≤ l.length) :
    slice (overwrite l (q + n) data) q (n + data.length) = slice l q n ++ data := by
  rw [slice_add, slice_overwrite_before (Nat.le_refl _) h, slice_overwrite h]

end GameServer.Slice
