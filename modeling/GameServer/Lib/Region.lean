/-
  Address ranges and the slots of fixed width inside them.

  A region is what an allocator hands out. `slot base width k` is the address of the `k`-th
  element of an array that starts at `base`. Slots of one array are told apart by their
  index, slots of two regions that do not overlap by their region (`slot_inj`,
  `slot_ne_of_apart`).
-/
import Mathlib.Algebra.Ring.Int.Defs
import Mathlib.Algebra.Ring.Nat

/-- `size` bytes from address `base` on. -/
structure Region where
  base : Int
  size : Nat
  deriving DecidableEq, Repr

namespace Region

/-- The two regions share no byte. -/
def Apart (a b : Region) : Prop := a.base + a.size ≤ b.base ∨ b.base + b.size ≤ a.base

/-- Not at the null pointer, and inside a 64-bit address space. -/
def InSpace (a : Region) : Prop := 0 < a.base ∧ a.base + a.size ≤ 2 ^ 64

/-- The address lies in the region. -/
def Contains (a : Region) (p : Int) : Prop := a.base ≤ p ∧ p < a.base + a.size

instance (a : Region) (p : Int) : Decidable (Contains a p) := inferInstanceAs (Decidable (_ ∧ _))

instance (a b : Region) : Decidable (Apart a b) := inferInstanceAs (Decidable (_ ∨ _))

instance (a : Region) : Decidable (InSpace a) := inferInstanceAs (Decidable (_ ∧ _))

theorem Apart.symm {a b : Region} (h : Apart a b) : Apart b a := Or.symm h

/-- Address of element `k` of an array of elements of `width` bytes at `base`. -/
def slot (base width k : Int) : Int := base + k * width

theorem slot_inj {base width k l : Int} (hw : 0 < width)
    (h : slot base width k = slot base width l) : k = l := by
  unfold slot at h
  exact Int.eq_of_mul_eq_mul_right (Int.ne_of_gt hw) (by omega)

/-- Element `k` of an array of at least `k + 1` elements starts inside it and ends inside it. -/
theorem slot_bounds (base : Int) {width k n : Int} (hw : 0 < width) (hk : 0 ≤ k) (hkn : k < n) :
    base ≤ slot base width k ∧ slot base width k + width ≤ base + n * width := by
  unfold slot
  have hlo : 0 ≤ k * width := Int.mul_nonneg hk (Int.le_of_lt hw)
  have hhi : (k + 1) * width ≤ n * width :=
    Int.mul_le_mul_of_nonneg_right (by omega) (Int.le_of_lt hw)
  rw [Int.add_mul, Int.one_mul] at hhi
  omega

/-- Elements of arrays in two regions that do not overlap have different addresses. -/
theorem slot_ne_of_apart {a b : Region} {width k l n m : Int} (hab : Apart a b) (hw : 0 < width)
    (ha : n * width ≤ a.size) (hb : m * width ≤ b.size) (hk : 0 ≤ k) (hkn : k < n)
    (hl : 0 ≤ l) (hlm : l < m) : slot a.base width k ≠ slot b.base width l := by
  have hka := slot_bounds a.base hw hk hkn
  have hlb := slot_bounds b.base hw hl hlm
  rcases hab with h | h <;> omega

end Region
