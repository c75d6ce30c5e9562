/-
  C integers on a 64-bit little-endian machine, as far as the program uses them: `int` and
  `ptrdiff_t` arithmetic in two's complement, the conversion of an `int` to `size_t`,
  addition of a byte offset to a pointer and the difference of two pointers, and the four
  bytes of an `int` in memory.

  Values are `Int`; an operation whose exact result leaves the range wraps. Each operation
  has one lemma that says when it is exact.
-/
import Mathlib.Algebra.Ring.Int.Defs
import Mathlib.Algebra.Ring.Nat

namespace CInt

/-- `int` arithmetic: the exact result, wrapped to 32 bits. -/
def i32 (x : Int) : Int := x.bmod (2 ^ 32)

/-- `ptrdiff_t` arithmetic: the exact result, wrapped to 64 bits. -/
def i64 (x : Int) : Int := x.bmod (2 ^ 64)

/-- Conversion of a signed value to `size_t`. -/
def sizeT (x : Int) : Nat := (x % 2 ^ 64).toNat

/-- The value of a `char`, which is signed. -/
def schar (c : UInt8) : Int := (c.toNat : Int).bmod (2 ^ 8)

/-- Conversion of an `int` to `unsigned`. -/
def u32 (x : Int) : Nat := (x % 2 ^ 32).toNat

/-- `INT_MAX`. -/
def intMax : Int := 2147483647

/-- `INT_MIN`. -/
def intMin : Int := -2147483648

/-- An exact result that an `int` can hold. -/
def InInt (x : Int) : Prop := intMin ≤ x ∧ x ≤ intMax

instance (x : Int) : Decidable (InInt x) := inferInstanceAs (Decidable (_ ∧ _))

/-- `p + offset` on `char *`. -/
def ptrAdd (p offset : Int) : Int := (p + offset) % 2 ^ 64

/-- `p - q` on `char *`. -/
def ptrDiff (p q : Int) : Int := i64 (p - q)

theorem i32_eq {x : Int} (hlo : intMin ≤ x) (hhi : x ≤ intMax) : i32 x = x := by
  unfold intMin at hlo
  unfold intMax at hhi
  exact Int.bmod_eq_of_le_mul_two (by omega) (by omega)

theorem i64_eq {x : Int} (hlo : -2 ^ 63 ≤ x) (hhi : x < 2 ^ 63) : i64 x = x :=
  Int.bmod_eq_of_le_mul_two (by omega) (by omega)

/-- An `int` conversion that ends below `n` comes from `n` consecutive values, up to a
    multiple of `2 ^ 32`. -/
theorem i32_lt_iff {x n : Int} (hn : n ≤ intMax) :
    0 ≤ i32 x ∧ i32 x < n ↔ ∃ j, j * 2 ^ 32 ≤ x ∧ x < j * 2 ^ 32 + n := by
  unfold intMax at hn
  have hdef := Int.bmod_def x (2 ^ 32)
  have hdiv := Int.mul_ediv_add_emod x (2 ^ 32)
  unfold i32
  constructor
  · intro hlt
    refine ⟨x / 2 ^ 32, ?_⟩
    split at hdef <;> omega
  · rintro ⟨j, hlo, hhi⟩
    split at hdef <;> omega

/-- An `int` conversion that gives `t` comes from `t`, up to a multiple of `2 ^ 32`. -/
theorem i32_eq_iff {x t : Int} (hlo : 0 ≤ t) (hhi : t ≤ intMax) :
    i32 x = t ↔ ∃ j, x = j * 2 ^ 32 + t := by
  unfold intMax at hhi
  have hdef := Int.bmod_def x (2 ^ 32)
  have hdiv := Int.mul_ediv_add_emod x (2 ^ 32)
  unfold i32
  constructor
  · intro heq
    refine ⟨x / 2 ^ 32, ?_⟩
    split at hdef <;> omega
  · rintro ⟨j, hj⟩
    split at hdef <;> omega

theorem inInt_i32 (x : Int) : InInt (i32 x) := by
  have hlo := Int.le_bmod (x := x) (m := 2 ^ 32) (by decide)
  have hhi := Int.bmod_lt (x := x) (m := 2 ^ 32) (by decide)
  unfold InInt intMin intMax i32
  omega

/-- A length is converted to at most itself. -/
theorem i32_toNat_le (n : Nat) : (i32 n).toNat ≤ n := by
  have hdef := Int.bmod_def (n : Int) (2 ^ 32)
  unfold i32
  split at hdef <;> omega

/-- A sum and a product depend on their operands modulo `2 ^ 32`. -/
theorem i32_add (x y : Int) : i32 (i32 x + i32 y) = i32 (x + y) := by
  unfold i32
  rw [Int.add_bmod_bmod, Int.bmod_add_bmod]

theorem i32_mul (x y : Int) : i32 (i32 x * y) = i32 (x * y) := Int.bmod_mul_bmod

theorem u32_lt (x : Int) : u32 x < 2 ^ 32 := by
  unfold u32
  omega

theorem u32_eq {x : Int} (hlo : 0 ≤ x) (hhi : x < 2 ^ 32) : (u32 x : Int) = x := by
  unfold u32
  omega

/-- The detour through `unsigned`. -/
theorem i32_u32 (x : Int) : i32 (u32 x) = i32 x := by
  have hemod : (u32 x : Int) = x % 2 ^ 32 := Int.toNat_of_nonneg (Int.emod_nonneg _ (by decide))
  unfold i32
  rw [hemod]
  exact Int.emod_bmod x (2 ^ 32)

theorem u32_i32 (x : Int) : u32 (i32 x) = u32 x := by
  have hmod : (i32 x) % 2 ^ 32 = x % 2 ^ 32 := Int.bmod_emod
  unfold u32
  rw [hmod]

theorem sizeT_eq {x : Int} (hlo : 0 ≤ x) (hhi : x ≤ intMax) : (sizeT x : Int) = x := by
  unfold intMax at hhi
  unfold sizeT
  omega

theorem ptrAdd_eq {p offset : Int} (hlo : 0 ≤ p + offset) (hhi : p + offset < 2 ^ 64) :
    ptrAdd p offset = p + offset := Int.emod_eq_of_lt hlo hhi

/-! ## An `int` in memory -/

/-- The four bytes of `x`, low byte first. -/
def intBytes (x : Int) : List UInt8 :=
  (List.range 4).map fun i => UInt8.ofNat ((x % 2 ^ 32).toNat / 256 ^ i)

/-- The `int` whose low byte is byte `i` of `bs`; a byte past the end reads as 0. -/
def readInt (bs : List UInt8) (i : Nat) : Int :=
  i32 ((bs.getD i 0).toNat + 256 * (bs.getD (i + 1) 0).toNat +
    256 ^ 2 * (bs.getD (i + 2) 0).toNat + 256 ^ 3 * (bs.getD (i + 3) 0).toNat)

/-- Only the four bytes of the field matter. -/
theorem readInt_congr {bs cs : List UInt8} {i : Nat}
    (h : ∀ j, i ≤ j → j < i + 4 → bs.getD j 0 = cs.getD j 0) : readInt bs i = readInt cs i := by
  unfold readInt
  rw [h i (by omega) (by omega), h (i + 1) (by omega) (by omega),
    h (i + 2) (by omega) (by omega), h (i + 3) (by omega) (by omega)]

end CInt
