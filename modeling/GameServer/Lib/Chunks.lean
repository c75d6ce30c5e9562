/-
  Items laid out in consecutive chunks: `first` of them in chunk 0, `more` in every other.

  `start` is the number of items before a chunk. The chunk an item is in, its place there,
  and the number of chunks that the first items need are given by division (`chunkOf`,
  `placeOf`, `chunkCount`); the rules say that they are what the starts of the chunks imply
  (`chunkOf_eq`, `placeOf_eq`, `chunkCount_eq`), and so division does not occur elsewhere.
-/
import Mathlib.Algebra.Order.Ring.Int

namespace Chunks

/-- The number of items in chunk `k`. -/
def size (first more : Int) (k : Nat) : Int := if k = 0 then first else more

/-- The number of items in the chunks before `k`. -/
def start (first more : Int) : Nat → Int
  | 0 => 0
  | k + 1 => start first more k + size first more k

/-- The chunk of item `m`. -/
def chunkOf (first more m : Int) : Nat :=
  if m < first then 0 else 1 + ((m - first) / more).toNat

/-- The place of item `m` in its chunk. -/
def placeOf (first more m : Int) : Int := if m < first then m else (m - first) % more

/-- The number of chunks for `m` items: chunk 0, and what the items behind it need. -/
def chunkCount (first more m : Int) : Nat :=
  1 + ((max 0 (m - first) + (more - 1)) / more).toNat

section Rules

variable {first more m : Int} {k : Nat}

theorem start_succ (first more : Int) (k : Nat) : start first more (k + 1) = first + k * more := by
  induction k with
  | zero => simp [start, size]
  | succ k ih =>
    rw [start, ih, size, if_neg (Nat.succ_ne_zero k), Nat.cast_succ, Int.add_mul, Int.one_mul]
    omega

/-- Division by `more` of an item behind chunk 0. -/
theorem div_mod_eq (hmore : 0 < more) (hlo : start first more (k + 1) ≤ m)
    (hhi : m < start first more (k + 2)) :
    (m - first) / more = k ∧ (m - first) % more = m - start first more (k + 1) := by
  rw [start_succ] at hlo hhi
  rw [Nat.cast_succ, Int.add_mul, Int.one_mul] at hhi
  have hitem : m - first = (m - (first + k * more)) + k * more := by omega
  rw [start_succ, hitem, Int.add_mul_ediv_right _ _ (by omega), Int.add_mul_emod_self_right,
    Int.ediv_eq_zero_of_lt (by omega) (by omega), Int.emod_eq_of_lt (by omega) (by omega)]
  omega

theorem chunkOf_eq (hmore : 0 < more) (hlo : start first more k ≤ m)
    (hhi : m < start first more (k + 1)) : chunkOf first more m = k := by
  unfold chunkOf
  cases k with
  | zero =>
    have hlt : m < 0 + first := hhi
    rw [if_pos (by omega)]
  | succ k =>
    have hdiv := (div_mod_eq hmore hlo hhi).1
    have hbehind : 0 ≤ (k : Int) * more := Int.mul_nonneg (by omega) (by omega)
    rw [start_succ] at hlo
    rw [if_neg (by omega), hdiv]
    omega

theorem placeOf_eq (hmore : 0 < more) (hlo : start first more k ≤ m)
    (hhi : m < start first more (k + 1)) : placeOf first more m = m - start first more k := by
  unfold placeOf
  cases k with
  | zero =>
    have hlt : m < 0 + first := hhi
    rw [if_pos (by omega)]
    exact (Int.sub_zero m).symm
  | succ k =>
    have hmod := (div_mod_eq hmore hlo hhi).2
    have hbehind : 0 ≤ (k : Int) * more := Int.mul_nonneg (by omega) (by omega)
    rw [start_succ] at hlo
    rw [if_neg (by omega), hmod]

/-- `k + 1` chunks, where the last is begun unless it is chunk 0. -/
theorem chunkCount_eq (hmore : 0 < more) (hlo : k = 0 ∨ start first more k < m)
    (hhi : m ≤ start first more (k + 1)) : chunkCount first more m = k + 1 := by
  unfold chunkCount
  cases k with
  | zero =>
    have hle : m ≤ 0 + first := hhi
    rw [max_eq_left (by omega), Int.ediv_eq_zero_of_lt (by omega) (by omega)]
    rfl
  | succ k =>
    have hlo := hlo.resolve_left (Nat.succ_ne_zero k)
    rw [start_succ] at hlo
    rw [start_succ, Nat.cast_succ, Int.add_mul, Int.one_mul] at hhi
    have hbehind : 0 ≤ (k : Int) * more := Int.mul_nonneg (by omega) (by omega)
    have hsum : max 0 (m - first) + (more - 1) =
        (m - (first + k * more) - 1) + (k + 1) * more := by
      rw [max_eq_right (by omega), Int.add_mul, Int.one_mul]
      omega
    rw [hsum, Int.add_mul_ediv_right _ _ (by omega),
      Int.ediv_eq_zero_of_lt (by omega) (by omega)]
    omega

end Rules

end Chunks
