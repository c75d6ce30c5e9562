/-
  Strings in memory: which bytes a string occupies, and its reversal in place by swaps.

  Memory is a function of the address. `Spells b a s`: the string `s` stands at address `a`.
  Swapping the ends of a range and moving inwards leaves the range partly mirrored
  (`swap_mirrored`), and reversed once the two positions have met (`mirrored_done`).
-/
import Mathlib.Algebra.Ring.Int.Defs
import Mathlib.Algebra.Ring.Nat
import Mathlib.Logic.Function.Basic
import Mathlib.Tactic.TypeStar

namespace InPlace

variable {α : Type*}

/-- `s` stands at address `a`. -/
def Spells (b : Int → α) (a : Int) (s : List α) : Prop :=
  ∀ (m : Nat) (c : α), s[m]? = some c → b (a + m) = c

section Spells

variable {b b' : Int → α} {a : Int} {s t : List α}

theorem spells_nil (b : Int → α) (a : Int) : Spells b a [] := by
  intro m c hc
  simp at hc

theorem spells_cons {c : α} : Spells b a (c :: s) ↔ b a = c ∧ Spells b (a + 1) s := by
  constructor
  · intro h
    refine ⟨by simpa using h 0 c rfl, fun m d hd => ?_⟩
    have hnext := h (m + 1) d (by simpa using hd)
    rw [← hnext]
    congr 1
    push_cast
    omega
  · rintro ⟨h0, h⟩ m d hd
    cases m with
    | zero =>
      obtain rfl : c = d := by simpa using hd
      simpa using h0
    | succ m =>
      rw [← h m d (by simpa using hd)]
      congr 1
      push_cast
      omega

/-- Only the bytes of the string matter. -/
theorem Spells.congr (h : Spells b a s)
    (hb : ∀ x, a ≤ x → x < a + s.length → b' x = b x) : Spells b' a s := by
  intro m c hc
  have hm := (List.getElem?_eq_some_iff.1 hc).1
  rw [hb (a + m) (by omega) (by omega)]
  exact h m c hc

theorem spells_append :
    Spells b a (s ++ t) ↔ Spells b a s ∧ Spells b (a + s.length) t := by
  induction s generalizing a with
  | nil => simp [spells_nil]
  | cons c s ih =>
    have hlen : a + ((c :: s).length : Int) = a + 1 + s.length := by
      rw [List.length_cons]
      push_cast
      omega
    rw [List.cons_append, spells_cons, spells_cons, ih, hlen, and_assoc]

end Spells

/-! ## Reversal -/

/-- The entries at `x` and `y` exchanged. -/
def swap (b : Int → α) (x y : Int) : Int → α :=
  Function.update (Function.update b x (b y)) y (b x)

theorem swap_apply (b : Int → α) (x y z : Int) :
    swap b x y z = if z = y then b x else if z = x then b y else b z := by
  unfold swap
  by_cases hy : z = y
  · rw [if_pos hy, hy, Function.update_self]
  · rw [if_neg hy, Function.update_of_ne hy]
    by_cases hx : z = x
    · rw [if_pos hx, hx, Function.update_self]
    · rw [if_neg hx, Function.update_of_ne hx]

/-- The range from `lo` to `hi` with its `t` outer entries on each side mirrored. -/
def mirrored (b : Int → α) (lo hi t : Int) : Int → α := fun x =>
  if lo ≤ x ∧ x < lo + t ∨ hi - t < x ∧ x ≤ hi then b (lo + hi - x) else b x

theorem mirrored_zero (b : Int → α) (lo hi : Int) : mirrored b lo hi 0 = b := by
  funext x
  unfold mirrored
  rw [if_neg (by omega)]

/-- One swap. -/
theorem swap_mirrored (b : Int → α) {lo hi t : Int} (ht : 0 ≤ t) (hmeet : lo + t ≤ hi - t) :
    swap (mirrored b lo hi t) (lo + t) (lo + hi - (lo + t)) = mirrored b lo hi (t + 1) := by
  funext x
  have hleft : mirrored b lo hi t (lo + t) = b (lo + t) := if_neg (by omega)
  have hright : mirrored b lo hi t (lo + hi - (lo + t)) = b (lo + hi - (lo + t)) :=
    if_neg (by omega)
  rw [swap_apply, hleft, hright]
  unfold mirrored
  by_cases hhi : x = lo + hi - (lo + t)
  · rw [if_pos hhi, if_pos (by omega)]
    congr 1
    omega
  · rw [if_neg hhi]
    by_cases hlo : x = lo + t
    · rw [if_pos hlo, if_pos (by omega), hlo]
    · rw [if_neg hlo]
      by_cases hin : lo ≤ x ∧ x < lo + t ∨ hi - t < x ∧ x ≤ hi
      · rw [if_pos hin, if_pos (by omega)]
      · rw [if_neg hin, if_neg (by omega)]

/-- Once the positions have met, the range is reversed. -/
theorem mirrored_done (b : Int → α) {lo hi t x : Int} (hmeet : hi - t ≤ lo + t) (hlo : lo ≤ x)
    (hhi : x ≤ hi) : mirrored b lo hi t x = b (lo + hi - x) := by
  unfold mirrored
  by_cases hin : lo ≤ x ∧ x < lo + t ∨ hi - t < x ∧ x ≤ hi
  · rw [if_pos hin]
  · rw [if_neg hin]
    congr 1
    omega

/-- Outside the range nothing moves. -/
theorem mirrored_outside (b : Int → α) {lo hi t x : Int} (hmeet : lo + t ≤ hi + 1)
    (hx : x < lo ∨ hi < x) : mirrored b lo hi t x = b x := by
  unfold mirrored
  rw [if_neg (by omega)]

theorem spells_reverse {b b' : Int → α} {a hi : Int} {s : List α} (h : Spells b a s)
    (hhi : hi = a + s.length - 1) (hb : ∀ x, a ≤ x → x ≤ hi → b' x = b (a + hi - x)) :
    Spells b' a s.reverse := by
  intro m c hc
  have hm : m < s.length := by
    have hlt := (List.getElem?_eq_some_iff.1 hc).1
    rwa [List.length_reverse] at hlt
  rw [List.getElem?_reverse hm] at hc
  rw [← h _ c hc, hb (a + m) (by omega) (by omega)]
  congr 1
  omega

end InPlace
