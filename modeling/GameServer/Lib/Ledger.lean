/-
  Resources that are obtained, held for a while, and released.

  `Accounts obtained released held lost`: whatever was obtained has been released, is held
  by someone who will release it, or is lost. Resources are counted as often as they occur,
  so releasing one twice, or one that was never obtained, breaks the equation. Once nothing
  is held any more, the books balance if and only if nothing was lost (`settled_iff`).
-/
import Mathlib.Algebra.Group.Units.Basic
import Mathlib.Data.Multiset.OrderedMonoid

namespace Ledger

variable {α : Type*} {obtained released held lost : Multiset α}

def Accounts (obtained released held lost : Multiset α) : Prop :=
  obtained = released + held + lost

theorem Accounts.obtain (h : Accounts obtained released held lost) (r : Multiset α) :
    Accounts (r + obtained) released (held + r) lost := by
  unfold Accounts at h ⊢
  rw [h, add_comm r, add_right_comm, add_assoc released]

theorem Accounts.lose (h : Accounts obtained released held lost) (r : Multiset α) :
    Accounts (r + obtained) released held (r + lost) := by
  unfold Accounts at h ⊢
  rw [h, add_left_comm]

/-- Resources under other names. -/
theorem Accounts.map {β : Type*} (f : α → β) (h : Accounts obtained released held lost) :
    Accounts (obtained.map f) (released.map f) (held.map f) (lost.map f) := by
  unfold Accounts at h ⊢
  rw [h, Multiset.map_add, Multiset.map_add]

/-- All that is held is released. -/
theorem Accounts.release (h : Accounts obtained released held lost) :
    Accounts obtained (held + released) 0 lost := by
  unfold Accounts at h ⊢
  rw [h, add_zero, add_comm held]

/-- When nothing is held, all that was obtained is released, each as often as it was
    obtained, if and only if nothing is lost. -/
theorem Accounts.settled_iff (h : Accounts obtained released 0 lost) :
    released = obtained ↔ lost = 0 := by
  unfold Accounts at h
  rw [h, add_zero, left_eq_add]

end Ledger
