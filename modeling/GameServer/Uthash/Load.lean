/-
  How long the chains get. `expand_mult` lets a bucket that is hit too often grow to a multiple
  of `HASH_BKT_CAPACITY_THRESH` before it doubles the table again.

  What bounds the chains is not the multiplier of one bucket but their sum: a doubling hands
  out a multiplier for every `ideal_chain_maxlen` handles of a chain, so that all of them
  together are at most one for each bucket. The table then never holds more than twenty
  handles for each bucket when it doubles, the next `ideal_chain_maxlen` is at most ten, and
  the multipliers it hands out cover the chains it leaves.
-/
import GameServer.Uthash.Buckets
import Mathlib.Algebra.Order.BigOperators.Group.List
import Mathlib.Algebra.BigOperators.Ring.List
import Mathlib.Algebra.Order.Ring.Nat

namespace GameServer.Uthash

open ListUpdate

variable {α τ : Type} {bs : List (Bucket α)} {b : Bucket α} {ideal i : Nat}

/-- All handles in the buckets. -/
def items (bs : List (Bucket α)) : Nat := (bs.map Bucket.count).sum

/-- The multipliers after a doubling. -/
def Graded (ideal : Nat) (bs : List (Bucket α)) : Prop :=
  ∀ b ∈ bs, b.expandMult = if b.count ≤ ideal then 0 else b.count / ideal

/-- The bound on the chains. -/
structure Loaded (bs : List (Bucket α)) : Prop where
  short : ∀ b ∈ bs, b.count ≤ 10 * (b.expandMult + 1)
  multiple : ∀ b ∈ bs, b.expandMult ≠ 0 → b.count < 10 * (b.expandMult + 1)
  mult : (bs.map Bucket.expandMult).sum ≤ bs.length

theorem sum_thresholds (bs : List (Bucket α)) :
    (bs.map fun b => 10 * (b.expandMult + 1)).sum =
      10 * (bs.map Bucket.expandMult).sum + 10 * bs.length := by
  induction bs with
  | nil => rfl
  | cons b bs ih =>
    simp only [List.map_cons, List.sum_cons, List.length_cons, ih]
    omega

namespace Loaded

/-- A table that is loaded can take one more handle before there are twenty for each bucket. -/
theorem items_lt (h : Loaded bs) (hne : bs ≠ []) : items bs < 20 * bs.length := by
  have hpos : 0 < bs.length := List.length_pos_iff.2 hne
  have hsum := sum_thresholds bs
  have hmult := h.mult
  by_cases hall : ∀ b ∈ bs, b.expandMult = 0
  · have hzero : (bs.map Bucket.expandMult).sum = 0 := List.sum_eq_zero fun m hm => by
      obtain ⟨b, hb, rfl⟩ := List.mem_map.1 hm
      exact hall b hb
    have hle : items bs ≤ (bs.map fun b => 10 * (b.expandMult + 1)).sum :=
      List.sum_le_sum h.short
    omega
  · obtain ⟨b, hb, hb0⟩ : ∃ b ∈ bs, b.expandMult ≠ 0 := by
      by_contra hno
      exact hall fun b hb => by_contra fun hb0 => hno ⟨b, hb, hb0⟩
    have hlt : items bs < (bs.map fun b => 10 * (b.expandMult + 1)).sum :=
      List.sum_lt_sum _ _ h.short ⟨b, hb, h.multiple b hb hb0⟩
    omega

/-- A bucket that stays below its threshold. -/
theorem set (h : Loaded bs) (hb : bs[i]? = some b) {hd : Option α} {count : Nat}
    (hcount : count < 10 * (b.expandMult + 1)) : Loaded (bs.set i ⟨hd, count, b.expandMult⟩) := by
  refine ⟨forall_set h.short i (Nat.le_of_lt hcount), forall_set h.multiple i fun _ => hcount, ?_⟩
  rw [map_set_eq hb, List.length_set]
  · exact h.mult
  · rfl

/-- A bucket that loses a handle. -/
theorem shrink (h : Loaded bs) (hb : bs[i]? = some b) {hd : Option α} {count : Nat}
    (hcount : count < b.count) : Loaded (bs.set i ⟨hd, count, b.expandMult⟩) :=
  h.set hb (Nat.lt_of_lt_of_le hcount (h.short b (List.mem_of_getElem? hb)))

/-- Empty buckets. -/
theorem empty (m : Nat) : Loaded (List.replicate m (⟨none, 0, 0⟩ : Bucket α)) := by
  refine ⟨fun b hb => ?_, fun b hb h0 => ?_, ?_⟩
  · obtain rfl := List.eq_of_mem_replicate hb
    exact Nat.zero_le _
  · obtain rfl := List.eq_of_mem_replicate hb
    exact absurd rfl h0
  · rw [List.map_replicate, List.sum_replicate]
    exact Nat.zero_le _

end Loaded

/-- A doubling leaves the chains covered. -/
theorem Graded.loaded (h : Graded ideal bs) (hpos : 0 < ideal) (hten : ideal ≤ 10)
    (hitems : items bs ≤ ideal * bs.length) : Loaded bs := by
  have hcover : ∀ b ∈ bs, ideal < b.count → b.count < 10 * (b.expandMult + 1) := by
    intro b hb hlt
    rw [h b hb, if_neg (Nat.not_le.2 hlt)]
    calc b.count < ideal * (b.count / ideal + 1) := by
          rw [Nat.mul_comm]
          exact Nat.lt_mul_of_div_lt (Nat.lt_succ_self _) hpos
      _ ≤ 10 * (b.count / ideal + 1) := Nat.mul_le_mul_right _ hten
  refine ⟨fun b hb => ?_, fun b hb h0 => ?_, ?_⟩
  · rcases Nat.lt_or_ge ideal b.count with hlt | hle
    · exact Nat.le_of_lt (hcover b hb hlt)
    · omega
  · refine hcover b hb (Nat.lt_of_not_le fun hle => h0 ?_)
    rw [h b hb, if_pos hle]
  · have hdiv : ∀ b ∈ bs, ideal * b.expandMult ≤ b.count := by
      intro b hb
      rw [h b hb]
      split
      · exact Nat.zero_le _
      · exact Nat.mul_div_le _ _
    have hsum : ideal * (bs.map Bucket.expandMult).sum ≤ items bs := by
      rw [← List.sum_map_mul_left]
      exact List.sum_le_sum hdiv
    exact Nat.le_of_mul_le_mul_left (hsum.trans hitems) hpos

/-- The chains hold what the counters count. -/
theorem Filled.items_eq {hh : Handles α τ} {n : Nat} {cs : List (List α)} (h : Filled hh n bs cs) :
    items bs = cs.flatten.length := by
  rw [List.length_flatten]
  unfold items
  congr 1
  refine List.ext_getElem (by rw [List.length_map, List.length_map, h.length]) fun i hi hi' => ?_
  rw [List.getElem_map, List.getElem_map]
  exact (h.ok i _ _ (List.getElem?_eq_getElem _) (List.getElem?_eq_getElem _)).count

end GameServer.Uthash
