/-
  Merge sort from the bottom up: a pass merges neighbouring runs of `n` entries, and the passes
  double `n` until one run covers the list. The comparison is any function to `Bool`; what a
  sort needs of it (`Preordered`) is asked only where the order of the result is stated.

  A pass treats the list in blocks of `2 * n` (`take_pass`, `drop_pass`), so that every fact
  about it is one about `List.merge`.
-/
import Mathlib.Algebra.Ring.Nat
import Mathlib.Tactic.TypeStar
import Mathlib.Data.Nat.Init

namespace BottomUp

variable {α : Type*}

/-- Neighbouring runs of `n` entries, merged. -/
def pass (le : α → α → Bool) (n : Nat) (l : List α) : List α :=
  if n = 0 ∨ l = [] then l
  else (l.take n).merge ((l.drop n).take n) le ++ pass le n (l.drop (2 * n))
termination_by l.length
decreasing_by
  rename_i h
  rw [not_or] at h
  have hpos := List.length_pos_iff.2 h.2
  rw [List.length_drop]
  omega

/-- Passes over runs of `n`, `2 * n`, … entries, at most so many. -/
def sortFrom (le : α → α → Bool) : Nat → Nat → List α → List α
  | 0, _, l => l
  | passes + 1, n, l =>
    if l.length ≤ 2 * n then pass le n l else sortFrom le passes (2 * n) (pass le n l)

def sort (le : α → α → Bool) (l : List α) : List α := sortFrom le l.length 1 l

structure Preordered (le : α → α → Bool) : Prop where
  trans : ∀ a b c, le a b → le b c → le a c
  total : ∀ a b, (le a b || le b a) = true

variable {le : α → α → Bool} {n : Nat} {l l' : List α} {a b : α}

theorem pass_nil : pass le n [] = [] := by
  rw [pass, if_pos (Or.inr rfl)]

theorem pass_cons (hn : n ≠ 0) (hl : l ≠ []) :
    pass le n l = (l.take n).merge ((l.drop n).take n) le ++ pass le n (l.drop (2 * n)) := by
  rw [pass, if_neg]
  rintro (h | h)
  · exact hn h
  · exact hl h

theorem take_block (n : Nat) (l : List α) : l.take n ++ (l.drop n).take n = l.take (2 * n) := by
  rw [Nat.two_mul, List.take_add]

theorem length_block (le : α → α → Bool) (n : Nat) (l : List α) :
    ((l.take n).merge ((l.drop n).take n) le).length = (l.take (2 * n)).length := by
  rw [(List.merge_perm_append le).length_eq, take_block]

theorem pass_perm (le : α → α → Bool) (n : Nat) (l : List α) : (pass le n l).Perm l := by
  induction l using pass.induct n with
  | case1 l h => rw [pass, if_pos h]
  | case2 l h ih =>
    rw [pass, if_neg h]
    refine ((List.merge_perm_append le).append ih).trans ?_
    rw [take_block, List.take_append_drop]

theorem length_pass (le : α → α → Bool) (n : Nat) (l : List α) : (pass le n l).length = l.length :=
  (pass_perm le n l).length_eq

/-- The first block of a pass is the merge of the first two runs. -/
theorem take_pass (hn : n ≠ 0) (l : List α) :
    (pass le n l).take (2 * n) = (l.take n).merge ((l.drop n).take n) le := by
  by_cases hl : l = []
  · subst hl
    rw [pass_nil, List.take_nil, List.take_nil, List.drop_nil, List.take_nil, List.nil_merge]
  · have hlen := length_block le n l
    rw [List.length_take] at hlen
    rw [pass_cons hn hl, List.take_append, List.take_of_length_le (by omega)]
    by_cases hlong : 2 * n ≤ l.length
    · rw [hlen, Nat.min_eq_left hlong, Nat.sub_self, List.take_zero, List.append_nil]
    · rw [List.drop_eq_nil_of_le (i := 2 * n) (by omega), pass_nil, List.take_nil, List.append_nil]

/-- The other blocks are a pass over what is behind the first two runs. -/
theorem drop_pass (hn : n ≠ 0) (l : List α) :
    (pass le n l).drop (2 * n) = pass le n (l.drop (2 * n)) := by
  by_cases hl : l = []
  · subst hl
    rw [pass_nil, List.drop_nil, pass_nil]
  · have hlen := length_block le n l
    rw [List.length_take] at hlen
    rw [pass_cons hn hl, List.drop_append, List.drop_eq_nil_of_le (by omega), List.nil_append]
    by_cases hlong : 2 * n ≤ l.length
    · rw [hlen, Nat.min_eq_left hlong, Nat.sub_self, List.drop_zero]
    · rw [List.drop_eq_nil_of_le (i := 2 * n) (by omega), pass_nil, List.drop_nil]

theorem drop_blocks (hn : n ≠ 0) (i : Nat) (l : List α) :
    (pass le n l).drop (i * (2 * n)) = pass le n (l.drop (i * (2 * n))) := by
  induction i generalizing l with
  | zero => rw [Nat.zero_mul, List.drop_zero, List.drop_zero]
  | succ i ih =>
    rw [Nat.succ_mul, Nat.add_comm, ← List.drop_drop, ← List.drop_drop, drop_pass hn, ih]

/-- A single run is left as it is. -/
theorem pass_short (hlen : l.length ≤ n) : pass le n l = l := by
  by_cases hstop : n = 0 ∨ l = []
  · rw [pass, if_pos hstop]
  · rw [pass, if_neg hstop, List.take_of_length_le hlen, List.drop_eq_nil_of_le hlen,
      List.take_nil, List.merge_right, List.drop_eq_nil_of_le (by omega), pass_nil,
      List.append_nil]

/-- Passes that are not needed. -/
theorem sortFrom_enough {passes more : Nat} (hmore : passes ≤ more)
    (hlen : l.length ≤ 2 ^ passes * n) : sortFrom le more n l = sortFrom le passes n l := by
  induction more generalizing passes n l with
  | zero =>
    obtain rfl : passes = 0 := Nat.le_zero.1 hmore
    rfl
  | succ more ih =>
    cases passes with
    | zero =>
      rw [Nat.pow_zero, Nat.one_mul] at hlen
      show (if l.length ≤ 2 * n then pass le n l else _) = l
      rw [if_pos (by omega), pass_short hlen]
    | succ passes =>
      rw [sortFrom, sortFrom]
      split
      · rfl
      · refine ih (Nat.le_of_succ_le_succ hmore) ?_
        rwa [length_pass, ← Nat.mul_assoc, ← Nat.pow_succ]

/-! ## The result is sorted -/

/-- Every run of `n` entries is sorted. -/
def Runs (le : α → α → Bool) (n : Nat) (l : List α) : Prop :=
  ∀ i, ((l.drop (i * n)).take n).Pairwise (le · ·)

theorem runs_one (le : α → α → Bool) (l : List α) : Runs le 1 l := by
  intro i
  rcases l.drop (i * 1) with _ | ⟨a, _⟩
  · exact List.Pairwise.nil
  · exact List.pairwise_singleton _ a

/-- A pass doubles the sorted runs. -/
theorem Runs.pass (hle : Preordered le) (hn : n ≠ 0) (h : Runs le n l) :
    Runs le (2 * n) (pass le n l) := by
  intro i
  have hfst := h (2 * i)
  have hsnd := h (2 * i + 1)
  have hi : 2 * i * n = i * (2 * n) := by rw [Nat.mul_comm 2 i, Nat.mul_assoc]
  rw [hi] at hfst
  rw [Nat.succ_mul, hi, ← List.drop_drop] at hsnd
  rw [drop_blocks hn, take_pass hn]
  exact List.pairwise_merge hle.trans hle.total _ _ hfst hsnd

theorem Runs.sorted (h : Runs le n l) (hlen : l.length ≤ n) : l.Pairwise (le · ·) := by
  have h0 := h 0
  rwa [Nat.zero_mul, List.drop_zero, List.take_of_length_le hlen] at h0

theorem sortFrom_sorted (hle : Preordered le) {passes : Nat} (hn : n ≠ 0) (h : Runs le n l)
    (hlen : l.length ≤ 2 ^ passes * n) : (sortFrom le passes n l).Pairwise (le · ·) := by
  induction passes generalizing n l with
  | zero =>
    rw [Nat.pow_zero, Nat.one_mul] at hlen
    exact h.sorted hlen
  | succ passes ih =>
    have hrun := h.pass hle hn
    unfold sortFrom
    split
    · next hshort => exact hrun.sorted (by rwa [length_pass])
    · refine ih (by omega) hrun ?_
      rwa [length_pass, ← Nat.mul_assoc, ← Nat.pow_succ]

theorem sort_sorted (hle : Preordered le) (l : List α) : (sort le l).Pairwise (le · ·) := by
  refine sortFrom_sorted hle Nat.one_ne_zero (runs_one le l) ?_
  rw [Nat.mul_one]
  exact Nat.le_of_lt Nat.lt_two_pow_self

theorem sortFrom_perm (le : α → α → Bool) (passes n : Nat) (l : List α) :
    (sortFrom le passes n l).Perm l := by
  induction passes generalizing n l with
  | zero => exact List.Perm.refl l
  | succ passes ih =>
    unfold sortFrom
    split
    · exact pass_perm le n l
    · exact (ih (2 * n) (pass le n l)).trans (pass_perm le n l)

theorem sort_perm (le : α → α → Bool) (l : List α) : (sort le l).Perm l := sortFrom_perm le _ _ l

/-! ## The sort is stable -/

/-- What a merge does to an entry of the first list and one of the second that may stay in
    this order. -/
theorem pair_merge (hle : Preordered le) {xs ys : List α} (hxs : xs.Pairwise (le · ·))
    (ha : a ∈ xs) (hb : b ∈ ys) (hab : le a b) : [a, b].Sublist (xs.merge ys le) := by
  induction xs generalizing ys with
  | nil => cases ha
  | cons x xs ihx =>
    rw [List.pairwise_cons] at hxs
    induction ys with
    | nil => cases hb
    | cons y ys ihy =>
      by_cases hxy : le x y = true
      · rw [List.cons_merge_cons_pos le xs ys hxy]
        rcases List.mem_cons.1 ha with rfl | ha
        · refine List.Sublist.cons_cons a (List.singleton_sublist.2 ?_)
          exact List.mem_merge.2 (Or.inr hb)
        · exact (ihx hxs.2 ha hb).cons x
      · rw [List.cons_merge_cons_neg le xs ys hxy]
        rcases List.mem_cons.1 hb with rfl | hb
        · -- `x` comes before `a` and so before `b`
          refine absurd ?_ hxy
          rcases List.mem_cons.1 ha with rfl | ha
          · exact hab
          · exact hle.trans x a b (hxs.1 a ha) hab
        · exact (ihy hb).cons y

theorem left_sublist_merge (le : α → α → Bool) (xs ys : List α) : xs.Sublist (xs.merge ys le) := by
  induction xs generalizing ys with
  | nil => exact List.nil_sublist _
  | cons x xs ihx =>
    induction ys with
    | nil => simp only [List.merge_right, List.Sublist.refl]
    | cons y ys ihy =>
      by_cases hxy : le x y = true
      · rw [List.cons_merge_cons_pos le xs ys hxy]
        exact (ihx (y :: ys)).cons_cons x
      · rw [List.cons_merge_cons_neg le xs ys hxy]
        exact ihy.cons y

theorem right_sublist_merge (le : α → α → Bool) (xs ys : List α) :
    ys.Sublist (xs.merge ys le) := by
  induction xs generalizing ys with
  | nil => simp only [List.nil_merge, List.Sublist.refl]
  | cons x xs ihx =>
    induction ys with
    | nil => exact List.nil_sublist _
    | cons y ys ihy =>
      by_cases hxy : le x y = true
      · rw [List.cons_merge_cons_pos le xs ys hxy]
        exact (ihx (y :: ys)).cons x
      · rw [List.cons_merge_cons_neg le xs ys hxy]
        exact ihy.cons_cons y

/-- A pair in a concatenation. -/
theorem pair_append {xs ys : List α} (h : [a, b].Sublist (xs ++ ys)) :
    [a, b].Sublist xs ∨ a ∈ xs ∧ b ∈ ys ∨ [a, b].Sublist ys := by
  obtain ⟨us, vs, huv, hus, hvs⟩ := List.sublist_append_iff.1 h
  rcases us with _ | ⟨u, _ | ⟨v, us⟩⟩
  · rw [List.nil_append] at huv
    exact Or.inr (Or.inr (huv ▸ hvs))
  · obtain ⟨rfl, rfl⟩ := List.cons.inj huv
    exact Or.inr (Or.inl ⟨List.singleton_sublist.1 hus, List.singleton_sublist.1 hvs⟩)
  · obtain ⟨rfl, htail⟩ := List.cons.inj huv
    obtain ⟨rfl, hnil⟩ := List.cons.inj htail
    obtain ⟨rfl, -⟩ := List.append_eq_nil_iff.1 hnil.symm
    exact Or.inl hus

theorem mem_pass : a ∈ pass le n l ↔ a ∈ l := (pass_perm le n l).mem_iff

theorem Runs.drop (h : Runs le n l) : Runs le n (l.drop (2 * n)) := by
  intro i
  rw [List.drop_drop, ← Nat.add_mul]
  exact h (2 + i)

/-- A pass over sorted runs keeps every pair that is in order. -/
theorem pass_stable (hle : Preordered le) (h : Runs le n l) (hpair : [a, b].Sublist l)
    (hab : le a b) : [a, b].Sublist (pass le n l) := by
  induction l using pass.induct n with
  | case1 l hstop => rwa [pass, if_pos hstop]
  | case2 l hgo ih =>
    have hfst : (l.take n).Pairwise (le · ·) := by
      have h0 := h 0
      rwa [Nat.zero_mul, List.drop_zero] at h0
    rw [pass, if_neg hgo]
    rw [← List.take_append_drop (2 * n) l, ← take_block] at hpair
    rcases pair_append hpair with hblock | ⟨ha, hb⟩ | hrest
    · refine List.Sublist.trans ?_ (List.sublist_append_left _ _)
      rcases pair_append hblock with hleft | ⟨ha, hb⟩ | hright
      · exact hleft.trans (left_sublist_merge le _ _)
      · exact pair_merge hle hfst ha hb hab
      · exact hright.trans (right_sublist_merge le _ _)
    · have ha' : a ∈ (l.take n).merge ((l.drop n).take n) le :=
        (List.merge_perm_append le).mem_iff.2 ha
      exact (List.singleton_sublist.2 ha').append (List.singleton_sublist.2 (mem_pass.2 hb))
    · exact (ih h.drop hrest).trans (List.sublist_append_right _ _)

theorem sortFrom_stable (hle : Preordered le) {passes : Nat} (hn : n ≠ 0) (h : Runs le n l)
    (hpair : [a, b].Sublist l) (hab : le a b) : [a, b].Sublist (sortFrom le passes n l) := by
  induction passes generalizing n l with
  | zero => exact hpair
  | succ passes ih =>
    have hstable := pass_stable hle h hpair hab
    unfold sortFrom
    split
    · exact hstable
    · exact ih (by omega) (h.pass hle hn) hstable

/-- Entries that may stay in their order do. -/
theorem sort_stable (hle : Preordered le) (hpair : [a, b].Sublist l) (hab : le a b) :
    [a, b].Sublist (sort le l) :=
  sortFrom_stable hle Nat.one_ne_zero (runs_one le l) hpair hab

end BottomUp
