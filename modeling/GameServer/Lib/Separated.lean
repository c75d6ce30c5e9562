/-
  Lists cut at a separator.

  `Cut sep s fields` says that `fields` are what is left of `s` when the leftmost occurrence
  of `sep` is taken out, then the leftmost one behind it, and so on. The cut at a separator
  that is not empty exists and is unique, the fields joined by the separator are `s`, and none
  of them contains it.

  `search` finds the leftmost occurrence. `dropLast_cut_append` compares the cut of a list
  with the cut of the same list and one more separator behind it.
-/
import Mathlib.Data.List.Infix

namespace Separated

variable {α : Type*} {sep field rest s : List α}

/-- In `field ++ sep`, and so in every list that begins like this, no occurrence of `sep`
    begins before the one behind `field`. -/
def Leftmost (sep field : List α) : Prop :=
  ∀ before after, before ++ sep ++ after = field ++ sep → after = []

/-- The fields between the leftmost occurrences of the separator. -/
inductive Cut (sep : List α) : List α → List (List α) → Prop
  | last {s : List α} (h : ¬ sep <:+: s) : Cut sep s [s]
  | more {field rest : List α} {fields : List (List α)} (h : Leftmost sep field)
      (tail : Cut sep rest fields) : Cut sep (field ++ sep ++ rest) (field :: fields)

/-! ## The leftmost occurrence -/

theorem leftmost_nil (sep : List α) : Leftmost sep [] := by
  intro before after heq
  have hlen := congrArg List.length heq
  simp only [List.length_append, List.length_nil] at hlen
  exact List.eq_nil_of_length_eq_zero (by omega)

/-- An occurrence that does not begin at once is leftmost if it is so in the rest. -/
theorem Leftmost.cons {c : α} (hnot : ¬ sep <+: c :: (field ++ sep)) (h : Leftmost sep field) :
    Leftmost sep (c :: field) := by
  intro before after heq
  cases before with
  | nil => exact absurd ⟨after, heq⟩ hnot
  | cons b before =>
    rw [List.cons_append, List.cons_append, List.cons_append, List.cons.injEq] at heq
    exact h before after heq.2

theorem Leftmost.le (h : Leftmost sep field) {before after : List α}
    (heq : field ++ sep ++ rest = before ++ sep ++ after) : field.length ≤ before.length := by
  by_contra hlt
  have hprefix : before ++ sep <+: field ++ sep :=
    List.prefix_of_prefix_length_le ⟨after, rfl⟩ ⟨rest, heq⟩ (by simp; omega)
  obtain ⟨between, hbetween⟩ := hprefix
  have hlen := congrArg List.length hbetween
  rw [h before between hbetween] at hlen
  simp only [List.length_append, List.length_nil] at hlen
  omega

theorem Leftmost.eq {field' rest' : List α} (h : Leftmost sep field) (h' : Leftmost sep field')
    (heq : field ++ sep ++ rest = field' ++ sep ++ rest') : field = field' ∧ rest = rest' := by
  have hlen := le_antisymm (h.le heq) (h'.le heq.symm)
  rw [List.append_assoc, List.append_assoc] at heq
  obtain ⟨hfield, htail⟩ := List.append_inj heq hlen
  exact ⟨hfield, List.append_cancel_left htail⟩

theorem Leftmost.not_infix (hsep : sep ≠ []) (h : Leftmost sep field) : ¬ sep <:+: field := by
  rintro ⟨before, after, rfl⟩
  have hend := h before (after ++ sep) (by simp)
  exact hsep (List.append_eq_nil_iff.1 hend).2

/-- A list that contains the separator contains a leftmost one. -/
theorem exists_leftmost (h : sep <:+: s) :
    ∃ field rest, s = field ++ sep ++ rest ∧ Leftmost sep field := by
  induction s with
  | nil => exact ⟨[], [], by simpa using h, leftmost_nil sep⟩
  | cons c s ih =>
    by_cases hprefix : sep <+: c :: s
    · obtain ⟨rest, hrest⟩ := hprefix
      exact ⟨[], rest, by simpa using hrest.symm, leftmost_nil sep⟩
    · obtain ⟨field, rest, rfl, hfield⟩ := ih ((List.infix_cons_iff.1 h).resolve_left hprefix)
      refine ⟨c :: field, rest, rfl, hfield.cons fun hnow => hprefix ?_⟩
      exact hnow.trans ⟨rest, rfl⟩

/-! ## The cut -/

theorem exists_cut (hsep : sep ≠ []) (s : List α) : ∃ fields, Cut sep s fields := by
  induction hlen : s.length using Nat.strong_induction_on generalizing s with
  | h len ih =>
    by_cases hin : sep <:+: s
    · obtain ⟨field, rest, rfl, hfield⟩ := exists_leftmost hin
      have hpos := List.length_pos_iff.2 hsep
      obtain ⟨fields, htail⟩ := ih rest.length (by simp at hlen; omega) rest rfl
      exact ⟨field :: fields, .more hfield htail⟩
    · exact ⟨[s], .last hin⟩

theorem Cut.ne_nil {fields : List (List α)} (h : Cut sep s fields) : fields ≠ [] := by
  cases h <;> exact List.cons_ne_nil _ _

theorem Cut.unique {fields fields' : List (List α)} (h : Cut sep s fields)
    (h' : Cut sep s fields') : fields = fields' := by
  induction h generalizing fields' with
  | last hnot =>
    cases h' with
    | last => rfl
    | more => exact absurd ⟨_, _, rfl⟩ hnot
  | @more field rest fields hfield tail ih =>
    generalize hs : field ++ sep ++ rest = s at h'
    cases h' with
    | last hnot => exact absurd ⟨_, _, hs⟩ hnot
    | more hfield' tail' =>
      obtain ⟨rfl, rfl⟩ := hfield.eq hfield' hs
      rw [ih tail']

/-- Joining the fields gives the list back. -/
theorem Cut.join {fields : List (List α)} (h : Cut sep s fields) : sep.intercalate fields = s := by
  induction h with
  | last => exact List.intercalate_singleton
  | more hfield tail ih =>
    rw [List.intercalate_cons_of_ne_nil tail.ne_nil, ih]

theorem Cut.not_infix (hsep : sep ≠ []) {fields : List (List α)} (h : Cut sep s fields) :
    ∀ field ∈ fields, ¬ sep <:+: field := by
  induction h with
  | last hnot => exact List.forall_mem_singleton.2 hnot
  | more hfield tail ih => exact List.forall_mem_cons.2 ⟨hfield.not_infix hsep, ih⟩

/-- Every field but the last is followed by a separator, which takes an element at least. -/
theorem Cut.length_le (hsep : sep ≠ []) {fields : List (List α)} (h : Cut sep s fields) :
    fields.length ≤ s.length + 1 := by
  have hpos := List.length_pos_iff.2 hsep
  induction h with
  | last hnot =>
    rw [List.length_singleton]
    omega
  | more hfield tail ih =>
    rw [List.length_cons, List.length_append, List.length_append]
    omega

theorem cut_cons_iff {fields : List (List α)} :
    Cut sep s (field :: fields) ↔ fields = [] ∧ field = s ∧ ¬ sep <:+: s ∨
      ∃ rest, s = field ++ sep ++ rest ∧ Leftmost sep field ∧ Cut sep rest fields := by
  constructor
  · intro h
    cases h with
    | last hnot => exact Or.inl ⟨rfl, rfl, hnot⟩
    | more hfield tail => exact Or.inr ⟨_, rfl, hfield, tail⟩
  · rintro (⟨rfl, rfl, hnot⟩ | ⟨rest, rfl, hfield, tail⟩)
    · exact .last hnot
    · exact .more hfield tail

/-! ## One more separator -/

/-- What is left behind the last separator. -/
def Remainder (sep s t : List α) : Prop := ∃ fields, Cut sep s (fields ++ [t])

/-- The list ends with a piece of the separator that, with a separator behind it, begins
    another one. -/
def Straddled (sep t : List α) : Prop :=
  ∃ u v, sep = u ++ v ∧ u ≠ [] ∧ v ≠ [] ∧ v <+: sep ∧ u <:+ t

theorem exists_remainder (hsep : sep ≠ []) (s : List α) : ∃ t, Remainder sep s t := by
  obtain ⟨fields, hcut⟩ := exists_cut hsep s
  rw [← List.dropLast_append_getLast hcut.ne_nil] at hcut
  exact ⟨_, _, hcut⟩

theorem Remainder.unique {t t' : List α} (h : Remainder sep s t) (h' : Remainder sep s t') :
    t = t' := by
  obtain ⟨fields, hcut⟩ := h
  obtain ⟨fields', hcut'⟩ := h'
  exact (List.append_singleton_inj.1 (hcut.unique hcut')).2

theorem Remainder.not_infix (hsep : sep ≠ []) {t : List α} (h : Remainder sep s t) :
    ¬ sep <:+: t := by
  obtain ⟨fields, hcut⟩ := h
  exact hcut.not_infix hsep t (List.mem_append_right _ (List.mem_singleton_self t))

/-- The separators of `s` are those of `s ++ sep` as well. -/
theorem Cut.append_sep {fields tail : List (List α)} {t : List α}
    (h : Cut sep s (fields ++ [t])) (htail : Cut sep (t ++ sep) tail) :
    Cut sep (s ++ sep) (fields ++ tail) := by
  induction fields generalizing s with
  | nil =>
    rcases cut_cons_iff.1 h with ⟨-, rfl, -⟩ | ⟨rest, -, -, hnone⟩
    · exact htail
    · exact absurd rfl hnone.ne_nil
  | cons field fields ih =>
    rcases cut_cons_iff.1 h with ⟨hnil, -, -⟩ | ⟨rest, rfl, hfield, hrest⟩
    · exact absurd hnil (by simp)
    · rw [List.append_assoc _ rest sep]
      exact .more hfield (ih hrest)

/-- A separator behind a list that does not contain one is leftmost, or begins before. -/
theorem leftmost_iff {t : List α} (hnot : ¬ sep <:+: t) : Leftmost sep t ↔ ¬ Straddled sep t := by
  constructor
  · rintro hleft ⟨u, v, hsep, hu, -, ⟨w, hw⟩, a, rfl⟩
    have hearlier : a ++ sep ++ w = a ++ u ++ sep := by
      calc a ++ sep ++ w = a ++ (u ++ v) ++ w := by rw [← hsep]
        _ = a ++ u ++ (v ++ w) := by simp
        _ = a ++ u ++ sep := by rw [hw]
    have hlen := congrArg List.length hearlier
    rw [hleft a w hearlier] at hlen
    simp only [List.length_append, List.length_nil] at hlen
    exact hu (List.eq_nil_of_length_eq_zero (by omega))
  · intro hstraddled before after heq
    by_contra hafter
    have hpos := List.length_pos_iff.2 hafter
    have hlen := congrArg List.length heq
    simp only [List.length_append] at hlen
    have hbefore : before <+: t :=
      List.prefix_of_prefix_length_le ⟨sep ++ after, by rw [← heq, List.append_assoc]⟩ ⟨sep, rfl⟩
        (by omega)
    obtain ⟨u, rfl⟩ := hbefore
    rw [List.append_assoc, List.append_assoc] at heq
    have hshift : sep ++ after = u ++ sep := List.append_cancel_left heq
    have hout : ¬ sep <+: u := fun hin => hnot (hin.isInfix.trans (List.suffix_append _ _).isInfix)
    have hin : u <+: sep :=
      (List.prefix_or_prefix_of_prefix ⟨sep, rfl⟩ ⟨after, hshift⟩).resolve_right hout
    obtain ⟨v, hv⟩ := hin
    refine hstraddled ⟨u, v, hv.symm, ?_, ?_, ⟨after, ?_⟩, List.suffix_append _ _⟩
    · rintro rfl
      rw [List.append_nil] at hlen
      omega
    · rintro rfl
      rw [List.append_nil] at hv
      exact hout (hv ▸ List.prefix_rfl)
    · nth_rewrite 1 [← hv] at hshift
      rw [List.append_assoc] at hshift
      exact List.append_cancel_left hshift

/-- With a separator behind it a list has the same fields, and an empty one, if and only if
    that separator is leftmost in the remainder. -/
theorem dropLast_cut_append {fields fields' : List (List α)} {t : List α} (hsep : sep ≠ [])
    (h : Cut sep s (fields ++ [t])) (h' : Cut sep (s ++ sep) fields') :
    fields'.dropLast = fields ++ [t] ↔ Leftmost sep t := by
  constructor
  · intro hsame
    obtain ⟨tail, htail⟩ := exists_cut hsep (t ++ sep)
    have heq := h'.unique (h.append_sep htail)
    rw [← List.dropLast_append_getLast h'.ne_nil, hsame, List.append_assoc] at heq
    rw [← List.append_cancel_left heq] at htail
    rcases cut_cons_iff.1 htail with ⟨hnil, -, -⟩ | ⟨rest, -, hleft, -⟩
    · exact absurd hnil (List.cons_ne_nil _ _)
    · exact hleft
  · intro hleft
    have htail : Cut sep (t ++ sep ++ []) [t, []] :=
      .more hleft (.last fun hin => hsep (List.infix_nil.1 hin))
    rw [List.append_nil] at htail
    rw [h'.unique (h.append_sep htail), List.dropLast_append_of_ne_nil (List.cons_ne_nil _ _)]
    rfl

/-! ## Search -/

section Search

variable [DecidableEq α]

/-- Where the leftmost occurrence begins. -/
def search (sep : List α) : List α → Option Nat
  | [] => if sep = [] then some 0 else none
  | c :: s => if sep <+: c :: s then some 0 else (search sep s).map (· + 1)

theorem search_eq_none (h : ¬ sep <:+: s) : search sep s = none := by
  induction s with
  | nil =>
    refine if_neg fun hnil => h ?_
    rw [hnil]
  | cons c s ih =>
    rw [List.infix_cons_iff, not_or] at h
    rw [search, if_neg h.1, ih h.2, Option.map_none]

theorem search_of_prefix (h : sep <+: s) : search sep s = some 0 := by
  cases s with
  | nil => exact if_pos (List.prefix_nil.1 h)
  | cons c s => exact if_pos h

theorem search_leftmost (h : Leftmost sep field) (rest : List α) :
    search sep (field ++ sep ++ rest) = some field.length := by
  induction field with
  | nil => exact search_of_prefix ⟨rest, rfl⟩
  | cons c field ih =>
    have hnot : ¬ sep <+: c :: (field ++ sep ++ rest) := by
      rintro ⟨after, hafter⟩
      have heq : c :: field ++ sep ++ rest = [] ++ sep ++ after := hafter.symm
      exact absurd (h.le heq) (by simp)
    have hfield : Leftmost sep field := by
      intro before after heq
      exact h (c :: before) after (congrArg (c :: ·) heq)
    show search sep (c :: (field ++ sep ++ rest)) = _
    rw [search, if_neg hnot, ih hfield]
    rfl

/-- Positions at which there is no occurrence can be skipped. -/
theorem search_skip {n : Nat} (hn : n ≤ s.length) (h : ∀ i < n, ¬ sep <+: s.drop i) :
    search sep s = (search sep (s.drop n)).map (n + ·) := by
  induction n generalizing s with
  | zero => simp
  | succ n ih =>
    cases s with
    | nil => exact absurd hn (by simp)
    | cons c s =>
      have h0 : ¬ sep <+: c :: s := h 0 (Nat.succ_pos n)
      rw [search, if_neg h0,
        ih (Nat.le_of_succ_le_succ hn) fun i hi => h (i + 1) (Nat.succ_lt_succ hi), Option.map_map,
        List.drop_succ_cons]
      congr 1
      funext k
      simp only [Function.comp_apply]
      omega

theorem search_some_iff {k : Nat} :
    search sep s = some k ↔ k ≤ s.length ∧ sep <+: s.drop k ∧ ∀ i < k, ¬ sep <+: s.drop i := by
  induction s generalizing k with
  | nil =>
    rw [search]
    cases k with
    | zero => simp [eq_comm]
    | succ k =>
      constructor
      · intro h
        split at h <;> cases h
      · exact fun h => absurd h.1 (by simp)
  | cons c s ih =>
    rw [search]
    split
    · next hpre =>
      constructor
      · rintro ⟨⟩
        exact ⟨Nat.zero_le _, hpre, fun i hi => absurd hi (Nat.not_lt_zero i)⟩
      · rintro ⟨-, -, hnone⟩
        cases k with
        | zero => rfl
        | succ k => exact absurd hpre (hnone 0 (Nat.succ_pos k))
    · next hpre =>
      cases k with
      | zero => simpa using hpre
      | succ k =>
        rw [Option.map_eq_some_iff]
        constructor
        · rintro ⟨j, hj, heq⟩
          obtain rfl : j = k := by omega
          obtain ⟨hle, hat, hnone⟩ := ih.1 hj
          refine ⟨Nat.succ_le_succ hle, hat, fun i hi => ?_⟩
          cases i with
          | zero => exact hpre
          | succ i => exact hnone i (Nat.lt_of_succ_lt_succ hi)
        · rintro ⟨hle, hat, hnone⟩
          exact ⟨k, ih.2 ⟨Nat.le_of_succ_le_succ hle, hat,
            fun i hi => hnone (i + 1) (Nat.succ_lt_succ hi)⟩, rfl⟩

theorem search_none_iff : search sep s = none ↔ ∀ i, i ≤ s.length → ¬ sep <+: s.drop i := by
  induction s with
  | nil =>
    rw [search]
    split
    · next h => simp [h]
    · next h => simp [h]
  | cons c s ih =>
    rw [search]
    split
    · next hpre =>
      constructor
      · exact fun h => absurd h (Option.some_ne_none 0)
      · exact fun h => absurd hpre (h 0 (Nat.zero_le _))
    · next hpre =>
      rw [Option.map_eq_none_iff, ih]
      constructor
      · intro h i hi
        cases i with
        | zero => exact hpre
        | succ i => exact h i (Nat.le_of_succ_le_succ hi)
      · exact fun h i hi => h (i + 1) (Nat.succ_le_succ hi)

end Search

end Separated
