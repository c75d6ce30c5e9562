/-
  Stores under names that must be free.

  `storeNew` stores a value under a name and fails if the name is taken, that is, if
  something other than `free` is stored there. Storing a list of values under distinct names
  succeeds if and only if all of them were free before (`storeAll_eq`), and each value can
  then be read back, while other names keep theirs (`stored_mem`, `stored_other`).
-/
import Mathlib.Data.List.Nodup
import Mathlib.Logic.Function.Basic

namespace WriteOnce

variable {α β ε : Type*} [DecidableEq α]

/-- One store. -/
def storeNew [DecidableEq β] (free : β) (taken : ε) (g : α → β) (e : α × β) : Except ε (α → β) :=
  if g e.1 = free then .ok (Function.update g e.1 e.2) else .error taken

/-- All stores, whether the names are free or not. -/
def stored (g : α → β) (entries : List (α × β)) : α → β :=
  entries.foldl (fun g e => Function.update g e.1 e.2) g

variable {free : β} {taken : ε} {g : α → β} {entries : List (α × β)}

theorem stored_other {a : α} (ha : a ∉ entries.map Prod.fst) : stored g entries a = g a := by
  induction entries generalizing g with
  | nil => rfl
  | cons e entries ih =>
    rw [List.map_cons, List.mem_cons, not_or] at ha
    have hrest := ih (g := Function.update g e.1 e.2) ha.2
    rw [Function.update_of_ne ha.1] at hrest
    exact hrest

theorem stored_mem (hnames : (entries.map Prod.fst).Nodup) {e : α × β} (he : e ∈ entries) :
    stored g entries e.1 = e.2 := by
  induction entries generalizing g with
  | nil => cases he
  | cons d entries ih =>
    rw [List.map_cons, List.nodup_cons] at hnames
    rcases List.mem_cons.1 he with rfl | hrest
    · have hlast := stored_other (g := Function.update g e.1 e.2) hnames.1
      rw [Function.update_self] at hlast
      exact hlast
    · exact ih hnames.2 hrest

/-- Distinct names do not get in each other's way. -/
theorem storeAll_eq [DecidableEq β] (hnames : (entries.map Prod.fst).Nodup) :
    entries.foldlM (storeNew free taken) g =
      if ∀ e ∈ entries, g e.1 = free then .ok (stored g entries) else .error taken := by
  induction entries generalizing g with
  | nil => rw [if_pos (by simp)]; rfl
  | cons e entries ih =>
    rw [List.map_cons, List.nodup_cons] at hnames
    rw [List.foldlM_cons, storeNew]
    by_cases he : g e.1 = free
    · have hkept : ∀ d ∈ entries, Function.update g e.1 e.2 d.1 = g d.1 := by
        intro d hd
        refine Function.update_of_ne (fun heq => hnames.1 ?_) _ _
        exact heq ▸ List.mem_map_of_mem hd
      have hiff : (∀ d ∈ entries, Function.update g e.1 e.2 d.1 = free) ↔
          ∀ d ∈ e :: entries, g d.1 = free := by
        rw [List.forall_mem_cons, and_iff_right he]
        exact forall₂_congr fun d hd => by rw [hkept d hd]
      rw [if_pos he]
      show entries.foldlM (storeNew free taken) (Function.update g e.1 e.2) = _
      rw [ih hnames.2]
      exact if_congr hiff rfl rfl
    · rw [if_neg he, if_neg fun hall => he (hall e List.mem_cons_self)]
      rfl

end WriteOnce
