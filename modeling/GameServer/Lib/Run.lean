/-
  Runs of a deterministic step function: `exec` plays a list of events, `Along` says
  that a condition on (state before, event) holds at every step of a run.

  A system whose next state depends on choices made outside it (a scheduler, the network,
  the system allocator) carries those choices in its events, so that every list of events
  is one run and a claim about all runs quantifies over lists.

  The rules used by the developments on top:
  * `exec_inv`: an invariant kept by every step that meets a condition holds at the end of
    every run along which the condition holds.
  * `along_of_inv`: the same for a property of single steps.
  * `along_iff_of_inv`: a step property that is equivalent to a condition wherever the
    invariant holds is equivalent to it along whole runs, although the invariant itself
    only survives the steps that meet the condition.
  * `foldlM_inv`: where a step may fail, an invariant under which no step does.
-/
import Mathlib.Tactic.TypeStar

namespace Runs

variable {σ ε : Type*}

/-- The state after the events `es`, in order. -/
def exec (step : σ → ε → σ) (s : σ) (es : List ε) : σ := es.foldl step s

/-- `P` holds of the state before and of the event at every step of the run. -/
def Along (step : σ → ε → σ) (P : σ → ε → Prop) : σ → List ε → Prop
  | _, [] => True
  | s, e :: es => P s e ∧ Along step P (step s e) es

instance decAlong (step : σ → ε → σ) (P : σ → ε → Prop) [∀ s e, Decidable (P s e)] :
    (s : σ) → (es : List ε) → Decidable (Along step P s es)
  | _, [] => isTrue trivial
  | s, e :: es =>
      @instDecidableAnd _ _ (inferInstanceAs (Decidable (P s e))) (decAlong step P (step s e) es)

variable {step : σ → ε → σ} {A C P Q : σ → ε → Prop} {Inv : σ → Prop}

@[simp] theorem exec_nil (s : σ) : exec step s [] = s := rfl

@[simp] theorem exec_cons (s : σ) (e : ε) (es : List ε) :
    exec step s (e :: es) = exec step (step s e) es := rfl

theorem exec_concat (s : σ) (es : List ε) (e : ε) :
    exec step s (es ++ [e]) = step (exec step s es) e := by
  rw [exec, List.foldl_append]
  rfl

@[simp] theorem along_nil (s : σ) : Along step P s [] := trivial

@[simp] theorem along_cons (s : σ) (e : ε) (es : List ε) :
    Along step P s (e :: es) ↔ P s e ∧ Along step P (step s e) es := Iff.rfl

theorem along_append (s : σ) (es fs : List ε) :
    Along step P s (es ++ fs) ↔ Along step P s es ∧ Along step P (exec step s es) fs := by
  induction es generalizing s with
  | nil => simp
  | cons e es ih => simp [ih, and_assoc]

theorem along_and (s : σ) (es : List ε) :
    Along step (fun s e => P s e ∧ Q s e) s es ↔ Along step P s es ∧ Along step Q s es := by
  induction es generalizing s with
  | nil => simp
  | cons e es ih => simp [ih, and_assoc, and_left_comm]

/-- A weaker condition. -/
theorem along_mono (h : ∀ s e, P s e → Q s e) {s : σ} {es : List ε} (hP : Along step P s es) :
    Along step Q s es := by
  induction es generalizing s with
  | nil => trivial
  | cons e es ih => exact ⟨h s e hP.1, ih hP.2⟩

/-- A condition on events alone is one on the members of the run. -/
theorem along_event (step : σ → ε → σ) {P : ε → Prop} (s : σ) (es : List ε) :
    Along step (fun _ e => P e) s es ↔ ∀ e ∈ es, P e := by
  induction es generalizing s with
  | nil => simp
  | cons e es ih => simp [ih]

/-- A step of a run, singled out: the condition holds there, from the state reached. -/
theorem along_at {s : σ} (pre : List ε) {post : List ε} {e : ε}
    (h : Along step P s (pre ++ e :: post)) : P (exec step s pre) e :=
  ((along_append s pre (e :: post)).1 h).2.1

/-- The run rule: what every step that meets `C` keeps, a run along `C` keeps. -/
theorem exec_inv (hstep : ∀ s e, Inv s → C s e → Inv (step s e)) {s : σ} {es : List ε}
    (h0 : Inv s) (hC : Along step C s es) : Inv (exec step s es) := by
  induction es generalizing s with
  | nil => exact h0
  | cons e es ih => exact ih (hstep s e h0 hC.1) hC.2

/-- `exec_inv` for a property of single steps. -/
theorem along_of_inv (hstep : ∀ s e, Inv s → C s e → Inv (step s e))
    (hP : ∀ s e, Inv s → C s e → P s e) {s : σ} {es : List ε}
    (h0 : Inv s) (hC : Along step C s es) : Along step P s es := by
  induction es generalizing s with
  | nil => trivial
  | cons e es ih => exact ⟨hP s e h0 hC.1, ih (hstep s e h0 hC.1) hC.2⟩

/-- Exactness along runs. `A` is what the environment grants at every step; up to the first
    step that breaks `C` the invariant holds, and at that step `P` breaks as well. -/
theorem along_iff_of_inv (hstep : ∀ s e, Inv s → A s e → C s e → Inv (step s e))
    (hiff : ∀ s e, Inv s → A s e → (P s e ↔ C s e)) {s : σ} {es : List ε}
    (h0 : Inv s) (hA : Along step A s es) : Along step P s es ↔ Along step C s es := by
  induction es generalizing s with
  | nil => simp
  | cons e es ih =>
    have he := hiff s e h0 hA.1
    constructor
    · rintro ⟨hP, hPs⟩
      have hC := he.1 hP
      exact ⟨hC, (ih (hstep s e h0 hA.1 hC) hA.2).1 hPs⟩
    · rintro ⟨hC, hCs⟩
      exact ⟨he.2 hC, (ih (hstep s e h0 hA.1 hC) hA.2).2 hCs⟩

/-- `along_iff_of_inv` where the environment may do anything. -/
theorem along_iff (hstep : ∀ s e, Inv s → C s e → Inv (step s e))
    (hiff : ∀ s e, Inv s → (P s e ↔ C s e)) {s : σ} (h0 : Inv s) (es : List ε) :
    Along step P s es ↔ Along step C s es := by
  have hA : Along step (fun _ _ => True) s es := (along_event step s es).2 fun _ _ => trivial
  exact along_iff_of_inv (fun s e hi _ => hstep s e hi) (fun s e hi _ => hiff s e hi) h0 hA

/-- An invariant kept by every step whatever the event. -/
theorem exec_inv_all (hstep : ∀ s e, Inv s → Inv (step s e)) {s : σ} (h0 : Inv s)
    (es : List ε) : Inv (exec step s es) := by
  have hall : Along step (fun _ _ => True) s es := (along_event step s es).2 fun _ _ => trivial
  exact exec_inv (fun s e hi _ => hstep s e hi) h0 hall

/-! ## Steps that may fail -/

section Fallible

universe u v

variable {σ : Type u} {φ : Type v} {ε : Type*} {step : σ → ε → Except φ σ} {I : σ → Prop}
  {C : ε → Prop}

/-- The run rule where a step may fail: no step does, as long as the invariant holds. -/
theorem foldlM_inv (hstep : ∀ s e, I s → C e → ∃ s', step s e = .ok s' ∧ I s') {s : σ}
    (h0 : I s) {es : List ε} (hC : ∀ e ∈ es, C e) :
    ∃ s', es.foldlM step s = .ok s' ∧ I s' := by
  induction es generalizing s with
  | nil => exact ⟨s, rfl, h0⟩
  | cons e es ih =>
    obtain ⟨s', he, hi⟩ := hstep s e h0 (hC e List.mem_cons_self)
    obtain ⟨t, hes, ht⟩ := ih hi fun e' h => hC e' (List.mem_cons_of_mem e h)
    rw [List.foldlM_cons, he]
    exact ⟨t, hes, ht⟩

end Fallible

end Runs
