/-
  Machines that answer, and the simulation of one by another.

  A machine takes one operation at a time, answers it, and goes on in a new state. `Simulates`
  says that an implementation, from states related to those of a specification and on the
  operations its callers may use there, gives the specification's answers and stays related;
  by `Simulates.run` it then does so in every run.
-/
import GameServer.Lib.Run

namespace Simulation

open Runs

variable {σ τ ε κ ρ : Type*}

/-- The state after one operation. -/
def next (step : σ → ε → ρ × σ) (s : σ) (e : ε) : σ := (step s e).2

/-- The answers to a list of operations. -/
def answers (step : σ → ε → ρ × σ) : σ → List ε → List ρ
  | _, [] => []
  | s, e :: es => (step s e).1 :: answers step (next step s e) es

/-- Operations `e` of the implementation are operations `op e` of the specification. -/
structure Simulates (impl : σ → ε → ρ × σ) (spec : τ → κ → ρ × τ) (op : ε → κ)
    (C : σ → ε → Prop) (R : σ → τ → Prop) : Prop where
  answer : ∀ s t e, R s t → C s e → (impl s e).1 = (spec t (op e)).1
  related : ∀ s t e, R s t → C s e → R (impl s e).2 (spec t (op e)).2

variable {impl : σ → ε → ρ × σ} {spec : τ → κ → ρ × τ} {op : ε → κ} {C : σ → ε → Prop}
  {R : σ → τ → Prop}

theorem Simulates.run (h : Simulates impl spec op C R) {es : List ε} :
    ∀ {s : σ} {t : τ}, R s t → Along (next impl) C s es →
      answers impl s es = answers spec t (es.map op) ∧
        R (exec (next impl) s es) (exec (next spec) t (es.map op)) := by
  induction es with
  | nil => exact fun hR _ => ⟨rfl, hR⟩
  | cons e es ih =>
    intro s t hR hC
    obtain ⟨hanswers, hend⟩ := ih (h.related s t e hR hC.1) hC.2
    refine ⟨?_, hend⟩
    show (impl s e).1 :: answers impl (impl s e).2 es = _
    rw [h.answer s t e hR hC.1]
    exact congrArg _ hanswers

end Simulation
