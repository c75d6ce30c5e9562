/-
  Forgotten tasks.

  A signal that finds no blocked worker is lost, and no worker looks into the ring before it
  waits. Without spurious wake-ups the ring holds one task for each signal on its way and one
  for each signal lost (`balance_step`), so when all workers are blocked it is empty if and
  only if no signal was ever lost (`quiescent_empty_iff`).
-/
import GameServer.ThreadPool.Sched

namespace GameServer.ThreadPool

open Runs

/-- All workers wait, and no wake-up is on its way. -/
def Quiescent (s : Pool) : Prop := ∀ worker ∈ s.workers, worker = .blocked

/-- The event is no spurious wake-up. -/
def NotSpurious : Event → Prop
  | .wakeSpuriously _ => False
  | _ => True

/-- A call of `thread_pool_add` that accepts its task finds a worker blocked. -/
def Signalled (s : Pool) : Event → Prop
  | .add _ _ => s.queue.isFull = false → .blocked ∈ s.workers
  | _ => True

instance (s : Pool) : (e : Event) → Decidable (Signalled s e)
  | .add _ _ => inferInstanceAs (Decidable (_ → _))
  | .wait _ => inferInstanceAs (Decidable True)
  | .wakeSpuriously _ => inferInstanceAs (Decidable True)
  | .returned _ _ => inferInstanceAs (Decidable True)
  | .finish _ => inferInstanceAs (Decidable True)

/-- Signals on their way. -/
def Pool.pending (s : Pool) : Nat := s.workers.count .woken

/-- The ring holds one task for each pending signal, and `lost` more. -/
def Balanced (s : Pool) (lost : Nat) : Prop := s.queue.contents.length = s.pending + lost

/-! ## Counting woken workers -/

theorem count_set_same {workers : List Worker} {w : Nat} {a b : Worker}
    (h : workers[w]? = some a) (ha : a ≠ .woken) (hb : b ≠ .woken) :
    (workers.set w b).count .woken = workers.count .woken := by
  obtain ⟨hw, hat⟩ := List.getElem?_eq_some_iff.1 h
  rw [List.count_set hw, hat]
  simp [ha, hb]

theorem count_set_woken {workers : List Worker} {w : Nat} (h : workers[w]? = some .blocked) :
    (workers.set w .woken).count .woken = workers.count .woken + 1 := by
  obtain ⟨hw, hat⟩ := List.getElem?_eq_some_iff.1 h
  rw [List.count_set hw, hat]
  simp

theorem count_set_running {workers : List Worker} {w : Nat} (h : workers[w]? = some .woken)
    (t : ThreadTask) :
    (workers.set w (.running t)).count .woken + 1 = workers.count .woken := by
  obtain ⟨hw, hat⟩ := List.getElem?_eq_some_iff.1 h
  have hpos : 0 < workers.count .woken := List.count_pos_iff.2 (List.mem_of_getElem? h)
  rw [List.count_set hw, hat]
  simp
  omega

/-- A signal wakes one worker if one is blocked. -/
theorem count_signal (workers : List Worker) (waiter : Nat) :
    (condSignal .blocked .woken workers waiter).count .woken =
      workers.count .woken + if .blocked ∈ workers then 1 else 0 := by
  unfold condSignal
  by_cases hw : workers[waiter]? = some .blocked
  · rw [if_pos hw, count_set_woken hw, if_pos (List.mem_of_getElem? hw)]
  · rw [if_neg hw]
    cases hfirst : workers.idxOf? .blocked with
    | none =>
      have hnone : Worker.blocked ∉ workers := by simpa using hfirst
      rw [if_neg hnone]
      rfl
    | some w =>
      obtain ⟨hlt, hat, -⟩ := List.idxOf?_eq_some_iff.1 hfirst
      have hat : workers[w]? = some .blocked :=
        List.getElem?_eq_some_iff.2 ⟨hlt, by simpa using hat⟩
      rw [if_pos (List.mem_of_getElem? hat)]
      exact count_set_woken hat

/-! ## The balance -/

theorem balance_add {s : Pool} {lost : Nat} (h : Balanced s lost) (t : ThreadTask) (waiter : Nat) :
    Balanced (s.step (.add t waiter)) (lost + if Signalled s (.add t waiter) then 0 else 1) := by
  cases hfull : s.queue.isFull with
  | true =>
    have hsig : Signalled s (.add t waiter) := fun hroom => by simp [hroom] at hfull
    rw [add_full hfull, if_pos hsig]
    exact h
  | false =>
    have hsig : Signalled s (.add t waiter) ↔ .blocked ∈ s.workers :=
      ⟨fun hsig => hsig hfull, fun hmem _ => hmem⟩
    rw [add_room hfull]
    unfold Balanced Pool.pending at h ⊢
    rw [TaskQueue.contents_put hfull, List.length_append, List.length_singleton, count_signal, h]
    by_cases hmem : Worker.blocked ∈ s.workers
    · rw [if_pos hmem, if_pos (hsig.2 hmem)]
      omega
    · rw [if_neg hmem, if_neg fun hs => hmem (hsig.1 hs)]
      omega

/-- A step of a worker or of its wait keeps the balance. -/
theorem balance_worker {s : Pool} {lost : Nat} (h : Balanced s lost) {e : Event}
    (hadd : ∀ t waiter, e ≠ .add t waiter) (hspurious : NotSpurious e) :
    Balanced (s.step e) lost := by
  by_cases hen : Enabled s e
  · have hset : ∀ {w : Nat} {a b : Worker}, s.workers[w]? = some a → a ≠ .woken → b ≠ .woken →
        Balanced (s.setWorker w b) lost := by
      intro w a b hat ha hb
      unfold Balanced Pool.pending Pool.setWorker
      rw [count_set_same hat ha hb]
      exact h
    cases e with
    | add t waiter => exact absurd rfl (hadd t waiter)
    | wakeSpuriously w => exact hspurious.elim
    | wait w =>
      rw [step_enabled hen]
      exact hset hen (by decide) (by decide)
    | finish w =>
      rw [step_enabled hen]
      obtain ⟨worker, hat, hrun⟩ := (Option.any_eq_true _ _).1 hen
      refine hset hat (fun heq => ?_) (by decide)
      rw [heq] at hrun
      exact absurd hrun (by decide)
    | returned w rv =>
      by_cases hrv : rv = 0
      · subst hrv
        have hat : s.workers[w]? = some .woken := hen
        -- a signal is on its way, so there is a task
        have hpos : 0 < s.pending := List.count_pos_iff.2 (List.mem_of_getElem? hat)
        have hne : s.queue.contents ≠ [] := by
          rw [← List.length_pos_iff, h]
          omega
        have hlen := congrArg List.length (TaskQueue.contents_take hne)
        have hcount := count_set_running hat s.queue.take.1
        unfold Balanced Pool.pending at h
        rw [List.length_cons] at hlen
        rw [returned_zero hat]
        show s.queue.take.2.contents.length =
          (s.workers.set w (.running s.queue.take.1)).count .woken + lost
        omega
      · rw [returned_nonzero hrv hen]
        refine hset hen ?_ ?_
        · unfold Worker.before
          rw [if_neg hrv]
          split <;> decide
        · split <;> simp
  · rwa [step_disabled hen]

theorem balance_step {s : Pool} {lost : Nat} (h : Balanced s lost) {e : Event}
    (hspurious : NotSpurious e) :
    Balanced (s.step e) (lost + if Signalled s e then 0 else 1) := by
  cases e with
  | add t waiter => exact balance_add h t waiter
  | wait w => exact balance_worker h (by simp) hspurious
  | wakeSpuriously w => exact hspurious.elim
  | returned w rv => exact balance_worker h (by simp) hspurious
  | finish w => exact balance_worker h (by simp) hspurious

/-- At the end of a run nothing more is lost than at its start if and only if every accepted
    task was signalled. -/
theorem balance_run {events : List Event} (hno : ∀ e ∈ events, NotSpurious e) :
    ∀ {s : Pool} {lost : Nat}, Balanced s lost →
      ∃ more, Balanced (exec Pool.step s events) (lost + more) ∧
        (more = 0 ↔ Along Pool.step Signalled s events) := by
  induction events with
  | nil => exact fun h => ⟨0, h, by simp⟩
  | cons e events ih =>
    intro s lost h
    have hstep := balance_step h (hno e (by simp))
    obtain ⟨more, hend, hmore⟩ := ih (fun e he => hno e (by simp [he])) hstep
    refine ⟨(if Signalled s e then 0 else 1) + more, ?_, ?_⟩
    · rw [← Nat.add_assoc]
      exact hend
    · rw [Nat.add_eq_zero_iff, hmore, along_cons]
      refine and_congr_left fun _ => ?_
      by_cases hsig : Signalled s e <;> simp [hsig]

theorem Quiescent.pending {s : Pool} (h : Quiescent s) : s.pending = 0 := by
  refine List.count_eq_zero.2 fun hmem => ?_
  exact absurd (h _ hmem) (by decide)

theorem balanced_start (n : Nat) (tasks : Nat → ThreadTask) : Balanced (.start n tasks) 0 := by
  unfold Balanced Pool.pending Pool.start
  rw [TaskQueue.contents_init, List.count_replicate]
  simp

/-- In every run without spurious wake-ups, and at every moment when all its workers are
    blocked, the ring is empty if and only if each accepted task found a blocked worker. -/
theorem quiescent_empty_iff (n : Nat) (tasks : Nat → ThreadTask) {events : List Event}
    (hno : ∀ e ∈ events, NotSpurious e)
    (hquiet : Quiescent (exec Pool.step (.start n tasks) events)) :
    (exec Pool.step (.start n tasks) events).queue.isEmpty = true ↔
      Along Pool.step Signalled (.start n tasks) events := by
  obtain ⟨more, hend, hmore⟩ := balance_run hno (balanced_start n tasks)
  unfold Balanced at hend
  rw [hquiet.pending] at hend
  rw [TaskQueue.isEmpty_iff, ← hmore, ← List.length_eq_zero_iff, hend]
  omega

/-- A ring that was never written, and a task. -/
def noTasks : Nat → ThreadTask := fun _ => ⟨none, none⟩

def someTask : ThreadTask := ⟨some 4096, none⟩

/-- The worker waits before the task comes, runs it and waits again. -/
theorem waiting_worker_served :
    (exec Pool.step (.start 1 noTasks)
      [.wait 0, .add someTask 0, .returned 0 0, .finish 0, .wait 0]).queue.isEmpty = true :=
  (quiescent_empty_iff 1 noTasks (by simp [NotSpurious]) (by unfold Quiescent; decide)).2
    (by decide)

/-- The task comes before the worker waits: all workers are blocked and the ring is not
    empty. -/
theorem early_task_forgotten :
    Quiescent (exec Pool.step (.start 1 noTasks) [.add someTask 0, .wait 0]) ∧
      (exec Pool.step (.start 1 noTasks) [.add someTask 0, .wait 0]).queue.isEmpty = false := by
  unfold Quiescent
  decide

end GameServer.ThreadPool
