/-
  The thread pool with its critical sections as atomic steps: the body of `thread_pool_add`
  under the lock, and what a worker does under the lock when its wait returns.

  An `Event` is one such step, or a move of a worker or of the condition variable: which
  waiter a signal wakes, a wait that times out, fails or returns 0 without a signal, a task
  that ends. `g_terminate` is never set, so the loop of a worker only ends when its wait
  fails. A worker that a signal or a spurious wake-up has reached is `woken` until its wait
  returns 0. `accepted` are the tasks of the calls of `thread_pool_add` that returned 0,
  `taken` the tasks that workers took out, both in order.
-/
import GameServer.Lib.Run
import GameServer.ThreadPool.Queue

namespace GameServer.ThreadPool

open Runs

/-- `ETIMEDOUT` -/
def etimedout : Int := 110

/-- Where a worker is in its loop. -/
inductive Worker where
  | looping
  | blocked
  | woken
  | running (t : ThreadTask)
  | exited (rv : Int)
  deriving DecidableEq, Repr

inductive Event where
  | add (t : ThreadTask) (waiter : Nat)
  | wait (w : Nat)
  | wakeSpuriously (w : Nat)
  | returned (w : Nat) (rv : Int)
  | finish (w : Nat)
  deriving DecidableEq, Repr

structure Pool where
  queue : TaskQueue
  workers : List Worker
  accepted : List ThreadTask
  taken : List ThreadTask

/-- `n` workers about to enter their loops, and an empty ring. -/
def Pool.start (n : Nat) (tasks : Nat → ThreadTask) : Pool :=
  ⟨.init tasks, List.replicate n .looping, [], []⟩

def Pool.setWorker (s : Pool) (w : Nat) (worker : Worker) : Pool :=
  { s with workers := s.workers.set w worker }

/-- `pthread_cond_signal`: one of the blocked threads, `waiter` if it is one, else the first. -/
def condSignal {α : Type} [DecidableEq α] (blocked woken : α) (threads : List α) (waiter : Nat) :
    List α :=
  if threads[waiter]? = some blocked then threads.set waiter woken
  else
    match threads.idxOf? blocked with
    | some w => threads.set w woken
    | none => threads

/-- `thread_pool_add` -/
def threadPoolAdd (s : Pool) (t : ThreadTask) (waiter : Nat) : Int × Pool :=
  if s.queue.isFull then (-1, s)
  else
    (0, { s with
      queue := s.queue.put t
      workers := condSignal .blocked .woken s.workers waiter
      accepted := s.accepted ++ [t] })

/-- `worker_thread_func`, from the return of its wait to the unlock. -/
def waitReturned (s : Pool) (w : Nat) (rv : Int) : Pool :=
  if rv ≠ 0 then
    if rv ≠ etimedout then s.setWorker w (.exited rv)
    else s.setWorker w .looping
  else
    let (t, queue) := s.queue.take
    { s with queue := queue, taken := s.taken ++ [t] }.setWorker w (.running t)

def Worker.isRunning : Worker → Bool
  | .running _ => true
  | _ => false

/-- Where a worker is when its wait returns `rv`: signalled, blocked, or not blocked at all
    when the call fails. -/
def Worker.before (rv : Int) : Worker :=
  if rv = 0 then .woken else if rv = etimedout then .blocked else .looping

/-- The events that can come next. -/
def Enabled (s : Pool) : Event → Prop
  | .add _ _ => True
  | .wait w => s.workers[w]? = some .looping
  | .wakeSpuriously w => s.workers[w]? = some .blocked
  | .returned w rv => s.workers[w]? = some (.before rv)
  | .finish w => s.workers[w]?.any Worker.isRunning = true

instance (s : Pool) : (e : Event) → Decidable (Enabled s e)
  | .add _ _ => inferInstanceAs (Decidable True)
  | .wait _ => inferInstanceAs (Decidable (_ = _))
  | .wakeSpuriously _ => inferInstanceAs (Decidable (_ = _))
  | .returned _ _ => inferInstanceAs (Decidable (_ = _))
  | .finish _ => inferInstanceAs (Decidable (_ = _))

/-- What an event does. -/
def Pool.apply (s : Pool) : Event → Pool
  | .add t waiter => (threadPoolAdd s t waiter).2
  | .wait w => s.setWorker w .blocked
  | .wakeSpuriously w => s.setWorker w .woken
  | .returned w rv => waitReturned s w rv
  | .finish w => s.setWorker w .looping

/-- One step; what cannot happen changes nothing. -/
def Pool.step (s : Pool) (e : Event) : Pool := if Enabled s e then s.apply e else s

theorem step_enabled {s : Pool} {e : Event} (h : Enabled s e) : s.step e = s.apply e := if_pos h

theorem step_disabled {s : Pool} {e : Event} (h : ¬ Enabled s e) : s.step e = s := if_neg h

/-! ## The two critical sections -/

theorem add_full {s : Pool} (h : s.queue.isFull = true) (t : ThreadTask) (waiter : Nat) :
    s.step (.add t waiter) = s := by
  rw [step_enabled (show Enabled s (.add t waiter) from trivial)]
  simp [Pool.apply, threadPoolAdd, h]

theorem add_room {s : Pool} (h : s.queue.isFull = false) (t : ThreadTask) (waiter : Nat) :
    s.step (.add t waiter) =
      { s with
        queue := s.queue.put t
        workers := condSignal .blocked .woken s.workers waiter
        accepted := s.accepted ++ [t] } := by
  rw [step_enabled (show Enabled s (.add t waiter) from trivial)]
  simp [Pool.apply, threadPoolAdd, h]

/-- A wait that returns 0 takes the front of the ring, whatever is there. -/
theorem returned_zero {s : Pool} {w : Nat} (h : s.workers[w]? = some .woken) :
    s.step (.returned w 0) =
      { s with
        queue := s.queue.take.2
        workers := s.workers.set w (.running s.queue.take.1)
        taken := s.taken ++ [s.queue.take.1] } := by
  rw [step_enabled (show Enabled s (.returned w 0) from h)]
  rfl

/-- A wait that returns anything else leaves the ring alone. -/
theorem returned_nonzero {s : Pool} {w : Nat} {rv : Int} (hrv : rv ≠ 0)
    (h : Enabled s (.returned w rv)) :
    s.step (.returned w rv) =
      s.setWorker w (if rv = etimedout then .looping else .exited rv) := by
  rw [step_enabled h]
  show waitReturned s w rv = _
  unfold waitReturned
  rw [if_pos hrv]
  by_cases ht : rv = etimedout
  · rw [if_neg fun h => h ht, if_pos ht]
  · rw [if_pos ht, if_neg ht]

end GameServer.ThreadPool
