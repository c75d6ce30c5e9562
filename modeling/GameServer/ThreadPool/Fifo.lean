/-
  The task ring as a bounded queue.

  `boundedFifo` is what the ring is for: a list of at most `n` tasks, which takes new ones in
  at its end and gives them out at its front. `thread_pool_add` and the statements with which
  a worker takes a task simulate it with 99 tasks, as long as no worker takes from an empty
  ring (`queue_simulates`), and so they answer like it in every run (`queue_refines_fifo`).
-/
import GameServer.Lib.Simulation
import GameServer.ThreadPool.Sched

namespace GameServer.ThreadPool

open Runs Simulation

/-! ## The specification -/

inductive FifoOp (α : Type*) where
  | put (a : α)
  | get

/-- An operation returns a code, or an entry. -/
inductive FifoAnswer (α : Type*) where
  | code (rv : Int)
  | entry (a : Option α)

/-- A queue of at most `n` entries, the oldest first. `put` returns -1 if there are `n`. -/
def boundedFifo {α : Type*} (n : Nat) (entries : List α) : FifoOp α → FifoAnswer α × List α
  | .put a => if entries.length = n then (.code (-1), entries) else (.code 0, entries ++ [a])
  | .get => (.entry entries.head?, entries.tail)

theorem boundedFifo_full {α : Type*} {n : Nat} {entries : List α} (hn : entries.length = n)
    (a : α) : boundedFifo n entries (.put a) = (.code (-1), entries) := if_pos hn

theorem boundedFifo_room {α : Type*} {n : Nat} {entries : List α} (hn : entries.length ≠ n)
    (a : α) : boundedFifo n entries (.put a) = (.code 0, entries ++ [a]) := if_neg hn

/-! ## The ring -/

/-- A call of `thread_pool_add`, which signals `waiter` if that is blocked, or a worker's
    statements from the read of the task to the advance of `head`. -/
inductive QueueOp where
  | add (t : ThreadTask) (waiter : Nat)
  | dequeue

/-- As an operation of the specification. -/
def QueueOp.toFifo : QueueOp → FifoOp ThreadTask
  | .add t _ => .put t
  | .dequeue => .get

/-- The tasks taken are recorded as in `waitReturned`. -/
def queueStep (s : Pool) : QueueOp → FifoAnswer ThreadTask × Pool
  | .add t waiter =>
    let (rv, s) := threadPoolAdd s t waiter
    (.code rv, s)
  | .dequeue =>
    let (t, queue) := s.queue.take
    (.entry (some t), { s with queue := queue, taken := s.taken ++ [t] })

/-- A worker takes a task only when `QUEUE_IS_EMPTY` is false. -/
def NotEmpty (s : Pool) : QueueOp → Prop
  | .add _ _ => True
  | .dequeue => s.queue.isEmpty = false

/-- The ring holds `pending`, which are the tasks accepted and not taken, in order. -/
structure Holds (s : Pool) (pending : List ThreadTask) : Prop where
  stored : s.queue.contents = pending
  order : s.accepted = s.taken ++ pending

/-- What the two operations see of a pool with the tasks `pending`. -/
structure BoundedQueue (s : Pool) (pending : List ThreadTask) : Prop extends Holds s pending where
  head_lt : s.queue.head < taskQueueSize
  tail_lt : s.queue.tail < taskQueueSize
  length_le : pending.length ≤ taskQueueSize - 1
  empty : s.queue.isEmpty = true ↔ pending = []
  full : ∀ t waiter, pending.length = taskQueueSize - 1 → threadPoolAdd s t waiter = (-1, s)
  room : ∀ t waiter, pending.length ≠ taskQueueSize - 1 →
    (threadPoolAdd s t waiter).1 = 0
  oldest : ∀ t rest, pending = t :: rest → s.queue.take.1 = t

section Holds

variable {s : Pool} {pending : List ThreadTask}

theorem Holds.isFull_iff (h : Holds s pending) :
    s.queue.isFull = true ↔ pending.length = taskQueueSize - 1 := by
  rw [TaskQueue.isFull_iff_length, h.stored]

theorem Holds.add_full (h : Holds s pending) (hn : pending.length = taskQueueSize - 1)
    (t : ThreadTask) (waiter : Nat) : threadPoolAdd s t waiter = (-1, s) :=
  if_pos (h.isFull_iff.2 hn)

/-- An added task is behind all others. -/
theorem Holds.add_room (h : Holds s pending) (hn : pending.length ≠ taskQueueSize - 1)
    (t : ThreadTask) (waiter : Nat) :
    (threadPoolAdd s t waiter).1 = 0 ∧ Holds (threadPoolAdd s t waiter).2 (pending ++ [t]) := by
  have hroom : s.queue.isFull = false := by
    rw [← Bool.not_eq_true, h.isFull_iff]
    exact hn
  unfold threadPoolAdd
  rw [hroom]
  refine ⟨rfl, ?_, ?_⟩
  · show (s.queue.put t).contents = pending ++ [t]
    rw [TaskQueue.contents_put hroom, h.stored]
  · show s.accepted ++ [t] = s.taken ++ (pending ++ [t])
    rw [h.order, List.append_assoc]

/-- A task taken was the oldest. -/
theorem Holds.dequeue {t : ThreadTask} {rest : List ThreadTask} (h : Holds s (t :: rest)) :
    s.queue.take.1 = t ∧ Holds (queueStep s .dequeue).2 rest := by
  have hne : s.queue.contents ≠ [] := by
    rw [h.stored]
    exact List.cons_ne_nil t rest
  have htake := TaskQueue.contents_take hne
  rw [h.stored, List.cons.injEq] at htake
  obtain ⟨hfront, hrest⟩ := htake
  refine ⟨hfront.symm, hrest.symm, ?_⟩
  show s.accepted = (s.taken ++ [s.queue.take.1]) ++ rest
  rw [h.order, ← hfront, List.append_assoc, List.singleton_append]

theorem Holds.boundedQueue (h : Holds s pending) : BoundedQueue s pending where
  toHolds := h
  head_lt := s.queue.head_lt
  tail_lt := s.queue.tail_lt
  length_le := by
    have hlt := Ring.count_lt s.queue.head_lt s.queue.tail
    rw [← h.stored, TaskQueue.contents, Ring.length_contents]
    omega
  empty := by rw [TaskQueue.isEmpty_iff, h.stored]
  full := fun t waiter hn => h.add_full hn t waiter
  room := fun t waiter hn => (h.add_room hn t waiter).1
  oldest := by
    rintro t rest rfl
    exact h.dequeue.1

end Holds

/-- The step lemma: the ring answers as the specification does, and goes on holding what it
    holds. -/
theorem queue_simulates :
    Simulates queueStep (boundedFifo (taskQueueSize - 1)) QueueOp.toFifo NotEmpty Holds := by
  have hstep : ∀ s pending op, Holds s pending → NotEmpty s op →
      (queueStep s op).1 = (boundedFifo (taskQueueSize - 1) pending op.toFifo).1 ∧
        Holds (queueStep s op).2 (boundedFifo (taskQueueSize - 1) pending op.toFifo).2 := by
    intro s pending op h hop
    cases op with
    | add t waiter =>
      have hadd : queueStep s (.add t waiter) =
          (.code (threadPoolAdd s t waiter).1, (threadPoolAdd s t waiter).2) := rfl
      rw [hadd, QueueOp.toFifo]
      by_cases hn : pending.length = taskQueueSize - 1
      · rw [boundedFifo_full hn, h.add_full hn t waiter]
        exact ⟨rfl, h⟩
      · obtain ⟨hzero, hnext⟩ := h.add_room hn t waiter
        rw [boundedFifo_room hn, hzero]
        exact ⟨rfl, hnext⟩
    | dequeue =>
      cases pending with
      | nil =>
        have hempty : s.queue.isEmpty = true := h.boundedQueue.empty.2 rfl
        exact absurd hempty (by rw [show s.queue.isEmpty = false from hop]; decide)
      | cons t rest =>
        obtain ⟨hfront, hnext⟩ := h.dequeue
        exact ⟨congrArg (fun t => FifoAnswer.entry (some t)) hfront, hnext⟩
  exact ⟨fun s pending op h hop => (hstep s pending op h hop).1,
    fun s pending op h hop => (hstep s pending op h hop).2⟩

/-- In every run of calls of `thread_pool_add` and of workers that take a task only from a
    ring that is not empty, the answers are those of a queue of at most 99 tasks, and the pool
    is one with the tasks of that queue. -/
theorem queue_refines_fifo (n : Nat) (tasks : Nat → ThreadTask) {ops : List QueueOp}
    (hops : Along (next queueStep) NotEmpty (.start n tasks) ops) :
    answers queueStep (.start n tasks) ops =
        answers (boundedFifo (taskQueueSize - 1)) [] (ops.map QueueOp.toFifo) ∧
      BoundedQueue (exec (next queueStep) (.start n tasks) ops)
        (exec (next (boundedFifo (taskQueueSize - 1))) [] (ops.map QueueOp.toFifo)) := by
  have hstart : Holds (.start n tasks) [] := ⟨TaskQueue.contents_init tasks, rfl⟩
  obtain ⟨hanswers, hend⟩ := queue_simulates.run hstart hops
  exact ⟨hanswers, hend.boundedQueue⟩

/-- One task, put in and taken out. -/
def oneTask : List QueueOp := [.add ⟨some 4096, some 1⟩ 0, .dequeue]

theorem oneTask_refines :
    answers queueStep (.start 1 fun _ => ⟨none, none⟩) oneTask =
        answers (boundedFifo (taskQueueSize - 1)) [] (oneTask.map QueueOp.toFifo) ∧
      BoundedQueue (exec (next queueStep) (.start 1 fun _ => ⟨none, none⟩) oneTask)
        (exec (next (boundedFifo (taskQueueSize - 1))) [] (oneTask.map QueueOp.toFifo)) :=
  queue_refines_fifo 1 _ ⟨trivial, rfl, trivial⟩

end GameServer.ThreadPool
