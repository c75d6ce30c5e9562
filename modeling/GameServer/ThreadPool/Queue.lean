/-
  The task ring of `lib/thread_pool/thread_pool.c`.

  `put` and `take` are the statements that `thread_pool_add` and `worker_thread_func` execute
  under the lock. A function or argument pointer is its address, `none` is NULL. The entries
  of the ring are `contents`: `put` appends to them while the ring is not full, and `take`
  removes the first while it is not empty. On an empty ring `take` leaves 99 entries, which
  nobody added (`length_take_empty`).
-/
import GameServer.Lib.Ring

namespace GameServer.ThreadPool

/-- `TASK_QUEUE_SIZE` -/
def taskQueueSize : Nat := 100

/-- `thread_task_t` -/
structure ThreadTask where
  func : Option Nat
  arg : Option Nat
  deriving DecidableEq, Repr

/-- `task_queue_t` -/
structure TaskQueue where
  tasks : Nat → ThreadTask
  head : Nat
  tail : Nat
  head_lt : head < taskQueueSize
  tail_lt : tail < taskQueueSize

/-- `QUEUE_ADD_POS` -/
def queueAddPos (pos : Nat) : Nat := (pos + 1) % taskQueueSize

theorem queueAddPos_lt (pos : Nat) : queueAddPos pos < taskQueueSize :=
  Nat.mod_lt _ (by decide)

namespace TaskQueue

/-- `head` and `tail` are 0, and the tasks are what `malloc` left there. -/
def init (tasks : Nat → ThreadTask) : TaskQueue := ⟨tasks, 0, 0, by decide, by decide⟩

/-- `QUEUE_IS_EMPTY` -/
def isEmpty (q : TaskQueue) : Bool := q.head == q.tail

/-- `QUEUE_IS_FULL` -/
def isFull (q : TaskQueue) : Bool := q.head == (q.tail + 1) % taskQueueSize

/-- `tasks[tail].func = func; tasks[tail].arg = arg` -/
def store (q : TaskQueue) (t : ThreadTask) : TaskQueue :=
  { q with tasks := Function.update q.tasks q.tail t }

/-- `QUEUE_ADD_POS(tail)` -/
def advanceTail (q : TaskQueue) : TaskQueue :=
  { q with tail := queueAddPos q.tail, tail_lt := queueAddPos_lt q.tail }

/-- `func = tasks[head].func; args = tasks[head].arg` -/
def front (q : TaskQueue) : ThreadTask := q.tasks q.head

/-- `tasks[head].func = NULL; tasks[head].arg = NULL` -/
def clear (q : TaskQueue) : TaskQueue :=
  { q with tasks := Function.update q.tasks q.head ⟨none, none⟩ }

/-- `QUEUE_ADD_POS(head)` -/
def advanceHead (q : TaskQueue) : TaskQueue :=
  { q with head := queueAddPos q.head, head_lt := queueAddPos_lt q.head }

/-- What `thread_pool_add` does with the ring when it is not full. -/
def put (q : TaskQueue) (t : ThreadTask) : TaskQueue := (q.store t).advanceTail

/-- What `worker_thread_func` does with the ring when its wait returns 0. It does not look
    whether there is a task. -/
def take (q : TaskQueue) : ThreadTask × TaskQueue := (q.front, q.clear.advanceHead)

/-! ## Entries -/

/-- The tasks in the ring, first the one to be taken next. -/
def contents (q : TaskQueue) : List ThreadTask := Ring.contents taskQueueSize q.tasks q.head q.tail

theorem isFull_iff (q : TaskQueue) : q.isFull = true ↔ q.head = Ring.next taskQueueSize q.tail := by
  simp [isFull, Ring.next]

theorem isFull_iff_length (q : TaskQueue) :
    q.isFull = true ↔ q.contents.length = taskQueueSize - 1 := by
  have hfull := Ring.count_full_iff q.head_lt q.tail_lt
  have hsize : 0 < taskQueueSize := by decide
  rw [isFull_iff, contents, Ring.length_contents, ← hfull]
  omega

theorem isEmpty_iff (q : TaskQueue) : q.isEmpty = true ↔ q.contents = [] := by
  rw [contents, Ring.contents_eq_nil _ q.head_lt q.tail_lt]
  simp [isEmpty]

theorem contents_init (tasks : Nat → ThreadTask) : (init tasks).contents = [] :=
  Ring.contents_self _ _ _

theorem contents_put {q : TaskQueue} (h : q.isFull = false) (t : ThreadTask) :
    (q.put t).contents = q.contents ++ [t] := by
  apply Ring.contents_push _ q.head_lt q.tail_lt
  rw [Ne, ← isFull_iff, h]
  simp

theorem contents_take {q : TaskQueue} (h : q.contents ≠ []) :
    q.contents = q.take.1 :: q.take.2.contents := by
  have hne : q.head ≠ q.tail := fun heq =>
    h ((Ring.contents_eq_nil _ q.head_lt q.tail_lt).2 heq)
  have hclear := Ring.contents_update_head q.tasks q.head_lt q.tail_lt hne ⟨none, none⟩
  rw [contents, Ring.contents_pop _ q.head_lt q.tail_lt hne, ← hclear]
  rfl

theorem length_take_empty {q : TaskQueue} (h : q.contents = []) :
    q.take.2.contents.length + 1 = taskQueueSize := by
  have heq := (Ring.contents_eq_nil _ q.head_lt q.tail_lt).1 h
  have hover := Ring.count_overrun q.head_lt
  rw [contents, Ring.length_contents]
  show Ring.count taskQueueSize (Ring.next taskQueueSize q.head) q.tail + 1 = _
  rw [← heq, hover]

end TaskQueue

end GameServer.ThreadPool
