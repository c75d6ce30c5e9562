/-
  Who owns the lock.

  Here every instruction of `thread_pool_add` and of `worker_thread_func` that touches the
  lock, the condition variable or the ring is a step of its own. `owner` is the thread that
  owns `pool->lock`. `pthread_mutex_lock`, and the return of a wait with 0 or `ETIMEDOUT`,
  block until the lock is free; unlocking it, and starting to wait, free it whoever owns it,
  as for a mutex of the default kind. A wait that fails for another reason returns at once.

  The loop of a worker starts with the wait and never takes the lock before it. So the
  discipline of the lock is kept in a run if and only if no worker ever gets to its wait
  (`disciplined_iff`); among any number of calls of `thread_pool_add` alone it is kept.
-/
import GameServer.ThreadPool.Sched

namespace GameServer.ThreadPool

open Runs

inductive Thread where
  | producer (i : Nat)
  | worker (i : Nat)
  deriving DecidableEq, Repr

/-- The next instruction in a call of `thread_pool_add`. -/
inductive AddPc where
  | idle
  | lock (t : ThreadTask)
  | testFull (t : ThreadTask)
  | store (t : ThreadTask)
  | advanceTail
  | signal
  | unlock (ret : Int)
  deriving DecidableEq, Repr

/-- The next instruction of `worker_thread_func`. In `waiting` the thread is inside
    `pthread_cond_timedwait`, in `returning` it needs the lock to come out with `rv`. -/
inductive LoopPc where
  | wait
  | waiting
  | returning (rv : Int)
  | unlockFailed (rv : Int)
  | readTask
  | clearTask (t : ThreadTask)
  | advanceHead (t : ThreadTask)
  | unlock (t : ThreadTask)
  | running (t : ThreadTask)
  | exited (rv : Int)
  deriving DecidableEq, Repr

structure Locked where
  owner : Option Thread
  queue : TaskQueue
  producers : List AddPc
  workers : List LoopPc

namespace Locked

/-- `m` threads that may call `thread_pool_add`, `n` workers, and the lock free. -/
def start (m n : Nat) (tasks : Nat → ThreadTask) : Locked :=
  ⟨none, .init tasks, List.replicate m .idle, List.replicate n .wait⟩

def setProducer (s : Locked) (i : Nat) (pc : AddPc) : Locked :=
  { s with producers := s.producers.set i pc }

def setWorker (s : Locked) (i : Nat) (pc : LoopPc) : Locked :=
  { s with workers := s.workers.set i pc }

/-- The next instruction of producer `i`. -/
def runProducer (s : Locked) (i waiter : Nat) : Locked :=
  match s.producers[i]? with
  | some (.lock t) =>
    if s.owner = none then { s with owner := some (.producer i) }.setProducer i (.testFull t) else s
  | some (.testFull t) => s.setProducer i (if s.queue.isFull then .unlock (-1) else .store t)
  | some (.store t) => { s with queue := s.queue.store t }.setProducer i .advanceTail
  | some .advanceTail => { s with queue := s.queue.advanceTail }.setProducer i .signal
  | some .signal =>
    { s with
      workers := condSignal .waiting (.returning 0) s.workers waiter }.setProducer i (.unlock 0)
  | some (.unlock _) => { s with owner := none }.setProducer i .idle
  | some .idle | none => s

/-- The next instruction of worker `i`. -/
def runWorker (s : Locked) (i : Nat) : Locked :=
  match s.workers[i]? with
  | some .wait => { s with owner := none }.setWorker i .waiting
  | some (.returning rv) =>
    if s.owner = none then
      { s with owner := some (.worker i) }.setWorker i
        (if rv ≠ 0 then .unlockFailed rv else .readTask)
    else s
  | some (.unlockFailed rv) =>
    { s with owner := none }.setWorker i (if rv ≠ etimedout then .exited rv else .wait)
  | some .readTask => s.setWorker i (.clearTask s.queue.front)
  | some (.clearTask t) => { s with queue := s.queue.clear }.setWorker i (.advanceHead t)
  | some (.advanceHead t) => { s with queue := s.queue.advanceHead }.setWorker i (.unlock t)
  | some (.unlock t) => { s with owner := none }.setWorker i (.running t)
  | some (.running _) => s.setWorker i .wait
  | some .waiting | some (.exited _) | none => s

end Locked

/-- A step: a call begins, a thread executes its next instruction, or a wait fails, times out
    or ends without a signal. -/
inductive Instr where
  | call (i : Nat) (t : ThreadTask)
  | producer (i waiter : Nat)
  | worker (i : Nat)
  | waitFails (i : Nat) (rv : Int)
  | timeout (i : Nat)
  | wakeSpuriously (i : Nat)
  deriving DecidableEq, Repr

/-- One step; what cannot happen changes nothing. -/
def Locked.step (s : Locked) : Instr → Locked
  | .call i t => if s.producers[i]? = some .idle then s.setProducer i (.lock t) else s
  | .producer i waiter => s.runProducer i waiter
  | .worker i => s.runWorker i
  | .waitFails i rv => if s.workers[i]? = some .wait then s.setWorker i (.unlockFailed rv) else s
  | .timeout i =>
    if s.workers[i]? = some .waiting then s.setWorker i (.returning etimedout) else s
  | .wakeSpuriously i => if s.workers[i]? = some .waiting then s.setWorker i (.returning 0) else s

/-! ## The discipline -/

/-- The instruction is `pthread_mutex_unlock`, or uses `head`, `tail` or `tasks`. -/
def AddPc.needsLock : AddPc → Bool
  | .testFull _ | .store _ | .advanceTail | .unlock _ => true
  | .idle | .lock _ | .signal => false

/-- The instruction is `pthread_cond_timedwait` or `pthread_mutex_unlock`, or uses `head` or
    `tasks`. -/
def LoopPc.needsLock : LoopPc → Bool
  | .wait | .unlockFailed _ | .readTask | .clearTask _ | .advanceHead _ | .unlock _ => true
  | .waiting | .returning _ | .running _ | .exited _ => false

/-- Between the lock and the unlock. -/
def AddPc.critical : AddPc → Bool
  | .testFull _ | .store _ | .advanceTail | .signal | .unlock _ => true
  | .idle | .lock _ => false

/-- Between the return of the wait and the unlock. -/
def LoopPc.critical : LoopPc → Bool
  | .unlockFailed _ | .readTask | .clearTask _ | .advanceHead _ | .unlock _ => true
  | .wait | .waiting | .returning _ | .running _ | .exited _ => false

def Locked.critical (s : Locked) : Thread → Prop
  | .producer i => s.producers[i]?.any AddPc.critical = true
  | .worker i => s.workers[i]?.any LoopPc.critical = true

/-- The thread that executes an instruction which it may only execute while it owns the lock. -/
def Locked.needsLock (s : Locked) : Instr → Option Thread
  | .producer i _ => if s.producers[i]?.any AddPc.needsLock then some (.producer i) else none
  | .worker i => if s.workers[i]?.any LoopPc.needsLock then some (.worker i) else none
  | .waitFails i _ => if s.workers[i]? = some .wait then some (.worker i) else none
  | .call _ _ | .timeout _ | .wakeSpuriously _ => none

/-- A step keeps the discipline: the thread owns the lock if its instruction needs it, and
    afterwards no worker owns it while it runs a task, and one thread at most is in a critical
    section. -/
structure Disciplined (s : Locked) (e : Instr) : Prop where
  owns : ∀ th ∈ s.needsLock e, s.owner = some th
  released : ∀ i t, (s.step e).workers[i]? = some (.running t) →
    (s.step e).owner ≠ some (.worker i)
  exclusive : ∀ th th', (s.step e).critical th → (s.step e).critical th' → th = th'

/-- The step is not the wait of a worker. -/
def NoWait (s : Locked) : Instr → Prop
  | .worker i | .waitFails i _ => s.workers[i]? ≠ some .wait
  | _ => True

/-! ## As long as no worker waits -/

/-- No worker has left the head of its loop, and the lock is owned by the thread in a critical
    section, if there is one. -/
structure ProducersOwn (s : Locked) : Prop where
  workers : ∀ pc ∈ s.workers, pc = .wait
  owner : ∀ th, s.owner = some th ↔ s.critical th

theorem producersOwn_start (m n : Nat) (tasks : Nat → ThreadTask) :
    ProducersOwn (.start m n tasks) := by
  refine ⟨fun pc hpc => List.eq_of_mem_replicate hpc, fun th => ?_⟩
  refine iff_of_false (by simp [Locked.start]) ?_
  cases th with
  | producer i =>
    show ¬ (List.replicate m AddPc.idle)[i]?.any AddPc.critical = true
    rw [List.getElem?_replicate]
    split <;> simp [AddPc.critical]
  | worker i =>
    show ¬ (List.replicate n LoopPc.wait)[i]?.any LoopPc.critical = true
    rw [List.getElem?_replicate]
    split <;> simp [LoopPc.critical]

theorem condSignal_none {α : Type} [DecidableEq α] {blocked woken : α} {threads : List α}
    (h : blocked ∉ threads) (waiter : Nat) :
    condSignal blocked woken threads waiter = threads := by
  have hfirst : threads.idxOf? blocked = none := List.idxOf?_eq_none_iff.2 h
  unfold condSignal
  rw [if_neg fun hat => h (List.mem_of_getElem? hat), hfirst]

/-- An instruction of `thread_pool_add` that needs the lock is in its critical section. -/
theorem needsLock_critical {pc : AddPc} (hneeds : pc.needsLock = true) : pc.critical = true := by
  cases pc <;> simp_all [AddPc.needsLock, AddPc.critical]

section Step

variable {s : Locked} (h : ProducersOwn s)

include h

theorem ProducersOwn.worker_at {i : Nat} {pc : LoopPc} (hat : s.workers[i]? = some pc) :
    pc = .wait := h.workers pc (List.mem_of_getElem? hat)

/-- One producer moves from `pc` to `pc'`. -/
theorem ProducersOwn.move {s' : Locked} {i : Nat} {pc : AddPc} (hat : s.producers[i]? = some pc)
    (pc' : AddPc) (hp : s'.producers = s.producers.set i pc') (hw : s'.workers = s.workers)
    (howner : ∀ th, s'.owner = some th ↔
      if th = .producer i then pc'.critical = true else s.owner = some th) :
    ProducersOwn s' := by
  refine ⟨hw ▸ h.workers, fun th => (howner th).trans ?_⟩
  cases th with
  | worker j =>
    rw [if_neg (by simp), h.owner]
    show s.workers[j]?.any _ = true ↔ s'.workers[j]?.any _ = true
    rw [hw]
  | producer j =>
    show _ ↔ s'.producers[j]?.any _ = true
    rw [hp, List.getElem?_set]
    have hlt := (List.getElem?_eq_some_iff.1 hat).1
    by_cases hij : i = j
    · subst hij
      simp [hlt]
    · have hne : Thread.producer j ≠ .producer i := by
        intro heq
        exact hij (Thread.producer.inj heq).symm
      rw [if_neg hne, if_neg hij, h.owner]
      exact Iff.rfl

/-- Within a critical section, or outside. -/
theorem ProducersOwn.keep {s' : Locked} {i : Nat} {pc : AddPc} (hat : s.producers[i]? = some pc)
    (pc' : AddPc) (hp : s'.producers = s.producers.set i pc') (hw : s'.workers = s.workers)
    (ho : s'.owner = s.owner) (hcrit : pc'.critical = pc.critical) : ProducersOwn s' := by
  refine h.move hat pc' hp hw fun th => ?_
  rw [ho]
  by_cases hth : th = .producer i
  · subst hth
    rw [if_pos rfl, h.owner, hcrit]
    show s.producers[i]?.any _ = true ↔ _
    rw [hat]
    exact Iff.rfl
  · rw [if_neg hth]

theorem ProducersOwn.producer (i waiter : Nat) : ProducersOwn (s.step (.producer i waiter)) := by
  show ProducersOwn (s.runProducer i waiter)
  unfold Locked.runProducer
  cases hat : s.producers[i]? with
  | none => exact h
  | some pc =>
    cases pc with
    | idle => exact h
    | lock t =>
      by_cases hfree : s.owner = none
      · simp only [if_pos hfree]
        refine h.move hat (.testFull t) rfl rfl fun th => ?_
        show some (Thread.producer i) = some th ↔ _
        rw [hfree]
        by_cases hth : th = .producer i
        · simp [hth, AddPc.critical]
        · simp [hth, Ne.symm hth]
      · simp only [if_neg hfree]
        exact h
    | testFull t =>
      refine h.keep hat (if s.queue.isFull then .unlock (-1) else .store t) rfl rfl rfl ?_
      split <;> rfl
    | store t => exact h.keep hat .advanceTail rfl rfl rfl rfl
    | advanceTail => exact h.keep hat .signal rfl rfl rfl rfl
    | signal =>
      have hnone : LoopPc.waiting ∉ s.workers := by
        intro hmem
        exact absurd (h.workers _ hmem) (by decide)
      exact h.keep hat (.unlock 0) rfl (condSignal_none hnone waiter) rfl rfl
    | unlock ret =>
      have hown : s.owner = some (.producer i) := by
        rw [h.owner]
        show s.producers[i]?.any _ = true
        rw [hat]
        rfl
      refine h.move hat .idle rfl rfl fun th => ?_
      show none = some th ↔ _
      rw [hown]
      by_cases hth : th = .producer i
      · simp [hth, AddPc.critical]
      · simp [hth, Ne.symm hth]

theorem ProducersOwn.step {e : Instr} (hno : NoWait s e) : ProducersOwn (s.step e) := by
  cases e with
  | producer i waiter => exact h.producer i waiter
  | call i t =>
    simp only [Locked.step]
    split
    · next hat => exact h.keep hat (.lock t) rfl rfl rfl rfl
    · exact h
  | worker i =>
    cases hat : s.workers[i]? with
    | none => simpa [Locked.step, Locked.runWorker, hat] using h
    | some pc => exact absurd (h.worker_at hat ▸ hat) hno
  | waitFails i rv =>
    simp only [Locked.step, if_neg hno]
    exact h
  | timeout i =>
    simp only [Locked.step]
    split
    · next hat => exact absurd (h.worker_at hat) (by decide)
    · exact h
  | wakeSpuriously i =>
    simp only [Locked.step]
    split
    · next hat => exact absurd (h.worker_at hat) (by decide)
    · exact h

theorem ProducersOwn.owns {e : Instr} (hno : NoWait s e) (th : Thread)
    (hth : th ∈ s.needsLock e) : s.owner = some th := by
  cases e with
  | call i t => exact absurd hth (by simp [Locked.needsLock])
  | timeout i => exact absurd hth (by simp [Locked.needsLock])
  | wakeSpuriously i => exact absurd hth (by simp [Locked.needsLock])
  | producer i waiter =>
    simp only [Locked.needsLock, Option.mem_def, Option.ite_none_right_eq_some,
      Option.some.injEq] at hth
    obtain ⟨hneeds, rfl⟩ := hth
    obtain ⟨pc, hat, hpc⟩ := (Option.any_eq_true _ _).1 hneeds
    rw [h.owner]
    exact (Option.any_eq_true _ _).2 ⟨pc, hat, needsLock_critical hpc⟩
  | worker i =>
    simp only [Locked.needsLock, Option.mem_def, Option.ite_none_right_eq_some,
      Option.some.injEq] at hth
    obtain ⟨pc, hat, -⟩ := (Option.any_eq_true _ _).1 hth.1
    exact absurd (h.worker_at hat ▸ hat) hno
  | waitFails i rv =>
    simp only [Locked.needsLock, Option.mem_def, Option.ite_none_right_eq_some] at hth
    exact absurd hth.1 hno

theorem ProducersOwn.disciplined {e : Instr} (hno : NoWait s e) : Disciplined s e := by
  have hs' := h.step hno
  refine ⟨fun th hth => ?_, fun i t hat => ?_, fun th th' hth hth' => ?_⟩
  · exact h.owns hno th hth
  · exact absurd (hs'.worker_at hat) (by simp)
  · exact Option.some.inj (((hs'.owner th).2 hth).symm.trans ((hs'.owner th').2 hth'))

/-- The wait at the head of the loop is called without the lock. -/
theorem ProducersOwn.noWait {e : Instr} (hd : Disciplined s e) : NoWait s e := by
  have hfree : ∀ i, s.owner ≠ some (.worker i) := by
    intro i hown
    obtain ⟨pc, hat, hcrit⟩ := (Option.any_eq_true _ _).1 ((h.owner _).1 hown)
    rw [h.worker_at hat] at hcrit
    exact absurd hcrit (by decide)
  cases e with
  | call i t => trivial
  | producer i waiter => trivial
  | timeout i => trivial
  | wakeSpuriously i => trivial
  | worker i =>
    intro hat
    refine hfree i (hd.owns (.worker i) ?_)
    simp [Locked.needsLock, hat, LoopPc.needsLock]
  | waitFails i rv =>
    intro hat
    refine hfree i (hd.owns (.worker i) ?_)
    simp [Locked.needsLock, hat]

end Step

/-- In every run of any number of producers and workers, the discipline of the lock is kept at
    each step if and only if no step is the wait at the head of a worker's loop. -/
theorem disciplined_iff (m n : Nat) (tasks : Nat → ThreadTask) (events : List Instr) :
    Along Locked.step Disciplined (.start m n tasks) events ↔
      Along Locked.step NoWait (.start m n tasks) events :=
  along_iff (fun _ _ h hno => h.step hno)
    (fun _ _ h => ⟨h.noWait, h.disciplined⟩) (producersOwn_start m n tasks) events

/-- A producer takes the lock and is about to test the ring, a worker starts to wait and frees
    the lock, and the producer goes on. -/
def waitDuringAdd : List Instr :=
  [.call 0 ⟨some 4096, none⟩, .producer 0 0, .worker 0, .producer 0 0]

theorem wait_without_lock :
    ¬ Along Locked.step Disciplined (.start 1 1 fun _ => ⟨none, none⟩) waitDuringAdd := by
  intro h
  have hwait := along_at (waitDuringAdd.take 2) h
  exact absurd (hwait.owns (.worker 0) (by decide)) (by decide)

end GameServer.ThreadPool
