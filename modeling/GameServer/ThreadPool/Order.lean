/-
  Which tasks the workers take.

  `TakesInOrder`: what was accepted is what was taken followed by what is in the ring. A
  worker takes the front of the ring whenever its wait returns 0, so this holds in every
  state of a run if and only if each such return finds an accepted task that was not taken
  before (`takes_in_order_iff`). One return too many, as POSIX allows, takes a task that
  nobody added and leaves 99 more in the ring (`spurious_wakeup_takes`).
-/
import GameServer.ThreadPool.Sched

namespace GameServer.ThreadPool

open Runs

/-- The workers took the accepted tasks in order, each once and with a function, and the
    ring holds the others. -/
structure TakesInOrder (s : Pool) : Prop where
  order : s.accepted = s.taken ++ s.queue.contents
  func : ∀ t ∈ s.taken, t.func ≠ none

/-- When a wait returns 0, more tasks were accepted than taken, and the next of them has a
    function. -/
def WakesOnTask (s : Pool) : Event → Prop
  | .returned w 0 => s.workers[w]? = some .woken →
      ∃ t, s.accepted[s.taken.length]? = some t ∧ t.func ≠ none
  | _ => True

theorem takesInOrder_start (n : Nat) (tasks : Nat → ThreadTask) : TakesInOrder (.start n tasks) :=
  ⟨(TaskQueue.contents_init tasks).symm, fun _ h => absurd h List.not_mem_nil⟩

/-- A return of 0 that keeps the order has found an accepted task. -/
theorem returned_on_task {s : Pool} {w : Nat} (hat : s.workers[w]? = some .woken)
    (hstep : TakesInOrder (s.step (.returned w 0))) :
    ∃ t, s.accepted[s.taken.length]? = some t ∧ t.func ≠ none := by
  rw [returned_zero hat] at hstep
  have horder : s.accepted = (s.taken ++ [s.queue.take.1]) ++ s.queue.take.2.contents := hstep.order
  refine ⟨s.queue.take.1, ?_, hstep.func _ (List.mem_append_right _ (by simp))⟩
  rw [horder, List.append_assoc, List.getElem?_append_right (Nat.le_refl _), Nat.sub_self,
    List.singleton_append, List.getElem?_cons_zero]

/-- A return of 0 on an empty ring makes it look full. -/
theorem returned_on_empty {s : Pool} {w : Nat} (hat : s.workers[w]? = some .woken)
    (hempty : s.queue.contents = []) :
    (s.step (.returned w 0)).queue.contents.length + 1 = taskQueueSize := by
  rw [returned_zero hat]
  exact TaskQueue.length_take_empty hempty

section Step

variable {s : Pool} (h : TakesInOrder s)

include h

/-- The next task accepted and not taken is the front of the ring. -/
theorem TakesInOrder.next : s.accepted[s.taken.length]? = s.queue.contents.head? := by
  rw [h.order, List.getElem?_append_right (Nat.le_refl _), Nat.sub_self, List.head?_eq_getElem?]

theorem TakesInOrder.add (t : ThreadTask) (waiter : Nat) :
    TakesInOrder (s.step (.add t waiter)) := by
  cases hfull : s.queue.isFull with
  | true => rwa [add_full hfull]
  | false =>
    rw [add_room hfull]
    refine ⟨?_, h.func⟩
    show s.accepted ++ [t] = s.taken ++ (s.queue.put t).contents
    rw [TaskQueue.contents_put hfull, h.order, List.append_assoc]

/-- A return of 0 that finds a task with a function. -/
theorem TakesInOrder.take {w : Nat} (hat : s.workers[w]? = some .woken) {t : ThreadTask}
    (hnext : s.accepted[s.taken.length]? = some t) (hfunc : t.func ≠ none) :
    TakesInOrder (s.step (.returned w 0)) := by
  rw [h.next] at hnext
  have hne : s.queue.contents ≠ [] := fun hnil => by simp [hnil] at hnext
  have htake := TaskQueue.contents_take hne
  have hfront : s.queue.take.1 = t := by
    rw [htake, List.head?_cons] at hnext
    exact Option.some.inj hnext
  rw [returned_zero hat]
  refine ⟨?_, fun u hu => ?_⟩
  · show s.accepted = (s.taken ++ [s.queue.take.1]) ++ s.queue.take.2.contents
    rw [h.order, htake, List.append_assoc, List.singleton_append]
  · rcases List.mem_append.1 hu with hold | hnew
    · exact h.func u hold
    · rw [List.mem_singleton.1 hnew, hfront]
      exact hfunc

theorem TakesInOrder.step {e : Event} (hwakes : WakesOnTask s e) : TakesInOrder (s.step e) := by
  by_cases hen : Enabled s e
  · cases e with
    | add t waiter => exact h.add t waiter
    | returned w rv =>
      by_cases hrv : rv = 0
      · subst hrv
        obtain ⟨t, hnext, hfunc⟩ := hwakes hen
        exact h.take hen hnext hfunc
      · rw [returned_nonzero hrv hen]
        exact ⟨h.order, h.func⟩
    | wait w | wakeSpuriously w | finish w =>
      rw [step_enabled hen]
      exact ⟨h.order, h.func⟩
  · rwa [step_disabled hen]

end Step

theorem wakesOnTask_of_step {s : Pool} {e : Event} (hstep : TakesInOrder (s.step e)) :
    WakesOnTask s e := by
  match e with
  | .returned w 0 => exact fun hat => returned_on_task hat hstep
  | .returned w (.ofNat (k + 1)) | .returned w (.negSucc k) => trivial
  | .add _ _ | .wait _ | .wakeSpuriously _ | .finish _ => trivial

/-- In every run the workers take exactly the accepted tasks, in order, each once and with a
    function, if and only if every wait that returns 0 finds an accepted task not taken
    before, and that task has a function. -/
theorem takes_in_order_iff (n : Nat) (tasks : Nat → ThreadTask) (events : List Event) :
    Along Pool.step (fun s e => TakesInOrder (s.step e)) (.start n tasks) events ↔
      Along Pool.step WakesOnTask (.start n tasks) events :=
  along_iff (fun _ _ h hwakes => h.step hwakes)
    (fun _ _ h => ⟨wakesOnTask_of_step, fun hwakes => h.step hwakes⟩)
    (takesInOrder_start n tasks) events

/-- Two workers wait, one task comes, and the other worker wakes up as well. -/
def spuriousRun : List Event :=
  [.wait 0, .wait 1, .add ⟨some 4096, none⟩ 0, .wakeSpuriously 1, .returned 0 0, .returned 1 0]

theorem spurious_wakeup_takes :
    ¬ TakesInOrder (exec Pool.step (.start 2 fun _ => ⟨none, none⟩) spuriousRun) := by
  intro h
  exact absurd (h.func ⟨none, none⟩ (by decide)) (by decide)

end GameServer.ThreadPool
