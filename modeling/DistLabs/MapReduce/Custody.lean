import DistLabs.Lib.Ledger
import DistLabs.MapReduce.Coordinator
import Mathlib.Data.Multiset.AddSub
import Mathlib.Tactic.Abel

/-!
# Where the tasks are

A task that has been added to a queue is in the queue, with a `DispatchTask` that has popped it,
with the monitor of an attempt, or with `addTimeoutTask`, until a monitor completes it. Seen that
way the coordinator keeps a ledger of tasks, and this file says what each of its updates does to the
ledger.
-/

namespace DistLabs

namespace MapReduce

/-! ### Places -/

/-- Where the task of an attempt is; an attempt that has timed out has given its task away. -/
inductive Place where
  | dispatching
  | monitored
  | completed
  | left
  deriving DecidableEq

def Monitor.place : Monitor → Place
  | .popped => .dispatching
  | .waiting | .expired | .sending | .received _ | .releasing _ | .released _ => .monitored
  | .completed => .completed
  | .timedOut | .stopped => .left

/-- The tasks of the attempts that have theirs at `p`. -/
def heldAt (p : Place) (l : List Attempt) : List Task :=
  (l.filter fun a => a.monitor.place = p).map Attempt.task

namespace Coordinator

def queued (S : Coordinator) : List Task :=
  S.mapQueue.tasks.map .map ++ S.reduceQueue.tasks.map .reduce

/-- Popped by a `DispatchTask` and not yet monitored. -/
def popped (S : Coordinator) : List Task := heldAt .dispatching S.attempts

/-- Under a running monitor. -/
def monitored (S : Coordinator) : List Task := heldAt .monitored S.attempts

def inTransit (S : Coordinator) : List Task :=
  S.mapQueue.adding.toList.map .map ++ S.reduceQueue.adding.toList.map .reduce

/-- Completed by a monitor that has called `Done`. -/
def completed (S : Coordinator) : List Task := heldAt .completed S.attempts

/-- The ledger of the tasks. -/
def ledger (S : Coordinator) : Ledger Task where
  opened := S.queued + S.popped + S.monitored + S.inTransit
  closed := S.completed

end Coordinator

/-! ### Attempts -/

section Attempts

variable {l : List Attempt} {k : ℕ} {a a' : Attempt} {p : Place}

/-- What an attempt contributes to the place `p`. -/
def Attempt.taskAt (a : Attempt) (p : Place) : Multiset Task :=
  if a.monitor.place = p then {a.task} else 0

lemma heldAt_cons (p : Place) (a : Attempt) (l : List Attempt) :
    (heldAt p (a :: l) : Multiset Task) = a.taskAt p + heldAt p l := by
  unfold heldAt Attempt.taskAt
  by_cases hp : a.monitor.place = p <;> simp [hp, Multiset.singleton_add]

lemma heldAt_perm {l' : List Attempt} (p : Place) (h : l.Perm l') :
    (heldAt p l : Multiset Task) = heldAt p l' :=
  Multiset.coe_eq_coe.mpr ((h.filter _).map _)

lemma heldAt_append (p : Place) (l : List Attempt) (a : Attempt) :
    (heldAt p (l ++ [a]) : Multiset Task) = a.taskAt p + heldAt p l := by
  rw [heldAt_perm p (@List.perm_append_comm _ l _), List.singleton_append, heldAt_cons]

/-- How a place changes when one attempt does. -/
lemma heldAt_set (hk : l[k]? = some a) (a' : Attempt) (p : Place) :
    (heldAt p (l.set k a') : Multiset Task) + a.taskAt p = heldAt p l + a'.taskAt p := by
  obtain ⟨hlt, hget⟩ := List.getElem?_eq_some_iff.mp hk
  have hold : (heldAt p l : Multiset Task) = a.taskAt p + heldAt p (l.eraseIdx k) := by
    rw [← heldAt_cons, ← hget, heldAt_perm p (List.getElem_cons_eraseIdx_perm hlt)]
  have hnew : (heldAt p (l.set k a') : Multiset Task) =
      a'.taskAt p + heldAt p (l.eraseIdx k) := by
    rw [← heldAt_cons, heldAt_perm p (List.set_perm_cons_eraseIdx hlt a')]
  rw [hold, hnew]
  abel

lemma heldAt_set_of_eq (hk : l[k]? = some a) (h : a'.taskAt p = a.taskAt p) :
    (heldAt p (l.set k a') : Multiset Task) = heldAt p l :=
  add_right_cancel ((heldAt_set hk a' p).trans (by rw [h]))

/-- A place that the attempt neither leaves nor goes to. -/
lemma heldAt_other (hk : l[k]? = some a) (a' : Attempt) (hp : a.monitor.place ≠ p)
    (hp' : a'.monitor.place ≠ p) :
    (heldAt p (l.set k a') : Multiset Task) = heldAt p l :=
  heldAt_set_of_eq hk (by rw [Attempt.taskAt, Attempt.taskAt, if_neg hp, if_neg hp'])

/-- The place that the attempt leaves. -/
lemma heldAt_leave (hk : l[k]? = some a) (a' : Attempt) (hp : a.monitor.place = p)
    (hp' : a'.monitor.place ≠ p) :
    (heldAt p l : Multiset Task) = a.task ::ₘ heldAt p (l.set k a') := by
  have h := heldAt_set hk a' p
  rw [Attempt.taskAt, Attempt.taskAt, if_pos hp, if_neg hp', add_zero] at h
  rw [← h, add_comm, Multiset.singleton_add]

/-- The place that the attempt goes to. -/
lemma heldAt_arrive (hk : l[k]? = some a) (a' : Attempt) (hp : a.monitor.place ≠ p)
    (hp' : a'.monitor.place = p) :
    (heldAt p (l.set k a') : Multiset Task) = a'.task ::ₘ heldAt p l := by
  have h := heldAt_set hk a' p
  rw [Attempt.taskAt, Attempt.taskAt, if_neg hp, if_pos hp', add_zero] at h
  rw [h, add_comm, Multiset.singleton_add]

lemma mem_heldAt (hk : l[k]? = some a) (hp : a.monitor.place = p) : a.task ∈ heldAt p l :=
  List.mem_map.mpr ⟨a, List.mem_filter.mpr ⟨List.mem_of_getElem? hk, by simpa using hp⟩, rfl⟩

lemma of_mem_heldAt {t : Task} (h : t ∈ heldAt p l) :
    ∃ (k : ℕ) (a : Attempt), l[k]? = some a ∧ a.monitor.place = p ∧ a.task = t := by
  obtain ⟨a, hmem, rfl⟩ := List.mem_map.mp h
  obtain ⟨hl, hp⟩ := List.mem_filter.mp hmem
  obtain ⟨k, hk⟩ := List.getElem?_of_mem hl
  exact ⟨k, a, hk, by simpa using hp, rfl⟩

/-- A completed task has been completed by the monitor of an attempt. -/
lemma of_mem_completed {S : Coordinator} {t : Task} (h : t ∈ S.completed) :
    ∃ (k : ℕ) (a : Attempt), S.attempts[k]? = some a ∧ a.monitor = .completed ∧ a.task = t := by
  obtain ⟨k, a, hk, hpl, ht⟩ := of_mem_heldAt h
  refine ⟨k, a, hk, ?_, ht⟩
  revert hpl
  cases a.monitor <;> simp [Monitor.place]

end Attempts

namespace Coordinator

variable {S : Coordinator} {k : ℕ} {a a' : Attempt}

/-! ### The ledger under the updates -/

lemma ledger_setAttempt_eq (S : Coordinator) (k : ℕ) (a' : Attempt) :
    (S.setAttempt k a').ledger =
      { opened := S.queued + heldAt .dispatching (S.attempts.set k a') +
          heldAt .monitored (S.attempts.set k a') + S.inTransit
        closed := heldAt .completed (S.attempts.set k a') } :=
  rfl

/-- A change of an attempt that leaves its task where it is. -/
lemma ledger_setAttempt (hk : S.attempts[k]? = some a) (ht : a'.task = a.task)
    (hp : a'.monitor.place = a.monitor.place) : (S.setAttempt k a').ledger = S.ledger := by
  have hat : ∀ p, a'.taskAt p = a.taskAt p := by
    intro p
    rw [Attempt.taskAt, Attempt.taskAt, ht, hp]
  simp only [ledger_setAttempt_eq, heldAt_set_of_eq hk (hat _)]
  rfl

lemma ledger_monitorTask (hk : S.attempts[k]? = some a) (hm : a.monitor = .popped) :
    (S.setAttempt k { a with monitor := .waiting }).ledger = S.ledger := by
  have hpl : a.monitor.place = .dispatching := by rw [hm]; rfl
  have hleave := heldAt_leave hk { a with monitor := .waiting } hpl nofun
  have harrive :=
    heldAt_arrive (p := .monitored) hk { a with monitor := .waiting } (hpl ▸ nofun) rfl
  have hother :=
    heldAt_other (p := .completed) hk { a with monitor := .waiting } (hpl ▸ nofun) nofun
  rw [ledger_setAttempt_eq]
  apply Ledger.ext
  · simp only [ledger, popped, monitored, hleave, harrive, ← Multiset.singleton_add]
    abel
  · exact hother

lemma ledger_wgDone {val : TaskType} (hk : S.attempts[k]? = some a)
    (hm : a.monitor = .released val) :
    S.ledger.Closes a.task (S.setAttempt k { a with monitor := .completed }).ledger := by
  have hpl : a.monitor.place = .monitored := by rw [hm]; rfl
  have hleave := heldAt_leave hk { a with monitor := .completed } hpl nofun
  have harrive := heldAt_arrive (p := .completed) hk { a with monitor := .completed } (hpl ▸ nofun)
    rfl
  have hother := heldAt_other (p := .dispatching) hk { a with monitor := .completed } (hpl ▸ nofun)
    nofun
  rw [ledger_setAttempt_eq]
  refine ⟨?_, harrive⟩
  simp only [ledger, popped, monitored, hleave, hother, ← Multiset.singleton_add]
  abel

section Queues

variable {S' : Coordinator} {t : Task}

/-- A task goes from a queue to a new attempt. -/
lemma ledger_assignTask (hq : (S.queued : Multiset Task) = t ::ₘ S'.queued)
    (ht : S'.inTransit = S.inTransit) (ha : S'.attempts = S.attempts) :
    (S'.assignTask t).ledger = S.ledger := by
  apply Ledger.ext
  · have hpop : ((S'.assignTask t).popped : Multiset Task) = {t} + S.popped := by
      rw [popped, assignTask, heldAt_append, ha]
      rfl
    have hmon : ((S'.assignTask t).monitored : Multiset Task) = S.monitored := by
      rw [monitored, assignTask, heldAt_append, ha]
      exact zero_add _
    have hqueue : (S'.assignTask t).queued = S'.queued := rfl
    have htransit : (S'.assignTask t).inTransit = S.inTransit := ht
    simp only [ledger, hpop, hmon, hqueue, htransit, hq, ← Multiset.singleton_add]
    abel
  · simp only [ledger, completed, assignTask, heldAt_append, ha]
    exact zero_add _

/-- A task goes from a monitor to `addTimeoutTask`. -/
lemma ledger_handOver (hk : S.attempts[k]? = some a) (hm : a.monitor = .sending)
    (hq : S'.queued = S.queued) (ht : (S'.inTransit : Multiset Task) = a.task ::ₘ S.inTransit)
    (ha : S'.attempts = S.attempts) :
    (S'.setAttempt k { a with monitor := .timedOut }).ledger = S.ledger := by
  have hpl : a.monitor.place = .monitored := by rw [hm]; rfl
  have hleave := heldAt_leave hk { a with monitor := .timedOut } hpl nofun
  have hother : ∀ p, p ≠ .monitored → p ≠ .left →
      (heldAt p (S.attempts.set k { a with monitor := .timedOut }) : Multiset Task) =
        heldAt p S.attempts :=
    fun p hp hp' => heldAt_other hk _ (hpl ▸ hp.symm) hp'.symm
  rw [ledger_setAttempt_eq, ha]
  apply Ledger.ext
  · simp only [ledger, popped, monitored, hq, ht, hleave, hother .dispatching nofun nofun,
      ← Multiset.singleton_add]
    abel
  · exact hother .completed nofun nofun

/-- A task goes from `addTimeoutTask` to its queue. -/
lemma ledger_addTimeoutTask (hq : (S'.queued : Multiset Task) = t ::ₘ S.queued)
    (ht : (S.inTransit : Multiset Task) = t ::ₘ S'.inTransit) (ha : S'.attempts = S.attempts) :
    S'.ledger = S.ledger := by
  apply Ledger.ext
  · simp only [ledger, popped, monitored, ha, hq, ht, ← Multiset.singleton_add]
    abel
  · simp only [ledger, completed, ha]

lemma ledger_queueTask (S : Coordinator) (t : ReduceTask) :
    { S with reduceQueue := S.reduceQueue.addTask t }.ledger = S.ledger.enter (.reduce t) := by
  apply Ledger.ext
  · simp only [ledger, Ledger.enter, queued, inTransit, popped, monitored, TaskQueue.addTask,
      List.map_cons, ← Multiset.coe_add, ← Multiset.cons_coe, ← Multiset.singleton_add]
    abel
  · rfl

/-- Only queueing, completing and stopping change the ledger. -/
lemma Moves.ledger_eq {act : Action} (hm : S.Moves act S') (hqueue : ∀ j, act ≠ .queueTask j)
    (hdone : ∀ k, act ≠ .wgDone k) (hstop : ∀ k, act ≠ .stopMonitor k) : S'.ledger = S.ledger := by
  cases hm with
  | @getMapTask t q hl hq =>
    obtain ⟨htasks, hadding⟩ := TaskQueue.tasks_of_getTask hq
    refine ledger_assignTask ?_ ?_ rfl
    · simp [queued, htasks]
    · simp [inTransit, hadding]
  | @getReduceTask t q hl hq =>
    obtain ⟨htasks, hadding⟩ := TaskQueue.tasks_of_getTask hq
    refine ledger_assignTask ?_ ?_ rfl
    · simp [queued, htasks]
    · simp [inTransit, hadding]
  | sleep => rfl
  | monitorTask hk hl hm => exact ledger_monitorTask hk hm
  | fire hk => exact ledger_setAttempt hk rfl rfl
  | expire hk hm => exact ledger_setAttempt hk rfl (by rw [hm]; rfl)
  | timeOut hk hl hm => exact ledger_setAttempt hk rfl (by rw [hm]; rfl)
  | handOverMap hk hm ht hq =>
    obtain ⟨hnone, rfl⟩ := TaskQueue.of_receive hq
    refine ledger_handOver hk hm rfl ?_ rfl
    simp [inTransit, hnone, ht]
  | handOverReduce hk hm ht hq =>
    obtain ⟨hnone, rfl⟩ := TaskQueue.of_receive hq
    refine ledger_handOver hk hm rfl ?_ rfl
    simp [inTransit, hnone, ht]
  | addMap hq =>
    obtain ⟨t, ht, rfl⟩ := TaskQueue.of_addTimeoutTask hq
    refine ledger_addTimeoutTask (t := .map t) ?_ ?_ rfl
    · simp [queued, TaskQueue.addTask]
    · simp [inTransit, ht]
  | addReduce hq =>
    obtain ⟨t, ht, rfl⟩ := TaskQueue.of_addTimeoutTask hq
    refine ledger_addTimeoutTask (t := .reduce t) ?_ ?_ rfl
    · simp [queued, TaskQueue.addTask]
    · simp [inTransit, ht]
  | ignore hk => exact ledger_setAttempt hk rfl rfl
  | accept hk => exact ledger_setAttempt hk rfl rfl
  | rendezvous hl hk hd hj hm => exact ledger_setAttempt hj rfl (by rw [hm]; rfl)
  | recheckFired hk hm => exact ledger_setAttempt hk rfl (by rw [hm]; rfl)
  | recheckDone hk hm => exact ledger_setAttempt hk rfl (by rw [hm]; rfl)
  | release hk hl hm => exact ledger_setAttempt hk rfl (by rw [hm]; rfl)
  | wgDone => exact absurd rfl (hdone _)
  | queueTask => exact absurd rfl (hqueue _)
  | stopMapQueue hp hq =>
    obtain rfl := TaskQueue.of_stop hq
    rfl
  | stopReduceQueue hp hq =>
    obtain rfl := TaskQueue.of_stop hq
    rfl
  | stopMonitor => exact absurd rfl (hstop _)
  | _ => rfl

end Queues

end Coordinator

end MapReduce

end DistLabs
