import DistLabs.MapReduce.Custody

/-!
# Monitors, counters and phases

What holds in every reachable state of the coordinator. `Watched` is about one attempt at a time:
what its monitor, its report, the lock and the maps `isTimeout` and `doneC` can say together.
`Accounts` is about all tasks: the two `WaitGroup`s count the tasks that are not completed, and the
phases go by the counters.

The two need each other. That a monitor counts down the right `WaitGroup` is a fact about its
attempt, and that no monitor is left to be stopped at the end is a fact about the counters.
-/

namespace DistLabs

namespace MapReduce

def Report.isAccepted : Report → Bool
  | .accepted _ => true
  | _ => false

lemma Report.exists_of_isAccepted {r : Report} (h : r.isAccepted = true) :
    ∃ files, r = .accepted files := by
  cases r with
  | accepted files => exact ⟨files, rfl⟩
  | _ => cases h

/-- The monitor has taken the timer. -/
def Monitor.late : Monitor → Bool
  | .expired | .sending | .timedOut => true
  | _ => false

/-- What an attempt, its monitor and the coordinator can say together. A report is accepted while
the monitor is at the outer `select` or in front of the lock in `timeOut`, and in both cases the
handler keeps the lock until its send is received. -/
def Watch (S : Coordinator) (k : ℕ) (a : Attempt) : Prop :=
  match a.monitor with
  | .popped => a.report = .none ∧ S.isTimeout a.id = false
  | .waiting => S.isTimeout a.id = false ∧ S.doneC a.id = some k ∧
      (a.report = .none ∨ S.lock = some (.handler k) ∧ a.report.isAccepted)
  | .expired => S.isTimeout a.id = false ∧ S.doneC a.id = some k ∧
      (a.report = .none ∨ a.report.isAccepted)
  | .sending => S.lock = some (.timeOut k) ∧ S.isTimeout a.id = true
  | .timedOut => a.report = .none → S.isTimeout a.id = true
  | .received val => S.isTimeout a.id = false ∧ S.doneC a.id = some k ∧
      val = a.task.type ∧ a.report.isAccepted ∧ S.lock ≠ some (.handler k)
  | .releasing val | .released val =>
    val = a.task.type ∧ a.report.isAccepted ∧ S.lock ≠ some (.handler k)
  | .completed => a.report.isAccepted ∧ S.lock ≠ some (.handler k)
  | .stopped => False

structure Watched (S : Coordinator) : Prop where
  current : S.currentID = S.attempts.length
  id_eq : ∀ k a, S.attempts[k]? = some a → a.id = k + 1
  channel : ∀ id k, S.doneC id = some k → id = k + 1
  untouched : ∀ id, S.attempts.length < id → S.isTimeout id = false
  watch : ∀ k a, S.attempts[k]? = some a → Watch S k a
  handler : ∀ k, S.lock = some (.handler k) → ∃ a, S.attempts[k]? = some a ∧
    a.report.isAccepted ∧ (a.monitor = .waiting ∨ a.monitor = .expired)
  timeOut : ∀ k, S.lock = some (.timeOut k) → ∃ a, S.attempts[k]? = some a ∧ a.monitor = .sending

section Watched

variable {S S' : Coordinator} {k : ℕ} {a a' : Attempt}

/-- Only the entries of an attempt in the maps and its own hold on the lock matter to it. -/
lemma Watch.congr {j : ℕ} {b : Attempt} (h : Watch S j b)
    (ht : S'.isTimeout b.id = S.isTimeout b.id) (hd : S'.doneC b.id = S.doneC b.id)
    (hh : S'.lock = some (.handler j) ↔ S.lock = some (.handler j))
    (ho : S'.lock = some (.timeOut j) ↔ S.lock = some (.timeOut j)) : Watch S' j b := by
  unfold Watch at h ⊢
  cases hm : b.monitor <;> simp only [hm, ht, hd, ne_eq, hh, ho] at h ⊢ <;> exact h

/-- A step of the `k`-th attempt: the other attempts keep what they have, if the step touches the
maps only at the id of its own attempt and takes or gives back the lock only for it. -/
lemma Watched.update (h : Watched S) (hk : S.attempts[k]? = some a)
    (hat : S'.attempts = S.attempts.set k a') (hcur : S'.currentID = S.currentID)
    (hid : a'.id = a.id) (hw : Watch S' k a')
    (ht : ∀ id, id ≠ k + 1 → S'.isTimeout id = S.isTimeout id)
    (hd : ∀ id, id ≠ k + 1 → S'.doneC id = S.doneC id)
    (hdk : S'.doneC (k + 1) = some k ∨ S'.doneC (k + 1) = none)
    (hh : ∀ j, j ≠ k → (S'.lock = some (.handler j) ↔ S.lock = some (.handler j)))
    (ho : ∀ j, j ≠ k → (S'.lock = some (.timeOut j) ↔ S.lock = some (.timeOut j)))
    (hhk : S'.lock = some (.handler k) →
      a'.report.isAccepted ∧ (a'.monitor = .waiting ∨ a'.monitor = .expired))
    (hok : S'.lock = some (.timeOut k) → a'.monitor = .sending) : Watched S' := by
  obtain ⟨hlt, _⟩ := List.getElem?_eq_some_iff.mp hk
  have hself : S'.attempts[k]? = some a' := by rw [hat, List.getElem?_set_self hlt]
  have hother : ∀ j, j ≠ k → S'.attempts[j]? = S.attempts[j]? := by
    intro j hj
    rw [hat, List.getElem?_set_ne hj.symm]
  have hlen : S'.attempts.length = S.attempts.length := by rw [hat, List.length_set]
  refine ⟨?_, ?_, ?_, ?_, ?_, ?_, ?_⟩
  · rw [hcur, hlen, h.current]
  · intro j b hj
    rcases eq_or_ne j k with rfl | hne
    · rw [hself] at hj
      cases hj
      rw [hid, h.id_eq j a hk]
    · exact h.id_eq j b (hother j hne ▸ hj)
  · intro id j hj
    rcases eq_or_ne id (k + 1) with rfl | hne
    · rcases hdk with hdk | hdk <;> rw [hdk] at hj <;> cases hj
      rfl
    · exact h.channel id j (hd id hne ▸ hj)
  · intro id hlt'
    rw [hlen] at hlt'
    rw [ht id (by omega), h.untouched id hlt']
  · intro j b hj
    rcases eq_or_ne j k with rfl | hne
    · rw [hself] at hj
      cases hj
      exact hw
    · have hjS : S.attempts[j]? = some b := hother j hne ▸ hj
      have hne' : b.id ≠ k + 1 := by rw [h.id_eq j b hjS]; omega
      exact (h.watch j b hjS).congr (ht _ hne') (hd _ hne') (hh j hne) (ho j hne)
  · intro j hj
    rcases eq_or_ne j k with rfl | hne
    · exact ⟨a', hself, hhk hj⟩
    · obtain ⟨b, hb, hrest⟩ := h.handler j ((hh j hne).mp hj)
      exact ⟨b, (hother j hne).trans hb, hrest⟩
  · intro j hj
    rcases eq_or_ne j k with rfl | hne
    · exact ⟨a', hself, hok hj⟩
    · obtain ⟨b, hb, hrest⟩ := h.timeOut j ((ho j hne).mp hj)
      exact ⟨b, (hother j hne).trans hb, hrest⟩

lemma Watched.congr (h : Watched S) (hcur : S'.currentID = S.currentID)
    (hat : S'.attempts = S.attempts) (hd : S'.doneC = S.doneC) (ht : S'.isTimeout = S.isTimeout)
    (hl : S'.lock = S.lock) : Watched S' := by
  refine ⟨?_, ?_, ?_, ?_, ?_, ?_, ?_⟩
  · rw [hcur, hat, h.current]
  · exact hat ▸ h.id_eq
  · exact hd ▸ h.channel
  · exact hat ▸ ht ▸ h.untouched
  · intro k a hk
    exact (h.watch k a (hat ▸ hk)).congr (by rw [ht]) (by rw [hd]) (by rw [hl]) (by rw [hl])
  · exact hl ▸ hat ▸ h.handler
  · exact hl ▸ hat ▸ h.timeOut

lemma Watched.assignTask (h : Watched S) (t : Task) : Watched (S.assignTask t) := by
  have hmem : ∀ (j : ℕ) (b : Attempt), (S.assignTask t).attempts[j]? = some b →
      S.attempts[j]? = some b ∨
        j = S.attempts.length ∧ b = { id := S.currentID + 1, task := t } := by
    intro j b hj
    rcases Nat.lt_or_ge j S.attempts.length with hlt | hge
    · exact .inl ((List.getElem?_append_left hlt).symm.trans hj)
    · simp only [Coordinator.assignTask, List.getElem?_append_right hge,
        List.getElem?_singleton] at hj
      split_ifs at hj with hz
      cases hj
      exact .inr ⟨by omega, rfl⟩
  have hold : ∀ (j : ℕ) (b : Attempt), S.attempts[j]? = some b →
      (S.assignTask t).attempts[j]? = some b := by
    intro j b hj
    exact (List.getElem?_append_left (List.getElem?_eq_some_iff.mp hj).1).trans hj
  refine ⟨?_, ?_, h.channel, ?_, ?_, ?_, ?_⟩
  · simp [Coordinator.assignTask, h.current]
  · intro j b hj
    rcases hmem j b hj with hj | ⟨rfl, rfl⟩
    · exact h.id_eq j b hj
    · rw [h.current]
  · intro id hlt
    refine h.untouched id ?_
    simp only [Coordinator.assignTask, List.length_append, List.length_singleton] at hlt
    omega
  · intro j b hj
    rcases hmem j b hj with hj | ⟨rfl, rfl⟩
    · exact h.watch j b hj
    · exact ⟨rfl, h.untouched _ (by rw [h.current]; exact Nat.lt_succ_self _)⟩
  · intro j hj
    obtain ⟨b, hb, hrest⟩ := h.handler j hj
    exact ⟨b, hold j b hb, hrest⟩
  · intro j hj
    obtain ⟨b, hb, hrest⟩ := h.timeOut j hj
    exact ⟨b, hold j b hb, hrest⟩

/-- The attempt whose report a handler is busy with. -/
lemma Watched.of_handler (h : Watched S) (hk : S.attempts[k]? = some a)
    (hl : S.lock = some (.handler k)) :
    a.report.isAccepted ∧ (a.monitor = .waiting ∨ a.monitor = .expired) := by
  obtain ⟨b, hb, hrest⟩ := h.handler k hl
  cases hk.symm.trans hb
  exact hrest

lemma Watched.own_channel (h : Watched S) (k : ℕ) :
    S.doneC (k + 1) = some k ∨ S.doneC (k + 1) = none := by
  cases hd : S.doneC (k + 1) with
  | none => exact .inr rfl
  | some j =>
    have := h.channel _ j hd
    exact .inl (congrArg some (by omega))

/-- A step of an attempt alone. -/
lemma Watched.step (h : Watched S) (hk : S.attempts[k]? = some a)
    (hat : S'.attempts = S.attempts.set k a') (hcur : S'.currentID = S.currentID)
    (hid : a'.id = a.id) (hd : S'.doneC = S.doneC) (ht : S'.isTimeout = S.isTimeout)
    (hl : S'.lock = S.lock) (hw : Watch S k a') (hrep : a'.report = a.report)
    (hhk : S.lock = some (.handler k) → a'.monitor = .waiting ∨ a'.monitor = .expired)
    (hok : a.monitor = .sending → a'.monitor = .sending) : Watched S' := by
  refine h.update hk hat hcur hid ?_ (by simp [ht]) (by simp [hd]) ?_ (by simp [hl])
    (by simp [hl]) ?_ ?_
  · exact hw.congr (by rw [ht]) (by rw [hd]) (by rw [hl]) (by rw [hl])
  · exact hd ▸ h.own_channel k
  · rw [hl, hrep]
    intro hlock
    exact ⟨(h.of_handler hk hlock).1, hhk hlock⟩
  · rw [hl]
    intro hlock
    obtain ⟨b, hb, hm⟩ := h.timeOut k hlock
    cases hk.symm.trans hb
    exact hok hm

lemma Watched.handOver (h : Watched S) (hk : S.attempts[k]? = some a) (hm : a.monitor = .sending)
    (hat : S'.attempts = S.attempts.set k { a with monitor := .timedOut })
    (hcur : S'.currentID = S.currentID) (hd : S'.doneC = S.doneC)
    (ht : S'.isTimeout = S.isTimeout) (hl : S'.lock = none) : Watched S' := by
  have hw := h.watch k a hk
  simp only [Watch, hm] at hw
  refine h.update hk hat hcur rfl ?_ (by simp [ht]) (by simp [hd]) ?_ ?_ ?_ ?_ ?_
  · intro _
    rw [ht]
    exact hw.2
  · exact hd ▸ h.own_channel k
  · intro j hj
    simp [hl, hw.1]
  · intro j hj
    simp [hl, hw.1, hj.symm]
  · intro hlock
    cases hl.symm.trans hlock
  · intro hlock
    cases hl.symm.trans hlock

/-- Only an attempt whose monitor has ended after `timeOut` is found in `isTimeout`. -/
lemma Watched.ignoreReport (h : Watched S) {files : List String} (hk : S.attempts[k]? = some a)
    (hl : S.lock = none) (hr : a.report = .none) (ht : S.isTimeout a.id = true) :
    Watched (S.ignoreReport k a files) := by
  have hid := h.id_eq k a hk
  have hw := h.watch k a hk
  have hm : a.monitor = .timedOut := by
    unfold Watch at hw
    cases hm : a.monitor <;> simp_all [Report.isAccepted]
  refine h.update hk rfl rfl rfl ?_ ?_ ?_ ?_ (fun _ _ => .rfl) (fun _ _ => .rfl) ?_ ?_
  · simp [Watch, hm]
  · intro id hne
    exact Function.update_of_ne (hid ▸ hne) _ _
  · intro id hne
    exact Function.update_of_ne (hid ▸ hne) _ _
  · right
    simp only [Coordinator.ignoreReport, Coordinator.setAttempt, ← hid, Function.update_self]
  · intro hlock
    cases hl.symm.trans hlock
  · intro hlock
    cases hl.symm.trans hlock

/-- A report that is accepted finds its monitor at the outer `select` or in front of the lock. -/
lemma Watched.monitor_of_accept (h : Watched S) (hk : S.attempts[k]? = some a) (hl : S.lock = none)
    (hpop : a.monitor ≠ .popped) (hr : a.report = .none) (ht : S.isTimeout a.id = false) :
    a.monitor = .waiting ∨ a.monitor = .expired := by
  have hw := h.watch k a hk
  unfold Watch at hw
  cases hm : a.monitor <;> simp_all [Report.isAccepted]

lemma Watched.acceptReport (h : Watched S) {files : List String} (hk : S.attempts[k]? = some a)
    (hl : S.lock = none) (hpop : a.monitor ≠ .popped) (hr : a.report = .none)
    (ht : S.isTimeout a.id = false) : Watched (S.acceptReport k a files) := by
  have hw := h.watch k a hk
  have hm := h.monitor_of_accept hk hl hpop hr ht
  have hd : S.doneC a.id = some k := by
    rcases hm with hm | hm <;> simp only [Watch, hm] at hw <;> exact hw.2.1
  refine h.update hk rfl rfl rfl ?_ (fun _ _ => rfl) (fun _ _ => rfl) ?_ ?_ ?_ ?_ nofun
  · rcases hm with hm | hm <;> simp only [Watch, hm]
    · exact ⟨ht, hd, .inr ⟨rfl, rfl⟩⟩
    · exact ⟨ht, hd, .inr rfl⟩
  · exact .inl (h.id_eq k a hk ▸ hd)
  · intro j hj
    simp [Coordinator.acceptReport, Coordinator.setAttempt, hl, hj.symm]
  · intro j hj
    simp [Coordinator.acceptReport, Coordinator.setAttempt, hl]
  · intro _
    exact ⟨rfl, hm⟩

lemma Watched.moves (h : Watched S) {act : Action} (hm : S.Moves act S')
    (hstop : S.phase = .ended → ∀ (k : ℕ) (a : Attempt), S.attempts[k]? = some a →
      a.monitor ≠ .waiting) :
    Watched S' := by
  cases hm with
  | getMapTask hl hq =>
    refine Watched.assignTask ?_ _
    exact h.congr rfl rfl rfl rfl rfl
  | getReduceTask hl hq =>
    refine Watched.assignTask ?_ _
    exact h.congr rfl rfl rfl rfl rfl
  | sleep => exact h
  | @monitorTask k a hk hl hm =>
    have hid := h.id_eq k a hk
    have hw := h.watch k a hk
    simp only [Watch, hm] at hw
    refine h.update hk rfl rfl rfl ?_ (fun _ _ => rfl) ?_ ?_ (fun _ _ => .rfl) (fun _ _ => .rfl)
      ?_ ?_
    · exact ⟨hw.2, Function.update_self _ _ _, .inl hw.1⟩
    · intro id hne
      exact Function.update_of_ne (hid ▸ hne) _ _
    · left
      simp only [Coordinator.setAttempt, ← hid, Function.update_self]
    · intro hlock
      cases hl.symm.trans hlock
    · intro hlock
      cases hl.symm.trans hlock
  | @fire k a hk hm =>
    exact h.step hk rfl rfl rfl rfl rfl rfl (h.watch k a hk) rfl
      (fun hl => (h.of_handler hk hl).2) id
  | @expire k a hk hm hf =>
    have hw := h.watch k a hk
    simp only [Watch, hm] at hw
    refine h.step hk rfl rfl rfl rfl rfl rfl ?_ rfl (fun _ => .inr rfl) ?_
    · exact ⟨hw.1, hw.2.1, hw.2.2.imp_right And.right⟩
    · intro hs
      cases hm.symm.trans hs
  | @timeOut k a hk hl hm =>
    have hid := h.id_eq k a hk
    refine h.update hk rfl rfl rfl ?_ ?_ (fun _ _ => rfl) ?_ ?_ ?_ ?_ (fun _ => rfl)
    · exact ⟨rfl, Function.update_self _ _ _⟩
    · intro id hne
      exact Function.update_of_ne (hid ▸ hne) _ _
    · have hw := h.watch k a hk
      simp only [Watch, hm, hid] at hw
      exact .inl hw.2.1
    · intro j hj
      simp [Coordinator.setAttempt, hl]
    · intro j hj
      simp [Coordinator.setAttempt, hl, hj.symm]
    · intro hlock
      cases hlock
  | @handOverMap k a t q hk hm ht hq => exact h.handOver hk hm rfl rfl rfl rfl rfl
  | @handOverReduce k a t q hk hm ht hq => exact h.handOver hk hm rfl rfl rfl rfl rfl
  | addMap hq => exact h.congr rfl rfl rfl rfl rfl
  | addReduce hq => exact h.congr rfl rfl rfl rfl rfl
  | @ignore k a files hk hl hm hr ht => exact h.ignoreReport hk hl hr ht
  | @accept k a files hk hl hm hr ht => exact h.acceptReport hk hl hm hr ht
  | @rendezvous k j a b hl hk hd hj hm =>
    -- the channel under the id of an attempt is the one its own monitor receives from
    obtain rfl : k = j := by
      have := h.id_eq k a hk
      have := h.channel _ j hd
      omega
    cases hk.symm.trans hj
    have hw := h.watch k a hk
    simp only [Watch, hm] at hw
    refine h.update hk rfl rfl rfl ?_ (fun _ _ => rfl) (fun _ _ => rfl) ?_ ?_ ?_ nofun nofun
    · exact ⟨hw.1, hw.2.1, rfl, (h.of_handler hk hl).1, nofun⟩
    · exact .inl (h.id_eq k a hk ▸ hd)
    · intro j hj
      simp [Coordinator.setAttempt, hl, hj.symm]
    · intro j hj
      simp [Coordinator.setAttempt, hl]
  | @recheckFired k a val hk hm hf =>
    have hw := h.watch k a hk
    simp only [Watch, hm] at hw
    refine h.step hk rfl rfl rfl rfl rfl rfl ?_ rfl (fun _ => .inr rfl) ?_
    · exact ⟨hw.1, hw.2.1, .inr hw.2.2.2.1⟩
    · intro hs
      cases hm.symm.trans hs
  | @recheckDone k a val hk hm hf =>
    have hw := h.watch k a hk
    simp only [Watch, hm] at hw
    refine h.step hk rfl rfl rfl rfl rfl rfl hw.2.2 rfl (fun hl => absurd hl hw.2.2.2.2) ?_
    intro hs
    cases hm.symm.trans hs
  | @release k a val hk hl hm =>
    have hid := h.id_eq k a hk
    have hw := h.watch k a hk
    simp only [Watch, hm] at hw
    refine h.update hk rfl rfl rfl hw (fun _ _ => rfl) ?_ ?_ (fun _ _ => .rfl) (fun _ _ => .rfl)
      (fun hlock => absurd hlock hw.2.2) ?_
    · intro id hne
      exact Function.update_of_ne (hid ▸ hne) _ _
    · right
      simp only [Coordinator.setAttempt, ← hid, Function.update_self]
    · intro hlock
      cases hl.symm.trans hlock
  | @wgDone k a val hk hm =>
    have hw := h.watch k a hk
    simp only [Watch, hm] at hw
    have hstep : Watched (S.setAttempt k { a with monitor := .completed }) := by
      refine h.step hk rfl rfl rfl rfl rfl rfl hw.2 rfl (fun hl => absurd hl hw.2.2) ?_
      intro hs
      cases hm.symm.trans hs
    cases val <;> exact hstep.congr rfl rfl rfl rfl rfl
  | reduce hp hw => exact h.congr rfl rfl rfl rfl rfl
  | queueTask hp hj => exact h.congr rfl rfl rfl rfl rfl
  | count hp => exact h.congr rfl rfl rfl rfl rfl
  | monitorReduceEnd hp => exact h.congr rfl rfl rfl rfl rfl
  | removeTempFiles hp hw => exact h.congr rfl rfl rfl rfl rfl
  | remove hp hj => exact h.congr rfl rfl rfl rfl rfl
  | clear hp => exact h.congr rfl rfl rfl rfl rfl
  | finish hp hl => exact h.congr rfl rfl rfl rfl rfl
  | stopMapQueue hp hq => exact h.congr rfl rfl rfl rfl rfl
  | stopReduceQueue hp hq => exact h.congr rfl rfl rfl rfl rfl
  | stopMonitor hk hp hm => exact absurd hm (hstop hp _ _ hk)

end Watched

/-! ### Counters -/

/-- The tasks `_map` makes. -/
def mapTasks (files : List String) : List Task := files.zipIdx.map fun p => .map ⟨p.2, [p.1]⟩

/-- How many tasks of a type are not completed. -/
def Coordinator.pending (S : Coordinator) (type : TaskType) : ℕ :=
  S.ledger.pending fun t => t.type = type

namespace Phase

/-- The reduce tasks that are still to be queued. -/
def todo : Phase → List ReduceTask
  | .queueing todo _ => todo
  | _ => []

/-- The tasks that are in the queue and not yet counted. -/
def uncounted : Phase → ℕ
  | .queueing _ false => 1
  | _ => 0

/-- All reduce tasks have been queued and counted. -/
def settled : Phase → Bool
  | .mapping => false
  | .queueing todo counted => todo.isEmpty && counted
  | _ => true

lemma of_settled {p : Phase} (h : p.settled = true) :
    p ≠ .mapping ∧ p.uncounted = 0 ∧ p.todo = [] := by
  cases p with
  | mapping => cases h
  | queueing todo counted =>
    cases counted with
    | false => simp [settled] at h
    | true => simpa [settled, uncounted, Phase.todo] using h
  | _ => exact ⟨nofun, rfl, rfl⟩

/-- `reduceWG.Wait` has returned. -/
def reduced : Phase → Bool
  | .removing _ | .ending | .ended | .exited => true
  | _ => false

/-- `end` has been called. -/
def finished : Phase → Bool
  | .ended | .exited => true
  | _ => false

end Phase

/-- `created` is what the ledger has, the `WaitGroup`s count what is not completed, and the phases
go by them: there are reduce tasks only when no map task is pending, and the job is over only when
no reduce task is pending either. -/
structure Accounts (files : List String) (nReduce : ℕ) (S : Coordinator) : Prop where
  nReduce_eq : S.nReduce = nReduce
  total : S.ledger.total = S.created
  maps : ∀ t : Task, t.type = .MAP → (t ∈ S.created ↔ t ∈ mapTasks files)
  ids : ∀ t t' : ReduceTask, .reduce t ∈ S.created → .reduce t' ∈ S.created → t.ID = t'.ID → t = t'
  mapWG : S.mapWG = S.pending .MAP
  reduceWG : S.reduceWG + S.phase.uncounted = S.pending .REDUCE
  mapping : S.phase = .mapping → ∀ t ∈ S.created, t.type = .MAP
  barrier : S.phase ≠ .mapping → S.pending .MAP = 0
  planned : S.phase ≠ .mapping → ∀ i < nReduce,
    (∃ t ∈ S.phase.todo, t.ID = i) ∨ ∃ t, .reduce t ∈ S.created ∧ t.ID = i
  todo_nodup : (S.phase.todo.map ReduceTask.ID).Nodup
  todo_new : ∀ t ∈ S.phase.todo, ∀ t', .reduce t' ∈ S.created → t'.ID ≠ t.ID
  reduced : S.phase.reduced = true → S.pending .REDUCE = 0
  done : S.done = true → S.phase.finished = true

section Accounts

variable {files : List String} {nReduce : ℕ} {S S' : Coordinator} {k : ℕ} {a : Attempt}

/-- A step that leaves ledger, counters and phase alone. -/
lemma Accounts.congr (h : Accounts files nReduce S) (hl : S'.ledger = S.ledger)
    (hn : S'.nReduce = S.nReduce) (hc : S'.created = S.created) (hm : S'.mapWG = S.mapWG)
    (hr : S'.reduceWG = S.reduceWG) (hp : S'.phase = S.phase) (hd : S'.done = S.done) :
    Accounts files nReduce S' := by
  have hpend : S'.pending = S.pending := by
    funext type
    rw [Coordinator.pending, hl, Coordinator.pending]
  constructor
  case nReduce_eq => rw [hn, h.nReduce_eq]
  case total => rw [hl, hc, h.total]
  case maps => exact hc ▸ h.maps
  case ids => exact hc ▸ h.ids
  case mapWG => rw [hm, hpend, h.mapWG]
  case reduceWG => rw [hr, hp, hpend, h.reduceWG]
  case mapping => exact hp ▸ hc ▸ h.mapping
  case barrier => exact hp ▸ hpend ▸ h.barrier
  case planned => exact hp ▸ hc ▸ h.planned
  case todo_nodup => exact hp ▸ h.todo_nodup
  case todo_new => exact hp ▸ hc ▸ h.todo_new
  case reduced => exact hp ▸ hpend ▸ h.reduced
  case done => exact hp ▸ hd ▸ h.done

/-- `Done` is told only at the very end. -/
lemma Accounts.not_done (h : Accounts files nReduce S) (hp : S.phase.finished = false) :
    ¬S.done = true := by
  intro hd
  rw [h.done hd] at hp
  cases hp

/-- `Done` is told only when no reduce task is pending. -/
lemma Accounts.reduced_of_done (h : Accounts files nReduce S) (hd : S.done = true) :
    S.phase.reduced = true := by
  have hfin := h.done hd
  revert hfin
  cases S.phase <;> simp [Phase.finished, Phase.reduced]

/-- A step that only goes on to the next phase, after the queueing. -/
lemma Accounts.next_phase (h : Accounts files nReduce S) (hs : S.phase.settled = true)
    (hs' : S'.phase.settled = true) (hl : S'.ledger = S.ledger) (hn : S'.nReduce = S.nReduce)
    (hc : S'.created = S.created) (hm : S'.mapWG = S.mapWG) (hr : S'.reduceWG = S.reduceWG)
    (hreduced : S'.phase.reduced = true → S.pending .REDUCE = 0)
    (hdone : S'.done = true → S'.phase.finished = true) :
    Accounts files nReduce S' := by
  obtain ⟨hpm, hu, htodo⟩ := Phase.of_settled hs
  obtain ⟨hpm', hu', htodo'⟩ := Phase.of_settled hs'
  have hpend : S'.pending = S.pending := by
    funext type
    rw [Coordinator.pending, hl, Coordinator.pending]
  constructor
  case nReduce_eq => rw [hn, h.nReduce_eq]
  case total => rw [hl, hc, h.total]
  case maps => exact hc ▸ h.maps
  case ids => exact hc ▸ h.ids
  case mapWG => rw [hm, hpend, h.mapWG]
  case reduceWG => rw [hr, hu', hpend, ← hu, h.reduceWG]
  case mapping => exact fun hp => absurd hp hpm'
  case barrier => exact fun _ => hpend ▸ h.barrier hpm
  case planned =>
    intro _ i hi
    rw [htodo', hc, ← htodo]
    exact h.planned hpm i hi
  case todo_nodup => simp [htodo']
  case todo_new => simp [htodo']
  case reduced => exact hpend ▸ hreduced
  case done => exact hdone

lemma Accounts.opened_eq (h : Accounts files nReduce S) (hp : S.phase.reduced = true) :
    S.ledger.opened = 0 := by
  have hm : S.phase ≠ .mapping := by
    intro hm
    rw [hm] at hp
    cases hp
  refine Multiset.eq_zero_of_forall_notMem fun t => ?_
  cases ht : t.type with
  | MAP => exact Ledger.notMem_opened (h.barrier hm) ht
  | REDUCE => exact Ledger.notMem_opened (h.reduced hp) ht

/-- When the reduce phase is over no monitor is left. -/
lemma Accounts.not_monitored (h : Accounts files nReduce S) (hp : S.phase.reduced = true)
    (hk : S.attempts[k]? = some a) : a.monitor.place ≠ .monitored := by
  intro hpl
  have hmem : a.task ∈ S.ledger.opened := by
    simp only [Coordinator.ledger, Multiset.mem_add, Multiset.mem_coe]
    exact .inl (.inr (mem_heldAt hk hpl))
  rw [h.opened_eq hp] at hmem
  exact absurd hmem (Multiset.notMem_zero _)

/-- At the end there is no monitor to be stopped. -/
lemma Accounts.not_waiting (h : Accounts files nReduce S) (hp : S.phase = .ended)
    (hk : S.attempts[k]? = some a) : a.monitor ≠ .waiting := by
  intro hm
  exact h.not_monitored (by rw [hp]; rfl) hk (by rw [hm]; rfl)

/-- A monitor completes its task. -/
lemma Accounts.wgDone (h : Accounts files nReduce S) {val : TaskType}
    (hk : S.attempts[k]? = some a) (hm : a.monitor = .released val) (hval : val = a.task.type) :
    Accounts files nReduce
      ((S.waitGroupDone val).setAttempt k { a with monitor := .completed }) := by
  set S' := (S.waitGroupDone val).setAttempt k { a with monitor := .completed }
  have hcloses : S.ledger.Closes a.task S'.ledger := by
    cases val <;> exact Coordinator.ledger_wgDone hk hm
  have hpend : ∀ type, S.pending type = S'.pending type + if val = type then 1 else 0 := by
    intro type
    split_ifs with ht
    · exact hcloses.pending_of_pos _ (hval ▸ ht)
    · exact hcloses.pending_of_neg _ (hval ▸ ht)
  have hle : ∀ type, S.pending type = 0 → S'.pending type = 0 := by
    intro type hz
    have := hpend type
    omega
  have hn : S'.nReduce = S.nReduce := by cases val <;> rfl
  have hc : S'.created = S.created := by cases val <;> rfl
  have hp : S'.phase = S.phase := by cases val <;> rfl
  have hd : S'.done = S.done := by cases val <;> rfl
  constructor
  case nReduce_eq => rw [hn, h.nReduce_eq]
  case total => rw [hcloses.total_eq, hc, h.total]
  case maps => exact hc ▸ h.maps
  case ids => exact hc ▸ h.ids
  case mapWG =>
    have hwg := h.mapWG
    have := hpend .MAP
    cases val with
    | MAP =>
      have hdown : S'.mapWG = S.mapWG - 1 := rfl
      simp only [if_true] at this
      omega
    | REDUCE =>
      have hsame : S'.mapWG = S.mapWG := rfl
      simp only [reduceCtorEq, if_false] at this
      omega
  case reduceWG =>
    have hwg := h.reduceWG
    have := hpend .REDUCE
    rw [hp]
    cases val with
    | MAP =>
      have hsame : S'.reduceWG = S.reduceWG := rfl
      simp only [reduceCtorEq, if_false] at this
      omega
    | REDUCE =>
      have hdown : S'.reduceWG = S.reduceWG - 1 := rfl
      simp only [if_true] at this
      omega
  case mapping => exact hp ▸ hc ▸ h.mapping
  case barrier => exact hp ▸ fun hne => hle _ (h.barrier hne)
  case planned => exact hp ▸ hc ▸ h.planned
  case todo_nodup => exact hp ▸ h.todo_nodup
  case todo_new => exact hp ▸ hc ▸ h.todo_new
  case reduced => exact hp ▸ fun hreduced => hle _ (h.reduced hreduced)
  case done => exact hp ▸ hd ▸ h.done

/-- `mapWG.Wait` has returned. -/
lemma Accounts.reduce (h : Accounts files nReduce S) (hp : S.phase = .mapping)
    (hw : S.mapWG = 0) :
    Accounts files nReduce { S with phase := .queueing S.reduceTasks true } := by
  have hzero : S.pending .MAP = 0 := by
    have := h.mapWG
    omega
  have hmaps := h.mapping hp
  constructor
  case nReduce_eq => exact h.nReduce_eq
  case total => exact h.total
  case maps => exact h.maps
  case ids => exact h.ids
  case mapWG => exact h.mapWG
  case reduceWG =>
    have hwg := h.reduceWG
    rw [hp] at hwg
    exact hwg
  case mapping => exact fun hp' => nomatch hp'
  case barrier => exact fun _ => hzero
  case planned =>
    intro _ i hi
    refine .inl ⟨⟨i, groupIntermediateFiles S.mapTempFiles i⟩, ?_, rfl⟩
    exact List.mem_map.mpr ⟨i, List.mem_range.mpr (h.nReduce_eq ▸ hi), rfl⟩
  case todo_nodup =>
    simp only [Phase.todo, Coordinator.reduceTasks, List.map_map]
    exact (List.map_id' (List.range S.nReduce)).symm ▸ List.nodup_range
  case todo_new =>
    intro t _ t' ht'
    cases hmaps _ ht'
  case reduced => exact fun hreduced => nomatch hreduced
  case done => exact fun hd => absurd hd (h.not_done (by rw [hp]; rfl))

/-- `reduce` queues a task. -/
lemma Accounts.queueTask (h : Accounts files nReduce S) {j : ℕ} {t : ReduceTask}
    {todo : List ReduceTask} (hp : S.phase = .queueing todo true) (hj : todo[j]? = some t) :
    Accounts files nReduce
      { S with
        reduceQueue := S.reduceQueue.addTask t
        created := S.created ++ [.reduce t]
        phase := .queueing (todo.eraseIdx j) false } := by
  set S' : Coordinator := { S with
        reduceQueue := S.reduceQueue.addTask t
        created := S.created ++ [.reduce t]
        phase := .queueing (todo.eraseIdx j) false }
  have hmem : t ∈ todo := List.mem_of_getElem? hj
  have hnd := h.todo_nodup
  have hnew := h.todo_new
  have hplan := h.planned (by rw [hp]; nofun)
  simp only [hp, Phase.todo] at hnd hnew hplan
  have hperm : todo.Perm (t :: todo.eraseIdx j) := by
    obtain ⟨hlt, rfl⟩ := List.getElem?_eq_some_iff.mp hj
    exact (List.getElem_cons_eraseIdx_perm hlt).symm
  have hnd' : ((t :: todo.eraseIdx j).map ReduceTask.ID).Nodup := (hperm.map _).nodup_iff.mp hnd
  rw [List.map_cons, List.nodup_cons] at hnd'
  have hledger : S'.ledger = S.ledger.enter (.reduce t) := Coordinator.ledger_queueTask S t
  have hmap : S'.pending .MAP = S.pending .MAP := by
    rw [Coordinator.pending, hledger]
    exact Ledger.pending_enter_of_neg _ _ nofun
  have hreduce : S'.pending .REDUCE = S.pending .REDUCE + 1 := by
    rw [Coordinator.pending, hledger]
    exact Ledger.pending_enter_of_pos _ _ rfl
  constructor
  case nReduce_eq => exact h.nReduce_eq
  case total =>
    rw [hledger, Ledger.total_enter, h.total, Multiset.cons_coe]
    exact Multiset.coe_eq_coe.mpr (List.perm_append_singleton _ _).symm
  case maps =>
    intro t' ht'
    rw [← h.maps t' ht', List.mem_append, List.mem_singleton, or_iff_left]
    rintro rfl
    cases ht'
  case ids =>
    intro t₁ t₂ h₁ h₂ hid
    simp only [S', List.mem_append, List.mem_singleton, Task.reduce.injEq] at h₁ h₂
    rcases h₁ with h₁ | rfl <;> rcases h₂ with h₂ | rfl
    · exact h.ids t₁ t₂ h₁ h₂ hid
    · exact absurd hid (hnew _ hmem t₁ h₁)
    · exact absurd hid.symm (hnew _ hmem t₂ h₂)
    · rfl
  case mapWG => rw [hmap, ← h.mapWG]
  case reduceWG =>
    have hwg := h.reduceWG
    rw [hp] at hwg
    have hsame : S'.reduceWG = S.reduceWG := rfl
    have hone : S'.phase.uncounted = 1 := rfl
    simp only [Phase.uncounted] at hwg
    omega
  case mapping => exact fun hp' => nomatch hp'
  case barrier => exact fun _ => hmap ▸ h.barrier (by rw [hp]; nofun)
  case planned =>
    intro _ i hi
    rcases hplan i hi with ⟨t', ht', rfl⟩ | ⟨t', ht', rfl⟩
    · rcases List.mem_cons.mp (hperm.mem_iff.mp ht') with rfl | ht'
      · exact .inr ⟨t', List.mem_append_right _ (List.mem_singleton_self _), rfl⟩
      · exact .inl ⟨t', ht', rfl⟩
    · exact .inr ⟨t', List.mem_append_left _ ht', rfl⟩
  case todo_nodup => exact hnd'.2
  case todo_new =>
    intro t₁ h₁ t₂ h₂ hid
    simp only [S', List.mem_append, List.mem_singleton, Task.reduce.injEq] at h₂
    rcases h₂ with h₂ | rfl
    · exact hnew t₁ (hperm.mem_iff.mpr (List.mem_cons_of_mem _ h₁)) t₂ h₂ hid
    · exact hnd'.1 (List.mem_map.mpr ⟨t₁, h₁, hid.symm⟩)
  case reduced => exact fun hreduced => nomatch hreduced
  case done => exact fun hd => absurd hd (h.not_done (by rw [hp]; rfl))

/-- `reduceWG.Add(1)`. -/
lemma Accounts.count (h : Accounts files nReduce S) {todo : List ReduceTask}
    (hp : S.phase = .queueing todo false) :
    Accounts files nReduce { S with reduceWG := S.reduceWG + 1, phase := .queueing todo true } := by
  have hwg := h.reduceWG
  have hplan := h.planned
  have hnd := h.todo_nodup
  have hnew := h.todo_new
  simp only [hp, Phase.uncounted, Phase.todo] at hwg hplan hnd hnew
  constructor
  case nReduce_eq => exact h.nReduce_eq
  case total => exact h.total
  case maps => exact h.maps
  case ids => exact h.ids
  case mapWG => exact h.mapWG
  case reduceWG => exact (add_zero _).trans hwg
  case mapping => exact fun hp' => nomatch hp'
  case barrier => exact fun _ => h.barrier (by rw [hp]; nofun)
  case planned => exact fun _ => hplan nofun
  case todo_nodup => exact hnd
  case todo_new => exact hnew
  case reduced => exact fun hreduced => nomatch hreduced
  case done => exact fun hd => absurd hd (h.not_done (by rw [hp]; rfl))

lemma Accounts.moves (h : Accounts files nReduce S) (hw : Watched S) {act : Action}
    (hm : S.Moves act S') : Accounts files nReduce S' := by
  have hl := hm.ledger_eq
  cases hm with
  | @wgDone k a val hk hm =>
    have hwatch := hw.watch k a hk
    simp only [Watch, hm] at hwatch
    exact h.wgDone hk hm hwatch.1
  | reduce hp hz => exact h.reduce hp hz
  | queueTask hp hj => exact h.queueTask hp hj
  | count hp => exact h.count hp
  | monitorReduceEnd hp =>
    refine h.next_phase (by rw [hp]; rfl) rfl (hl nofun nofun nofun) rfl rfl rfl rfl nofun ?_
    exact fun hd => absurd hd (h.not_done (by rw [hp]; rfl))
  | removeTempFiles hp hz =>
    refine h.next_phase (by rw [hp]; rfl) rfl (hl nofun nofun nofun) rfl rfl rfl rfl ?_ ?_
    · intro _
      have hwg := h.reduceWG
      rw [hp, hz] at hwg
      simp only [Phase.uncounted] at hwg
      omega
    · exact fun hd => absurd hd (h.not_done (by rw [hp]; rfl))
  | remove hp | clear hp =>
    refine h.next_phase (by rw [hp]; rfl) rfl (hl nofun nofun nofun) rfl rfl rfl rfl
      (fun _ => h.reduced (by rw [hp]; rfl)) ?_
    exact fun hd => absurd hd (h.not_done (by rw [hp]; rfl))
  | finish hp | stopMapQueue hp | stopReduceQueue hp =>
    exact h.next_phase (by rw [hp]; rfl) rfl (hl nofun nofun nofun) rfl rfl rfl rfl
      (fun _ => h.reduced (by rw [hp]; rfl)) fun _ => rfl
  | stopMonitor hk hp hm => exact absurd hm (h.not_waiting hp hk)
  | _ => exact h.congr (hl nofun nofun nofun) rfl rfl rfl rfl rfl rfl

end Accounts

/-! ### Runs -/

lemma mapFiles_eq (ps : List (String × ℕ)) (S : Coordinator) :
    ps.foldl (fun S p => S.addMapTask ⟨p.2, [p.1]⟩) S =
      { S with
        mapQueue.tasks := (ps.map fun p => ⟨p.2, [p.1]⟩).reverse ++ S.mapQueue.tasks
        mapWG := S.mapWG + ps.length
        created := S.created ++ ps.map fun p => .map ⟨p.2, [p.1]⟩ } := by
  induction ps generalizing S with
  | nil => simp
  | cons p ps ih =>
    rw [List.foldl_cons, ih]
    simp only [Coordinator.addMapTask, TaskQueue.addTask, List.map_cons, List.reverse_cons,
      List.append_assoc, List.singleton_append, List.length_cons, Nat.cast_add, Nat.cast_one]
    congr 1
    omega

namespace Coordinator

variable {S S' : Coordinator} {act : Action}

lemma Moves.created_subset (hm : S.Moves act S') : S.created ⊆ S'.created := by
  cases hm with
  | @wgDone k a val hk hm => cases val <;> exact List.Subset.refl _
  | queueTask hp hj => exact List.subset_append_left _ _
  | _ => exact List.Subset.refl _

/-- What a step makes of the `k`-th attempt. -/
structure Follows (S : Coordinator) (act : Action) (k : ℕ) (a a' : Attempt) : Prop where
  id_eq : a'.id = a.id
  task_eq : a'.task = a.task
  late : a.monitor.late = true → a'.monitor.late = true
  late_of : a'.monitor.late = true →
    a.monitor.late = true ∨ act = .expire k ∨ act = .recheck k ∧ a.fired = true
  report : a'.report = a.report ∨ ∃ files, act = .taskDone k files ∧ a.report = .none ∧
    a'.report = if S.isTimeout a.id then .ignored files else .accepted files

lemma Follows.refl (k : ℕ) (a : Attempt) : Follows S act k a a :=
  ⟨rfl, rfl, id, .inl, .inl rfl⟩

lemma Follows.not_late {k : ℕ} {a a' : Attempt} (h : Follows S act k a a')
    (hl : a'.monitor.late = false) : a.monitor.late = false := by
  by_contra hne
  rw [h.late (by simpa using hne)] at hl
  cases hl

/-- A step of the `k`-th attempt that is not about its timer. -/
lemma Follows.of_late {k : ℕ} {a a' : Attempt} (hid : a'.id = a.id) (ht : a'.task = a.task)
    (hl : a'.monitor.late = a.monitor.late) (hr : a'.report = a.report) :
    Follows S act k a a' :=
  ⟨hid, ht, hl ▸ id, fun h => .inl (hl ▸ h), .inl hr⟩

/-- Every attempt has been there before or is new, with a task from a queue. -/
lemma Moves.follows (hm : S.Moves act S') {j : ℕ} {a' : Attempt} (hj : S'.attempts[j]? = some a') :
    (∃ a, S.attempts[j]? = some a ∧ Follows S act j a a') ∨
      act = .getTask ∧ j = S.attempts.length ∧ a'.report = .none ∧ a'.monitor.late = false ∧
        a'.task ∈ S.queued := by
  have hset : ∀ {k : ℕ} {a b : Attempt}, S.attempts[k]? = some a →
      (S.attempts.set k b)[j]? = some a' → Follows S act k a b →
      ∃ a, S.attempts[j]? = some a ∧ Follows S act j a a' := by
    intro k a b hk hmem hf
    rcases eq_or_ne k j with rfl | hne
    · rw [List.getElem?_set_self (List.getElem?_eq_some_iff.mp hk).1] at hmem
      cases hmem
      exact ⟨a, hk, hf⟩
    · rw [List.getElem?_set_ne hne] at hmem
      exact ⟨a', hmem, .refl j a'⟩
  have hnew : ∀ {t : Task}, (S.attempts ++ [{ id := S.currentID + 1, task := t }])[j]? = some a' →
      t ∈ S.queued → (∃ a, S.attempts[j]? = some a ∧ Follows S act j a a') ∨
        j = S.attempts.length ∧ a'.report = .none ∧ a'.monitor.late = false ∧
          a'.task ∈ S.queued := by
    intro t hmem ht
    rcases Nat.lt_or_ge j S.attempts.length with hlt | hge
    · exact .inl ⟨a', (List.getElem?_append_left hlt).symm.trans hmem, .refl j a'⟩
    · rw [List.getElem?_append_right hge, List.getElem?_singleton] at hmem
      split_ifs at hmem with hz
      cases hmem
      exact .inr ⟨by omega, rfl, rfl, ht⟩
  cases hm with
  | getMapTask hl hq =>
    exact (hnew hj (by simp [queued, (TaskQueue.tasks_of_getTask hq).1])).imp_right fun h =>
      ⟨rfl, h⟩
  | getReduceTask hl hq =>
    exact (hnew hj (by simp [queued, (TaskQueue.tasks_of_getTask hq).1])).imp_right fun h =>
      ⟨rfl, h⟩
  | monitorTask hk hl hm => exact .inl (hset hk hj (.of_late rfl rfl (by rw [hm]; rfl) rfl))
  | fire hk => exact .inl (hset hk hj (.of_late rfl rfl rfl rfl))
  | expire hk =>
    exact .inl (hset hk hj ⟨rfl, rfl, fun _ => rfl, fun _ => .inr (.inl rfl), .inl rfl⟩)
  | timeOut hk hl hm => exact .inl (hset hk hj (.of_late rfl rfl (by rw [hm]; rfl) rfl))
  | handOverMap hk hm => exact .inl (hset hk hj (.of_late rfl rfl (by rw [hm]; rfl) rfl))
  | handOverReduce hk hm => exact .inl (hset hk hj (.of_late rfl rfl (by rw [hm]; rfl) rfl))
  | ignore hk hl hm hr ht =>
    exact .inl (hset hk hj ⟨rfl, rfl, id, .inl, .inr ⟨_, rfl, hr, by rw [if_pos ht]⟩⟩)
  | accept hk hl hm hr ht =>
    exact .inl (hset hk hj ⟨rfl, rfl, id, .inl, .inr ⟨_, rfl, hr, by rw [if_neg (by simp [ht])]⟩⟩)
  | rendezvous hl hk hd hk' hm => exact .inl (hset hk' hj (.of_late rfl rfl (by rw [hm]; rfl) rfl))
  | recheckFired hk hm hf =>
    exact .inl (hset hk hj ⟨rfl, rfl, fun _ => rfl, fun _ => .inr (.inr ⟨rfl, hf⟩), .inl rfl⟩)
  | recheckDone hk hm => exact .inl (hset hk hj (.of_late rfl rfl (by rw [hm]; rfl) rfl))
  | release hk hl hm => exact .inl (hset hk hj (.of_late rfl rfl (by rw [hm]; rfl) rfl))
  | @wgDone k a val hk hm =>
    cases val <;> exact .inl (hset hk hj (.of_late rfl rfl (by rw [hm]; rfl) rfl))
  | stopMonitor hk hp hm => exact .inl (hset hk hj (.of_late rfl rfl (by rw [hm]; rfl) rfl))
  | _ => exact .inl ⟨a', hj, .refl j a'⟩

lemma Moves.length_le (hm : S.Moves act S') : S.attempts.length ≤ S'.attempts.length := by
  cases hm with
  | getMapTask => simp [assignTask]
  | getReduceTask => simp [assignTask]
  | @wgDone k a val => cases val <;> simp [setAttempt, waitGroupDone]
  | ignore => simp [setAttempt, ignoreReport]
  | accept => simp [setAttempt, acceptReport]
  | _ => simp [setAttempt]

end Coordinator

structure Inv (files : List String) (nReduce : ℕ) (S : Coordinator) : Prop where
  watched : Watched S
  accounts : Accounts files nReduce S
  issued : ∀ a ∈ S.attempts, a.task ∈ S.created
  nodup : S.created.Nodup

section Inv

variable {files : List String} {nReduce : ℕ} {S S' : Coordinator}

lemma mem_mapTasks_type {t : Task} (h : t ∈ mapTasks files) : t.type = .MAP := by
  obtain ⟨p, _, rfl⟩ := List.mem_map.mp h
  rfl

lemma nodup_mapTasks (files : List String) : (mapTasks files).Nodup := by
  have hnos : (files.zipIdx.map Prod.snd).Nodup := by
    rw [List.zipIdx_map_snd]
    exact List.nodup_range'
  refine List.Nodup.map_on ?_ (List.Nodup.of_map _ hnos)
  intro p hp q hq heq
  simp only [Task.map.injEq, MapTask.mk.injEq, List.cons.injEq, and_true] at heq
  exact Prod.ext heq.2 heq.1

lemma inv_make (files : List String) (nReduce : ℕ) :
    Inv files nReduce (Coordinator.MakeCoordinator files nReduce) := by
  set S := Coordinator.MakeCoordinator files nReduce with hS
  rw [Coordinator.MakeCoordinator, Coordinator.mapFiles, mapFiles_eq] at hS
  have hcreated : S.created = mapTasks files := by
    rw [hS]
    rfl
  have hledger : S.ledger = ⟨S.created, 0⟩ := by
    apply Ledger.ext
    · simp [hS, Coordinator.ledger, Coordinator.queued, Coordinator.popped, Coordinator.monitored,
        Coordinator.inTransit, heldAt, List.map_reverse, Function.comp_def]
    · rw [hS]
      rfl
  have hpend : ∀ type, S.pending type = (mapTasks files).countP fun t => t.type = type := by
    intro type
    rw [Coordinator.pending, hledger, hcreated]
    exact Multiset.coe_countP _ _
  have hmap : S.pending .MAP = files.length := by
    rw [hpend, List.countP_eq_length.mpr fun t ht => decide_eq_true (mem_mapTasks_type ht)]
    simp [mapTasks]
  have hreduce : S.pending .REDUCE = 0 := by
    rw [hpend, List.countP_eq_zero]
    intro t ht
    simp [mem_mapTasks_type ht]
  refine ⟨?_, ?_, by simp [hS], hcreated ▸ nodup_mapTasks files⟩
  · constructor <;> simp [hS]
  · constructor
    case nReduce_eq => rw [hS]
    case total => rw [hledger, Ledger.total, add_zero]
    case maps => exact fun t _ => by rw [hcreated]
    case ids =>
      intro t t' ht
      cases mem_mapTasks_type (hcreated ▸ ht)
    case mapWG =>
      rw [hmap, hS]
      simp
    case reduceWG =>
      rw [hreduce, hS]
      rfl
    case mapping => exact fun _ t ht => mem_mapTasks_type (hcreated ▸ ht)
    case barrier => exact fun hne => absurd (by rw [hS]) hne
    case planned => exact fun hne => absurd (by rw [hS]) hne
    case todo_nodup => simp [hS, Phase.todo]
    case todo_new => simp [hS, Phase.todo]
    case reduced => simp [hS, Phase.reduced]
    case done => simp [hS]

/-- The coordinator moves as a ledger does. -/
lemma Inv.ledger_moves (h : Inv files nReduce S) {act : Action} (hm : S.Moves act S') :
    S.ledger.Moves S'.ledger := by
  have hl := hm.ledger_eq
  cases hm with
  | @queueTask j t todo hp hj =>
    have hnew : Task.reduce t ∉ S.created := by
      intro hin
      refine h.accounts.todo_new t ?_ t hin rfl
      rw [hp]
      exact List.mem_of_getElem? hj
    refine Coordinator.ledger_queueTask S t ▸ .enter _ ?_
    rwa [h.accounts.total]
  | @wgDone k a val hk hm => cases val <;> exact .close _ (Coordinator.ledger_wgDone hk hm)
  | stopMonitor hk hp hm => exact absurd hm (h.accounts.not_waiting hp hk)
  | _ => exact hl nofun nofun nofun ▸ .keep

lemma Inv.moves (h : Inv files nReduce S) {act : Action} (hm : S.Moves act S') :
    Inv files nReduce S' := by
  have hacc : Accounts files nReduce S' := h.accounts.moves h.watched hm
  refine ⟨h.watched.moves hm fun hp k a => h.accounts.not_waiting hp, hacc, ?_, ?_⟩
  · intro a ha
    obtain ⟨k, hk⟩ := List.getElem?_of_mem ha
    rcases hm.follows hk with ⟨b, hb, hf⟩ | ⟨-, -, -, -, hq⟩
    · exact hm.created_subset (hf.task_eq ▸ h.issued b (List.mem_of_getElem? hb))
    · refine hm.created_subset (Multiset.mem_coe.mp (h.accounts.total ▸ ?_))
      simp only [Ledger.total, Coordinator.ledger, Multiset.mem_add, Multiset.mem_coe]
      exact .inl (.inl (.inl (.inl hq)))
  · have hnodup : S.ledger.total.Nodup := h.accounts.total ▸ h.nodup
    exact Multiset.coe_nodup.mp (hacc.total ▸ (h.ledger_moves hm).nodup hnodup)

lemma inv_of_run {P : Coordinator → Action → Prop} {l : List Coordinator}
    (h : (coordinator files nReduce).Run P l) : ∀ S ∈ l, Inv files nReduce S := by
  refine h.invariant ?_ ?_
  · rintro S rfl
    exact inv_make files nReduce
  · intro S past act S' _ _ hS hn
    exact hS.moves (Coordinator.moves_of_step hn)

end Inv

end MapReduce

end DistLabs
