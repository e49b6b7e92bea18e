import DistLabs.MapReduce.Barrier

/-!
# Reports against timers

A completion handler decides by `isTimeout` whether a report counts, and the monitor decides by its
`select`s. The two decisions are taken at different moments, and both ways in which they can differ
are possible.

If the monitor takes the timer and a report is taken up before `timeOut` has got the lock, the
handler keeps the lock and waits for a monitor that waits for the lock. If the timer fires after the
monitor has received the completion and before the inner `select`, the files of a task that is
queued again have already been accepted.
-/

namespace DistLabs

namespace MapReduce

section Rendezvous

variable {files : List String} {nReduce : ℕ} {S S' : Coordinator} {k : ℕ} {a : Attempt}

/-! ### The lock -/

/-- The condition on a step: no report is taken up after the monitor has taken the timer and before
`timeOut` has got the lock, and no monitor takes the timer while the report of its attempt is being
handled. -/
def Unraced (S : Coordinator) : Action → Prop
  | .taskDone k _ => ∀ a ∈ S.attempts[k]?, a.monitor ≠ .expired
  | .expire k => S.lock ≠ some (.handler k)
  | _ => True

/-- The monitor that a handler sends to is at its outer `select`. -/
def Met (S : Coordinator) : Prop :=
  ∀ k, S.lock = some (.handler k) → ∀ a ∈ S.attempts[k]?, a.monitor = .waiting

/-- A change of an attempt that leaves the lock as it is. -/
lemma Met.setAttempt (h : Met S) {a' : Attempt} (hk : S.attempts[k]? = some a)
    (hl : S'.lock = S.lock) (hat : S'.attempts = S.attempts.set k a')
    (hm : S.lock = some (.handler k) → a.monitor = .waiting → a'.monitor = .waiting) : Met S' := by
  intro j hj b hb
  rw [hl] at hj
  rw [hat] at hb
  rcases eq_or_ne k j with rfl | hne
  · rw [List.getElem?_set_self (List.getElem?_eq_some_iff.mp hk).1] at hb
    cases hb
    exact hm hj (h k hj a hk)
  · rw [List.getElem?_set_ne hne] at hb
    exact h j hj b hb

lemma met_of_free (h : S.lock = none) : Met S := by
  intro k hk
  cases h.symm.trans hk

lemma Met.moves (h : Met S) (hinv : Inv files nReduce S) {act : Action} (hu : Unraced S act)
    (hm : S.Moves act S') : Met S' := by
  cases hm with
  | getMapTask hl => exact met_of_free hl
  | getReduceTask hl => exact met_of_free hl
  | monitorTask hk hl => exact met_of_free hl
  | fire hk => exact h.setAttempt hk rfl rfl fun _ => id
  | expire hk => exact h.setAttempt hk rfl rfl fun hl => absurd hl hu
  | timeOut =>
    intro j hj
    cases hj
  | handOverMap => exact met_of_free rfl
  | handOverReduce => exact met_of_free rfl
  | ignore hk hl => exact met_of_free hl
  | @accept k a files hk hl hpop hr ht =>
    have hmon := (hinv.watched.monitor_of_accept hk hl hpop hr ht).resolve_right (hu a hk)
    intro j hj b hb
    cases hj
    rw [Coordinator.acceptReport, Coordinator.setAttempt,
      List.getElem?_set_self (List.getElem?_eq_some_iff.mp hk).1] at hb
    cases hb
    exact hmon
  | rendezvous => exact met_of_free rfl
  | recheckFired hk hm | recheckDone hk hm =>
    refine h.setAttempt hk rfl rfl fun _ hw => ?_
    cases hm.symm.trans hw
  | release hk hl => exact met_of_free hl
  | @wgDone k a val hk hm =>
    cases val <;> refine h.setAttempt hk rfl rfl fun _ hw => ?_ <;> cases hm.symm.trans hw
  | stopMonitor hk hp hm => exact absurd hm (hinv.accounts.not_waiting hp hk)
  | _ => exact h

/-- The coordinator does not lock itself up: in every run in which no report is taken up after the
monitor has taken the timer and before `timeOut` has got the lock, and no monitor takes the timer
while the report of its attempt is being handled, a handler that waits at its send with the lock
held waits for a monitor that is at its outer `select` and receives from that channel. -/
theorem handler_meets_monitor {past : List Coordinator}
    (h : (coordinator files nReduce).Run Unraced (S :: past)) (hl : S.lock = some (.handler k)) :
    ∃ a, S.attempts[k]? = some a ∧ a.monitor = .waiting ∧ S.doneC a.id = some k := by
  have hinv : Inv files nReduce S := inv_of_run h S List.mem_cons_self
  have hmet : Met S := by
    refine h.invariant (I := Met) ?_ ?_ S List.mem_cons_self
    · rintro S rfl
      refine met_of_free ?_
      rw [Coordinator.MakeCoordinator, Coordinator.mapFiles, mapFiles_eq]
    · intro s past act s' hr hu hs hn
      exact hs.moves (inv_of_run hr s List.mem_cons_self) hu (Coordinator.moves_of_step hn)
  obtain ⟨a, hk, -, -⟩ := hinv.watched.handler k hl
  have hm : a.monitor = .waiting := hmet k hl a hk
  have hw := hinv.watched.watch k a hk
  simp only [Watch, hm] at hw
  exact ⟨a, hk, hm, hw.2.1⟩

/-- A check of `Unraced`. -/
def unraced (S : Coordinator) : Action → Bool
  | .taskDone k _ => S.attempts[k]?.all fun a => a.monitor ≠ .expired
  | .expire k => S.lock ≠ some (.handler k)
  | _ => true

lemma unraced_sound (S : Coordinator) (act : Action) (h : unraced S act = true) :
    Unraced S act := by
  cases act with
  | taskDone k files =>
    intro a ha
    simpa [unraced, Option.mem_def.mp ha] using h
  | expire k => exact (of_decide_eq_true h : S.lock ≠ some (.handler k))
  | _ => trivial

/-- The timer fires while the handler is at its send, and the monitor takes the completion. -/
theorem handler_meets_monitor_late_timer :
    ∃ S past, (coordinator ["pg.txt"] 1).Run Unraced (S :: past) ∧ S.lock = some (.handler 0) ∧
      ∃ a, S.attempts[0]? = some a ∧ a.monitor = .waiting ∧ S.doneC a.id = some 0 := by
  obtain ⟨S, past, hr, hS⟩ : ∃ S past, (coordinator ["pg.txt"] 1).Run Unraced (S :: past) ∧
      S.lock = some (.handler 0) :=
    Machine.exists_run_of_trace unraced unraced_sound
      [.getTask, .monitorTask 0, .taskDone 0 ["mr-1-0.json"], .fire 0] (by decide +kernel)
  exact ⟨S, past, hr, hS, handler_meets_monitor hr hS⟩

/-- The monitor has taken the timer, and the handler has the lock that `timeOut` waits for. -/
theorem handler_waits_for_expired_monitor :
    ∃ S, (coordinator ["pg.txt"] 1).Reachable S ∧ S.lock = some (.handler 0) ∧
      S.attempts.map Attempt.monitor = [.expired] := by
  obtain ⟨S, past, hr, hS⟩ : ∃ S past, (coordinator ["pg.txt"] 1).Run Machine.Any (S :: past) ∧
      (S.lock = some (.handler 0) ∧ S.attempts.map Attempt.monitor = [.expired]) :=
    Machine.exists_run_of_trace (fun _ _ => true) (fun _ _ _ => trivial)
      [.getTask, .monitorTask 0, .fire 0, .expire 0, .taskDone 0 ["mr-1-0.json"]]
      (by decide +kernel)
  exact ⟨S, ⟨past, hr⟩, hS⟩

/-! ### Accepted files -/

/-- The files an accepted report of a map task has brought. -/
def Attempt.mapFiles (a : Attempt) : List String :=
  match a.task, a.report with
  | .map _, .accepted files => files
  | _, _ => []

lemma Attempt.mapFiles_eq_nil (h : a.report.isAccepted = false) : a.mapFiles = [] := by
  unfold mapFiles
  split
  · rename_i hr
    rw [hr] at h
    cases h
  · rfl

/-- `removeTempFiles` has forgotten the files. -/
def Phase.cleared : Phase → Bool
  | .ending | .ended | .exited => true
  | _ => false

/-- `mapTempFiles` has the files of the accepted reports. -/
def Gathered (S : Coordinator) : Prop :=
  S.phase.cleared = false → S.mapTempFiles.Perm (S.attempts.flatMap Attempt.mapFiles)

lemma Gathered.congr (h : Gathered S) (hf : S'.mapTempFiles = S.mapTempFiles)
    (hp : S'.phase.cleared = false → S.phase.cleared = false)
    (hat : (S'.attempts.flatMap Attempt.mapFiles).Perm (S.attempts.flatMap Attempt.mapFiles)) :
    Gathered S' := fun hc => hf ▸ (h (hp hc)).trans hat.symm

/-- How the accepted files change when one attempt does. -/
lemma mapFiles_set {l : List Attempt} (hk : l[k]? = some a) (a' : Attempt) :
    ∃ rest, (l.flatMap Attempt.mapFiles).Perm (a.mapFiles ++ rest) ∧
      ((l.set k a').flatMap Attempt.mapFiles).Perm (a'.mapFiles ++ rest) := by
  obtain ⟨hlt, rfl⟩ := List.getElem?_eq_some_iff.mp hk
  refine ⟨(l.eraseIdx k).flatMap Attempt.mapFiles, ?_, ?_⟩
  · exact ((List.getElem_cons_eraseIdx_perm hlt).symm.flatMap_right _)
  · exact ((List.set_perm_cons_eraseIdx hlt a').flatMap_right _)

lemma mapFiles_set_of_eq {l : List Attempt} (hk : l[k]? = some a) {a' : Attempt}
    (h : a'.mapFiles = a.mapFiles) :
    ((l.set k a').flatMap Attempt.mapFiles).Perm (l.flatMap Attempt.mapFiles) := by
  obtain ⟨rest, hold, hnew⟩ := mapFiles_set hk a'
  exact (h ▸ hnew).trans hold.symm

lemma Gathered.moves (h : Gathered S) {act : Action} (hm : S.Moves act S') : Gathered S' := by
  cases hm with
  | getMapTask => exact h.congr rfl id (by simp [Coordinator.assignTask, Attempt.mapFiles])
  | getReduceTask => exact h.congr rfl id (by simp [Coordinator.assignTask, Attempt.mapFiles])
  | monitorTask hk => exact h.congr rfl id (mapFiles_set_of_eq hk rfl)
  | fire hk => exact h.congr rfl id (mapFiles_set_of_eq hk rfl)
  | expire hk => exact h.congr rfl id (mapFiles_set_of_eq hk rfl)
  | timeOut hk => exact h.congr rfl id (mapFiles_set_of_eq hk rfl)
  | handOverMap hk => exact h.congr rfl id (mapFiles_set_of_eq hk rfl)
  | handOverReduce hk => exact h.congr rfl id (mapFiles_set_of_eq hk rfl)
  | ignore hk hl hpop hr =>
    refine h.congr rfl id (mapFiles_set_of_eq hk ?_)
    rw [Attempt.mapFiles_eq_nil rfl, Attempt.mapFiles_eq_nil (by rw [hr]; rfl)]
  | @accept k a files hk hl hpop hr =>
    intro hc
    obtain ⟨rest, hold, hnew⟩ := mapFiles_set hk { a with report := .accepted files }
    rw [Attempt.mapFiles_eq_nil (by rw [hr]; rfl), List.nil_append] at hold
    have hfiles : (S.acceptReport k a files).mapTempFiles =
        S.mapTempFiles ++ Attempt.mapFiles { a with report := .accepted files } := by
      unfold Coordinator.acceptReport Attempt.mapFiles
      cases a.task <;> rfl
    rw [hfiles]
    exact (((h hc).trans hold).append_right _).trans (List.perm_append_comm.trans hnew.symm)
  | rendezvous hl hk hd hj => exact h.congr rfl id (mapFiles_set_of_eq hj rfl)
  | recheckFired hk => exact h.congr rfl id (mapFiles_set_of_eq hk rfl)
  | recheckDone hk => exact h.congr rfl id (mapFiles_set_of_eq hk rfl)
  | release hk => exact h.congr rfl id (mapFiles_set_of_eq hk rfl)
  | @wgDone k a val hk => cases val <;> exact h.congr rfl id (mapFiles_set_of_eq hk rfl)
  | reduce hp => exact h.congr rfl (fun _ => by rw [hp]; rfl) .rfl
  | queueTask hp => exact h.congr rfl (fun _ => by rw [hp]; rfl) .rfl
  | count hp => exact h.congr rfl (fun _ => by rw [hp]; rfl) .rfl
  | monitorReduceEnd hp => exact h.congr rfl (fun _ => by rw [hp]; rfl) .rfl
  | removeTempFiles hp => exact h.congr rfl (fun _ => by rw [hp]; rfl) .rfl
  | remove hp => exact h.congr rfl (fun _ => by rw [hp]; rfl) .rfl
  | clear | finish | stopMapQueue | stopReduceQueue | stopMonitor =>
    intro hc
    cases hc
  | _ => exact h

lemma gathered_make (files : List String) (nReduce : ℕ) :
    Gathered (Coordinator.MakeCoordinator files nReduce) := by
  rw [Coordinator.MakeCoordinator, Coordinator.mapFiles, mapFiles_eq]
  exact fun _ => .rfl

/-- The condition on a step: when the monitor of a map task that has received a completion looks at
its timer again, the timer has not fired. -/
def Punctual (S : Coordinator) : Action → Prop
  | .recheck k => ∀ a ∈ S.attempts[k]?, a.task.type = .MAP → a.fired = false
  | _ => True

/-- The monitor has been told of the completion and acts on it. -/
def Monitor.told : Monitor → Bool
  | .received _ | .releasing _ | .released _ | .completed => true
  | _ => false

/-- An accepted report of a map task is being handled, or its monitor acts on it. -/
def Honoured (S : Coordinator) : Prop :=
  ∀ (k : ℕ) (a : Attempt), S.attempts[k]? = some a → a.task.type = .MAP →
    a.report.isAccepted = true → S.lock = some (.handler k) ∨ a.monitor.told = true

lemma Honoured.update (h : Honoured S) {a' : Attempt} (hk : S.attempts[k]? = some a)
    (hat : S'.attempts = S.attempts.set k a')
    (hl : ∀ j, j ≠ k → S.lock = some (.handler j) → S'.lock = some (.handler j))
    (hm : a'.task.type = .MAP → a'.report.isAccepted = true →
      S'.lock = some (.handler k) ∨ a'.monitor.told = true) : Honoured S' := by
  intro j b hj hmap hacc
  rw [hat] at hj
  rcases eq_or_ne k j with rfl | hne
  · rw [List.getElem?_set_self (List.getElem?_eq_some_iff.mp hk).1] at hj
    cases hj
    exact hm hmap hacc
  · rw [List.getElem?_set_ne hne] at hj
    exact (h j b hj hmap hacc).imp_left (hl j hne.symm)

/-- A step that leaves the lock and the report as they are, of a monitor that goes on or has not
been told. -/
lemma Honoured.step (h : Honoured S) {a' : Attempt} (hk : S.attempts[k]? = some a)
    (hat : S'.attempts = S.attempts.set k a') (hl : S'.lock = S.lock) (ht : a'.task = a.task)
    (hr : a'.report = a.report)
    (hm : a.task.type = .MAP → a.monitor.told = true → a'.monitor.told = true) :
    Honoured S' := by
  refine h.update hk hat (fun j _ => hl ▸ id) fun hmap hacc => ?_
  rw [ht] at hmap
  rw [hl]
  exact (h k a hk hmap (hr ▸ hacc)).imp_right (hm hmap)

lemma Honoured.assignTask (h : Honoured S) (t : Task) : Honoured (S.assignTask t) := by
  intro j b hj hmap hacc
  rcases Nat.lt_or_ge j S.attempts.length with hlt | hge
  · exact h j b ((List.getElem?_append_left hlt).symm.trans hj) hmap hacc
  · simp only [Coordinator.assignTask, List.getElem?_append_right hge,
      List.getElem?_singleton] at hj
    split_ifs at hj
    cases hj
    cases hacc

lemma Honoured.handOver (h : Honoured S) (hw : Watched S) (hk : S.attempts[k]? = some a)
    (hm : a.monitor = .sending)
    (hat : S'.attempts = S.attempts.set k { a with monitor := .timedOut }) : Honoured S' := by
  have hwatch := hw.watch k a hk
  simp only [Watch, hm] at hwatch
  refine h.update hk hat (fun j _ hj => by cases hwatch.1.symm.trans hj) fun hmap hacc => ?_
  rcases h k a hk hmap hacc with hj | ht
  · cases hwatch.1.symm.trans hj
  · rw [hm] at ht
    cases ht

lemma Honoured.moves (h : Honoured S) (hw : Watched S) {act : Action} (hu : Punctual S act)
    (hm : S.Moves act S') : Honoured S' := by
  cases hm with
  | getMapTask =>
    refine Honoured.assignTask ?_ _
    exact h
  | getReduceTask =>
    refine Honoured.assignTask ?_ _
    exact h
  | monitorTask hk hl hm => exact h.step hk rfl rfl rfl rfl (by rw [hm]; nofun)
  | fire hk => exact h.step hk rfl rfl rfl rfl fun _ => id
  | expire hk hm => exact h.step hk rfl rfl rfl rfl (by rw [hm]; nofun)
  | @timeOut k a hk hl hm =>
    refine h.update hk rfl (fun j _ hj => by cases hl.symm.trans hj) fun hmap hacc => ?_
    -- with the lock free, an accepted report has been passed on to the monitor
    rcases h k a hk hmap hacc with hj | ht
    · cases hl.symm.trans hj
    · rw [hm] at ht
      cases ht
  | @handOverMap k a t q hk hm => exact h.handOver hw hk hm rfl
  | @handOverReduce k a t q hk hm => exact h.handOver hw hk hm rfl
  | ignore hk hl => exact h.update hk rfl (fun j _ hj => by cases hl.symm.trans hj) nofun
  | accept hk hl =>
    exact h.update hk rfl (fun j _ hj => by cases hl.symm.trans hj) fun _ _ => .inl rfl
  | @rendezvous k j a b hl hk hd hj hm =>
    refine h.update hj rfl ?_ fun _ _ => .inr rfl
    intro i hi hlock
    have := hw.id_eq k a hk
    have := hw.channel _ j hd
    cases hl.symm.trans hlock
    omega
  | recheckFired hk hm hf =>
    -- the monitor of a map task does not find its timer fired
    refine h.step hk rfl rfl rfl rfl fun hmap => ?_
    cases (hu _ hk hmap).symm.trans hf
  | recheckDone hk => exact h.step hk rfl rfl rfl rfl fun _ _ => rfl
  | release hk => exact h.step hk rfl rfl rfl rfl fun _ _ => rfl
  | @wgDone k a val hk => cases val <;> exact h.step hk rfl rfl rfl rfl fun _ _ => rfl
  | stopMonitor hk hp hm => exact h.step hk rfl rfl rfl rfl (by rw [hm]; nofun)
  | _ => exact h

/-- The attempts that have completed the map tasks. -/
def Coordinator.completers (S : Coordinator) : List Attempt :=
  S.attempts.filter fun a => a.monitor = .completed ∧ a.task.type = .MAP

lemma Inv.nodup_completed (h : Inv files nReduce S) : S.completed.Nodup := by
  refine Multiset.coe_nodup.mp (Multiset.nodup_of_le ?_ (Multiset.coe_nodup.mpr h.nodup))
  rw [← h.accounts.total]
  exact Multiset.le_add_left _ _

/-- Once the reduce phase has begun, every map task has been completed by one attempt. -/
lemma Inv.tasks_completers (h : Inv files nReduce S) (hp : S.phase ≠ .mapping) :
    (S.completers.map Attempt.task).Perm (mapTasks files) := by
  have hsub : (S.completers.map Attempt.task).Sublist S.completed := by
    refine List.Sublist.map _ (List.monotone_filter_right _ ?_)
    intro a ha
    simp only [decide_eq_true_eq] at ha ⊢
    rw [ha.1]
    rfl
  refine (List.perm_ext_iff_of_nodup (hsub.nodup h.nodup_completed) (nodup_mapTasks files)).mpr ?_
  intro t
  constructor
  · intro ht
    obtain ⟨a, ha, rfl⟩ := List.mem_map.mp ht
    obtain ⟨hmem, hprop⟩ := List.mem_filter.mp ha
    simp only [decide_eq_true_eq] at hprop
    exact (h.accounts.maps _ hprop.2).mp (h.issued a hmem)
  · intro ht
    obtain ⟨k, a, hk, hm, rfl⟩ := of_mem_completed (h.completed_maps hp t ht)
    refine List.mem_map.mpr ⟨a, List.mem_filter.mpr ⟨List.mem_of_getElem? hk, ?_⟩, rfl⟩
    simp [hm, mem_mapTasks_type ht]

/-- An attempt that has brought files has completed its task. -/
lemma Inv.completed_of_mapFiles (h : Inv files nReduce S) (hh : Honoured S)
    (hp : S.phase ≠ .mapping) (hk : S.attempts[k]? = some a) (hf : a.mapFiles ≠ []) :
    a.monitor = .completed ∧ a.task.type = .MAP := by
  have hacc : a.report.isAccepted = true := by
    by_contra hacc
    exact hf (Attempt.mapFiles_eq_nil (Bool.not_eq_true _ ▸ hacc))
  have hmap : a.task.type = .MAP := by
    cases htask : a.task with
    | map t => rfl
    | reduce t => simp [Attempt.mapFiles, htask] at hf
  have hnot : a.monitor.place ≠ .monitored := by
    intro hpl
    refine Ledger.notMem_opened (h.accounts.barrier hp) hmap ?_
    simp only [Coordinator.ledger, Multiset.mem_add, Multiset.mem_coe]
    exact .inl (.inr (mem_heldAt hk hpl))
  refine ⟨?_, hmap⟩
  rcases hh k a hk hmap hacc with hl | ht
  · rcases (h.watched.of_handler hk hl).2 with hm | hm <;> exact absurd (by rw [hm]; rfl) hnot
  · revert ht hnot
    cases a.monitor <;> simp [Monitor.told, Monitor.place]

lemma flatMap_filter_of_nil {α β : Type} {f : α → List β} {p : α → Bool} {l : List α}
    (h : ∀ a ∈ l, f a ≠ [] → p a = true) : (l.filter p).flatMap f = l.flatMap f := by
  induction l with
  | nil => rfl
  | cons a l ih =>
    have ih := ih fun b hb => h b (List.mem_cons_of_mem _ hb)
    rcases eq_or_ne (f a) [] with hnil | hne
    · cases hpa : p a <;> simp [hpa, hnil, ih]
    · simp [h a List.mem_cons_self hne, ih]

/-- Every map task's output is accepted once: in every run in which the monitor of a map task that
has received a completion finds, when it looks at its timer again, that it has not fired, once the
reduce phase has begun and until the files are forgotten, `mapTempFiles` consists of the files of
one attempt of the map task of every input file, and of no other. -/
theorem map_output_accepted_once {past : List Coordinator}
    (h : (coordinator files nReduce).Run Punctual (S :: past)) (hp : S.phase ≠ .mapping)
    (hc : S.phase.cleared = false) :
    ∃ chosen : List Attempt, chosen.Sublist S.attempts ∧
      (chosen.map Attempt.task).Perm (mapTasks files) ∧
      (∀ a ∈ chosen, ∃ fs, a.report = .accepted fs) ∧
      S.mapTempFiles.Perm (chosen.flatMap Attempt.mapFiles) := by
  have hinv : Inv files nReduce S := inv_of_run h S List.mem_cons_self
  have hboth : Gathered S ∧ Honoured S := by
    refine h.invariant (I := fun S => Gathered S ∧ Honoured S) ?_ ?_ S List.mem_cons_self
    · rintro S rfl
      refine ⟨gathered_make files nReduce, ?_⟩
      rw [Coordinator.MakeCoordinator, Coordinator.mapFiles, mapFiles_eq]
      intro k a hk
      cases hk
    · intro s past act s' hr hu hs hn
      have hm := Coordinator.moves_of_step hn
      have hw := (inv_of_run hr s List.mem_cons_self).watched
      exact ⟨hs.1.moves hm, hs.2.moves hw hu hm⟩
  refine ⟨S.completers, List.filter_sublist, hinv.tasks_completers hp, ?_, ?_⟩
  · intro a ha
    obtain ⟨hmem, hprop⟩ := List.mem_filter.mp ha
    obtain ⟨k, hk⟩ := List.getElem?_of_mem hmem
    simp only [decide_eq_true_eq] at hprop
    have hw := hinv.watched.watch k a hk
    simp only [Watch, hprop.1] at hw
    exact Report.exists_of_isAccepted hw.1
  · refine (hboth.1 hc).trans (.of_eq (flatMap_filter_of_nil fun a ha hf => ?_).symm)
    obtain ⟨k, hk⟩ := List.getElem?_of_mem ha
    exact decide_eq_true (hinv.completed_of_mapFiles hboth.2 hp hk hf)

/-- A check of `Punctual`. -/
def punctual (S : Coordinator) : Action → Bool
  | .recheck k => S.attempts[k]?.all fun a => a.task.type ≠ .MAP || !a.fired
  | _ => true

lemma punctual_sound (S : Coordinator) (act : Action) (h : punctual S act = true) :
    Punctual S act := by
  cases act with
  | recheck k =>
    intro a ha hmap
    simpa [punctual, Option.mem_def.mp ha, hmap] using h
  | _ => trivial

/-- The first attempt times out, and its late report is ignored. -/
theorem map_output_accepted_once_late_report :
    ∃ S past, (coordinator ["pg.txt"] 1).Run Punctual (S :: past) ∧ S.phase ≠ .mapping ∧
      S.attempts.map Attempt.report = [.ignored ["mr-1-0.json"], .accepted ["mr-2-0.json"]] ∧
      ∃ chosen : List Attempt, chosen.Sublist S.attempts ∧
        (chosen.map Attempt.task).Perm (mapTasks ["pg.txt"]) ∧
        (∀ a ∈ chosen, ∃ fs, a.report = .accepted fs) ∧
        S.mapTempFiles.Perm (chosen.flatMap Attempt.mapFiles) := by
  obtain ⟨S, past, hr, hp, hc, hS⟩ :
      ∃ S past, (coordinator ["pg.txt"] 1).Run Punctual (S :: past) ∧
        (S.phase ≠ .mapping ∧ S.phase.cleared = false ∧
          S.attempts.map Attempt.report = [.ignored ["mr-1-0.json"], .accepted ["mr-2-0.json"]]) :=
    Machine.exists_run_of_trace punctual punctual_sound
      [.getTask, .monitorTask 0, .fire 0, .expire 0, .timeOut 0, .handOver 0, .addTimeoutTask .MAP,
        .getTask, .monitorTask 1, .taskDone 0 ["mr-1-0.json"], .taskDone 1 ["mr-2-0.json"],
        .rendezvous, .recheck 1, .release 1, .wgDone 1, .reduce] (by decide +kernel)
  exact ⟨S, past, hr, hp, hS, map_output_accepted_once hr hp hc⟩

/-- The timer fires after the completion has been received: the files of both attempts of the only
input file are accepted. -/
theorem requeued_task_accepted_twice :
    ∃ S, (coordinator ["pg.txt"] 1).Reachable S ∧ S.phase ≠ .mapping ∧
      S.mapTempFiles = ["mr-1-0.json", "mr-2-0.json"] ∧
      S.attempts.map Attempt.task = [.map ⟨0, ["pg.txt"]⟩, .map ⟨0, ["pg.txt"]⟩] ∧
      S.attempts.map Attempt.report = [.accepted ["mr-1-0.json"], .accepted ["mr-2-0.json"]] := by
  obtain ⟨S, past, hr, hS⟩ : ∃ S past, (coordinator ["pg.txt"] 1).Run Machine.Any (S :: past) ∧
      (S.phase ≠ .mapping ∧ S.mapTempFiles = ["mr-1-0.json", "mr-2-0.json"] ∧
        S.attempts.map Attempt.task = [.map ⟨0, ["pg.txt"]⟩, .map ⟨0, ["pg.txt"]⟩] ∧
        S.attempts.map Attempt.report = [.accepted ["mr-1-0.json"], .accepted ["mr-2-0.json"]]) :=
    Machine.exists_run_of_trace (fun _ _ => true) (fun _ _ _ => trivial)
      [.getTask, .monitorTask 0, .taskDone 0 ["mr-1-0.json"], .rendezvous, .fire 0, .recheck 0,
        .timeOut 0, .handOver 0, .addTimeoutTask .MAP, .getTask, .monitorTask 1,
        .taskDone 1 ["mr-2-0.json"], .rendezvous, .recheck 1, .release 1, .wgDone 1, .reduce]
      (by decide +kernel)
  exact ⟨S, ⟨past, hr⟩, hS⟩

end Rendezvous

end MapReduce

end DistLabs
