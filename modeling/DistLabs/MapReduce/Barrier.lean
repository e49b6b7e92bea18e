import DistLabs.MapReduce.Invariant

/-!
# No task is lost, and no phase begins early

The two `WaitGroup`s are all that keeps the reduce phase behind the map phase and the end behind
both. The results here are read off the invariant of `Invariant`.
-/

namespace DistLabs

namespace MapReduce

section Barrier

variable {files : List String} {nReduce : ℕ} {S S' : Coordinator}

/-! ### Conservation -/

lemma Inv.count_total (h : Inv files nReduce S) (t : Task) :
    S.queued.count t + S.popped.count t + S.monitored.count t + S.inTransit.count t +
      S.completed.count t = if t ∈ S.created then 1 else 0 := by
  have htotal := congrArg (Multiset.count t) h.accounts.total
  simp only [Ledger.total, Coordinator.ledger, Multiset.count_add, Multiset.coe_count] at htotal
  rw [htotal, List.Nodup.count h.nodup]

/-- No task is lost or duplicated: in every run a task that has been created is in exactly one
place, a completed one stays so and never returns to a queue, and the `TaskID`s are distinct. -/
theorem tasks_conserved {past : List Coordinator}
    (h : (coordinator files nReduce).Run Machine.Any (S :: past)) :
    (∀ t ∈ mapTasks files, t ∈ S.created) ∧
      (∀ t, S.queued.count t + S.popped.count t + S.monitored.count t + S.inTransit.count t +
        S.completed.count t = if t ∈ S.created then 1 else 0) ∧
      (∀ s ∈ past, ∀ t ∈ s.completed, t ∈ S.completed ∧ t ∉ S.queued) ∧
      (S.attempts.map Attempt.id).Nodup := by
  have hinv : Inv files nReduce S := inv_of_run h S List.mem_cons_self
  refine ⟨?_, hinv.count_total, ?_, ?_⟩
  · intro t ht
    exact (hinv.accounts.maps t (mem_mapTasks_type ht)).mpr ht
  · intro s hs t ht
    have hmono : (S :: past).Pairwise fun later earlier =>
        earlier.ledger.closed ≤ later.ledger.closed := by
      refine h.pairwise (fun hab hbc => hbc.trans hab) ?_
      intro s past act s' hr _ hn
      have hs : Inv files nReduce s := inv_of_run hr s List.mem_cons_self
      exact (hs.ledger_moves (Coordinator.moves_of_step hn)).closed_le
    have hmem : t ∈ S.completed :=
      Multiset.mem_coe.mp (Multiset.mem_of_le ((List.pairwise_cons.mp hmono).1 s hs) ht)
    refine ⟨hmem, fun hq => ?_⟩
    have hcount := hinv.count_total t
    have hpos := List.count_pos_iff.mpr hmem
    have hpos' := List.count_pos_iff.mpr hq
    split_ifs at hcount <;> omega
  · have hids : S.attempts.map Attempt.id = List.range' 1 S.attempts.length := by
      refine List.ext_getElem (by simp) fun k hk hk' => ?_
      rw [List.getElem_map, List.getElem_range', Nat.one_mul, Nat.add_comm]
      exact hinv.watched.id_eq k _ (List.getElem?_eq_getElem _)
    rw [hids]
    exact List.nodup_range'

/-- The task of the only input file times out and is in transit to its queue. -/
theorem tasks_conserved_timeout :
    ∃ S past, (coordinator ["pg.txt"] 1).Run Machine.Any (S :: past) ∧
      S.inTransit = [.map ⟨0, ["pg.txt"]⟩] ∧
      S.queued.count (.map ⟨0, ["pg.txt"]⟩) + S.popped.count (.map ⟨0, ["pg.txt"]⟩) +
        S.monitored.count (.map ⟨0, ["pg.txt"]⟩) + S.inTransit.count (.map ⟨0, ["pg.txt"]⟩) +
        S.completed.count (.map ⟨0, ["pg.txt"]⟩) = 1 := by
  obtain ⟨S, past, hr, hS⟩ : ∃ S past, (coordinator ["pg.txt"] 1).Run Machine.Any (S :: past) ∧
      S.inTransit = [.map ⟨0, ["pg.txt"]⟩] :=
    Machine.exists_run_of_trace (fun _ _ => true) (fun _ _ _ => trivial)
      [.getTask, .monitorTask 0, .fire 0, .expire 0, .timeOut 0, .handOver 0] (by decide +kernel)
  obtain ⟨hmaps, hcount, -⟩ := tasks_conserved hr
  exact ⟨S, past, hr, hS, (hcount _).trans (if_pos (hmaps _ (by decide)))⟩

/-! ### The barrier -/

lemma Inv.completed_maps (h : Inv files nReduce S) (hp : S.phase ≠ .mapping) :
    ∀ t ∈ mapTasks files, t ∈ S.completed := by
  intro t ht
  have hmap := mem_mapTasks_type ht
  refine Multiset.mem_coe.mp (Ledger.mem_closed (h.accounts.barrier hp) ?_ hmap)
  exact h.accounts.total ▸ Multiset.mem_coe.mpr ((h.accounts.maps t hmap).mpr ht)

lemma Inv.completed_reduces (h : Inv files nReduce S) (hp : S.phase.reduced = true) :
    ∀ i < nReduce, ∃ t : ReduceTask, t.ID = i ∧ .reduce t ∈ S.completed := by
  intro i hi
  have hplan := h.accounts.planned (fun hm => by rw [hm] at hp; cases hp) i hi
  have htodo : S.phase.todo = [] := by
    revert hp
    cases S.phase <;> simp [Phase.reduced, Phase.todo]
  rcases hplan with ⟨t, ht, _⟩ | ⟨t, ht, hid⟩
  · rw [htodo] at ht
    cases ht
  · refine ⟨t, hid, Multiset.mem_coe.mp (Ledger.mem_closed (h.accounts.reduced hp) ?_ rfl)⟩
    exact h.accounts.total ▸ Multiset.mem_coe.mpr ht

/-- Phase barrier and exit safety, in every reachable state: a reduce task is in its queue or has
been handed out only if every map task has been completed, the coordinator is done only if every
reduce task has been completed, and a task is completed only by an attempt whose report has been
accepted. -/
theorem phase_barrier (h : (coordinator files nReduce).Reachable S) :
    (∀ t, .reduce t ∈ S.queued ∨ (∃ a ∈ S.attempts, a.task = .reduce t) →
        ∀ t' ∈ mapTasks files, t' ∈ S.completed) ∧
      (S.done = true → ∀ i < nReduce, ∃ t : ReduceTask, t.ID = i ∧ .reduce t ∈ S.completed) ∧
      ∀ t ∈ S.completed, ∃ a ∈ S.attempts, a.task = t ∧ a.monitor = .completed ∧
        ∃ files, a.report = .accepted files := by
  obtain ⟨past, hr⟩ := h
  have hinv : Inv files nReduce S := inv_of_run hr S List.mem_cons_self
  refine ⟨?_, ?_, ?_⟩
  · intro t ht
    have hmem : .reduce t ∈ S.created := by
      rcases ht with ht | ⟨a, ha, htask⟩
      · refine Multiset.mem_coe.mp (hinv.accounts.total ▸ ?_)
        simp only [Ledger.total, Coordinator.ledger, Multiset.mem_add, Multiset.mem_coe]
        exact .inl (.inl (.inl (.inl ht)))
      · exact htask ▸ hinv.issued a ha
    refine hinv.completed_maps fun hp => ?_
    cases hinv.accounts.mapping hp _ hmem
  · intro hd
    exact hinv.completed_reduces (hinv.accounts.reduced_of_done hd)
  · intro t ht
    obtain ⟨k, a, hk, hm, rfl⟩ := of_mem_completed ht
    have hw := hinv.watched.watch k a hk
    simp only [Watch, hm] at hw
    exact ⟨a, List.mem_of_getElem? hk, rfl, hm, Report.exists_of_isAccepted hw.1⟩

/-- A job of one input file and one partition, from its first request to its end. -/
def oneFileJob : List Action :=
  [.getTask, .monitorTask 0, .taskDone 0 ["mr-1-0.json"], .rendezvous, .recheck 0, .release 0,
    .wgDone 0, .reduce, .queueTask 0, .count, .monitorReduceEnd, .getTask, .monitorTask 1,
    .taskDone 1 ["mr-out2.txt"], .rendezvous, .recheck 1, .release 1, .wgDone 1,
    .removeTempFiles, .remove 0, .clear, .finish]

theorem phase_barrier_oneFile :
    ∃ S, (coordinator ["pg.txt"] 1).Reachable S ∧ S.done = true ∧
      ∃ t : ReduceTask, t.ID = 0 ∧ .reduce t ∈ S.completed := by
  obtain ⟨S, past, hr, hS⟩ : ∃ S past, (coordinator ["pg.txt"] 1).Run Machine.Any (S :: past) ∧
      S.done = true :=
    Machine.exists_run_of_trace (fun _ _ => true) (fun _ _ _ => trivial) oneFileJob
      (by decide +kernel)
  exact ⟨S, ⟨past, hr⟩, hS, (phase_barrier ⟨past, hr⟩).2.1 hS 0 Nat.one_pos⟩

/-! ### The counters -/

/-- The tasks that have been queued and counted. While `reduce` is between the two halves of
`addReduceTask`, the task it has queued last is not. -/
def Coordinator.counted (S : Coordinator) : List Task :=
  match S.phase with
  | .queueing _ false => S.created.dropLast
  | _ => S.created

/-- The tasks of a type that have been queued and counted and are not completed. -/
def Coordinator.outstanding (S : Coordinator) (type : TaskType) : List Task :=
  S.counted.filter fun t => t.type = type ∧ t ∉ S.completed

/-- The condition on a step: a monitor calls `Done` of a `WaitGroup` only for a task that has been
counted. -/
def CountsFirst (S : Coordinator) : Action → Prop
  | .wgDone k => ∀ a ∈ S.attempts[k]?, a.task ∈ S.counted
  | _ => True

/-- Only counted tasks are completed. -/
structure Counted (S : Coordinator) : Prop where
  last : S.phase.uncounted = 1 → ∃ t, S.created = S.counted ++ [.reduce t]
  completed : ∀ t ∈ S.completed, t ∈ S.counted

lemma Coordinator.counted_eq (h : S.phase.uncounted = 0) : S.counted = S.created := by
  unfold counted
  split
  · rename_i hp
    rw [hp] at h
    cases h
  · rfl

lemma Phase.uncounted_cases (p : Phase) : p.uncounted = 0 ∨ p.uncounted = 1 := by
  unfold uncounted
  split
  · exact .inr rfl
  · exact .inl rfl

/-- A task that has been counted stays so. -/
lemma Coordinator.Moves.counted_subset {act : Action} (hm : S.Moves act S') :
    S.counted ⊆ S'.counted := by
  have hsub : S.counted ⊆ S.created := by
    unfold counted
    split
    · exact List.dropLast_subset _
    · exact List.Subset.refl _
  cases hm with
  | queueTask hp hj =>
    rw [counted_eq (by rw [hp]; rfl)]
    simp [counted]
  | @wgDone k a val => cases val <;> exact List.Subset.refl _
  | reduce | count | monitorReduceEnd | removeTempFiles | remove | clear | finish | stopMapQueue
  | stopReduceQueue | stopMonitor => exact hsub
  | _ => exact List.Subset.refl _

/-- Only `Done` of a `WaitGroup` completes a task. -/
lemma Inv.mem_completed (h : Inv files nReduce S) {act : Action} (hm : S.Moves act S') {t : Task}
    (ht : t ∈ S'.completed) :
    t ∈ S.completed ∨ ∃ k, ∃ a ∈ S.attempts[k]?, act = .wgDone k ∧ a.task = t := by
  have hl := hm.ledger_eq
  have hmem : t ∈ S'.ledger.closed := Multiset.mem_coe.mpr ht
  cases hm with
  | @wgDone k a val hk hm =>
    have hcl : ((S.waitGroupDone val).setAttempt k { a with monitor := .completed }).ledger.closed =
        a.task ::ₘ S.completed := by
      cases val <;> exact (Coordinator.ledger_wgDone hk hm).2
    rw [hcl] at hmem
    rcases Multiset.mem_cons.mp hmem with rfl | hmem
    · exact .inr ⟨k, a, hk, rfl, rfl⟩
    · exact .inl hmem
  | queueTask => exact .inl ht
  | stopMonitor hk hp hm => exact absurd hm (h.accounts.not_waiting hp hk)
  | _ =>
    rw [hl nofun nofun nofun] at hmem
    exact .inl hmem

lemma Counted.moves (h : Counted S) (hinv : Inv files nReduce S) {act : Action}
    (hc : CountsFirst S act) (hm : S.Moves act S') : Counted S' := by
  refine ⟨?_, fun t ht => hm.counted_subset ?_⟩
  · have hlast := h.last
    cases hm with
    | @queueTask j t todo hp hj => exact fun _ => ⟨t, by simp [Coordinator.counted]⟩
    | @wgDone k a val => cases val <;> exact hlast
    | reduce | count | monitorReduceEnd | removeTempFiles | remove | clear | finish | stopMapQueue
    | stopReduceQueue | stopMonitor => exact nofun
    | _ => exact hlast
  · rcases hinv.mem_completed hm ht with ht | ⟨k, a, hk, rfl, rfl⟩
    · exact h.completed t ht
    · exact hc a hk

lemma counted_of_run {l : List Coordinator} (h : (coordinator files nReduce).Run CountsFirst l) :
    ∀ S ∈ l, Counted S := by
  refine h.invariant ?_ ?_
  · rintro S rfl
    rw [Coordinator.MakeCoordinator, Coordinator.mapFiles, mapFiles_eq]
    exact ⟨fun h => absurd h Nat.zero_ne_one, fun t ht => absurd ht List.not_mem_nil⟩
  · intro S past act S' hr hP hS hn
    exact hS.moves (inv_of_run hr S List.mem_cons_self) hP (Coordinator.moves_of_step hn)

/-- What is pending is outstanding or has not been counted. -/
lemma Counted.length_outstanding (h : Counted S) (hinv : Inv files nReduce S) (type : TaskType) :
    S.pending type =
      (S.outstanding type).length + if type = .REDUCE then S.phase.uncounted else 0 := by
  have hpending : S.pending type =
      S.created.countP fun t => t.type = type ∧ t ∉ S.completed := by
    have hnodup : S.ledger.total.Nodup := hinv.accounts.total ▸ Multiset.coe_nodup.mpr hinv.nodup
    rw [Coordinator.pending, ← Ledger.countP_notMem_closed _ hnodup, hinv.accounts.total]
    exact Multiset.coe_countP _ _
  rw [hpending, Coordinator.outstanding, ← List.countP_eq_length_filter]
  rcases S.phase.uncounted_cases with hu | hu
  · rw [Coordinator.counted_eq hu, hu, ite_self, add_zero]
  · -- the task that has been queued last is a reduce task and not completed
    obtain ⟨t, ht⟩ := h.last hu
    have hnot : .reduce t ∉ S.completed := by
      intro hmem
      have hnodup := hinv.nodup
      rw [ht] at hnodup
      exact List.disjoint_of_nodup_append hnodup (h.completed _ hmem) (List.mem_singleton_self _)
    rw [hu]
    conv_lhs => rw [ht]
    cases type <;> simp [Task.type, hnot]

lemma outstanding_of_run {past : List Coordinator}
    (h : (coordinator files nReduce).Run CountsFirst (S :: past)) :
    S.mapWG = (S.outstanding .MAP).length ∧ S.reduceWG = (S.outstanding .REDUCE).length := by
  have hinv : Inv files nReduce S := inv_of_run h S List.mem_cons_self
  have hcount := (counted_of_run h S List.mem_cons_self).length_outstanding hinv
  have hmap := hinv.accounts.mapWG
  have hreduce := hinv.accounts.reduceWG
  rw [hcount] at hmap hreduce
  simp only [reduceCtorEq, if_false, if_true] at hmap hreduce
  omega

/-- A step from a state without a panic panics only with a negative counter. -/
lemma Coordinator.negative_of_panicked {act : Action} (h : S.step act = some S')
    (hp : S'.panicked = true) : S'.mapWG < 0 ∨ S'.reduceWG < 0 := by
  have hS : S.panicked = false := by
    unfold step at h
    split_ifs at h with hne
    simpa using hne
  cases moves_of_step h with
  | @wgDone k a val hk hm =>
    cases val with
    | MAP => exact .inl (of_decide_eq_true hp)
    | REDUCE => exact .inr (of_decide_eq_true hp)
  | _ => cases hS.symm.trans hp

/-- The `WaitGroup`s count: in every run in which a monitor calls `Done` only for a task that has
been counted, both counters are the numbers of tasks that have been queued and counted and are not
completed. So neither is ever negative, and the coordinator does not panic. -/
theorem waitGroups_count {past : List Coordinator}
    (h : (coordinator files nReduce).Run CountsFirst (S :: past)) :
    S.mapWG = (S.outstanding .MAP).length ∧ S.reduceWG = (S.outstanding .REDUCE).length ∧
      0 ≤ S.mapWG ∧ 0 ≤ S.reduceWG ∧ S.panicked = false := by
  obtain ⟨hmap, hreduce⟩ := outstanding_of_run h
  refine ⟨hmap, hreduce, hmap ▸ Int.natCast_nonneg _, hreduce ▸ Int.natCast_nonneg _, ?_⟩
  cases h with
  | init h =>
    obtain rfl : S = _ := h
    rw [Coordinator.MakeCoordinator, Coordinator.mapFiles, mapFiles_eq]
  | next hr hp hn =>
    by_contra hpanic
    have := Coordinator.negative_of_panicked hn (by simpa using hpanic)
    omega

/-- A check of `CountsFirst`. -/
def countsFirst (S : Coordinator) : Action → Bool
  | .wgDone k => S.attempts[k]?.all fun a => a.task ∈ S.counted
  | _ => true

lemma countsFirst_sound (S : Coordinator) (a : Action) (h : countsFirst S a = true) :
    CountsFirst S a := by
  cases a with
  | wgDone k =>
    intro a ha
    rw [Option.mem_def] at ha
    simpa [countsFirst, ha] using h
  | _ => trivial

/-- While the reduce task of the job of one file is with its worker, `reduceWG` is one. -/
theorem waitGroups_count_oneFile :
    ∃ S past, (coordinator ["pg.txt"] 1).Run CountsFirst (S :: past) ∧
      (S.outstanding .REDUCE).length = 1 ∧ S.reduceWG = 1 := by
  obtain ⟨S, past, hr, hS⟩ : ∃ S past, (coordinator ["pg.txt"] 1).Run CountsFirst (S :: past) ∧
      (S.outstanding .REDUCE).length = 1 :=
    Machine.exists_run_of_trace countsFirst countsFirst_sound (oneFileJob.take 13)
      (by decide +kernel)
  refine ⟨S, past, hr, hS, ?_⟩
  rw [(waitGroups_count hr).2.1, hS]
  rfl

/-- `reduce` queues its only task; a worker gets it and reports it, and the monitor calls `Done`
before `reduce` has called `reduceWG.Add(1)`. -/
theorem waitGroups_count_early :
    ∃ S, (coordinator ["pg.txt"] 1).Reachable S ∧ S.reduceWG = -1 ∧ S.panicked = true ∧
      S.outstanding .REDUCE = [] := by
  obtain ⟨S, past, hr, hS⟩ : ∃ S past, (coordinator ["pg.txt"] 1).Run Machine.Any (S :: past) ∧
      (S.reduceWG = -1 ∧ S.panicked = true ∧ S.outstanding .REDUCE = []) :=
    Machine.exists_run_of_trace (fun _ _ => true) (fun _ _ _ => trivial)
      (oneFileJob.take 9 ++ [.getTask, .monitorTask 1, .taskDone 1 ["mr-out2.txt"], .rendezvous,
        .recheck 1, .release 1, .wgDone 1])
      (by decide +kernel)
  exact ⟨S, ⟨past, hr⟩, hS⟩

end Barrier

end MapReduce

end DistLabs
