import DistLabs.MapReduce.Output

/-!
# Intermediate files

Two places remove intermediate files: `MapTaskDone` when it ignores a report, and `removeTempFiles`.
The first removes whatever files the late worker names while other attempts of the same task may
have been accepted. It is harmless because every attempt writes under names of its own, and an
attempt that has been accepted does not report again.
-/

namespace DistLabs

namespace MapReduce

/-- The intermediate file a step writes. -/
def System.written (S : System) : JobAction → Option String
  | .writeFile k i => S.coord.attempts[k]?.map fun a => mapTempFile a.id i
  | _ => none

section Intermediate

variable {J : Job} {S S' : System} {C C' : Coordinator} {files : List String} {nReduce : ℕ}

/-! ### The accepted files -/

lemma Phase.reduced_of_cleared {p : Phase} (h : p.cleared = true) : p.reduced = true := by
  cases p <;> first | rfl | cases h

/-- `removeTempFiles` leaves no names, and no report is accepted after it. -/
def Emptied (C : Coordinator) : Prop := C.phase.cleared = true → C.mapTempFiles = []

lemma Emptied.moves (h : Emptied C) (hinv : Inv files nReduce C) {act : Action}
    (hm : C.Moves act C') : Emptied C' := by
  cases hm with
  | @accept k a files hk hl hpop hr ht =>
    intro hc
    have hnot := hinv.accounts.not_monitored (Phase.reduced_of_cleared hc) hk
    rcases hinv.watched.monitor_of_accept hk hl hpop hr ht with hm | hm
    · exact absurd (by rw [hm]; rfl) hnot
    · exact absurd (by rw [hm]; rfl) hnot
  | @wgDone k a val => cases val <;> exact h
  | clear => exact fun _ => rfl
  | finish hp | stopMapQueue hp | stopReduceQueue hp | stopMonitor _ hp =>
    exact fun _ => h (by rw [hp]; rfl)
  | reduce | queueTask | count | monitorReduceEnd | removeTempFiles | remove =>
    intro hc
    cases hc
  | _ => exact h

/-- A file in `mapTempFiles` is one of an attempt that has been accepted. -/
lemma Sound.of_mem_mapTempFiles (h : Sound J S) (he : Emptied S.coord) {file : String}
    (hf : file ∈ S.coord.mapTempFiles) :
    ∃ (k : ℕ) (a : Attempt) (i : ℕ), S.coord.attempts[k]? = some a ∧ a.brought ∧ i < J.nReduce ∧
      file = mapTempFile a.id i := by
  have hphase : S.coord.phase.cleared = false := by
    by_contra hc
    rw [he (by simpa using hc)] at hf
    cases hf
  obtain ⟨a, ha, hfa⟩ := List.mem_flatMap.mp ((h.gathered hphase).mem_iff.mp hf)
  obtain ⟨k, hk⟩ := List.getElem?_of_mem ha
  have hb := Attempt.brought_of_mem_mapFiles hfa
  obtain ⟨i, hi, rfl⟩ := List.mem_map.mp ((h.perm_mapFiles hk hb).mem_iff.mp hfa)
  exact ⟨k, a, i, hk, hb, List.mem_range.mp hi, rfl⟩

/-! ### Removals -/

/-- A report that is ignored removes files of its own attempt only. -/
lemma Sound.removed_taskDone (h : Sound J S) {k : ℕ} {named : List String} {file : String}
    (hp : S.Permits (.taskDone k named)) (hf : file ∈ S.removed (.taskDone k named)) :
    ∃ a i, S.coord.attempts[k]? = some a ∧ a.report = .none ∧ file = mapTempFile a.id i := by
  obtain ⟨a, ha, hready⟩ := hp
  rw [Option.mem_def] at ha
  simp only [System.removed, ha] at hf
  split_ifs at hf with ht
  · obtain ⟨i, rfl⟩ := h.ready_name ha hready ht.2 hf
    exact ⟨a, i, ha, h.report_eq_none ha hready, rfl⟩
  · cases hf

/-- No file in `mapTempFiles` is removed by the report of an attempt that has timed out. -/
lemma Sound.notMem_removed (h : Sound J S) (he : Emptied S.coord) {k : ℕ} {named : List String}
    {file : String} (hp : S.Permits (.taskDone k named))
    (hf : file ∈ S.removed (.taskDone k named)) : file ∉ S.coord.mapTempFiles := by
  intro hmem
  obtain ⟨a, i, hk, hr, rfl⟩ := h.removed_taskDone hp hf
  obtain ⟨j, b, i', hj, hb, -, heq⟩ := h.of_mem_mapTempFiles he hmem
  -- equal names mean the same attempt, and this one has not been accepted
  obtain rfl : k = j := by
    have := h.inv.watched.id_eq k a hk
    have := h.inv.watched.id_eq j b hj
    have := (mapTempFile_injective heq).1
    omega
  cases hk.symm.trans hj
  have hacc := hb.2
  rw [hr] at hacc
  cases hacc

/-- How a step changes an intermediate file. -/
lemma System.Moves.disk_eq {act : JobAction} (hm : S.Moves J act S') (file : String) :
    S'.disk file = S.disk file ∨ S.written act = some file ∨
      ∃ cact, act = .coordinator cact ∧ S.Permits cact ∧ file ∈ S.removed cact ∧
        S'.disk file = none := by
  cases hm with
  | @coordinator act c hp hc =>
    by_cases hf : file ∈ S.removed act
    · exact .inr (.inr ⟨act, rfl, hp, hf, if_pos hf⟩)
    · exact .inl (if_neg hf)
  | @writeFile k i a items files hk hw hi hf =>
    rcases eq_or_ne file (mapTempFile a.id i) with rfl | hne
    · exact .inr (.inl (by simp [System.written, hk]))
    · exact .inl (Function.update_of_ne hne _ _)
  | _ => exact .inl rfl

/-- What is known in every state of a job. -/
lemma job_sound {l : List System} (h : (job J).Run Machine.Any l) :
    ∀ S ∈ l, Sound J S ∧ Emptied S.coord := by
  refine h.invariant ?_ ?_
  · rintro S rfl
    refine ⟨sound_init J, ?_⟩
    rw [Coordinator.MakeCoordinator, Coordinator.mapFiles, mapFiles_eq]
    exact fun _ => rfl
  · intro S past act S' _ _ hS hnext
    have hm := System.moves_of_step hnext
    refine ⟨hS.1.moves hm, ?_⟩
    cases hm with
    | coordinator hp hc => exact hS.2.moves hS.1.inv hc
    | _ => exact hS.2

/-- Accepted intermediate files are not deleted early. Over any run of a job, no two attempts write
under the same name; no file in `mapTempFiles` is removed when a report is ignored; a step that
removes such a file from the disk is one of `removeTempFiles`, with every reduce task completed; and
as long as `reduceWG.Wait` has not returned all of them are there. -/
theorem accepted_files_kept {past : List System} (h : (job J).Run Machine.Any (S :: past)) :
    (∀ T ∈ S :: past, ∀ T' ∈ S :: past, ∀ k i k' i' file,
      T.written (.writeFile k i) = some file → T'.written (.writeFile k' i') = some file →
        k = k' ∧ i = i') ∧
    (∀ act S', (job J).next S act S' → ∀ file, S'.disk file ≠ S.disk file →
      S'.disk file ≠ none → S.written act = some file) ∧
    (∀ k named S', (job J).next S (.coordinator (.taskDone k named)) S' →
      ∀ file ∈ S.removed (.taskDone k named), file ∉ S.coord.mapTempFiles) ∧
    (∀ act S', (job J).next S act S' → ∀ file ∈ S.coord.mapTempFiles, S.disk file ≠ none →
      S'.disk file = none →
      (∃ j rest, act = .coordinator (.remove j) ∧ S.coord.phase = .removing rest) ∧
        ∀ i < J.nReduce, ∃ t : ReduceTask, t.ID = i ∧ .reduce t ∈ S.coord.completed) ∧
    (S.coord.phase.reduced = false → ∀ file ∈ S.coord.mapTempFiles, S.disk file ≠ none) := by
  obtain ⟨hsound, hempty⟩ := job_sound h S List.mem_cons_self
  refine ⟨?_, ?_, ?_, ?_, ?_⟩
  · have hname : ∀ T ∈ S :: past, ∀ k i file, T.written (.writeFile k i) = some file →
        file = mapTempFile (k + 1) i := by
      intro T hT k i file hw
      obtain ⟨a, hk, rfl⟩ := Option.map_eq_some_iff.mp hw
      rw [(job_sound h T hT).1.inv.watched.id_eq k a hk]
    intro T hT T' hT' k i k' i' file hw hw'
    have heq := (hname T hT k i file hw).symm.trans (hname T' hT' k' i' file hw')
    obtain ⟨hk, hi⟩ := mapTempFile_injective heq
    exact ⟨Nat.succ_injective hk, hi⟩
  · intro act S' hnext file hne hsome
    rcases (System.moves_of_step hnext).disk_eq file with heq | hw | ⟨-, -, -, -, hnone⟩
    · exact absurd heq hne
    · exact hw
    · exact absurd hnone hsome
  · intro k named S' hnext file hf
    cases System.moves_of_step hnext with
    | coordinator hp hc => exact hsound.notMem_removed hempty hp hf
  · intro act S' hnext file hmem hsome hnone
    rcases (System.moves_of_step hnext).disk_eq file with heq | hw | ⟨cact, rfl, hp, hf, -⟩
    · exact absurd (heq.symm.trans hnone) hsome
    · -- a file that is written is there
      cases System.moves_of_step hnext with
      | @writeFile k i a items files hk hw' hi hf =>
        simp only [System.written, hk, Option.map_some, Option.some.injEq] at hw
        subst hw
        exact absurd hnone (by simp [MapReduce.writeFile])
      | _ => cases hw
    · cases cact with
      | taskDone k named => exact absurd hmem (hsound.notMem_removed hempty hp hf)
      | remove j =>
        simp only [System.removed] at hf
        split at hf
        · rename_i rest hphase
          refine ⟨⟨j, rest, rfl, hphase⟩, hsound.inv.completed_reduces ?_⟩
          rw [hphase]
          rfl
        · cases hf
      | _ => cases hf
  · intro hphase file hmem
    obtain ⟨k, a, i, hk, hb, hi, rfl⟩ := hsound.of_mem_mapTempFiles hempty hmem
    rw [hsound.stored hphase k a i hk hi (.inl hb)]
    exact Option.some_ne_none _

/-- The first attempt of the map task of `oneWordJob` times out after it has written its file, and
the second is accepted. -/
def lateMap : List JobAction :=
  [.coordinator .getTask, .coordinator (.monitorTask 0), .start 0, .writeFile 0 0,
    .coordinator (.fire 0), .coordinator (.expire 0), .coordinator (.timeOut 0),
    .coordinator (.handOver 0), .coordinator (.addTimeoutTask .MAP), .coordinator .getTask,
    .coordinator (.monitorTask 1), .start 1, .writeFile 1 0,
    .coordinator (.taskDone 1 ["mr-2-0.json"]), .coordinator .rendezvous]

/-- When the first attempt reports after all, its file is removed and that of the second is kept. -/
theorem accepted_files_kept_lateMap :
    ∃ S S' past, (job oneWordJob).Run Machine.Any (S :: past) ∧
      (job oneWordJob).next S (.coordinator (.taskDone 0 ["mr-1-0.json"])) S' ∧
      S.removed (.taskDone 0 ["mr-1-0.json"]) = ["mr-1-0.json"] ∧
      S'.disk "mr-1-0.json" = none ∧ "mr-1-0.json" ∉ S.coord.mapTempFiles ∧
      "mr-2-0.json" ∈ S.coord.mapTempFiles ∧ S.disk "mr-2-0.json" ≠ none := by
  obtain ⟨S, S', past, hr, hnext, hS⟩ : ∃ S S' past,
      (job oneWordJob).Run Machine.Any (S :: past) ∧
      (job oneWordJob).next S (.coordinator (.taskDone 0 ["mr-1-0.json"])) S' ∧
      (S.removed (.taskDone 0 ["mr-1-0.json"]) = ["mr-1-0.json"] ∧
        S'.disk "mr-1-0.json" = none ∧ "mr-2-0.json" ∈ S.coord.mapTempFiles ∧
        S.coord.phase = .mapping) :=
    Machine.exists_step_of_trace (fun _ _ => true) (fun _ _ _ => trivial) lateMap
      (by decide +kernel)
  obtain ⟨hrem, hnone, hmem, hphase⟩ := hS
  obtain ⟨-, -, hignored, -, hkept⟩ := accepted_files_kept hr
  refine ⟨S, S', past, hr, hnext, hrem, hnone, ?_, hmem, hkept (by rw [hphase]; rfl) _ hmem⟩
  exact hignored 0 _ S' hnext _ (by simp [hrem])

end Intermediate

end MapReduce

end DistLabs
