import DistLabs.MapReduce.Job

/-!
# Every partition is put out once

A reduce attempt writes to its own file, and what it has written stays. So the output is right if an
attempt that has written something never times out, and one that has timed out writes nothing. In
such runs every line is of an attempt that completes its task, and the ledger allows one of them for
every partition.
-/

namespace DistLabs

namespace MapReduce

/-- The keys of a job. -/
def Job.keys (J : Job) : List String := (J.mapItems J.files).map Prod.fst

/-- What a map attempt has to put into bucket `i`. -/
def Job.bucket (J : Job) (a : Attempt) (i : ℕ) : List KeyValue :=
  match a.task with
  | .map t => mapTempFilesProducer J.nReduce (J.mapItems t.Files) i
  | .reduce _ => []

/-- The files that a map attempt has written. -/
def Work.files : Work → List String
  | .mapping _ files => files
  | _ => []

/-- The lines of an output file. -/
def System.linesOf (S : System) (file : String) : List KeyValue :=
  (S.out.filter fun p => p.1 = file).map Prod.snd

/-- The attempt is of a map task and has been accepted. -/
def Attempt.brought (a : Attempt) : Prop := a.task.type = .MAP ∧ a.report.isAccepted = true

section Output

variable {J : Job}

/-! ### What a reduce attempt makes of its files -/

/-- `r` has one line for every key of partition `i`. -/
def IsOutput (J : Job) (i : ℕ) (r : List KeyValue) : Prop :=
  (r.map Prod.fst).Nodup ∧
    ∀ key, key ∈ r.map Prod.fst ↔ key ∈ J.keys ∧ ihash key % J.nReduce = i

/-- The items read so far are of partition `i`, and no key of it is missing from the items and the
unread files together. -/
structure Reading (J : Job) (l : List Attempt) (i : ℕ) (unread : List String)
    (items : List KeyValue) : Prop where
  sound : ∀ key ∈ items.map Prod.fst, key ∈ J.keys ∧ ihash key % J.nReduce = i
  complete : ∀ key ∈ J.keys, ihash key % J.nReduce = i →
    key ∈ items.map Prod.fst ∨
      ∃ a ∈ l, a.brought ∧ mapTempFile a.id i ∈ unread ∧ key ∈ (J.bucket a i).map Prod.fst

/-- The files of a reduce task are those of accepted map attempts, and enough of them. -/
structure Supplied (J : Job) (l : List Attempt) (t : ReduceTask) : Prop where
  lt : t.ID < J.nReduce
  named : ∀ file ∈ t.Files, ∃ a ∈ l, a.brought ∧ file = mapTempFile a.id t.ID
  reading : Reading J l t.ID t.Files []

/-- Attempts of `l` that have been accepted are in `l'`. -/
def Keeps (l l' : List Attempt) : Prop :=
  ∀ a ∈ l, a.brought → ∃ a' ∈ l', a'.brought ∧ a'.id = a.id ∧ a'.task = a.task

lemma Reading.mono {l l' : List Attempt} {i : ℕ} {unread : List String} {items : List KeyValue}
    (h : Reading J l i unread items) (hl : Keeps l l') : Reading J l' i unread items where
  sound := h.sound
  complete key hkey hi := by
    refine (h.complete key hkey hi).imp_right ?_
    rintro ⟨a, ha, hb, hmem, hk⟩
    obtain ⟨a', ha', hb', hid, ht⟩ := hl a ha hb
    refine ⟨a', ha', hb', hid ▸ hmem, ?_⟩
    unfold Job.bucket at hk ⊢
    rwa [ht]

lemma Supplied.mono {l l' : List Attempt} {t : ReduceTask} (h : Supplied J l t)
    (hl : Keeps l l') : Supplied J l' t where
  lt := h.lt
  named file hf := by
    obtain ⟨a, ha, hb, rfl⟩ := h.named file hf
    obtain ⟨a', ha', hb', hid, _⟩ := hl a ha hb
    exact ⟨a', ha', hb', hid ▸ rfl⟩
  reading := h.reading.mono hl

/-- One more file is read. -/
lemma Reading.readFile {l : List Attempt} {i : ℕ} {unread : List String}
    {items batch : List KeyValue} {file : String} (h : Reading J l i unread items)
    (hs : ∀ key ∈ batch.map Prod.fst, key ∈ J.keys ∧ ihash key % J.nReduce = i)
    (hb : ∀ a ∈ l, a.brought → mapTempFile a.id i = file → J.bucket a i = batch) :
    Reading J l i (unread.erase file) (items ++ batch) where
  sound key hkey := by
    rw [List.map_append, List.mem_append] at hkey
    exact hkey.elim (h.sound key) (hs key)
  complete key hkey hi := by
    rw [List.map_append, List.mem_append]
    rcases h.complete key hkey hi with hk | ⟨a, ha, hbr, hmem, hk⟩
    · exact .inl (.inl hk)
    · rcases eq_or_ne (mapTempFile a.id i) file with heq | hne
      · exact .inl (.inr (hb a ha hbr heq ▸ hk))
      · exact .inr ⟨a, ha, hbr, (List.mem_erase_of_ne hne).mpr hmem, hk⟩

/-- When all files are read, the result is the output of the partition. -/
lemma Reading.isOutput {l : List Attempt} {i : ℕ} {items sorted : List KeyValue}
    (h : Reading J l i [] items) (hs : Sorts items sorted) :
    IsOutput J i (partition sorted J.reducef) := by
  have hred : IsReduction J.reducef sorted (partition sorted J.reducef) :=
    isReduction_reduceRuns hs.2
  refine ⟨hred.nodup, fun key => ?_⟩
  rw [hred.mem_iff, (hs.1.map _).mem_iff]
  refine ⟨h.sound key, fun hkey => ?_⟩
  rcases h.complete key hkey.1 hkey.2 with hk | ⟨a, _, _, hmem, _⟩
  · exact hk
  · cases hmem

/-! ### The invariant -/

/-- What the worker of an attempt has reached. Nothing is said of the result of a reduce attempt
that has timed out: the files may be gone before they are read. -/
def Progress (J : Job) (l : List Attempt) (a : Attempt) : Work → Prop
  | .idle => a.report = .none
  | .mapping items files => a.report = .none ∧ files.Nodup ∧
      (∀ file ∈ files, ∃ i < J.nReduce, file = mapTempFile a.id i) ∧
      ∃ t, a.task = .map t ∧ items = J.mapItems t.Files
  | .reading unread items => a.report = .none ∧ ∃ t, a.task = .reduce t ∧ unread ⊆ t.Files ∧
      (a.monitor.late = false → Reading J l t.ID unread items)
  | .writing written rest => a.report = .none ∧ ∃ t, a.task = .reduce t ∧
      (a.monitor.late = false → IsOutput J t.ID (written ++ rest))
  | .finished written =>
    match a.task with
    | .map _ => written = [] ∧
        ∀ files, a.report = .accepted files →
          files.Perm ((List.range J.nReduce).map (mapTempFile a.id))
    | .reduce t => a.monitor.late = false → IsOutput J t.ID written

/-- The work on every attempt is sound: what has been written to the intermediate files is there as
long as it may be read, and the reduce tasks name the files of accepted attempts. -/
structure Sound (J : Job) (S : System) : Prop where
  inv : Inv J.files J.nReduce S.coord
  gathered : Gathered S.coord
  supplied : ∀ t, .reduce t ∈ S.coord.created ∨ t ∈ S.coord.phase.todo →
    Supplied J S.coord.attempts t
  idle : ∀ k, S.coord.attempts.length ≤ k → S.work k = .idle
  progress : ∀ (k : ℕ) (a : Attempt), S.coord.attempts[k]? = some a →
    Progress J S.coord.attempts a (S.work k)
  stored : S.coord.phase.reduced = false → ∀ (k : ℕ) (a : Attempt) (i : ℕ),
    S.coord.attempts[k]? = some a → i < J.nReduce →
    a.brought ∨ mapTempFile a.id i ∈ (S.work k).files →
    S.disk (mapTempFile a.id i) = some (J.bucket a i)

variable {S S' : System} {k : ℕ} {a : Attempt}

lemma Progress.mono {l l' : List Attempt} {a' : Attempt} {w : Work} {act : Action}
    (h : Progress J l a w) (hf : S.coord.Follows act k a a') (hr : a'.report = a.report)
    (hl : Keeps l l') : Progress J l' a' w := by
  have hlate := hf.not_late
  cases w with
  | idle => exact hr.trans h
  | mapping items files =>
    obtain ⟨hrep, hnd, hnames, ht⟩ := h
    exact ⟨hr.trans hrep, hnd, hf.id_eq ▸ hnames, hf.task_eq ▸ ht⟩
  | reading unread items =>
    obtain ⟨hrep, t, ht, hsub, hread⟩ := h
    exact ⟨hr.trans hrep, t, hf.task_eq.trans ht, hsub,
      fun hfalse => (hread (hlate hfalse)).mono hl⟩
  | writing written rest =>
    obtain ⟨hrep, t, ht, hout⟩ := h
    exact ⟨hr.trans hrep, t, hf.task_eq.trans ht, hout ∘ hlate⟩
  | finished written =>
    simp only [Progress, hf.task_eq, hf.id_eq, hr] at h ⊢
    split at h
    · exact h
    · exact h ∘ hlate

/-- A map attempt has as many names as there are buckets, and no two of them are the same. -/
lemma Progress.perm_files {l : List Attempt} {items : List KeyValue} {files : List String}
    (h : Progress J l a (.mapping items files)) (hlen : files.length = J.nReduce) :
    files.Perm ((List.range J.nReduce).map (mapTempFile a.id)) := by
  obtain ⟨_, hnd, hnames, _⟩ := h
  have hsub : files ⊆ (List.range J.nReduce).map (mapTempFile a.id) := by
    intro file hf
    obtain ⟨i, hi, rfl⟩ := hnames file hf
    exact List.mem_map_of_mem (List.mem_range.mpr hi)
  refine (hnd.subperm hsub).perm_of_length_le ?_
  rw [List.length_map, List.length_range, hlen]

/-- A worker that is ready to report has the result of its task. -/
lemma Progress.ready {l l' : List Attempt} {files : List String} {a' : Attempt}
    (h : Progress J l a (S.work k)) (hn : S.coord.nReduce = J.nReduce) (hr : S.Ready k a files)
    (hid : a'.id = a.id) (ht : a'.task = a.task)
    (hlate : a'.monitor.late = false → a.monitor.late = false)
    (hrep : ∀ fs, a'.report = .accepted fs → fs = files) :
    Progress J l' a' (.finished (S.work k).lines) := by
  unfold System.Ready at hr
  split at hr
  · rename_i items fs hw
    obtain ⟨rfl, hlen⟩ := hr
    rw [hw] at h
    have hperm := h.perm_files (hlen.trans hn)
    obtain ⟨_, _, _, t, htask, _⟩ := h
    simp only [Progress, ht, htask]
    refine ⟨by rw [hw]; rfl, fun fs hfs => ?_⟩
    rw [hrep fs hfs, hid]
    exact hperm
  · rename_i written hw
    rw [hw] at h
    obtain ⟨_, t, htask, hout⟩ := h
    simp only [Progress, ht, htask, hw, Work.lines]
    rw [List.append_nil] at hout
    exact hout ∘ hlate
  · cases hr

/-! ### Steps of the coordinator -/

section Coordinator

variable {c : Coordinator} {act : Action}

lemma keeps_of_moves (hc : S.coord.Moves act c) : Keeps S.coord.attempts c.attempts := by
  intro a ha hb
  obtain ⟨j, hj⟩ := List.getElem?_of_mem ha
  have hlt : j < c.attempts.length :=
    (List.getElem?_eq_some_iff.mp hj).1.trans_le hc.length_le
  have hj' : c.attempts[j]? = some c.attempts[j] := List.getElem?_eq_getElem hlt
  refine ⟨c.attempts[j], List.getElem_mem hlt, ?_⟩
  rcases hc.follows hj' with ⟨b, hb', hf⟩ | ⟨-, rfl, -⟩
  · cases hj.symm.trans hb'
    refine ⟨⟨hf.task_eq ▸ hb.1, ?_⟩, hf.id_eq, hf.task_eq⟩
    rcases hf.report with hr | ⟨files, _, hr, _⟩
    · exact hr ▸ hb.2
    · have hacc := hb.2
      rw [hr] at hacc
      cases hacc
  · exact absurd (List.getElem?_eq_some_iff.mp hj).1 (lt_irrefl _)

/-- Reduce tasks come from `reduce`. -/
lemma planned_of_moves {C : Coordinator} (hc : C.Moves act c) {t : ReduceTask}
    (ht : .reduce t ∈ c.created ∨ t ∈ c.phase.todo) :
    (.reduce t ∈ C.created ∨ t ∈ C.phase.todo) ∨ act = .reduce ∧ t ∈ C.reduceTasks := by
  cases hc with
  | @wgDone k a val => cases val <;> exact .inl ht
  | reduce =>
    rcases ht with ht | ht
    · exact .inl (.inl ht)
    · exact .inr ⟨rfl, ht⟩
  | @queueTask j t' todo hp hj =>
    left
    rw [hp]
    rcases ht with ht | ht
    · rcases List.mem_append.mp ht with ht | ht
      · exact .inl ht
      · cases List.mem_singleton.mp ht
        exact .inr (List.mem_of_getElem? hj)
    · exact .inr (List.mem_of_mem_eraseIdx ht)
  | count hp =>
    left
    rw [hp]
    exact ht
  | monitorReduceEnd => exact .inl (ht.imp_right nofun)
  | removeTempFiles => exact .inl (ht.imp_right nofun)
  | remove => exact .inl (ht.imp_right nofun)
  | clear => exact .inl (ht.imp_right nofun)
  | finish => exact .inl (ht.imp_right nofun)
  | stopMapQueue => exact .inl (ht.imp_right nofun)
  | stopReduceQueue => exact .inl (ht.imp_right nofun)
  | stopMonitor => exact .inl (ht.imp_right nofun)
  | _ => exact .inl ht

/-- The end of the reduce phase is not taken back. -/
lemma not_reduced_of_moves {C : Coordinator} (hc : C.Moves act c) (h : c.phase.reduced = false) :
    C.phase.reduced = false := by
  cases hc with
  | @wgDone k a val => cases val <;> exact h
  | reduce hp => rw [hp]; rfl
  | queueTask hp => rw [hp]; rfl
  | count hp => rw [hp]; rfl
  | monitorReduceEnd hp => rw [hp]; rfl
  | removeTempFiles => cases h
  | remove => cases h
  | clear => cases h
  | finish => cases h
  | stopMapQueue => cases h
  | stopReduceQueue => cases h
  | stopMonitor => cases h
  | _ => exact h

/-- A bucket has keys of the job only. -/
lemma Sound.mem_bucket (h : Sound J S) (ha : a ∈ S.coord.attempts) (hm : a.task.type = .MAP)
    {i : ℕ} {key : String} (hkey : key ∈ (J.bucket a i).map Prod.fst) :
    key ∈ J.keys ∧ ihash key % J.nReduce = i := by
  have hmem : a.task ∈ mapTasks J.files := (h.inv.accounts.maps _ hm).mp (h.inv.issued a ha)
  obtain ⟨q, hq, htask⟩ := List.mem_map.mp hmem
  obtain ⟨p, hp, rfl⟩ := List.mem_map.mp hkey
  simp only [Job.bucket, ← htask, mapTempFilesProducer_eq] at hp
  obtain ⟨hitem, hi⟩ := List.mem_filter.mp hp
  refine ⟨List.mem_map_of_mem ?_, of_decide_eq_true hi⟩
  simp only [Job.mapItems, List.flatMap_singleton] at hitem
  exact List.mem_flatMap.mpr ⟨q.1, List.fst_mem_of_mem_zipIdx hq, hitem⟩

/-- The files of an accepted map attempt. -/
lemma Sound.perm_mapFiles (h : Sound J S) (hk : S.coord.attempts[k]? = some a) (hb : a.brought) :
    a.mapFiles.Perm ((List.range J.nReduce).map (mapTempFile a.id)) := by
  obtain ⟨hm, hacc⟩ := hb
  obtain ⟨files, hr⟩ := Report.exists_of_isAccepted hacc
  have hprog := h.progress k a hk
  cases htask : a.task with
  | reduce t =>
    rw [htask] at hm
    cases hm
  | map t =>
    simp only [Attempt.mapFiles, htask, hr]
    cases hw : S.work k <;> simp only [hw, Progress, hr, htask, reduceCtorEq, false_and] at hprog
    exact hprog.2 files rfl

lemma Attempt.brought_of_mem_mapFiles {file : String} (hf : file ∈ a.mapFiles) : a.brought := by
  unfold mapFiles at hf
  split at hf
  · rename_i ht hr
    exact ⟨by rw [ht]; rfl, by rw [hr]; rfl⟩
  · cases hf

/-- The tasks `reduce` makes have the files they need. -/
lemma Sound.supplied_reduce (h : Sound J S) (hp : S.coord.phase = .mapping)
    (hc : S.coord.Moves .reduce c) {t : ReduceTask} (ht : t ∈ S.coord.reduceTasks) :
    Supplied J S.coord.attempts t := by
  have hn : S.coord.nReduce = J.nReduce := h.inv.accounts.nReduce_eq
  obtain ⟨i, hi, rfl⟩ := List.mem_map.mp ht
  rw [List.mem_range, hn] at hi
  have hgath : S.coord.mapTempFiles.Perm (S.coord.attempts.flatMap Attempt.mapFiles) :=
    h.gathered (by rw [hp]; rfl)
  have hmem : ∀ file, file ∈ S.coord.mapTempFiles ↔
      ∃ a ∈ S.coord.attempts, a.brought ∧ ∃ j < J.nReduce, file = mapTempFile a.id j := by
    intro file
    rw [hgath.mem_iff, List.mem_flatMap]
    refine exists_congr fun a => and_congr_right fun ha => ?_
    obtain ⟨k, hk⟩ := List.getElem?_of_mem ha
    constructor
    · intro hf
      have hb := Attempt.brought_of_mem_mapFiles hf
      obtain ⟨j, hj, rfl⟩ := List.mem_map.mp ((h.perm_mapFiles hk hb).mem_iff.mp hf)
      exact ⟨hb, j, List.mem_range.mp hj, rfl⟩
    · rintro ⟨hb, j, hj, rfl⟩
      exact (h.perm_mapFiles hk hb).mem_iff.mpr (List.mem_map_of_mem (List.mem_range.mpr hj))
  have hgroup : groupIntermediateFiles S.coord.mapTempFiles i =
      S.coord.mapTempFiles.filter fun file => bucketOf file = i := by
    refine groupIntermediateFiles_eq (fun file hf => ?_) i
    obtain ⟨a, _, _, j, _, rfl⟩ := (hmem file).mp hf
    exact ⟨a.id, j, rfl⟩
  have hfile : ∀ file, file ∈ groupIntermediateFiles S.coord.mapTempFiles i ↔
      ∃ a ∈ S.coord.attempts, a.brought ∧ file = mapTempFile a.id i := by
    intro file
    rw [hgroup, List.mem_filter, hmem, decide_eq_true_eq]
    constructor
    · rintro ⟨⟨a, ha, hb, j, _, rfl⟩, hbucket⟩
      rw [bucketOf_mapTempFile] at hbucket
      exact ⟨a, ha, hb, hbucket ▸ rfl⟩
    · rintro ⟨a, ha, hb, rfl⟩
      exact ⟨⟨a, ha, hb, i, hi, rfl⟩, bucketOf_mapTempFile a.id i⟩
  refine ⟨hi, fun file hf => (hfile file).mp hf, nofun, fun key hkey hhash => .inr ?_⟩
  -- the map task of a file with this key has been completed
  obtain ⟨p, hp', rfl⟩ := List.mem_map.mp hkey
  obtain ⟨file, hfmem, hitem⟩ := List.mem_flatMap.mp hp'
  obtain ⟨no, hno⟩ := List.getElem?_of_mem hfmem
  have htask : Task.map ⟨no, [file]⟩ ∈ mapTasks J.files :=
    List.mem_map.mpr ⟨(file, no), List.mem_zipIdx_iff_getElem?.mpr hno, rfl⟩
  have hinv' := h.inv.moves hc
  have hatt : c.attempts = S.coord.attempts ∧ c.phase ≠ .mapping := by
    cases hc
    exact ⟨rfl, nofun⟩
  obtain ⟨k, a, hk, hm, hat⟩ := of_mem_completed (hinv'.completed_maps hatt.2 _ htask)
  have hw := hinv'.watched.watch k a hk
  simp only [Watch, hm] at hw
  have hb : a.brought := ⟨by rw [hat]; rfl, hw.1⟩
  have ha : a ∈ S.coord.attempts := hatt.1 ▸ List.mem_of_getElem? hk
  refine ⟨a, ha, hb, (hfile _).mpr ⟨a, ha, hb, rfl⟩, List.mem_map_of_mem ?_⟩
  simp only [Job.bucket, hat, mapTempFilesProducer_eq, Job.mapItems, List.flatMap_singleton]
  exact List.mem_filter.mpr ⟨hitem, decide_eq_true hhash⟩

lemma System.files_workAfter_subset (S : System) (act : Action) (k : ℕ) :
    (S.workAfter act k).files ⊆ (S.work k).files := by
  unfold workAfter
  split
  · rename_i j _
    rcases eq_or_ne k j with rfl | hne
    · rw [Function.update_self]
      exact List.nil_subset _
    · rw [Function.update_of_ne hne]
      exact List.Subset.refl _
  · exact List.Subset.refl _

lemma System.lines_workAfter (S : System) (act : Action) (k : ℕ) :
    (S.workAfter act k).lines = (S.work k).lines := by
  unfold workAfter
  split
  · rename_i j _
    rcases eq_or_ne k j with rfl | hne
    · rw [Function.update_self]
      rfl
    · rw [Function.update_of_ne hne]
  · rfl

lemma Sound.report_eq_none (h : Sound J S) (hk : S.coord.attempts[k]? = some a)
    {files : List String} (hr : S.Ready k a files) : a.report = .none := by
  have hprog := h.progress k a hk
  unfold System.Ready at hr
  split at hr
  · rename_i hw
    rw [hw] at hprog
    exact hprog.1
  · rename_i hw
    rw [hw] at hprog
    exact hprog.1
  · cases hr

/-- A map worker that is ready to report names files of its own attempt. -/
lemma Sound.ready_name (h : Sound J S) (hk : S.coord.attempts[k]? = some a) {files : List String}
    (hr : S.Ready k a files) (ht : a.task.type = .MAP) {file : String} (hf : file ∈ files) :
    ∃ i, file = mapTempFile a.id i := by
  have hprog := h.progress k a hk
  unfold System.Ready at hr
  split at hr
  · rename_i items fs hw
    rw [hw] at hprog
    obtain ⟨i, -, rfl⟩ := hprog.2.2.1 file (hr.1 ▸ hf)
    exact ⟨i, rfl⟩
  · rename_i written hw
    rw [hw] at hprog
    obtain ⟨_, t, htask, _⟩ := hprog
    rw [htask] at ht
    cases ht
  · cases hr

/-- Before the end only an ignored report removes files, and these are files of its attempt. -/
lemma Sound.removed_own (h : Sound J S) (hp : S.Permits act)
    (hreduced : S.coord.phase.reduced = false)
    {file : String} (hf : file ∈ S.removed act) :
    ∃ (k : ℕ) (a : Attempt) (files : List String) (i : ℕ), act = .taskDone k files ∧
      S.coord.attempts[k]? = some a ∧ S.coord.isTimeout a.id = true ∧
      file = mapTempFile a.id i := by
  unfold System.removed at hf
  split at hf
  · rename_i k files
    obtain ⟨a, ha, hr⟩ := hp
    rw [Option.mem_def.mp ha] at hf
    simp only at hf
    split_ifs at hf with ht
    · obtain ⟨i, rfl⟩ := h.ready_name ha hr ht.2 hf
      exact ⟨k, a, files, i, rfl, ha, ht.1, rfl⟩
    · cases hf
  · split at hf
    · rename_i hphase
      rw [hphase] at hreduced
      cases hreduced
    · cases hf
  · cases hf

lemma Sound.stored_moves (h : Sound J S) (hp : S.Permits act) (hc : S.coord.Moves act c)
    (hreduced : c.phase.reduced = false) {j i : ℕ} {a' : Attempt} (hj : c.attempts[j]? = some a')
    (hi : i < J.nReduce) (hb : a'.brought ∨ mapTempFile a'.id i ∈ (S.workAfter act j).files) :
    removeFiles S.disk (S.removed act) (mapTempFile a'.id i) = some (J.bucket a' i) := by
  have hreduced' := not_reduced_of_moves hc hreduced
  rcases hc.follows hj with ⟨a, ha, hf⟩ | ⟨rfl, rfl, hr, -⟩
  · have hbucket : J.bucket a' i = J.bucket a i := by
      unfold Job.bucket
      rw [hf.task_eq]
    rw [hbucket, hf.id_eq]
    rw [hf.id_eq] at hb
    have hkept : mapTempFile a.id i ∉ S.removed act := by
      intro hmem
      obtain ⟨k, b, files, i', rfl, hk, ht, heq⟩ := h.removed_own hp hreduced' hmem
      obtain rfl : j = k := by
        have := h.inv.watched.id_eq j a ha
        have := h.inv.watched.id_eq k b hk
        have := (mapTempFile_injective heq).1
        omega
      cases ha.symm.trans hk
      rcases hb with hb | hb
      · -- the report of this attempt is being ignored
        have hacc := hb.2
        rcases hf.report with hr | ⟨_, _, _, hr⟩
        · obtain ⟨b, hb', hready⟩ := hp
          cases ha.symm.trans hb'
          rw [hr, h.report_eq_none ha hready] at hacc
          cases hacc
        · rw [hr, if_pos ht] at hacc
          cases hacc
      · rw [System.workAfter, Function.update_self] at hb
        cases hb
    rw [removeFiles, if_neg hkept]
    refine h.stored hreduced' j a i ha hi ?_
    rcases hb with hb | hb
    · rcases hf.report with hr | ⟨files, rfl, _, _⟩
      · exact .inl ⟨hf.task_eq ▸ hb.1, hr ▸ hb.2⟩
      · -- the report of this attempt is being accepted, with all files written
        obtain ⟨b, hb', hready⟩ := hp
        cases ha.symm.trans hb'
        have hprog := h.progress j a ha
        have htype : a.task.type = .MAP := hf.task_eq ▸ hb.1
        unfold System.Ready at hready
        split at hready
        · rename_i items fs hw
          rw [hw] at hprog ⊢
          have hperm := hprog.perm_files (hready.2.trans h.inv.accounts.nReduce_eq)
          exact .inr (hperm.mem_iff.mpr (List.mem_map_of_mem (List.mem_range.mpr hi)))
        · rename_i written hw
          rw [hw] at hprog
          obtain ⟨_, t, htask, _⟩ := hprog
          rw [htask] at htype
          cases htype
        · cases hready
    · exact .inr (S.files_workAfter_subset act j hb)
  · -- a new attempt has neither reported nor written
    rcases hb with hb | hb
    · have hacc := hb.2
      rw [hr] at hacc
      cases hacc
    · have hnil := S.files_workAfter_subset _ _ hb
      rw [h.idle _ le_rfl] at hnil
      cases hnil

lemma Sound.progress_moves (h : Sound J S) (hp : S.Permits act) (hc : S.coord.Moves act c)
    {j : ℕ} {a' : Attempt} (hj : c.attempts[j]? = some a') :
    Progress J c.attempts a' (S.workAfter act j) := by
  have hkeeps := keeps_of_moves hc
  rcases hc.follows hj with ⟨a, ha, hf⟩ | ⟨rfl, rfl, hr, -⟩
  · have hprog := h.progress j a ha
    unfold System.workAfter
    split
    · rename_i k files
      rcases eq_or_ne j k with rfl | hne
      · obtain ⟨b, hb, hready⟩ := hp
        cases ha.symm.trans hb
        rw [Function.update_self]
        refine hprog.ready h.inv.accounts.nReduce_eq hready hf.id_eq hf.task_eq hf.not_late ?_
        intro fs hfs
        rcases hf.report with hr | ⟨files', heq, _, hr⟩
        · rw [hr, h.report_eq_none ha hready] at hfs
          cases hfs
        · cases heq
          rw [hr] at hfs
          split_ifs at hfs
          cases hfs
          rfl
      · rw [Function.update_of_ne hne]
        refine hprog.mono hf ?_ hkeeps
        rcases hf.report with hr | ⟨files', heq, _, _⟩
        · exact hr
        · cases heq
          exact absurd rfl hne
    · rename_i hnot
      refine hprog.mono hf ?_ hkeeps
      rcases hf.report with hr | ⟨files', heq, _, _⟩
      · exact hr
      · exact absurd heq (hnot j files')
  · have hidle : S.workAfter .getTask S.coord.attempts.length = .idle := h.idle _ le_rfl
    rw [hidle]
    exact hr

lemma Sound.coordinator (h : Sound J S) (hp : S.Permits act) (hc : S.coord.Moves act c) :
    Sound J { S with
      coord := c
      work := S.workAfter act
      disk := removeFiles S.disk (S.removed act) } where
  inv := h.inv.moves hc
  gathered := h.gathered.moves hc
  supplied t ht := by
    refine Supplied.mono ?_ (keeps_of_moves hc)
    rcases planned_of_moves hc ht with hold | ⟨rfl, hmem⟩
    · exact h.supplied t hold
    · have hphase : S.coord.phase = .mapping := by
        cases hc
        assumption
      exact h.supplied_reduce hphase hc hmem
  idle k hk := by
    have hidle := h.idle k (hc.length_le.trans hk)
    simp only [System.workAfter]
    split
    · rename_i j files
      obtain ⟨a, ha, _⟩ := hp
      have hlt := (List.getElem?_eq_some_iff.mp ha).1
      have hne : k ≠ j := by
        rintro rfl
        exact absurd (hc.length_le.trans hk) (not_le.mpr hlt)
      rw [Function.update_of_ne hne]
      exact hidle
    · exact hidle
  progress k a hk := h.progress_moves hp hc hk
  stored hreduced k a i hk hi hb := h.stored_moves hp hc hreduced hk hi hb

end Coordinator

/-! ### Steps of the workers -/

lemma Sound.setWork (h : Sound J S) (hk : S.coord.attempts[k]? = some a) {w : Work}
    (hw : Progress J S.coord.attempts a w) (hf : w.files ⊆ (S.work k).files) :
    Sound J (S.setWork k w) where
  inv := h.inv
  gathered := h.gathered
  supplied := h.supplied
  idle j hj := by
    have hne : j ≠ k := by
      rintro rfl
      exact absurd hj (not_le.mpr (List.getElem?_eq_some_iff.mp hk).1)
    exact (Function.update_of_ne hne _ _).trans (h.idle j hj)
  progress j b hj := by
    rcases eq_or_ne j k with rfl | hne
    · cases hk.symm.trans hj
      simp only [System.setWork, Function.update_self]
      exact hw
    · simp only [System.setWork, Function.update_of_ne hne]
      exact h.progress j b hj
  stored hreduced j b i hj hi hb := by
    refine h.stored hreduced j b i hj hi (hb.imp_right fun hmem => ?_)
    rcases eq_or_ne j k with rfl | hne
    · simp only [System.setWork, Function.update_self] at hmem
      exact hf hmem
    · simpa only [System.setWork, Function.update_of_ne hne] using hmem

lemma Sound.start (h : Sound J S) (hk : S.coord.attempts[k]? = some a) (hw : S.work k = .idle) :
    Sound J (S.setWork k (System.startWork J a.task)) := by
  have hprog := h.progress k a hk
  rw [hw] at hprog
  have hrep : a.report = .none := hprog
  cases ht : a.task with
  | map t =>
    refine h.setWork hk ⟨hrep, List.nodup_nil, nofun, t, ht, rfl⟩ (List.nil_subset _)
  | reduce t =>
    have hcreated : .reduce t ∈ S.coord.created := ht ▸ h.inv.issued a (List.mem_of_getElem? hk)
    refine h.setWork hk ⟨hrep, t, ht, List.Subset.refl _, fun _ => ?_⟩ (List.nil_subset _)
    exact (h.supplied t (.inl hcreated)).reading

lemma Sound.writeFile (h : Sound J S) {i : ℕ} {items : List KeyValue} {files : List String}
    (hk : S.coord.attempts[k]? = some a) (hw : S.work k = .mapping items files)
    (hi : i < S.coord.nReduce) (hnew : mapTempFile a.id i ∉ files) :
    Sound J
      { S.setWork k (.mapping items (files ++ [mapTempFile a.id i])) with
        disk := writeFile S.disk
          (mapTempFile a.id i, mapTempFilesProducer S.coord.nReduce items i) } := by
  have hn : S.coord.nReduce = J.nReduce := h.inv.accounts.nReduce_eq
  have hprog := h.progress k a hk
  rw [hw] at hprog
  obtain ⟨hrep, hnd, hnames, t, ht, hitems⟩ := hprog
  have hbucket : J.bucket a i = mapTempFilesProducer J.nReduce items i := by
    simp only [Job.bucket, ht, hitems]
  constructor
  case inv => exact h.inv
  case gathered => exact h.gathered
  case supplied => exact h.supplied
  case idle =>
    intro j hj
    have hne : j ≠ k := by
      rintro rfl
      exact absurd hj (not_le.mpr (List.getElem?_eq_some_iff.mp hk).1)
    exact (Function.update_of_ne hne _ _).trans (h.idle j hj)
  case progress =>
    intro j b hj
    rcases eq_or_ne j k with rfl | hne
    · cases hk.symm.trans hj
      simp only [System.setWork, Function.update_self]
      refine ⟨hrep, List.nodup_append.mpr ⟨hnd, List.nodup_singleton _, ?_⟩, ?_, t, ht, hitems⟩
      · rintro file hf _ hf' rfl
        exact hnew (List.mem_singleton.mp hf' ▸ hf)
      · intro file hf
        rcases List.mem_append.mp hf with hf | hf
        · exact hnames file hf
        · exact ⟨i, hn ▸ hi, List.mem_singleton.mp hf⟩
    · simp only [System.setWork, Function.update_of_ne hne]
      exact h.progress j b hj
  case stored =>
    intro hreduced j b i' hj hi' hb
    simp only [MapReduce.writeFile, Function.update_apply]
    split_ifs with heq
    · -- the file belongs to the attempt that writes it
      obtain ⟨hid, rfl⟩ := mapTempFile_injective heq
      obtain rfl : j = k := by
        have := h.inv.watched.id_eq j b hj
        have := h.inv.watched.id_eq k a hk
        omega
      cases hk.symm.trans hj
      rw [hbucket, hn]
    · refine h.stored hreduced j b i' hj hi' (hb.imp_right fun hmem => ?_)
      rcases eq_or_ne j k with rfl | hne
      · cases hk.symm.trans hj
        simp only [System.setWork, Function.update_self, Work.files] at hmem
        rw [hw]
        rcases List.mem_append.mp hmem with hmem | hmem
        · exact hmem
        · exact absurd (List.mem_singleton.mp hmem) heq
      · simpa only [System.setWork, Function.update_of_ne hne] using hmem

/-- As long as an attempt may still complete, the reduce phase is not over. -/
lemma Sound.not_over (h : Sound J S) (hk : S.coord.attempts[k]? = some a)
    (hr : a.report = .none) (hlate : a.monitor.late = false) : S.coord.phase.reduced = false := by
  by_contra hreduced
  have hopen := h.inv.accounts.opened_eq (by simpa using hreduced)
  have hwatch := h.inv.watched.watch k a hk
  have hmem : a.task ∈ S.coord.ledger.opened := by
    simp only [Coordinator.ledger, Multiset.mem_add, Multiset.mem_coe]
    unfold Watch at hwatch
    cases hm : a.monitor <;>
      simp only [hm, hr, Monitor.late, Report.isAccepted, false_and, and_false,
        Bool.false_eq_true, Bool.true_eq_false] at hwatch hlate
    · exact .inl (.inl (.inr (mem_heldAt hk (by rw [hm]; rfl))))
    · exact .inl (.inr (mem_heldAt hk (by rw [hm]; rfl)))
  rw [hopen] at hmem
  exact absurd hmem (Multiset.notMem_zero _)

lemma Sound.readFile (h : Sound J S) {file : String} {unread : List String}
    {items : List KeyValue} (hk : S.coord.attempts[k]? = some a)
    (hw : S.work k = .reading unread items) (hf : file ∈ unread) :
    Sound J (S.setWork k (.reading (unread.erase file) (items ++ readJson S.disk file))) := by
  have hprog := h.progress k a hk
  rw [hw] at hprog
  obtain ⟨hrep, t, ht, hsub, hread⟩ := hprog
  have hsup : Supplied J S.coord.attempts t :=
    h.supplied t (.inl (ht ▸ h.inv.issued a (List.mem_of_getElem? hk)))
  refine h.setWork hk ⟨hrep, t, ht, ?_, fun hlate => ?_⟩ (List.nil_subset _)
  · exact fun f hmem => hsub (List.mem_of_mem_erase hmem)
  · have hreduced := h.not_over hk hrep hlate
    -- every accepted attempt of that name has its bucket there
    have hdisk : ∀ b ∈ S.coord.attempts, b.brought → mapTempFile b.id t.ID = file →
        J.bucket b t.ID = readJson S.disk file := by
      rintro b hb hbr rfl
      obtain ⟨j, hj⟩ := List.getElem?_of_mem hb
      rw [readJson, h.stored hreduced j b t.ID hj hsup.lt (.inl hbr), Option.getD_some]
    refine (hread hlate).readFile ?_ hdisk
    obtain ⟨b, hb, hbr, hname⟩ := hsup.named file (hsub hf)
    rw [← hdisk b hb hbr hname.symm]
    exact fun key hkey => h.mem_bucket hb hbr.1 hkey

lemma Sound.moves (h : Sound J S) {act : JobAction} (hm : S.Moves J act S') : Sound J S' := by
  cases hm with
  | coordinator hp hc => exact h.coordinator hp hc
  | start hk _ hw => exact h.start hk hw
  | writeFile hk hw hi hf => exact h.writeFile hk hw hi hf
  | readFile hk hw hf => exact h.readFile hk hw hf
  | @sort k a items sorted hk hw hs =>
    have hprog := h.progress k a hk
    rw [hw] at hprog
    obtain ⟨hrep, t, ht, _, hread⟩ := hprog
    refine h.setWork hk ⟨hrep, t, ht, fun hlate => ?_⟩ (List.nil_subset _)
    exact (hread hlate).isOutput hs
  | @writeLine k a written rest kv hk hw =>
    have hprog := h.progress k a hk
    rw [hw] at hprog
    obtain ⟨hrep, t, ht, hout⟩ := hprog
    have hset : Sound J (S.setWork k (.writing (written ++ [kv]) rest)) := by
      refine h.setWork hk ⟨hrep, t, ht, fun hlate => ?_⟩ (List.nil_subset _)
      rw [List.append_assoc]
      exact hout hlate
    exact ⟨hset.inv, hset.gathered, hset.supplied, hset.idle, hset.progress, hset.stored⟩

lemma sound_init (J : Job) :
    Sound J { coord := Coordinator.MakeCoordinator J.files J.nReduce } := by
  have hinv := inv_make J.files J.nReduce
  have hatt : (Coordinator.MakeCoordinator J.files J.nReduce).attempts = [] := by
    rw [Coordinator.MakeCoordinator, Coordinator.mapFiles, mapFiles_eq]
  have hphase : (Coordinator.MakeCoordinator J.files J.nReduce).phase = .mapping := by
    rw [Coordinator.MakeCoordinator, Coordinator.mapFiles, mapFiles_eq]
  constructor
  case inv => exact hinv
  case gathered => exact gathered_make J.files J.nReduce
  case supplied =>
    rintro t (ht | ht)
    · cases hinv.accounts.mapping hphase _ ht
    · rw [hphase] at ht
      cases ht
  case idle => exact fun _ _ => rfl
  case progress =>
    intro k a hk
    rw [hatt] at hk
    cases hk
  case stored =>
    intro _ k a i hk
    rw [hatt] at hk
    cases hk

/-! ### Lines -/

/-- The output files have what their attempts have written, and there are no others. -/
structure Logged (S : System) : Prop where
  lines : ∀ k, S.linesOf (reduceOutFile (k + 1)) = (S.work k).lines
  owned : ∀ p ∈ S.out, ∃ k, p.1 = reduceOutFile (k + 1)

/-- An attempt that has timed out has written nothing. -/
def Spared (S : System) : Prop :=
  ∀ (k : ℕ) (a : Attempt), S.coord.attempts[k]? = some a → a.monitor.late = true →
    (S.work k).lines = []

/-- The condition on a step: the timer of an attempt is not taken when the attempt has written
output, and no output is written by an attempt whose timer has been taken. -/
def Undisturbed (S : System) : JobAction → Prop
  | .coordinator (.expire k) => (S.work k).lines = []
  | .coordinator (.recheck k) =>
    ∀ a ∈ S.coord.attempts[k]?, a.fired = true → (S.work k).lines = []
  | .writeLine k => ∀ a ∈ S.coord.attempts[k]?, a.monitor.late = false
  | _ => True

lemma toList_reduceOutFile (id : ℕ) :
    (reduceOutFile id).toList = "mr-out".toList ++ (Nat.toDigits 10 id ++ ".txt".toList) := by
  simp [reduceOutFile]
  rfl

lemma reduceOutFile_injective : Function.Injective reduceOutFile := by
  intro m n h
  have hlist := congrArg String.toList h
  rw [toList_reduceOutFile, toList_reduceOutFile, List.append_cancel_left_eq,
    List.append_cancel_right_eq] at hlist
  exact toDigits_injective hlist

lemma Logged.setWork (h : Logged S) {w : Work} (hw : w.lines = (S.work k).lines) :
    Logged (S.setWork k w) where
  lines j := by
    refine (h.lines j).trans ?_
    rcases eq_or_ne j k with rfl | hne
    · simp only [System.setWork, Function.update_self, hw]
    · simp only [System.setWork, Function.update_of_ne hne]
  owned := h.owned

lemma Logged.moves (h : Logged S) (hids : ∀ k a, S.coord.attempts[k]? = some a → a.id = k + 1)
    {act : JobAction} (hm : S.Moves J act S') : Logged S' := by
  cases hm with
  | coordinator => exact ⟨fun k => (h.lines k).trans (S.lines_workAfter _ k).symm, h.owned⟩
  | @start k a hk _ hw => exact h.setWork (by rw [hw]; cases a.task <;> rfl)
  | @writeFile k i a items files hk hw =>
    have hset := h.setWork (w := .mapping items (files ++ [mapTempFile a.id i])) (by rw [hw]; rfl)
    exact ⟨hset.lines, hset.owned⟩
  | readFile hk hw => exact h.setWork (by rw [hw]; rfl)
  | sort hk hw => exact h.setWork (by rw [hw]; rfl)
  | @writeLine k a written rest kv hk hw =>
    have hid := hids k a hk
    constructor
    · intro j
      have hold := h.lines j
      simp only [System.linesOf, System.setWork, List.filter_append, List.map_append,
        hid] at hold ⊢
      rcases eq_or_ne j k with rfl | hne
      · rw [Function.update_self, hold, hw]
        simp [Work.lines]
      · have hne' : reduceOutFile (k + 1) ≠ reduceOutFile (j + 1) := by
          intro heq
          have := reduceOutFile_injective heq
          omega
        rw [Function.update_of_ne hne, hold]
        simp [hne']
    · intro p hp
      rcases List.mem_append.mp hp with hp | hp
      · exact h.owned p hp
      · exact ⟨k, by rw [List.mem_singleton.mp hp, hid]⟩

lemma Spared.setWork (h : Spared S) {w : Work} (hw : w.lines = (S.work k).lines) :
    Spared (S.setWork k w) := by
  intro j a hj hlate
  refine Eq.trans ?_ (h j a hj hlate)
  rcases eq_or_ne j k with rfl | hne
  · simp only [System.setWork, Function.update_self, hw]
  · simp only [System.setWork, Function.update_of_ne hne]

lemma Spared.moves (h : Spared S) {act : JobAction} (hu : Undisturbed S act)
    (hm : S.Moves J act S') : Spared S' := by
  cases hm with
  | @coordinator act c hp hc =>
    intro j a' hj hlate
    refine (S.lines_workAfter act j).trans ?_
    rcases hc.follows hj with ⟨a, ha, hf⟩ | ⟨-, -, -, hnot, -⟩
    · rcases hf.late_of hlate with hlate | rfl | ⟨rfl, hfired⟩
      · exact h j a ha hlate
      · exact hu
      · exact hu a ha hfired
    · cases hnot.symm.trans hlate
  | @start k a hk _ hw => exact h.setWork (by rw [hw]; cases a.task <;> rfl)
  | @writeFile k i a items files hk hw =>
    exact h.setWork (w := .mapping items (files ++ [mapTempFile a.id i])) (by rw [hw]; rfl)
  | readFile hk hw => exact h.setWork (by rw [hw]; rfl)
  | sort hk hw => exact h.setWork (by rw [hw]; rfl)
  | @writeLine k a written rest kv hk hw =>
    intro j b hj hlate
    rcases eq_or_ne j k with rfl | hne
    · cases (hu b hj).symm.trans hlate
    · exact (congrArg Work.lines (Function.update_of_ne hne _ _)).trans (h j b hj hlate)

/-! ### The end of the job -/

lemma Inv.completer_unique {files : List String} {nReduce : ℕ} {C : Coordinator}
    (h : Inv files nReduce C) {j : ℕ} {b : Attempt} (hk : C.attempts[k]? = some a)
    (hj : C.attempts[j]? = some b) (hm : a.monitor = .completed) (hm' : b.monitor = .completed)
    (ht : b.task = a.task) : j = k := by
  by_contra hne
  have hleave := heldAt_leave (p := .completed) hk { a with monitor := .timedOut }
    (by rw [hm]; rfl) nofun
  have hmem : b.task ∈ heldAt .completed (C.attempts.set k { a with monitor := .timedOut }) := by
    refine mem_heldAt (k := j) ?_ (by rw [hm']; rfl)
    rwa [List.getElem?_set_ne (Ne.symm hne)]
  have hnd : (heldAt .completed C.attempts : Multiset Task).Nodup :=
    Multiset.coe_nodup.mpr h.nodup_completed
  rw [hleave, Multiset.nodup_cons] at hnd
  rw [ht] at hmem
  exact hnd.1 (Multiset.mem_coe.mpr hmem)

/-- A partition has one task, and a task is completed once. -/
lemma Inv.partition_completer_unique {files : List String} {nReduce : ℕ} {C : Coordinator}
    (h : Inv files nReduce C) {j : ℕ} {b : Attempt} {t t' : ReduceTask}
    (hk : C.attempts[k]? = some a) (hj : C.attempts[j]? = some b) (hm : a.monitor = .completed)
    (hm' : b.monitor = .completed) (ht : a.task = .reduce t) (ht' : b.task = .reduce t')
    (hid : t'.ID = t.ID) : j = k := by
  have hcreated : .reduce t ∈ C.created := ht ▸ h.issued a (List.mem_of_getElem? hk)
  have hcreated' : .reduce t' ∈ C.created := ht' ▸ h.issued b (List.mem_of_getElem? hj)
  have heq := h.accounts.ids t' t hcreated' hcreated hid
  exact h.completer_unique hk hj hm hm' (by rw [ht, ht', heq])

/-- At the end every attempt has completed its task or has timed out. -/
lemma Inv.completed_or_late {files : List String} {nReduce : ℕ} {C : Coordinator}
    (h : Inv files nReduce C) (hreduced : C.phase.reduced = true) (hk : C.attempts[k]? = some a) :
    a.monitor = .completed ∨ a.monitor.late = true := by
  have hopen := h.accounts.opened_eq hreduced
  have hwatch := h.watched.watch k a hk
  have hnot : a.task ∉ C.ledger.opened := by
    rw [hopen]
    exact Multiset.notMem_zero _
  simp only [Coordinator.ledger, Multiset.mem_add, Multiset.mem_coe, not_or] at hnot
  have hpop : a.monitor.place ≠ .dispatching := fun hp => hnot.1.1.2 (mem_heldAt hk hp)
  have hmon : a.monitor.place ≠ .monitored := fun hp => hnot.1.2 (mem_heldAt hk hp)
  unfold Watch at hwatch
  revert hpop hmon hwatch
  cases a.monitor <;> simp [Monitor.place, Monitor.late]

/-- An attempt that has completed its task has the output of its partition. -/
lemma Sound.output_of_completed (h : Sound J S) (hk : S.coord.attempts[k]? = some a)
    (hm : a.monitor = .completed) :
    ∃ w, S.work k = .finished w ∧
      match a.task with
      | .map _ => w = []
      | .reduce t => IsOutput J t.ID w := by
  have hwatch := h.inv.watched.watch k a hk
  simp only [Watch, hm] at hwatch
  obtain ⟨files, hr⟩ := Report.exists_of_isAccepted hwatch.1
  have hprog := h.progress k a hk
  cases hw : S.work k <;> simp only [hw, Progress, hr, reduceCtorEq, false_and] at hprog
  rename_i w
  refine ⟨w, rfl, ?_⟩
  cases ht : a.task with
  | map t =>
    simp only [ht] at hprog
    exact hprog.1
  | reduce t =>
    simp only [ht, hm] at hprog
    exact hprog rfl

/-- At the end every line is of an attempt that has completed the task of a partition. -/
lemma Sound.of_line (h : Sound J S) (hl : Logged S) (hs : Spared S)
    (hreduced : S.coord.phase.reduced = true) {p : String × KeyValue} (hp : p ∈ S.out) :
    ∃ (k : ℕ) (a : Attempt) (t : ReduceTask), S.coord.attempts[k]? = some a ∧
      a.monitor = .completed ∧ a.task = .reduce t ∧ p.1 = reduceOutFile (k + 1) ∧
      p.2.1 ∈ J.keys ∧ ihash p.2.1 % J.nReduce = t.ID := by
  obtain ⟨k, hname⟩ := hl.owned p hp
  have hmem : p.2 ∈ (S.work k).lines := by
    rw [← hl.lines k]
    exact List.mem_map_of_mem (List.mem_filter.mpr ⟨hp, decide_eq_true hname⟩)
  have hlt : k < S.coord.attempts.length := by
    by_contra hge
    rw [h.idle k (not_lt.mp hge)] at hmem
    cases hmem
  have hk : S.coord.attempts[k]? = some S.coord.attempts[k] := List.getElem?_eq_getElem hlt
  rcases h.inv.completed_or_late hreduced hk with hm | hlate
  · obtain ⟨w, hw, hout⟩ := h.output_of_completed hk hm
    rw [hw] at hmem
    cases ht : S.coord.attempts[k].task with
    | map t =>
      simp only [ht] at hout
      rw [hout] at hmem
      cases hmem
    | reduce t =>
      simp only [ht] at hout
      exact ⟨k, _, t, hk, hm, ht, hname, (hout.2 p.2.1).mp (List.mem_map_of_mem hmem)⟩
  · rw [hs k _ hk hlate] at hmem
    cases hmem

/-- If all lines with a key are in one file, they can be counted there. -/
lemma System.count_key {key file : String} (h : ∀ p ∈ S.out, p.2.1 = key → p.1 = file) :
    (S.out.map fun p => p.2.1).count key = ((S.linesOf file).map Prod.fst).count key := by
  simp only [linesOf, List.count, List.countP_map, List.countP_filter]
  refine List.countP_congr fun p hp => ?_
  simp only [Function.comp_apply, beq_iff_eq, Bool.and_eq_true, decide_eq_true_eq]
  exact ⟨fun hk => ⟨hk, h p hp hk⟩, And.left⟩

/-- At the end every partition has an attempt that has completed it, with its lines in its file. -/
lemma Sound.exists_completer (h : Sound J S) (hl : Logged S)
    (hreduced : S.coord.phase.reduced = true) {i : ℕ} (hi : i < J.nReduce) :
    ∃ (k : ℕ) (a : Attempt) (t : ReduceTask) (w : List KeyValue),
      S.coord.attempts[k]? = some a ∧ a.monitor = .completed ∧ a.task = .reduce t ∧ t.ID = i ∧
      S.work k = .finished w ∧ S.linesOf (reduceOutFile a.id) = w ∧ IsOutput J i w := by
  obtain ⟨t, hid, hcomp⟩ := h.inv.completed_reduces hreduced i hi
  obtain ⟨k, a, hk, hm, ht⟩ := of_mem_completed hcomp
  obtain ⟨w, hw, hout⟩ := h.output_of_completed hk hm
  simp only [ht] at hout
  refine ⟨k, a, t, w, hk, hm, ht, hid, hw, ?_, hid ▸ hout⟩
  rw [h.inv.watched.id_eq k a hk, hl.lines k, hw]
  rfl

/-- What holds in every state of a run in which no output is disturbed. -/
lemma sound_of_run {l : List System} (h : (job J).Run Undisturbed l) :
    ∀ S ∈ l, Sound J S ∧ Logged S ∧ Spared S := by
  refine h.invariant ?_ ?_
  · rintro S rfl
    exact ⟨sound_init J, ⟨fun _ => rfl, nofun⟩, fun _ _ _ _ => rfl⟩
  · intro s past act s' _ hu hs hnext
    have hm := System.moves_of_step hnext
    exact ⟨hs.1.moves hm, hs.2.1.moves hs.1.inv.watched.id_eq hm, hs.2.2.moves hu hm⟩

/-- Every partition is put out once: in every run in which no attempt that has written output times
out and none that has timed out writes output, from when the coordinator is done on, the output
files have for every partition the lines of one attempt and nothing of the others, so that every key
of the job is on exactly one line. -/
theorem partition_output_once (hn : 0 < J.nReduce) {past : List System}
    (h : (job J).Run Undisturbed (S :: past)) (hd : S.coord.done = true) :
    (∀ i < J.nReduce, ∃ (k : ℕ) (a : Attempt) (t : ReduceTask) (w : List KeyValue),
      S.coord.attempts[k]? = some a ∧ a.task = .reduce t ∧ t.ID = i ∧ S.work k = .finished w ∧
      S.linesOf (reduceOutFile a.id) = w ∧ IsOutput J i w ∧
      ∀ (j : ℕ) (b : Attempt) (t' : ReduceTask), S.coord.attempts[j]? = some b →
        b.task = .reduce t' → t'.ID = i → j ≠ k → S.linesOf (reduceOutFile b.id) = []) ∧
      (∀ key ∈ J.keys, (S.out.map fun p => p.2.1).count key = 1) ∧
      ∀ p ∈ S.out, p.2.1 ∈ J.keys := by
  obtain ⟨hsound, hlog, hspared⟩ := sound_of_run h S List.mem_cons_self
  have hinv := hsound.inv
  have hreduced := hinv.accounts.reduced_of_done hd
  refine ⟨?_, ?_, ?_⟩
  · intro i hi
    obtain ⟨k, a, t, w, hk, hm, ht, hid, hw, hlines, hout⟩ :=
      hsound.exists_completer hlog hreduced hi
    refine ⟨k, a, t, w, hk, ht, hid, hw, hlines, hout, ?_⟩
    intro j b t' hj ht' hid' hne
    rw [hinv.watched.id_eq j b hj, hlog.lines j]
    rcases hinv.completed_or_late hreduced hj with hm' | hlate
    · have heq := hinv.partition_completer_unique hk hj hm hm' ht ht' (hid'.trans hid.symm)
      exact absurd heq hne
    · exact hspared j b hj hlate
  · intro key hkey
    obtain ⟨k, a, t, w, hk, hm, ht, hid, hw, hlines, hout⟩ :=
      hsound.exists_completer hlog hreduced (Nat.mod_lt (ihash key) hn)
    have hfile : ∀ p ∈ S.out, p.2.1 = key → p.1 = reduceOutFile a.id := by
      rintro p hp rfl
      obtain ⟨j, b, t', hj, hm', ht', hname, _, hhash⟩ := hsound.of_line hlog hspared hreduced hp
      obtain rfl := hinv.partition_completer_unique hk hj hm hm' ht ht'
        (hhash.symm.trans hid.symm)
      rw [hname, hinv.watched.id_eq j a hk]
    rw [System.count_key hfile, hlines]
    exact List.count_eq_one_of_mem hout.1 ((hout.2 key).mpr ⟨hkey, rfl⟩)
  · intro p hp
    obtain ⟨_, _, _, _, _, _, _, hkey, _⟩ := hsound.of_line hlog hspared hreduced hp
    exact hkey

/-- A check of `Undisturbed`. -/
def undisturbed (S : System) : JobAction → Bool
  | .coordinator (.expire k) => (S.work k).lines = []
  | .coordinator (.recheck k) => S.coord.attempts[k]?.all fun a => !a.fired || (S.work k).lines = []
  | .writeLine k => S.coord.attempts[k]?.all fun a => !a.monitor.late
  | _ => true

lemma undisturbed_sound (S : System) (act : JobAction) (h : undisturbed S act = true) :
    Undisturbed S act := by
  unfold undisturbed at h
  split at h
  · rename_i k
    exact of_decide_eq_true (p := (S.work k).lines = []) h
  · intro a ha hf
    simpa [Option.mem_def.mp ha, hf] using h
  · intro a ha
    simpa [Option.mem_def.mp ha] using h
  · rename_i hexpire hrecheck hwrite
    unfold Undisturbed
    split
    · exact absurd rfl (hexpire _)
    · exact absurd rfl (hrecheck _)
    · exact absurd rfl (hwrite _)
    · trivial

/-- One input file, with one word, and one partition. -/
def oneWordJob : Job where
  files := ["pg.txt"]
  contents _ := "word"
  mapf _ contents := [(contents, "1")]
  reducef _ values := toString values.length
  nReduce := 1

/-- The map phase of `oneWordJob`, up to the first request for its reduce task. -/
def oneWordMap : List JobAction :=
  [.coordinator .getTask, .coordinator (.monitorTask 0), .start 0, .writeFile 0 0,
    .coordinator (.taskDone 0 ["mr-1-0.json"]), .coordinator .rendezvous,
    .coordinator (.recheck 0), .coordinator (.release 0), .coordinator (.wgDone 0),
    .coordinator .reduce, .coordinator (.queueTask 0), .coordinator .count,
    .coordinator .monitorReduceEnd]

/-- Attempt `k` of the reduce task of `oneWordJob`, up to its output. -/
def oneWordReduce (k : ℕ) : List JobAction :=
  [.coordinator .getTask, .coordinator (.monitorTask k), .start k, .readFile k "mr-1-0.json",
    .sort k [("word", "1")]]

/-- The timer of attempt `k` is taken, and its task goes back to the queue. -/
def oneWordTimeout (k : ℕ) : List JobAction :=
  [.coordinator (.fire k), .coordinator (.expire k), .coordinator (.timeOut k),
    .coordinator (.handOver k), .coordinator (.addTimeoutTask .REDUCE)]

/-- Attempt `k` reports, and the job ends. -/
def oneWordEnd (k : ℕ) (file : String) : List JobAction :=
  [.coordinator (.taskDone k [file]), .coordinator .rendezvous, .coordinator (.recheck k),
    .coordinator (.release k), .coordinator (.wgDone k), .coordinator .removeTempFiles,
    .coordinator (.remove 0), .coordinator .clear, .coordinator .finish]

/-- The first reduce attempt times out before it writes. -/
theorem partition_output_once_timeout :
    ∃ S past, (job oneWordJob).Run Undisturbed (S :: past) ∧ S.coord.done = true ∧
      S.coord.attempts.length = 3 ∧ (S.out.map fun p => p.2.1).count "word" = 1 := by
  obtain ⟨S, past, hr, hd, hlen⟩ : ∃ S past, (job oneWordJob).Run Undisturbed (S :: past) ∧
      (S.coord.done = true ∧ S.coord.attempts.length = 3) :=
    Machine.exists_run_of_trace undisturbed undisturbed_sound
      (oneWordMap ++ oneWordReduce 1 ++ oneWordTimeout 1 ++ oneWordReduce 2 ++ [.writeLine 2] ++
        oneWordEnd 2 "mr-out3.txt") (by decide +kernel)
  exact ⟨S, past, hr, hd, hlen,
    (partition_output_once Nat.one_pos hr hd).2.1 "word" List.mem_cons_self⟩

/-- The first reduce attempt times out after it has written its line: the word is put out twice. -/
theorem key_on_two_output_lines :
    ∃ S, (job oneWordJob).Reachable S ∧ S.coord.done = true ∧
      S.out = [("mr-out2.txt", "word", "1"), ("mr-out3.txt", "word", "1")] := by
  obtain ⟨S, past, hr, hS⟩ : ∃ S past, (job oneWordJob).Run Machine.Any (S :: past) ∧
      (S.coord.done = true ∧
        S.out = [("mr-out2.txt", "word", "1"), ("mr-out3.txt", "word", "1")]) :=
    Machine.exists_run_of_trace (fun _ _ => true) (fun _ _ _ => trivial)
      (oneWordMap ++ oneWordReduce 1 ++ [.writeLine 1] ++ oneWordTimeout 1 ++ oneWordReduce 2 ++
        [.writeLine 2] ++ oneWordEnd 2 "mr-out3.txt") (by decide +kernel)
  exact ⟨S, ⟨past, hr⟩, hS⟩

end Output

end MapReduce

end DistLabs
