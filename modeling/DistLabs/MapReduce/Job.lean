import DistLabs.MapReduce.Rendezvous
import DistLabs.MapReduce.Worker

/-!
# A MapReduce job

The coordinator together with the workers and the files they share. A worker that has been handed a
task works in steps: one step writes one intermediate file, reads one, or writes one line of output.
It may be slow and it may crash, which is to take no further step, at any point.

The output of a reduce attempt goes to the file of its `TaskID` line by line, before the attempt is
reported, and stays there whatever becomes of the attempt. Files are opened for appending; at the
start of a job there are none.
-/

namespace DistLabs

namespace MapReduce

/-! ### Workers and files -/

/-- The input files with their contents, the two functions of the application and the number of
partitions. -/
structure Job where
  files : List String
  contents : String → String
  mapf : MapFunc
  reducef : ReduceFunc
  nReduce : ℕ

/-- `_map` of the worker. -/
def Job.mapItems (J : Job) (files : List String) : List KeyValue :=
  files.flatMap fun file => J.mapf file (J.contents file)

/-- What the worker of an attempt is at. -/
inductive Work where
  /-- the reply of `DispatchTask` has not arrived -/
  | idle
  /-- in `processMapIntermediate`: the files that `fileC` has delivered -/
  | mapping (items : List KeyValue) (files : List String)
  /-- in `reduce`: the files not yet read, and the items of the others -/
  | reading (unread : List String) (items : List KeyValue)
  /-- in `saveReduceResult`: the lines written, and the lines still to write -/
  | writing (written rest : List KeyValue)
  /-- has reported; the lines written -/
  | finished (written : List KeyValue)
  deriving DecidableEq

/-- The lines that an attempt has written. -/
def Work.lines : Work → List KeyValue
  | .writing written _ => written
  | .finished written => written
  | _ => []

/-- `work` goes by the number of the attempt, `disk` has the intermediate files, and `out` the lines
of the output files in the order they were written, each with the name of its file. -/
structure System where
  coord : Coordinator
  work : ℕ → Work := fun _ => .idle
  disk : String → Option (List KeyValue) := fun _ => none
  out : List (String × KeyValue) := []

inductive JobAction where
  | coordinator (act : Action)
  /-- the worker receives the reply of `DispatchTask` -/
  | start (k : ℕ)
  /-- the worker writes the file of bucket `i` -/
  | writeFile (k i : ℕ)
  /-- `readJson` of a file -/
  | readFile (k : ℕ) (file : String)
  /-- all files are read, and `sort.Sort` makes `sorted` of the items -/
  | sort (k : ℕ) (sorted : List KeyValue)
  | writeLine (k : ℕ)

def removeFiles (disk : String → Option (List KeyValue)) (files : List String) :
    String → Option (List KeyValue) :=
  fun file => if file ∈ files then none else disk file

namespace System

variable (J : Job)

/-- The work on a task when the reply arrives. -/
def startWork : Task → Work
  | .map t => .mapping (J.mapItems t.Files) []
  | .reduce t => .reading t.Files []

variable {J}

/-- The worker of attempt `k` is ready to report `files`. -/
def Ready (S : System) (k : ℕ) (a : Attempt) (files : List String) : Prop :=
  match S.work k with
  | .mapping _ fs => files = fs ∧ fs.length = S.coord.nReduce
  | .writing _ [] => files = [reduceOutFile a.id]
  | _ => False

instance (S : System) (k : ℕ) (a : Attempt) (files : List String) :
    Decidable (S.Ready k a files) := by
  unfold Ready
  split <;> infer_instance

/-- A report comes from a worker that is ready. -/
def Permits (S : System) : Action → Prop
  | .taskDone k files => ∃ a ∈ S.coord.attempts[k]?, S.Ready k a files
  | _ => True

instance (S : System) (act : Action) : Decidable (S.Permits act) :=
  match act with
  | .taskDone k files =>
    match h : S.coord.attempts[k]? with
    | some a => decidable_of_iff (S.Ready k a files) (by simp [Permits, h])
    | none => isFalse (by simp [Permits, h])
  | .getTask | .monitorTask _ | .fire _ | .expire _ | .timeOut _ | .handOver _ | .addTimeoutTask _
  | .rendezvous | .recheck _ | .release _ | .wgDone _ | .reduce | .queueTask _ | .count
  | .monitorReduceEnd | .removeTempFiles | .remove _ | .clear | .finish | .stopQueue _
  | .stopMonitor _ => isTrue trivial

/-- The files a step of the coordinator removes. -/
def removed (S : System) : Action → List String
  | .taskDone k files =>
    match S.coord.attempts[k]? with
    | some a => if S.coord.isTimeout a.id ∧ a.task.type = .MAP then files else []
    | none => []
  | .remove j =>
    match S.coord.phase with
    | .removing rest => rest[j]?.toList
    | _ => []
  | _ => []

/-- A worker that has reported is done with its task. -/
def workAfter (S : System) : Action → ℕ → Work
  | .taskDone k _ => Function.update S.work k (.finished (S.work k).lines)
  | _ => S.work

def coordinatorStep (S : System) (act : Action) : Option System :=
  if S.Permits act then
    (S.coord.step act).map fun c =>
      { S with coord := c, work := S.workAfter act, disk := removeFiles S.disk (S.removed act) }
  else none

/-- A step of the worker of attempt `k`. -/
def workerStep (S : System) (k : ℕ) (f : Attempt → Work → Option System) : Option System :=
  match S.coord.attempts[k]? with
  | some a => if a.monitor ≠ .popped then f a (S.work k) else none
  | none => none

def setWork (S : System) (k : ℕ) (w : Work) : System :=
  { S with work := Function.update S.work k w }

variable (J)

def start (S : System) (k : ℕ) : Option System :=
  S.workerStep k fun a w =>
    match w with
    | .idle => some (S.setWork k (startWork J a.task))
    | _ => none

variable {J}

def writeFile (S : System) (k i : ℕ) : Option System :=
  S.workerStep k fun a w =>
    match w with
    | .mapping items files =>
      if i < S.coord.nReduce ∧ mapTempFile a.id i ∉ files then
        some
          { S.setWork k (.mapping items (files ++ [mapTempFile a.id i])) with
            disk := MapReduce.writeFile S.disk
              (mapTempFile a.id i, mapTempFilesProducer S.coord.nReduce items i) }
      else none
    | _ => none

def readFile (S : System) (k : ℕ) (file : String) : Option System :=
  S.workerStep k fun _ w =>
    match w with
    | .reading unread items =>
      if file ∈ unread then
        some (S.setWork k (.reading (unread.erase file) (items ++ readJson S.disk file)))
      else none
    | _ => none

variable (J)

def sort (S : System) (k : ℕ) (sorted : List KeyValue) : Option System :=
  S.workerStep k fun _ w =>
    match w with
    | .reading [] items =>
      if Sorts items sorted then some (S.setWork k (.writing [] (partition sorted J.reducef)))
      else none
    | _ => none

variable {J}

def writeLine (S : System) (k : ℕ) : Option System :=
  S.workerStep k fun a w =>
    match w with
    | .writing written (kv :: rest) =>
      some
        { S.setWork k (.writing (written ++ [kv]) rest) with
          out := S.out ++ [(reduceOutFile a.id, kv)] }
    | _ => none

variable (J)

def step (S : System) : JobAction → Option System
  | .coordinator act => S.coordinatorStep act
  | .start k => S.start J k
  | .writeFile k i => S.writeFile k i
  | .readFile k file => S.readFile k file
  | .sort k sorted => S.sort J k sorted
  | .writeLine k => S.writeLine k

/-- What a step can do. -/
inductive Moves (S : System) : JobAction → System → Prop
  | coordinator {act : Action} {c : Coordinator} (hp : S.Permits act) (hc : S.coord.Moves act c) :
      Moves S (.coordinator act)
        { S with coord := c, work := S.workAfter act, disk := removeFiles S.disk (S.removed act) }
  | start {k : ℕ} {a : Attempt} (hk : S.coord.attempts[k]? = some a) (hm : a.monitor ≠ .popped)
      (hw : S.work k = .idle) : Moves S (.start k) (S.setWork k (startWork J a.task))
  | writeFile {k i : ℕ} {a : Attempt} {items : List KeyValue} {files : List String}
      (hk : S.coord.attempts[k]? = some a) (hw : S.work k = .mapping items files)
      (hi : i < S.coord.nReduce) (hf : mapTempFile a.id i ∉ files) :
      Moves S (.writeFile k i)
        { S.setWork k (.mapping items (files ++ [mapTempFile a.id i])) with
          disk := MapReduce.writeFile S.disk
            (mapTempFile a.id i, mapTempFilesProducer S.coord.nReduce items i) }
  | readFile {k : ℕ} {a : Attempt} {file : String} {unread : List String} {items : List KeyValue}
      (hk : S.coord.attempts[k]? = some a) (hw : S.work k = .reading unread items)
      (hf : file ∈ unread) :
      Moves S (.readFile k file)
        (S.setWork k (.reading (unread.erase file) (items ++ readJson S.disk file)))
  | sort {k : ℕ} {a : Attempt} {items sorted : List KeyValue}
      (hk : S.coord.attempts[k]? = some a) (hw : S.work k = .reading [] items)
      (hs : Sorts items sorted) :
      Moves S (.sort k sorted) (S.setWork k (.writing [] (partition sorted J.reducef)))
  | writeLine {k : ℕ} {a : Attempt} {written rest : List KeyValue} {kv : KeyValue}
      (hk : S.coord.attempts[k]? = some a) (hw : S.work k = .writing written (kv :: rest)) :
      Moves S (.writeLine k)
        { S.setWork k (.writing (written ++ [kv]) rest) with
          out := S.out ++ [(reduceOutFile a.id, kv)] }

variable {J}

lemma of_workerStep {S S' : System} {k : ℕ} {f : Attempt → Work → Option System}
    (h : S.workerStep k f = some S') :
    ∃ a, S.coord.attempts[k]? = some a ∧ a.monitor ≠ .popped ∧ f a (S.work k) = some S' := by
  unfold workerStep at h
  split at h
  · split_ifs at h with hm
    exact ⟨_, ‹_›, hm, h⟩
  · cases h

lemma moves_of_step {S S' : System} {act : JobAction} (h : S.step J act = some S') :
    S.Moves J act S' := by
  cases act with
  | coordinator act =>
    simp only [step, coordinatorStep] at h
    split_ifs at h with hp
    obtain ⟨c, hc, rfl⟩ := Option.map_eq_some_iff.mp h
    exact .coordinator hp (Coordinator.moves_of_step hc)
  | start k =>
    simp only [step, System.start] at h
    obtain ⟨a, hk, hm, h⟩ := of_workerStep h
    split at h <;> cases h
    exact .start hk hm ‹_›
  | writeFile k i =>
    simp only [step, System.writeFile] at h
    obtain ⟨a, hk, hm, h⟩ := of_workerStep h
    split at h
    · split_ifs at h with hi
      cases h
      exact .writeFile hk ‹_› hi.1 hi.2
    · cases h
  | readFile k file =>
    simp only [step, System.readFile] at h
    obtain ⟨a, hk, hm, h⟩ := of_workerStep h
    split at h
    · split_ifs at h with hf
      cases h
      exact .readFile hk ‹_› hf
    · cases h
  | sort k sorted =>
    simp only [step, System.sort] at h
    obtain ⟨a, hk, hm, h⟩ := of_workerStep h
    split at h
    · split_ifs at h with hs
      cases h
      exact .sort hk ‹_› hs
    · cases h
  | writeLine k =>
    simp only [step, System.writeLine] at h
    obtain ⟨a, hk, hm, h⟩ := of_workerStep h
    split at h <;> cases h
    exact .writeLine hk ‹_›

end System

/-- The job under any pace and any crashes of its workers. -/
def job (J : Job) : Machine System JobAction :=
  .ofStep { coord := Coordinator.MakeCoordinator J.files J.nReduce } (System.step J)

end MapReduce

end DistLabs
