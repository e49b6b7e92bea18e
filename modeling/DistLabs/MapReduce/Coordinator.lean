import DistLabs.Lib.Machine
import Mathlib.Data.Int.Notation
import Mathlib.Data.Nat.Notation
import Mathlib.Logic.Function.Basic

/-!
# The MapReduce coordinator

The coordinator of `mr` with its goroutines. Everything that runs under the coordinator's lock
without waiting is one step. Two places wait with the lock held, and there the holder of the lock is
part of the state: a completion handler at `doneC[TaskID] <- val`, and `timeOut` at
`qTimeoutC <- task`.

An attempt is what one `DispatchTask` has handed out: a task under a fresh `TaskID`, with the
goroutine that monitors it. Attempts, like goroutines, are told apart by the order in which they
came; `TaskID` is data, and the maps `doneC` and `isTimeout` are keyed by it.
-/

namespace DistLabs

namespace MapReduce

/-! ### Tasks -/

inductive TaskType where
  | MAP
  | REDUCE
  deriving DecidableEq

/-- `no` is not a field of the source: the position of the file among the inputs, which tells apart
the tasks of a file that is given twice. -/
structure MapTask where
  no : ℕ
  Files : List String
  deriving DecidableEq

structure ReduceTask where
  ID : ℕ
  Files : List String
  deriving DecidableEq

inductive Task where
  | map (t : MapTask)
  | reduce (t : ReduceTask)
  deriving DecidableEq

def Task.type : Task → TaskType
  | .map _ => .MAP
  | .reduce _ => .REDUCE

/-- `adding` is the task that `addTimeoutTask` has received from `timeoutC` and not yet added;
`listening` tells that this goroutine has not been stopped. -/
structure TaskQueue (T : Type) where
  tasks : List T := []
  adding : Option T := none
  listening : Bool := true
  deriving DecidableEq

namespace TaskQueue

variable {T : Type}

def getTask (q : TaskQueue T) : Option (T × TaskQueue T) :=
  match q.tasks with
  | [] => none
  | task :: tasks => some (task, { q with tasks := tasks })

def addTask (q : TaskQueue T) (task : T) : TaskQueue T := { q with tasks := task :: q.tasks }

/-- `addTimeoutTask` receives from `timeoutC`. -/
def receive (q : TaskQueue T) (task : T) : Option (TaskQueue T) :=
  if q.listening ∧ q.adding.isNone then some { q with adding := some task } else none

/-- `addTimeoutTask` adds what it has received. -/
def addTimeoutTask (q : TaskQueue T) : Option (TaskQueue T) :=
  match q.adding with
  | none => none
  | some task => some { q.addTask task with adding := none }

/-- `addTimeoutTask` receives from `stopC`. -/
def stop (q : TaskQueue T) : Option (TaskQueue T) :=
  if q.listening ∧ q.adding.isNone then some { q with listening := false } else none

lemma tasks_of_getTask {q q' : TaskQueue T} {task : T} (h : q.getTask = some (task, q')) :
    q.tasks = task :: q'.tasks ∧ q'.adding = q.adding := by
  unfold getTask at h
  split at h <;> cases h
  exact ⟨‹_›, rfl⟩

lemma of_receive {q q' : TaskQueue T} {task : T} (h : q.receive task = some q') :
    q.adding = none ∧ q' = { q with adding := some task } := by
  unfold receive at h
  split at h <;> cases h
  rename_i hq
  exact ⟨Option.isNone_iff_eq_none.mp hq.2, rfl⟩

lemma of_stop {q q' : TaskQueue T} (h : q.stop = some q') : q' = { q with listening := false } := by
  unfold stop at h
  split at h <;> cases h
  rfl

lemma of_addTimeoutTask {q q' : TaskQueue T} (h : q.addTimeoutTask = some q') :
    ∃ task, q.adding = some task ∧ q' = { q.addTask task with adding := none } := by
  unfold addTimeoutTask at h
  split at h <;> cases h
  exact ⟨_, ‹_›, rfl⟩

end TaskQueue

/-! ### Goroutines -/

/-- Where the goroutine of an attempt stands. -/
inductive Monitor where
  /-- `DispatchTask` has popped the task, `monitorTask` does not run yet -/
  | popped
  /-- at the outer `select` -/
  | waiting
  /-- in `timeOut`, in front of the lock -/
  | expired
  /-- in `timeOut`, at the send on `timeoutC`, with the lock held -/
  | sending
  /-- ended after `timeOut` -/
  | timedOut
  /-- has received from `doneC`, in front of the inner `select` -/
  | received (val : TaskType)
  /-- in the `default` branch, in front of the lock -/
  | releasing (val : TaskType)
  /-- in front of `Done` of the `WaitGroup` -/
  | released (val : TaskType)
  /-- ended after `Done` of the `WaitGroup` -/
  | completed
  /-- ended by `StopC` -/
  | stopped
  deriving DecidableEq

/-- The report of an attempt, with `args.Files`. -/
inductive Report where
  | none
  | accepted (files : List String)
  | ignored (files : List String)
  deriving DecidableEq

/-- `fired` tells that the timer of `monitorTask` has fired. -/
structure Attempt where
  id : ℕ
  task : Task
  monitor : Monitor := .popped
  fired : Bool := false
  report : Report := .none
  deriving DecidableEq

/-- Who waits with the coordinator's lock held, by the number of the attempt. -/
inductive Holder where
  | handler (k : ℕ)
  | timeOut (k : ℕ)
  deriving DecidableEq

/-- Where `monitorMapEnd`, and after it `monitorReduceEnd` and `main`, stand. -/
inductive Phase where
  /-- `monitorMapEnd` waits for `mapWG` -/
  | mapping
  /-- in `reduce`: the tasks still to come, and whether the last one queued has been counted -/
  | queueing (todo : List ReduceTask) (counted : Bool)
  /-- `monitorReduceEnd` waits for `reduceWG` -/
  | reducing
  /-- in `removeTempFiles`: the files not yet removed -/
  | removing (rest : List String)
  /-- in front of `end` -/
  | ending
  /-- `main` sends on `StopC` -/
  | ended
  | exited
  deriving DecidableEq

/-- The fields of the source, and with them the state of the goroutines. A channel in `doneC` is
given by the attempt whose monitor receives from it. `panicked` tells that a `WaitGroup` has gone
below zero, which ends the process. `created` records the tasks that have been added to a queue. -/
structure Coordinator where
  nReduce : ℕ
  currentID : ℕ := 0
  mapQueue : TaskQueue MapTask := {}
  reduceQueue : TaskQueue ReduceTask := {}
  mapWG : ℤ := 0
  reduceWG : ℤ := 0
  mapTempFiles : List String := []
  reduceTempFiles : List String := []
  doneC : ℕ → Option ℕ := fun _ => none
  isTimeout : ℕ → Bool := fun _ => false
  done : Bool := false
  lock : Option Holder := none
  attempts : List Attempt := []
  phase : Phase := .mapping
  panicked : Bool := false
  created : List Task := []

/-! ### Grouping the intermediate files -/

/-- `FindStringSubmatch` of `^mr-\d+-(\d+)\.json$`. -/
def findSubmatch (file : String) : Option String :=
  match file.toList with
  | 'm' :: 'r' :: '-' :: rest =>
    match rest.span Char.isDigit with
    | (_ :: _, '-' :: rest) =>
      match rest.span Char.isDigit with
      | (d :: ds, ['.', 'j', 's', 'o', 'n']) => some (String.ofList (d :: ds))
      | _ => none
    | _ => none
  | _ => none

/-- `strconv.Atoi`, whose result for a text without digits is zero. It gives the largest `int` for
a number above it, which is left out here: the workers name their files by numbers below `nReduce`,
itself an `int`. -/
def atoi (s : String) : ℕ := Nat.ofDigitChars 10 s.toList 0

/-- One round of the loop of `groupIntermediateFiles`, on `groupedFiles` and `secondNumber`. -/
def groupFile (acc : (ℕ → List String) × String) (file : String) : (ℕ → List String) × String :=
  let secondNumber := (findSubmatch file).getD acc.2
  let n := atoi secondNumber
  (Function.update acc.1 n (acc.1 n ++ [file]), secondNumber)

def groupIntermediateFiles (files : List String) : ℕ → List String :=
  (files.foldl groupFile (fun _ => [], "")).1

/-! ### Steps -/

inductive Action where
  /-- `DispatchTask` calls `getTask` -/
  | getTask
  /-- `DispatchTask` calls `monitorMapTask` or `monitorReduceTask` and replies -/
  | monitorTask (k : ℕ)
  /-- the timer fires -/
  | fire (k : ℕ)
  /-- the outer `select` takes the timer -/
  | expire (k : ℕ)
  /-- `timeOut` gets the lock -/
  | timeOut (k : ℕ)
  /-- `addTimeoutTask` receives from `timeOut` -/
  | handOver (k : ℕ)
  /-- `addTimeoutTask` adds the task -/
  | addTimeoutTask (type : TaskType)
  /-- `MapTaskDone` or `ReduceTaskDone` gets the lock -/
  | taskDone (k : ℕ) (files : List String)
  /-- the handler's send on `doneC` is received -/
  | rendezvous
  /-- the inner `select` -/
  | recheck (k : ℕ)
  /-- `releaseDoneTask` under the lock -/
  | release (k : ℕ)
  /-- `mapWG.Done` or `reduceWG.Done` -/
  | wgDone (k : ℕ)
  /-- `mapWG.Wait` has returned, `reduce` groups the files -/
  | reduce
  /-- `reduce` queues the `j`-th of the tasks still to come -/
  | queueTask (j : ℕ)
  /-- `reduceWG.Add(1)` -/
  | count
  /-- `reduce` returns, `monitorReduceEnd` starts -/
  | monitorReduceEnd
  /-- `reduceWG.Wait` has returned, `removeTempFiles` starts -/
  | removeTempFiles
  /-- `os.Remove` of the `j`-th of the files not yet removed -/
  | remove (j : ℕ)
  /-- `removeTempFiles` forgets the files -/
  | clear
  /-- `end` -/
  | finish
  /-- `addTimeoutTask` of a queue receives from `StopC` -/
  | stopQueue (type : TaskType)
  /-- a monitor receives from `StopC` -/
  | stopMonitor (k : ℕ)
  deriving DecidableEq

namespace Coordinator

def addMapTask (S : Coordinator) (task : MapTask) : Coordinator :=
  { S with
    mapQueue := S.mapQueue.addTask task
    mapWG := S.mapWG + 1
    created := S.created ++ [.map task] }

/-- `_map`. -/
def mapFiles (S : Coordinator) (files : List String) : Coordinator :=
  files.zipIdx.foldl (fun S p => S.addMapTask ⟨p.2, [p.1]⟩) S

/-- The coordinator as `MakeCoordinator` returns it. -/
def MakeCoordinator (files : List String) (nReduce : ℕ) : Coordinator :=
  mapFiles { nReduce := nReduce } files

def assignTask (S : Coordinator) (task : Task) : Coordinator :=
  { S with
    currentID := S.currentID + 1
    attempts := S.attempts ++ [{ id := S.currentID + 1, task := task }] }

/-- Nothing changes when both queues are empty: the reply is `SLEEP`. -/
def getTask (S : Coordinator) : Option Coordinator :=
  if S.lock = none then
    match S.mapQueue.getTask with
    | some (t, q) => some ({ S with mapQueue := q }.assignTask (.map t))
    | none =>
      match S.reduceQueue.getTask with
      | some (t, q) => some ({ S with reduceQueue := q }.assignTask (.reduce t))
      | none => some S
  else none

def setAttempt (S : Coordinator) (k : ℕ) (a : Attempt) : Coordinator :=
  { S with attempts := S.attempts.set k a }

/-- A step of the `k`-th attempt that is possible if the attempt has property `p`. -/
def ofAttempt (S : Coordinator) (k : ℕ) (p : Attempt → Prop) [DecidablePred p]
    (f : Attempt → Coordinator) : Option Coordinator :=
  match S.attempts[k]? with
  | some a => if p a then some (f a) else none
  | none => none

def monitorTask (S : Coordinator) (k : ℕ) : Option Coordinator :=
  S.ofAttempt k (fun a => S.lock = none ∧ a.monitor = .popped) fun a =>
    { S with doneC := Function.update S.doneC a.id (some k) }.setAttempt k
      { a with monitor := .waiting }

def fire (S : Coordinator) (k : ℕ) : Option Coordinator :=
  S.ofAttempt k (fun a => a.monitor ≠ .popped) fun a => S.setAttempt k { a with fired := true }

def expire (S : Coordinator) (k : ℕ) : Option Coordinator :=
  S.ofAttempt k (fun a => a.monitor = .waiting ∧ a.fired = true) fun a =>
    S.setAttempt k { a with monitor := .expired }

/-- The locked part of `timeOut` up to the send. -/
def timeOut (S : Coordinator) (k : ℕ) : Option Coordinator :=
  S.ofAttempt k (fun a => S.lock = none ∧ a.monitor = .expired) fun a =>
    { S with
      isTimeout := Function.update S.isTimeout a.id true
      lock := some (.timeOut k) }.setAttempt k { a with monitor := .sending }

/-- `qTimeoutC <- task`, after which `timeOut` gives the lock back. -/
def handOver (S : Coordinator) (k : ℕ) : Option Coordinator :=
  match S.attempts[k]? with
  | some a =>
    if a.monitor = .sending then
      match a.task with
      | .map t => (S.mapQueue.receive t).map fun q =>
        { S with mapQueue := q, lock := none }.setAttempt k { a with monitor := .timedOut }
      | .reduce t => (S.reduceQueue.receive t).map fun q =>
        { S with reduceQueue := q, lock := none }.setAttempt k { a with monitor := .timedOut }
    else none
  | none => none

def addTimeoutTask (S : Coordinator) : TaskType → Option Coordinator
  | .MAP => S.mapQueue.addTimeoutTask.map fun q => { S with mapQueue := q }
  | .REDUCE => S.reduceQueue.addTimeoutTask.map fun q => { S with reduceQueue := q }

/-- The branch of a timed-out task in `MapTaskDone` and `ReduceTaskDone`. -/
def ignoreReport (S : Coordinator) (k : ℕ) (a : Attempt) (files : List String) : Coordinator :=
  { S with
    isTimeout := Function.update S.isTimeout a.id false
    doneC := Function.update S.doneC a.id none }.setAttempt k { a with report := .ignored files }

/-- `MapTaskDone` and `ReduceTaskDone` up to the send, when the task has not timed out. -/
def acceptReport (S : Coordinator) (k : ℕ) (a : Attempt) (files : List String) : Coordinator :=
  { S with
    mapTempFiles := S.mapTempFiles ++ (match a.task with | .map _ => files | .reduce _ => [])
    reduceTempFiles :=
      S.reduceTempFiles ++ (match a.task with | .map _ => [] | .reduce _ => files)
    lock := some (.handler k) }.setAttempt k { a with report := .accepted files }

/-- `MapTaskDone` and `ReduceTaskDone`: every `TaskID` is reported at most once, by the worker it
has been handed to. -/
def taskDone (S : Coordinator) (k : ℕ) (files : List String) : Option Coordinator :=
  S.ofAttempt k (fun a => S.lock = none ∧ a.monitor ≠ .popped ∧ a.report = .none) fun a =>
    if S.isTimeout a.id then S.ignoreReport k a files else S.acceptReport k a files

/-- The handler's send meets the monitor that receives from `doneC[TaskID]`, and the handler gives
the lock back. -/
def rendezvous (S : Coordinator) : Option Coordinator :=
  match S.lock with
  | some (.handler k) =>
    match S.attempts[k]? with
    | some a =>
      match S.doneC a.id with
      | some j => S.ofAttempt j (fun b => b.monitor = .waiting) fun b =>
        { S with lock := none }.setAttempt j { b with monitor := .received a.task.type }
      | none => none
    | none => none
  | _ => none

def recheck (S : Coordinator) (k : ℕ) : Option Coordinator :=
  match S.attempts[k]? with
  | some a =>
    match a.monitor with
    | .received val =>
      some (S.setAttempt k { a with monitor := if a.fired then .expired else .releasing val })
    | _ => none
  | none => none

def release (S : Coordinator) (k : ℕ) : Option Coordinator :=
  match S.attempts[k]? with
  | some a =>
    match a.monitor with
    | .releasing val =>
      if S.lock = none then
        some ({ S with doneC := Function.update S.doneC a.id none }.setAttempt k
          { a with monitor := .released val })
      else none
    | _ => none
  | none => none

/-- `mapWG.Done` and `reduceWG.Done`, which panic below zero. -/
def waitGroupDone (S : Coordinator) : TaskType → Coordinator
  | .MAP => { S with mapWG := S.mapWG - 1, panicked := decide (S.mapWG - 1 < 0) }
  | .REDUCE => { S with reduceWG := S.reduceWG - 1, panicked := decide (S.reduceWG - 1 < 0) }

def wgDone (S : Coordinator) (k : ℕ) : Option Coordinator :=
  match S.attempts[k]? with
  | some a =>
    match a.monitor with
    | .released val => some ((S.waitGroupDone val).setAttempt k { a with monitor := .completed })
    | _ => none
  | none => none

/-- The tasks `generateReduceTask` makes. -/
def reduceTasks (S : Coordinator) : List ReduceTask :=
  (List.range S.nReduce).map fun i => ⟨i, groupIntermediateFiles S.mapTempFiles i⟩

def reduce (S : Coordinator) : Option Coordinator :=
  if S.phase = .mapping ∧ S.mapWG = 0 then some { S with phase := .queueing S.reduceTasks true }
  else none

/-- The first half of `addReduceTask`. -/
def queueTask (S : Coordinator) (j : ℕ) : Option Coordinator :=
  match S.phase with
  | .queueing todo true =>
    match todo[j]? with
    | some t => some
      { S with
        reduceQueue := S.reduceQueue.addTask t
        created := S.created ++ [.reduce t]
        phase := .queueing (todo.eraseIdx j) false }
    | none => none
  | _ => none

/-- The second half of `addReduceTask`. -/
def count (S : Coordinator) : Option Coordinator :=
  match S.phase with
  | .queueing todo false =>
    some { S with reduceWG := S.reduceWG + 1, phase := .queueing todo true }
  | _ => none

def monitorReduceEnd (S : Coordinator) : Option Coordinator :=
  if S.phase = .queueing [] true then some { S with phase := .reducing } else none

def removeTempFiles (S : Coordinator) : Option Coordinator :=
  if S.phase = .reducing ∧ S.reduceWG = 0 then
    some { S with phase := .removing S.mapTempFiles }
  else none

def remove (S : Coordinator) (j : ℕ) : Option Coordinator :=
  match S.phase with
  | .removing rest =>
    if j < rest.length then some { S with phase := .removing (rest.eraseIdx j) } else none
  | _ => none

def clear (S : Coordinator) : Option Coordinator :=
  if S.phase = .removing [] then
    some { S with mapTempFiles := [], reduceTempFiles := [], phase := .ending }
  else none

/-- `end`. -/
def finish (S : Coordinator) : Option Coordinator :=
  if S.phase = .ending ∧ S.lock = none then some { S with done := true, phase := .ended } else none

def stopQueue (S : Coordinator) : TaskType → Option Coordinator
  | .MAP =>
    if S.phase = .ended then
      S.mapQueue.stop.map fun q => { S with mapQueue := q, phase := .exited }
    else none
  | .REDUCE =>
    if S.phase = .ended then
      S.reduceQueue.stop.map fun q => { S with reduceQueue := q, phase := .exited }
    else none

def stopMonitor (S : Coordinator) (k : ℕ) : Option Coordinator :=
  S.ofAttempt k (fun a => S.phase = .ended ∧ a.monitor = .waiting) fun a =>
    { S with phase := .exited }.setAttempt k { a with monitor := .stopped }

def act (S : Coordinator) : Action → Option Coordinator
  | .getTask => S.getTask
  | .monitorTask k => S.monitorTask k
  | .fire k => S.fire k
  | .expire k => S.expire k
  | .timeOut k => S.timeOut k
  | .handOver k => S.handOver k
  | .addTimeoutTask type => S.addTimeoutTask type
  | .taskDone k files => S.taskDone k files
  | .rendezvous => S.rendezvous
  | .recheck k => S.recheck k
  | .release k => S.release k
  | .wgDone k => S.wgDone k
  | .reduce => S.reduce
  | .queueTask j => S.queueTask j
  | .count => S.count
  | .monitorReduceEnd => S.monitorReduceEnd
  | .removeTempFiles => S.removeTempFiles
  | .remove j => S.remove j
  | .clear => S.clear
  | .finish => S.finish
  | .stopQueue type => S.stopQueue type
  | .stopMonitor k => S.stopMonitor k

def step (S : Coordinator) (a : Action) : Option Coordinator :=
  if S.panicked then none else S.act a

/-- What a step can do. -/
inductive Moves (S : Coordinator) : Action → Coordinator → Prop
  | getMapTask {t : MapTask} {q : TaskQueue MapTask} (hl : S.lock = none)
      (hq : S.mapQueue.getTask = some (t, q)) :
      Moves S .getTask ({ S with mapQueue := q }.assignTask (.map t))
  | getReduceTask {t : ReduceTask} {q : TaskQueue ReduceTask} (hl : S.lock = none)
      (hq : S.reduceQueue.getTask = some (t, q)) :
      Moves S .getTask ({ S with reduceQueue := q }.assignTask (.reduce t))
  | sleep : Moves S .getTask S
  | monitorTask {k : ℕ} {a : Attempt} (hk : S.attempts[k]? = some a) (hl : S.lock = none)
      (hm : a.monitor = .popped) :
      Moves S (.monitorTask k)
        ({ S with doneC := Function.update S.doneC a.id (some k) }.setAttempt k
          { a with monitor := .waiting })
  | fire {k : ℕ} {a : Attempt} (hk : S.attempts[k]? = some a) (hm : a.monitor ≠ .popped) :
      Moves S (.fire k) (S.setAttempt k { a with fired := true })
  | expire {k : ℕ} {a : Attempt} (hk : S.attempts[k]? = some a) (hm : a.monitor = .waiting)
      (hf : a.fired = true) :
      Moves S (.expire k) (S.setAttempt k { a with monitor := .expired })
  | timeOut {k : ℕ} {a : Attempt} (hk : S.attempts[k]? = some a) (hl : S.lock = none)
      (hm : a.monitor = .expired) :
      Moves S (.timeOut k)
        ({ S with
          isTimeout := Function.update S.isTimeout a.id true
          lock := some (.timeOut k) }.setAttempt k { a with monitor := .sending })
  | handOverMap {k : ℕ} {a : Attempt} {t : MapTask} {q : TaskQueue MapTask}
      (hk : S.attempts[k]? = some a) (hm : a.monitor = .sending) (ht : a.task = .map t)
      (hq : S.mapQueue.receive t = some q) :
      Moves S (.handOver k)
        ({ S with mapQueue := q, lock := none }.setAttempt k { a with monitor := .timedOut })
  | handOverReduce {k : ℕ} {a : Attempt} {t : ReduceTask} {q : TaskQueue ReduceTask}
      (hk : S.attempts[k]? = some a) (hm : a.monitor = .sending) (ht : a.task = .reduce t)
      (hq : S.reduceQueue.receive t = some q) :
      Moves S (.handOver k)
        ({ S with reduceQueue := q, lock := none }.setAttempt k { a with monitor := .timedOut })
  | addMap {q : TaskQueue MapTask} (hq : S.mapQueue.addTimeoutTask = some q) :
      Moves S (.addTimeoutTask .MAP) { S with mapQueue := q }
  | addReduce {q : TaskQueue ReduceTask} (hq : S.reduceQueue.addTimeoutTask = some q) :
      Moves S (.addTimeoutTask .REDUCE) { S with reduceQueue := q }
  | ignore {k : ℕ} {a : Attempt} {files : List String} (hk : S.attempts[k]? = some a)
      (hl : S.lock = none) (hm : a.monitor ≠ .popped) (hr : a.report = .none)
      (ht : S.isTimeout a.id = true) :
      Moves S (.taskDone k files) (S.ignoreReport k a files)
  | accept {k : ℕ} {a : Attempt} {files : List String} (hk : S.attempts[k]? = some a)
      (hl : S.lock = none) (hm : a.monitor ≠ .popped) (hr : a.report = .none)
      (ht : S.isTimeout a.id = false) :
      Moves S (.taskDone k files) (S.acceptReport k a files)
  | rendezvous {k j : ℕ} {a b : Attempt} (hl : S.lock = some (.handler k))
      (hk : S.attempts[k]? = some a) (hd : S.doneC a.id = some j) (hj : S.attempts[j]? = some b)
      (hm : b.monitor = .waiting) :
      Moves S .rendezvous
        ({ S with lock := none }.setAttempt j { b with monitor := .received a.task.type })
  | recheckFired {k : ℕ} {a : Attempt} {val : TaskType} (hk : S.attempts[k]? = some a)
      (hm : a.monitor = .received val) (hf : a.fired = true) :
      Moves S (.recheck k) (S.setAttempt k { a with monitor := .expired })
  | recheckDone {k : ℕ} {a : Attempt} {val : TaskType} (hk : S.attempts[k]? = some a)
      (hm : a.monitor = .received val) (hf : a.fired = false) :
      Moves S (.recheck k) (S.setAttempt k { a with monitor := .releasing val })
  | release {k : ℕ} {a : Attempt} {val : TaskType} (hk : S.attempts[k]? = some a)
      (hl : S.lock = none) (hm : a.monitor = .releasing val) :
      Moves S (.release k)
        ({ S with doneC := Function.update S.doneC a.id none }.setAttempt k
          { a with monitor := .released val })
  | wgDone {k : ℕ} {a : Attempt} {val : TaskType} (hk : S.attempts[k]? = some a)
      (hm : a.monitor = .released val) :
      Moves S (.wgDone k) ((S.waitGroupDone val).setAttempt k { a with monitor := .completed })
  | reduce (hp : S.phase = .mapping) (hw : S.mapWG = 0) :
      Moves S .reduce { S with phase := .queueing S.reduceTasks true }
  | queueTask {j : ℕ} {t : ReduceTask} {todo : List ReduceTask}
      (hp : S.phase = .queueing todo true) (hj : todo[j]? = some t) :
      Moves S (.queueTask j)
        { S with
          reduceQueue := S.reduceQueue.addTask t
          created := S.created ++ [.reduce t]
          phase := .queueing (todo.eraseIdx j) false }
  | count {todo : List ReduceTask} (hp : S.phase = .queueing todo false) :
      Moves S .count { S with reduceWG := S.reduceWG + 1, phase := .queueing todo true }
  | monitorReduceEnd (hp : S.phase = .queueing [] true) :
      Moves S .monitorReduceEnd { S with phase := .reducing }
  | removeTempFiles (hp : S.phase = .reducing) (hw : S.reduceWG = 0) :
      Moves S .removeTempFiles { S with phase := .removing S.mapTempFiles }
  | remove {j : ℕ} {rest : List String} (hp : S.phase = .removing rest) (hj : j < rest.length) :
      Moves S (.remove j) { S with phase := .removing (rest.eraseIdx j) }
  | clear (hp : S.phase = .removing []) :
      Moves S .clear { S with mapTempFiles := [], reduceTempFiles := [], phase := .ending }
  | finish (hp : S.phase = .ending) (hl : S.lock = none) :
      Moves S .finish { S with done := true, phase := .ended }
  | stopMapQueue {q : TaskQueue MapTask} (hp : S.phase = .ended) (hq : S.mapQueue.stop = some q) :
      Moves S (.stopQueue .MAP) { S with mapQueue := q, phase := .exited }
  | stopReduceQueue {q : TaskQueue ReduceTask} (hp : S.phase = .ended)
      (hq : S.reduceQueue.stop = some q) :
      Moves S (.stopQueue .REDUCE) { S with reduceQueue := q, phase := .exited }
  | stopMonitor {k : ℕ} {a : Attempt} (hk : S.attempts[k]? = some a) (hp : S.phase = .ended)
      (hm : a.monitor = .waiting) :
      Moves S (.stopMonitor k)
        ({ S with phase := .exited }.setAttempt k { a with monitor := .stopped })

variable {S S' : Coordinator}

lemma of_ofAttempt {k : ℕ} {p : Attempt → Prop} [DecidablePred p] {f : Attempt → Coordinator}
    (h : S.ofAttempt k p f = some S') : ∃ a, S.attempts[k]? = some a ∧ p a ∧ S' = f a := by
  unfold ofAttempt at h
  split at h
  · split_ifs at h with hp
    cases h
    exact ⟨_, ‹_›, hp, rfl⟩
  · cases h

lemma moves_of_getTask (h : S.getTask = some S') : S.Moves .getTask S' := by
  simp only [getTask] at h
  split_ifs at h with hl
  split at h
  · cases h
    exact .getMapTask hl ‹_›
  · split at h <;> cases h
    · exact .getReduceTask hl ‹_›
    · exact .sleep

lemma moves_of_monitorTask {k : ℕ} (h : S.monitorTask k = some S') :
    S.Moves (.monitorTask k) S' := by
  obtain ⟨a, hk, ⟨hl, hm⟩, rfl⟩ := of_ofAttempt h
  exact .monitorTask hk hl hm

lemma moves_of_fire {k : ℕ} (h : S.fire k = some S') : S.Moves (.fire k) S' := by
  obtain ⟨a, hk, hm, rfl⟩ := of_ofAttempt h
  exact .fire hk hm

lemma moves_of_expire {k : ℕ} (h : S.expire k = some S') : S.Moves (.expire k) S' := by
  obtain ⟨a, hk, ⟨hm, hf⟩, rfl⟩ := of_ofAttempt h
  exact .expire hk hm hf

lemma moves_of_timeOut {k : ℕ} (h : S.timeOut k = some S') : S.Moves (.timeOut k) S' := by
  obtain ⟨a, hk, ⟨hl, hm⟩, rfl⟩ := of_ofAttempt h
  exact .timeOut hk hl hm

lemma moves_of_handOver {k : ℕ} (h : S.handOver k = some S') : S.Moves (.handOver k) S' := by
  simp only [handOver] at h
  split at h
  · split_ifs at h with hm
    split at h
    · obtain ⟨q, hq, rfl⟩ := Option.map_eq_some_iff.mp h
      exact .handOverMap ‹_› hm ‹_› hq
    · obtain ⟨q, hq, rfl⟩ := Option.map_eq_some_iff.mp h
      exact .handOverReduce ‹_› hm ‹_› hq
  · cases h

lemma moves_of_addTimeoutTask {type : TaskType} (h : S.addTimeoutTask type = some S') :
    S.Moves (.addTimeoutTask type) S' := by
  cases type with
  | MAP =>
    obtain ⟨q, hq, rfl⟩ := Option.map_eq_some_iff.mp h
    exact .addMap hq
  | REDUCE =>
    obtain ⟨q, hq, rfl⟩ := Option.map_eq_some_iff.mp h
    exact .addReduce hq

lemma moves_of_taskDone {k : ℕ} {files : List String} (h : S.taskDone k files = some S') :
    S.Moves (.taskDone k files) S' := by
  obtain ⟨a, hk, ⟨hl, hm, hr⟩, rfl⟩ := of_ofAttempt h
  split_ifs with ht
  · exact .ignore hk hl hm hr ht
  · exact .accept hk hl hm hr (Bool.not_eq_true _ ▸ ht)

lemma moves_of_rendezvous (h : S.rendezvous = some S') : S.Moves .rendezvous S' := by
  simp only [rendezvous] at h
  split at h
  · split at h
    · split at h
      · obtain ⟨b, hj, hm, rfl⟩ := of_ofAttempt h
        exact .rendezvous ‹_› ‹_› ‹_› hj hm
      · cases h
    · cases h
  · cases h

lemma moves_of_recheck {k : ℕ} (h : S.recheck k = some S') : S.Moves (.recheck k) S' := by
  simp only [recheck] at h
  split at h
  · split at h <;> cases h
    split_ifs with hf
    · exact .recheckFired ‹_› ‹_› hf
    · exact .recheckDone ‹_› ‹_› (Bool.not_eq_true _ ▸ hf)
  · cases h

lemma moves_of_release {k : ℕ} (h : S.release k = some S') : S.Moves (.release k) S' := by
  simp only [release] at h
  split at h
  · split at h
    · split_ifs at h with hl
      cases h
      exact .release ‹_› hl ‹_›
    · cases h
  · cases h

lemma moves_of_wgDone {k : ℕ} (h : S.wgDone k = some S') : S.Moves (.wgDone k) S' := by
  simp only [wgDone] at h
  split at h
  · split at h <;> cases h
    exact .wgDone ‹_› ‹_›
  · cases h

lemma moves_of_reduce (h : S.reduce = some S') : S.Moves .reduce S' := by
  simp only [reduce] at h
  split_ifs at h with hp
  cases h
  exact .reduce hp.1 hp.2

lemma moves_of_queueTask {j : ℕ} (h : S.queueTask j = some S') : S.Moves (.queueTask j) S' := by
  simp only [queueTask] at h
  split at h
  · split at h <;> cases h
    exact .queueTask ‹_› ‹_›
  · cases h

lemma moves_of_count (h : S.count = some S') : S.Moves .count S' := by
  simp only [count] at h
  split at h <;> cases h
  exact .count ‹_›

lemma moves_of_monitorReduceEnd (h : S.monitorReduceEnd = some S') :
    S.Moves .monitorReduceEnd S' := by
  simp only [monitorReduceEnd] at h
  split_ifs at h with hp
  cases h
  exact .monitorReduceEnd hp

lemma moves_of_removeTempFiles (h : S.removeTempFiles = some S') :
    S.Moves .removeTempFiles S' := by
  simp only [removeTempFiles] at h
  split_ifs at h with hp
  cases h
  exact .removeTempFiles hp.1 hp.2

lemma moves_of_remove {j : ℕ} (h : S.remove j = some S') : S.Moves (.remove j) S' := by
  simp only [remove] at h
  split at h
  · split_ifs at h with hj
    cases h
    exact .remove ‹_› hj
  · cases h

lemma moves_of_clear (h : S.clear = some S') : S.Moves .clear S' := by
  simp only [clear] at h
  split_ifs at h with hp
  cases h
  exact .clear hp

lemma moves_of_finish (h : S.finish = some S') : S.Moves .finish S' := by
  simp only [finish] at h
  split_ifs at h with hp
  cases h
  exact .finish hp.1 hp.2

lemma moves_of_stopQueue {type : TaskType} (h : S.stopQueue type = some S') :
    S.Moves (.stopQueue type) S' := by
  cases type with
  | MAP =>
    simp only [stopQueue] at h
    split_ifs at h with hp
    obtain ⟨q, hq, rfl⟩ := Option.map_eq_some_iff.mp h
    exact .stopMapQueue hp hq
  | REDUCE =>
    simp only [stopQueue] at h
    split_ifs at h with hp
    obtain ⟨q, hq, rfl⟩ := Option.map_eq_some_iff.mp h
    exact .stopReduceQueue hp hq

lemma moves_of_stopMonitor {k : ℕ} (h : S.stopMonitor k = some S') :
    S.Moves (.stopMonitor k) S' := by
  obtain ⟨a, hk, ⟨hp, hm⟩, rfl⟩ := of_ofAttempt h
  exact .stopMonitor hk hp hm

lemma moves_of_act {a : Action} (h : S.act a = some S') : S.Moves a S' := by
  cases a with
  | getTask => exact moves_of_getTask h
  | monitorTask k => exact moves_of_monitorTask h
  | fire k => exact moves_of_fire h
  | expire k => exact moves_of_expire h
  | timeOut k => exact moves_of_timeOut h
  | handOver k => exact moves_of_handOver h
  | addTimeoutTask type => exact moves_of_addTimeoutTask h
  | taskDone k files => exact moves_of_taskDone h
  | rendezvous => exact moves_of_rendezvous h
  | recheck k => exact moves_of_recheck h
  | release k => exact moves_of_release h
  | wgDone k => exact moves_of_wgDone h
  | reduce => exact moves_of_reduce h
  | queueTask j => exact moves_of_queueTask h
  | count => exact moves_of_count h
  | monitorReduceEnd => exact moves_of_monitorReduceEnd h
  | removeTempFiles => exact moves_of_removeTempFiles h
  | remove j => exact moves_of_remove h
  | clear => exact moves_of_clear h
  | finish => exact moves_of_finish h
  | stopQueue type => exact moves_of_stopQueue h
  | stopMonitor k => exact moves_of_stopMonitor h

lemma moves_of_step {a : Action} (h : S.step a = some S') : S.Moves a S' := by
  unfold step at h
  split_ifs at h
  exact moves_of_act h

end Coordinator

/-- The coordinator of a job under any calls of its workers. -/
def coordinator (files : List String) (nReduce : ℕ) : Machine Coordinator Action :=
  .ofStep (Coordinator.MakeCoordinator files nReduce) Coordinator.step

end MapReduce

end DistLabs
