import DistLabs.Lib.Slice
import Mathlib.Algebra.GroupWithZero.Nat

/-!
# The state of a Raft peer

The data types of `raft/raft.go` and `raft/persister.go`, with `persist`, `readPersist` and
`Make`. Terms, indices and peer numbers are natural numbers; `votedFor` is `none` where the
source has `-1`. A command is any value, `none` standing for `nil`.

What `labgob` writes is kept as the list of the values encoded, in order: encoding appends a
value and decoding takes the next one off, failing when it has another type.
-/

namespace DistLabs

/-- What is fixed for a cluster: the number of peers and the growth policy of `append`. -/
structure Config where
  peers : ℕ
  growslice : ℕ → ℕ → ℕ

/-- `n` peers whose arrays double when they grow. -/
def Config.doubling (n : ℕ) : Config := ⟨n, fun cap _ => 2 * cap⟩

structure LogEntry (Cmd : Type*) where
  term : ℕ
  index : ℕ
  command : Option Cmd
  deriving DecidableEq

structure SnapShot (Cmd : Type*) where
  lastIncludedIndex : ℕ
  commands : List (Option Cmd)
  lastIncludedTerm : ℕ
  deriving DecidableEq

/-- The zero value that fills the unused part of a backing array. -/
instance {Cmd : Type*} : Inhabited (LogEntry Cmd) := ⟨⟨0, 0, none⟩⟩

/-- A value in a `labgob` stream. -/
inductive GobValue (Cmd : Type*) where
  | int (n : ℤ)
  | entries (l : List (LogEntry Cmd))
  | commands (l : List (Option Cmd))
  deriving DecidableEq

/-- The two byte strings on stable storage; an empty one was never written or was written `nil`. -/
structure Persister (Cmd : Type*) where
  raftstate : List (GobValue Cmd)
  snapshot : List (GobValue Cmd)
  deriving DecidableEq

/-- `MakePersister`. -/
def Persister.empty {Cmd : Type*} : Persister Cmd := ⟨[], []⟩

inductive Raft.State where
  | follower
  | candidate
  | leader
  deriving DecidableEq

/-- A peer. `nextIndex` and `matchedIndex` are empty until the peer first becomes leader. -/
structure Raft (Cmd : Type*) where
  me : ℕ
  dead : Bool
  persister : Persister Cmd
  currentTerm : ℕ
  votedFor : Option ℕ
  state : Raft.State
  log : Slice (LogEntry Cmd)
  commitIndex : ℕ
  lastApplied : ℕ
  nextIndex : List ℕ
  matchedIndex : List ℕ
  X : ℕ
  snapshot : Option (SnapShot Cmd)

/-- What a peer sends on `applyCh`; `CommandValid` is always set. -/
structure ApplyMsg (Cmd : Type*) where
  command : Option Cmd
  commandIndex : ℕ
  deriving DecidableEq

structure RequestVoteArgs where
  term : ℕ
  candidateId : ℕ
  lastLogTerm : ℕ
  lastLogIndex : ℕ
  deriving DecidableEq

structure RequestVoteReply where
  term : ℕ
  voteGranted : Bool
  deriving DecidableEq

structure AppendEntriesArgs (Cmd : Type*) where
  term : ℕ
  leaderId : ℕ
  prevLogIndex : ℕ
  prevLogTerm : ℕ
  entries : List (LogEntry Cmd)
  leaderCommit : ℕ
  deriving DecidableEq

structure AppendEntriesReply where
  term : ℕ
  success : Bool := false
  xTerm : ℕ := 0
  xIndex : ℕ := 0
  xLen : ℕ := 0
  deriving DecidableEq

namespace Raft

variable {Cmd : Type*}

def killed (rf : Raft Cmd) : Bool := rf.dead

/-! ### Stable storage -/

/-- `votedFor` as the integer the source stores. -/
def encodeVote : Option ℕ → ℤ
  | none => -1
  | some v => v

def decodeVote (n : ℤ) : Option ℕ := if n < 0 then none else some n.toNat

@[simp] lemma decodeVote_encodeVote (v : Option ℕ) : decodeVote (encodeVote v) = v := by
  cases v with
  | none => rfl
  | some v =>
    have hv : ¬ (v : ℤ) < 0 := by omega
    simp [encodeVote, decodeVote, hv]

def encodeSnapshot (lastIncludedIndex : ℕ) (commands : List (Option Cmd))
    (lastIncludedTerm : ℕ) : List (GobValue Cmd) :=
  [.int lastIncludedIndex, .commands commands, .int lastIncludedTerm]

/-- `none` is `log.Fatal`. What follows the two values read is not looked at. -/
def decodeSnapshot : List (GobValue Cmd) → Option (ℤ × List (Option Cmd))
  | .int lastIncludedIndex :: .commands commands :: _ => some (lastIncludedIndex, commands)
  | _ => none

def persist (rf : Raft Cmd) : Raft Cmd :=
  { rf with
    persister :=
      { raftstate := [.int rf.currentTerm, .int (encodeVote rf.votedFor), .entries rf.log.elems]
        snapshot :=
          match rf.snapshot with
          | none => []
          | some s => encodeSnapshot s.lastIncludedIndex s.commands s.lastIncludedTerm } }

/-- The guard `if !rf.killed() { rf.persist() }`. -/
def persistUnlessKilled (rf : Raft Cmd) : Raft Cmd := if rf.killed then rf else rf.persist

/-- What decoding a stored Raft state yields. -/
def decodeState : List (GobValue Cmd) → Option (ℕ × Option ℕ × List (LogEntry Cmd))
  | .int currentTerm :: .int votedFor :: .entries log :: _ =>
    some (currentTerm.toNat, decodeVote votedFor, log)
  | _ => none

def readPersist (rf : Raft Cmd) (data : List (GobValue Cmd)) : Raft Cmd :=
  match decodeState data with
  | none => rf
  | some (currentTerm, votedFor, log) =>
    { rf with currentTerm := currentTerm, votedFor := votedFor, log := .ofList log }

/-- The entry in slot 0, so that indices start from 1. -/
def sentinel [Zero Cmd] : LogEntry Cmd := ⟨0, 0, some 0⟩

/-- The peer `Make` builds before it reads the persister. -/
def fresh [Zero Cmd] (me : ℕ) (persister : Persister Cmd) : Raft Cmd where
  me := me
  dead := false
  persister := persister
  currentTerm := 0
  votedFor := none
  state := .follower
  log := .ofList [sentinel]
  commitIndex := 0
  lastApplied := 0
  nextIndex := []
  matchedIndex := []
  X := 0
  snapshot := none

def Make [Zero Cmd] (me : ℕ) (persister : Persister Cmd) : Raft Cmd :=
  (fresh me persister).readPersist persister.raftstate

@[simp] lemma decodeState_persist (rf : Raft Cmd) :
    decodeState rf.persist.persister.raftstate =
      some (rf.currentTerm, rf.votedFor, rf.log.elems) := by
  simp [persist, decodeState]

end Raft

end DistLabs
