import DistLabs.Raft.Basic

/-!
# What a Raft peer does

The functions of `raft/raft.go` that run inside one critical section, as functions of the peer's
state. A function that may index a slice out of range, or end the process by `log.Fatal`, returns
`none` there. The channel `heartbeatC` only resets the election timer and is left out.
-/

namespace DistLabs

namespace Raft

variable {Cmd : Type*}

def logIndex2sliceIndex (rf : Raft Cmd) (index : ℕ) : ℤ := index - rf.X

def sliceIndex2logIndex (rf : Raft Cmd) (index : ℕ) : ℕ := index + rf.X

/-- The log is never empty, see `raft_log_pos`. -/
def getLastLogEntryTermIndex (rf : Raft Cmd) : ℕ × ℕ :=
  let lastLogEntry := rf.log.elems.getLast?.getD default
  (lastLogEntry.term, lastLogEntry.index)

def isUpToDate (rf : Raft Cmd) (term index : ℕ) : Bool :=
  let (thisTerm, thisIndex) := rf.getLastLogEntryTermIndex
  if term < thisTerm then false
  else if term > thisTerm then true
  else if index ≥ thisIndex then true
  else false

/-! ### Changes of role -/

def becomeCandidate (rf : Raft Cmd) (term : ℕ) : Raft Cmd :=
  { rf with state := .candidate, currentTerm := term, votedFor := some rf.me }.persistUnlessKilled

def becomeFollower (rf : Raft Cmd) (term : ℕ) (votedFor : Option ℕ) : Raft Cmd :=
  { rf with state := .follower, currentTerm := term, votedFor := votedFor }.persistUnlessKilled

/-- The new leader's indices are slice lengths: `X` is not added. -/
def becomeLeader (cfg : Config) (rf : Raft Cmd) : Raft Cmd :=
  { rf with
    state := .leader
    matchedIndex := List.replicate cfg.peers 0
    nextIndex := List.replicate cfg.peers rf.log.len }

/-! ### RequestVote -/

def RequestVote (rf : Raft Cmd) (args : RequestVoteArgs) : Raft Cmd × RequestVoteReply :=
  if args.term < rf.currentTerm then (rf, ⟨rf.currentTerm, false⟩)
  else
    let rf' := if args.term > rf.currentTerm then rf.becomeFollower args.term none else rf
    let updateToDate := rf'.isUpToDate args.lastLogTerm args.lastLogIndex
    if (rf'.votedFor = none ∨ rf'.votedFor = some args.candidateId) ∧ updateToDate then
      ({ rf' with votedFor := some args.candidateId }.persistUnlessKilled, ⟨rf.currentTerm, true⟩)
    else (rf', ⟨rf.currentTerm, false⟩)

/-! ### AppendEntries -/

/-- The scan `for i := k - 1; i >= 0; i--` for the start of the run of `xTerm`. When every entry
below has that term the loop ends without a result, and so does the mismatch branch. -/
def scanConflict (log : List (LogEntry Cmd)) (xTerm : ℕ) : ℕ → Option ℕ
  | 0 => none
  | i + 1 =>
    if (log[i]?.getD default).term ≠ xTerm then some (log[i + 1]?.getD default).index
    else scanConflict log xTerm i

/-- Where the consistency check of `AppendEntries` leads. -/
inductive PrevCheck (Cmd : Type*) where
  /-- `return` with `Success` false. -/
  | reject (reply : AppendEntriesReply)
  /-- Merge `entries` from slice position `start` on. -/
  | merge (reply : AppendEntriesReply) (start : ℕ) (entries : List (LogEntry Cmd))

def checkPrev (rf : Raft Cmd) (args : AppendEntriesArgs Cmd) (reply : AppendEntriesReply) :
    PrevCheck Cmd :=
  let prevLogSliceIndex := rf.logIndex2sliceIndex args.prevLogIndex
  if prevLogSliceIndex > 0 then
    let prev := prevLogSliceIndex.toNat
    if prevLogSliceIndex > (rf.log.len : ℤ) - 1 then .reject reply
    else
      let xTerm := (rf.log.elems[prev]?.getD default).term
      if xTerm ≠ args.prevLogTerm then
        match scanConflict rf.log.elems xTerm prev with
        | some xIndex => .reject { reply with xTerm := xTerm, xIndex := xIndex }
        | none => .merge { reply with xTerm := xTerm } (prev + 1) args.entries
      else .merge reply (prev + 1) args.entries
  else
    .merge reply 1
      (if rf.X - args.prevLogIndex < args.entries.length then
        args.entries.drop (rf.X - args.prevLogIndex) else [])

/-- The loop that looks for the first entry whose term differs: the position and the entries
still to be written from there. -/
def findConflict (log : List (LogEntry Cmd)) :
    ℕ → List (LogEntry Cmd) → Option (ℕ × List (LogEntry Cmd))
  | _, [] => none
  | i, e :: es =>
    match log[i]? with
    | none => none
    | some x => if x.term ≠ e.term then some (i, e :: es) else findConflict log (i + 1) es

/-- Cut the log at a conflict and append what is left of the entries, which is returned too. -/
def mergeEntries (cfg : Config) (log : Slice (LogEntry Cmd)) (start : ℕ)
    (entries : List (LogEntry Cmd)) : Slice (LogEntry Cmd) × List (LogEntry Cmd) :=
  match findConflict log.elems start entries with
  | some (i, rest) => ((log.upto i).append cfg.growslice rest, rest)
  | none =>
    let rest := entries.drop (min (log.len - start) entries.length)
    (log.append cfg.growslice rest, rest)

def updateCommit (rf : Raft Cmd) (args : AppendEntriesArgs Cmd)
    (entries : List (LogEntry Cmd)) : Raft Cmd :=
  if args.leaderCommit > rf.commitIndex then
    { rf with
      commitIndex :=
        match entries.getLast? with
        | some last => min args.leaderCommit last.index
        | none => min args.leaderCommit args.prevLogIndex }
  else rf

def AppendEntries (cfg : Config) (rf : Raft Cmd) (args : AppendEntriesArgs Cmd) :
    Raft Cmd × AppendEntriesReply :=
  let isHeartbeat := args.entries.isEmpty
  if args.term < rf.currentTerm then (rf, { term := rf.currentTerm })
  else
    let rf' := rf.becomeFollower args.term (some args.leaderId)
    match rf'.checkPrev args { term := rf.currentTerm, xLen := rf'.log.len + rf'.X } with
    | .reject reply => (rf', reply)
    | .merge reply start entries =>
      if isHeartbeat then (rf'.updateCommit args [], { reply with success := true })
      else
        let (log, rest) := mergeEntries cfg rf'.log start entries
        (({ rf' with log := log }.persistUnlessKilled).updateCommit args rest,
          { reply with success := true })

/-! ### Applying -/

/-- One round of `applyLog` that finds something to apply. -/
def applyLog (rf : Raft Cmd) : Option (Raft Cmd × ApplyMsg Cmd) :=
  if rf.lastApplied < rf.commitIndex then
    match rf.log.get? (rf.logIndex2sliceIndex (rf.lastApplied + 1)) with
    | none => none
    | some log =>
      some ({ rf with lastApplied := rf.lastApplied + 1 }, ⟨log.command, log.index⟩)
  else none

/-! ### Start -/

def Start (cfg : Config) (rf : Raft Cmd) (command : Option Cmd) : Raft Cmd × (ℕ × ℕ × Bool) :=
  let index := rf.log.len + rf.X
  let term := rf.currentTerm
  if rf.state = .leader then
    ({ rf with log := rf.log.append cfg.growslice [⟨term, index, command⟩] }.persistUnlessKilled,
      (index, term, true))
  else (rf, (index, term, false))

/-! ### The sending side of AppendEntries -/

/-- The search `for left <= right` of `isContainTerm`, with the value of `left` it ends with.
The interval shrinks every round, so as many rounds as it has positions are enough. -/
def searchTerm (logs : List (LogEntry Cmd)) (term : ℕ) : ℕ → ℤ → ℤ → Option ℤ
  | 0, left, _ => some left
  | fuel + 1, left, right =>
    if left ≤ right then
      let mid := (left + right) / 2
      match logs[mid.toNat]? with
      | none => none
      | some e =>
        if e.term = term then some mid
        else if e.term < term then searchTerm logs term fuel (mid + 1) right
        else searchTerm logs term fuel left (mid - 1)
    else some left

/-- The scan `for i := left + 1; i < len(logs) - 1; i++`; `index` stays 0 when it runs out. -/
def scanTerm (logs : List (LogEntry Cmd)) (term : ℕ) : ℕ → ℕ → ℕ
  | 0, _ => 0
  | fuel + 1, i =>
    if i < logs.length - 1 then
      if (logs[i]?.getD default).term ≠ term then i - 1 else scanTerm logs term fuel (i + 1)
    else 0

def isContainTerm (logs : List (LogEntry Cmd)) (term : ℕ) : Option (Bool × ℕ) :=
  match searchTerm logs term (logs.length + 1) 0 ((logs.length : ℤ) - 1) with
  | none => none
  | some left =>
    match logs[left.toNat]? with
    | none => none
    | some e => if e.term ≠ term then some (false, 0)
      else some (true, scanTerm logs term logs.length (left.toNat + 1))

/-- The condition on which a goroutine of `appendEntries` gives up on peer `i`. -/
def givesUp (rf : Raft Cmd) (start next end_ : ℕ) : Prop :=
  rf.state ≠ .leader ∨ start ≤ rf.X ∨ next > end_ ∨ rf.killed

instance (rf : Raft Cmd) (start next end_ : ℕ) : Decidable (rf.givesUp start next end_) := by
  unfold givesUp
  infer_instance

/-- The request a goroutine of `appendEntries` builds. The entries are re-sliced from the backing
array of the log, up to its capacity. -/
def appendRequest (rf : Raft Cmd) (term leaderCommit start end_ : ℕ) :
    Option (AppendEntriesArgs Cmd) :=
  let sliceStart := rf.logIndex2sliceIndex start
  let sliceEnd := rf.logIndex2sliceIndex end_
  match rf.log.get? (sliceStart - 1), rf.log.reslice? sliceStart (sliceEnd + 1) with
  | some prevLog, some entries =>
    some ⟨term, rf.me, prevLog.index, prevLog.term, entries, leaderCommit⟩
  | _, _ => none

/-- The request of a heartbeat to peer `i`. On the compacted path the source takes the term of
the previous entry from `LastIncludedIndex` and its index from `LastIncludedTerm`. -/
def heartbeatRequest (rf : Raft Cmd) (term commitIndex i : ℕ) : Option (AppendEntriesArgs Cmd) :=
  match rf.nextIndex[i]? with
  | none => none
  | some next =>
    let sliceIndex : ℤ := (next : ℤ) - 1 - rf.X
    if sliceIndex < 0 then
      match rf.snapshot with
      | none => none
      | some s =>
        some ⟨term, rf.me, s.lastIncludedTerm, s.lastIncludedIndex, [], commitIndex⟩
    else
      match rf.log.get? sliceIndex with
      | none => none
      | some prevLog => some ⟨term, rf.me, prevLog.index, prevLog.term, [], commitIndex⟩

/-- Record that peer `i` holds the log up to `end_`. -/
def advanceNext (rf : Raft Cmd) (i end_ : ℕ) : Raft Cmd :=
  if end_ + 1 > rf.nextIndex[i]?.getD 0 then
    { rf with nextIndex := rf.nextIndex.set i (end_ + 1)
              matchedIndex := rf.matchedIndex.set i end_ }
  else rf

/-- How a goroutine of `appendEntries` goes on after a reply: it ends with a verdict for the
counting goroutine, or tries again from another `start`. -/
inductive Verdict where
  | report (b : Bool)
  | retry (start : ℕ)
  deriving DecidableEq

def handleAppendReply (rf : Raft Cmd) (i term end_ : ℕ) (args : AppendEntriesArgs Cmd)
    (reply : AppendEntriesReply) : Option (Raft Cmd × Verdict) :=
  if rf.currentTerm ≠ term then some (rf, .report false)
  else if reply.term > rf.currentTerm then
    some (rf.becomeFollower reply.term none, .report false)
  else if reply.success then some (rf.advanceNext i end_, .report true)
  else if (reply.xLen : ℤ) - 1 < args.prevLogIndex then some (rf, .retry reply.xLen)
  else
    match isContainTerm rf.log.elems reply.xTerm with
    | none => none
    | some (false, _) => some (rf, .retry reply.xIndex)
    | some (true, index) => some (rf, .retry (rf.X + index))

/-- The locked part of the counting goroutine of `appendEntries`. -/
def commit (rf : Raft Cmd) (term end_ : ℕ) : Raft Cmd :=
  if rf.state = .leader ∧ rf.currentTerm = term ∧ rf.commitIndex < end_ then
    { rf with commitIndex := end_ }
  else rf

/-! ### The other reply handlers -/

/-- `heartbeat` only looks at the term of a reply. -/
def handleHeartbeatReply (rf : Raft Cmd) (reply : AppendEntriesReply) : Raft Cmd :=
  if reply.term > rf.currentTerm then rf.becomeFollower reply.term none else rf

/-- The reply to a vote request of term `term`, with what goes to `voteChan`. -/
def handleVoteReply (rf : Raft Cmd) (term : ℕ) (reply : RequestVoteReply) : Raft Cmd × Bool :=
  if term ≠ rf.currentTerm then (rf, false)
  else if reply.term > rf.currentTerm then (rf.becomeFollower reply.term none, false)
  else (rf, reply.voteGranted)

/-! ### Snapshot

`Snapshot` takes the lock twice and writes `rf.snapshot` in between without it, so it is three
steps. -/

/-- A call of `Snapshot` that has released the lock for the first time: what it has computed, and
whether it has written `rf.snapshot`. -/
structure SnapshotCall (Cmd : Type*) where
  index : ℕ
  mergedCommands : List (Option Cmd)
  lastIncludedTerm : ℕ
  published : Bool := false

def snapshotRead (rf : Raft Cmd) (index : ℕ) (snapshot : List (GobValue Cmd)) :
    Option (SnapshotCall Cmd) :=
  match decodeSnapshot snapshot with
  | none => none
  | some (lastIncludedIndex, commands) =>
    if (index : ℤ) ≠ lastIncludedIndex then none
    else
      match rf.log.get? (rf.logIndex2sliceIndex index) with
      | none => none
      | some e =>
        some
          { index := index
            mergedCommands := rf.snapshot.elim [] SnapShot.commands ++ commands
            lastIncludedTerm := e.term }

def snapshotPublish (rf : Raft Cmd) (c : SnapshotCall Cmd) : Raft Cmd :=
  { rf with snapshot := some ⟨c.index, c.mergedCommands, c.lastIncludedTerm⟩ }

def snapshotTrim (cfg : Config) (rf : Raft Cmd) (c : SnapshotCall Cmd) : Option (Raft Cmd) :=
  match rf.log.from? (rf.logIndex2sliceIndex c.index + 1) with
  | none => none
  | some rest =>
    let newLogs : Slice (LogEntry Cmd) := .ofList [⟨c.lastIncludedTerm, c.index, none⟩]
    some
      { rf with
        log := newLogs.append cfg.growslice rest
        X := c.index
        snapshot := some ⟨c.index, c.mergedCommands, c.lastIncludedTerm⟩ }.persist

/-- A call of `Snapshot` that nothing interrupts. -/
def Snapshot (cfg : Config) (rf : Raft Cmd) (index : ℕ) (snapshot : List (GobValue Cmd)) :
    Option (Raft Cmd) :=
  match rf.snapshotRead index snapshot with
  | none => none
  | some c => (rf.snapshotPublish c).snapshotTrim cfg c

end Raft

end DistLabs
