import DistLabs.Lib.Machine
import DistLabs.Raft.Node
import DistLabs.Raft.Poll

/-!
# The cluster

The peers of a cluster with their goroutines, and the RPCs between them. One step is one critical
section of one goroutine, one RPC handler, one channel operation, or a crash or restart.

* A goroutine that has been started by `go` runs whenever it is scheduled, so what it captures is
  read in a later step than the one that started it.
* An RPC stays in the list of calls for ever. Its handler may run at any time after the request
  was sent, once; the caller may give up waiting at any time, and takes note of the reply only
  while it waits. A lost message is one that no later step picks up.
* A crash throws the goroutines of a peer away and keeps its persister. A peer that is down takes
  no step. A panic ends the process, which is a crash before the step that would panic.
-/

namespace DistLabs

variable {Cmd : Type*} {n : ℕ}

/-! ### Goroutines -/

/-- The goroutines of an `election` that has become candidate. -/
structure Election (n : ℕ) where
  term : ℕ
  lastLogTerm : ℕ
  lastLogIndex : ℕ
  poll : Poll n Unit

/-- The goroutines of one `heartbeat` that has read the term. -/
structure Heartbeat where
  term : ℕ
  commitIndex : ℕ
  phase : ℕ → Phase Unit

/-- The goroutines of one `appendEntries`. A goroutine is `ready none` until it has read
`nextIndex`, then `ready (some start)`. -/
structure Broadcast (n : ℕ) where
  term : ℕ
  leaderCommit : ℕ
  end_ : ℕ
  poll : Poll n (Option ℕ)

/-- Where a goroutine of `appendEntries` stands after a reply. -/
def Raft.Verdict.phase : Raft.Verdict → Phase (Option ℕ)
  | .report b => .sending b
  | .retry start => .ready (some start)

/-- A peer with its goroutines. The numbers count goroutines that are still to be scheduled: those
of `election` before and after they found the peer not to be leader, those of
`periodicallyHeartbeat` before the check of their loop and in the wait behind it, and those of
`heartbeat` and `broadcastLogs` that have read nothing yet. -/
structure Server (n : ℕ) (Cmd : Type*) where
  rf : Raft Cmd
  electionsLaunched : ℕ := 0
  electionsChecked : ℕ := 0
  elections : List (Election n) := []
  beatsChecking : ℕ := 0
  beatsWaiting : ℕ := 0
  heartbeatsLaunched : ℕ := 0
  heartbeats : List Heartbeat := []
  broadcastsLaunched : ℕ := 0
  broadcasts : List (Broadcast n) := []
  snapshots : List (Raft.SnapshotCall Cmd) := []

/-! ### RPCs -/

/-- One RPC: `reply` is filled in by the handler. `sender` is the caller's state when the request
was built; no step reads it. -/
structure Call (Cmd Args Reply : Type*) where
  src : ℕ
  dst : ℕ
  sender : Raft Cmd
  args : Args
  reply : Option Reply := none

abbrev VoteCall (Cmd : Type*) := Call Cmd RequestVoteArgs RequestVoteReply

abbrev AppendCall (Cmd : Type*) := Call Cmd (AppendEntriesArgs Cmd) AppendEntriesReply

/-- The cluster. `applyCh`, `leaders` and `created` record what was sent on the peers' `applyCh`,
who executed `becomeLeader` in which term, and the entries `Start` appended. -/
structure Cluster (n : ℕ) (Cmd : Type*) where
  servers : ℕ → Server n Cmd
  voteCalls : List (VoteCall Cmd)
  appendCalls : List (AppendCall Cmd)
  applyCh : List (ℕ × ApplyMsg Cmd)
  leaders : List (ℕ × ℕ)
  created : List (LogEntry Cmd)

/-! ### The steps of one peer -/

/-- The steps a peer takes by itself. The numbers pick a goroutine: the election, heartbeat,
broadcast or snapshot call, and in it the peer. -/
inductive LocalAction (Cmd : Type*) where
  | tick
  | electionCheck
  | electionStart
  | voteCall (e p : ℕ)
  | voteRetry (e p : ℕ)
  | voteReturn (e p : ℕ)
  | voteRecv (e p : ℕ)
  | voteDecide (e : ℕ)
  | beatCheck
  | beatFire
  | heartbeatStart
  | heartbeatCall (h p : ℕ)
  | heartbeatRetry (h p : ℕ)
  | heartbeatReturn (h p : ℕ)
  | start (command : Option Cmd)
  | broadcastStart
  | peerNext (b p : ℕ)
  | peerCall (b p : ℕ)
  | peerRetry (b p : ℕ)
  | peerReturn (b p : ℕ)
  | peerRecv (b p : ℕ)
  | peerDecide (b : ℕ)
  | applyLog
  | snapshot (index : ℕ) (data : List (GobValue Cmd))
  | snapshotPublish (j : ℕ)
  | snapshotTrim (j : ℕ)

/-- What a step of one peer does: the peer's new state, the call it makes if any, and what it adds
to the records. -/
structure Effect (n : ℕ) (Cmd : Type*) where
  server : Server n Cmd
  voteCall : Option (VoteCall Cmd) := none
  appendCall : Option (AppendCall Cmd) := none
  applyMsg : Option (ApplyMsg Cmd) := none
  leader : Option ℕ := none
  created : Option (LogEntry Cmd) := none

namespace Server

/-- A peer none of whose goroutines has been started but the ones that run for ever. -/
def boot (rf : Raft Cmd) : Server n Cmd := { rf := rf }

/-! #### election -/

/-- The ticker times out and starts `election`. -/
def tick (srv : Server n Cmd) : Effect n Cmd :=
  { server := { srv with electionsLaunched := srv.electionsLaunched + 1 } }

/-- `election` returns at once on a leader; the lock is released after the check. -/
def electionCheck (srv : Server n Cmd) : Option (Effect n Cmd) :=
  match srv.electionsLaunched with
  | 0 => none
  | m + 1 =>
    some
      { server :=
          { srv with
            electionsLaunched := m
            electionsChecked :=
              if srv.rf.killed ∨ srv.rf.state = .leader then srv.electionsChecked
              else srv.electionsChecked + 1 } }

def electionStart (srv : Server n Cmd) : Option (Effect n Cmd) :=
  match srv.electionsChecked with
  | 0 => none
  | m + 1 =>
    let rf := srv.rf.becomeCandidate (srv.rf.currentTerm + 1)
    let last := rf.getLastLogEntryTermIndex
    some
      { server :=
          { srv with
            rf := rf
            electionsChecked := m
            elections := srv.elections ++
              [⟨rf.currentTerm, last.1, last.2, .launch n rf.me ()⟩] } }

/-- The goroutine for peer `p` sends its vote request; `k` is the number of the call. -/
def voteCall (srv : Server n Cmd) (k e p : ℕ) : Option (Effect n Cmd) :=
  match srv.elections[e]? with
  | none => none
  | some el =>
    match el.poll.phase p with
    | .ready l =>
      match el.poll.move p (.calling l k) with
      | none => none
      | some poll =>
        some
          { server := { srv with elections := srv.elections.set e { el with poll := poll } }
            voteCall := some
              { src := srv.rf.me, dst := p, sender := srv.rf
                args := ⟨el.term, srv.rf.me, el.lastLogTerm, el.lastLogIndex⟩ } }
    | _ => none

/-- `Call` returned false: the goroutine tries again. -/
def voteRetry (srv : Server n Cmd) (e p : ℕ) : Option (Effect n Cmd) :=
  match srv.elections[e]? with
  | none => none
  | some el =>
    match el.poll.phase p with
    | .calling l _ =>
      match el.poll.move p (.ready l) with
      | none => none
      | some poll =>
        some { server := { srv with elections := srv.elections.set e { el with poll := poll } } }
    | _ => none

def voteReturn (calls : List (VoteCall Cmd)) (srv : Server n Cmd) (e p : ℕ) :
    Option (Effect n Cmd) :=
  match srv.elections[e]? with
  | none => none
  | some el =>
    match el.poll.phase p with
    | .calling _ k =>
      match calls[k]?.bind Call.reply with
      | none => none
      | some reply =>
        let (rf, vote) := srv.rf.handleVoteReply el.term reply
        match el.poll.move p (.sending vote) with
        | none => none
        | some poll =>
          some
            { server :=
                { srv with rf := rf, elections := srv.elections.set e { el with poll := poll } } }
    | _ => none

def voteRecv (srv : Server n Cmd) (e p : ℕ) : Option (Effect n Cmd) :=
  match srv.elections[e]? with
  | none => none
  | some el =>
    match el.poll.recv p with
    | none => none
    | some poll =>
      some { server := { srv with elections := srv.elections.set e { el with poll := poll } } }

/-- The counting goroutine of an election has the lock. `becomeLeader` starts a `heartbeat` and a
`periodicallyHeartbeat`. -/
def voteDecide (cfg : Config) (srv : Server n Cmd) (e : ℕ) : Option (Effect n Cmd) :=
  match srv.elections[e]? with
  | none => none
  | some el =>
    if el.poll.deciding then
      let srv' := { srv with elections := srv.elections.set e { el with poll := el.poll.decided } }
      if srv.rf.state = .candidate ∧ srv.rf.currentTerm = el.term then
        some
          { server :=
              { srv' with
                rf := srv.rf.becomeLeader cfg
                heartbeatsLaunched := srv.heartbeatsLaunched + 1
                beatsChecking := srv.beatsChecking + 1 }
            leader := some srv.rf.currentTerm }
      else some { server := srv' }
    else none

/-! #### heartbeat -/

/-- The condition of the loop of `periodicallyHeartbeat`. -/
def beatCheck (srv : Server n Cmd) : Option (Effect n Cmd) :=
  match srv.beatsChecking with
  | 0 => none
  | m + 1 =>
    some
      { server :=
          { srv with
            beatsChecking := m
            beatsWaiting :=
              if srv.rf.killed = false ∧ srv.rf.state = .leader then srv.beatsWaiting + 1
              else srv.beatsWaiting } }

/-- The wait is over: start a `heartbeat` and go round the loop. -/
def beatFire (srv : Server n Cmd) : Option (Effect n Cmd) :=
  match srv.beatsWaiting with
  | 0 => none
  | m + 1 =>
    some
      { server :=
          { srv with
            beatsWaiting := m
            beatsChecking := srv.beatsChecking + 1
            heartbeatsLaunched := srv.heartbeatsLaunched + 1 } }

/-- `heartbeat` reads the term and the commit index and starts a goroutine for every peer. -/
def heartbeatStart (srv : Server n Cmd) : Option (Effect n Cmd) :=
  match srv.heartbeatsLaunched with
  | 0 => none
  | m + 1 =>
    some
      { server :=
          { srv with
            heartbeatsLaunched := m
            heartbeats := srv.heartbeats ++
              [⟨srv.rf.currentTerm, srv.rf.commitIndex,
                fun p => if p < n ∧ p ≠ srv.rf.me then .ready () else .absent⟩] } }

def heartbeatCall (srv : Server n Cmd) (k h p : ℕ) : Option (Effect n Cmd) :=
  match srv.heartbeats[h]? with
  | none => none
  | some hb =>
    match hb.phase p with
    | .ready l =>
      if srv.rf.state ≠ .leader then
        some
          { server :=
              { srv with
                heartbeats := srv.heartbeats.set h
                  { hb with phase := Function.update hb.phase p (.finished false) } } }
      else
        match srv.rf.heartbeatRequest hb.term hb.commitIndex p with
        | none => none
        | some args =>
          some
            { server :=
                { srv with
                  heartbeats := srv.heartbeats.set h
                    { hb with phase := Function.update hb.phase p (.calling l k) } }
              appendCall := some { src := srv.rf.me, dst := p, sender := srv.rf, args := args } }
    | _ => none

def heartbeatRetry (srv : Server n Cmd) (h p : ℕ) : Option (Effect n Cmd) :=
  match srv.heartbeats[h]? with
  | none => none
  | some hb =>
    match hb.phase p with
    | .calling l _ =>
      some
        { server :=
            { srv with
              heartbeats := srv.heartbeats.set h
                { hb with phase := Function.update hb.phase p (.ready l) } } }
    | _ => none

def heartbeatReturn (calls : List (AppendCall Cmd)) (srv : Server n Cmd) (h p : ℕ) :
    Option (Effect n Cmd) :=
  match srv.heartbeats[h]? with
  | none => none
  | some hb =>
    match hb.phase p with
    | .calling _ k =>
      match calls[k]?.bind Call.reply with
      | none => none
      | some reply =>
        some
          { server :=
              { srv with
                rf := srv.rf.handleHeartbeatReply reply
                heartbeats := srv.heartbeats.set h
                  { hb with phase := Function.update hb.phase p (.finished true) } } }
    | _ => none

/-! #### Start and appendEntries -/

/-- The service calls `Start`; a leader starts `broadcastLogs`. -/
def start (cfg : Config) (srv : Server n Cmd) (command : Option Cmd) : Effect n Cmd :=
  let (rf, index, term, isLeader) := srv.rf.Start cfg command
  if isLeader then
    { server := { srv with rf := rf, broadcastsLaunched := srv.broadcastsLaunched + 1 }
      created := some ⟨term, index, command⟩ }
  else { server := srv }

/-- `broadcastLogs` reads the term, the commit index and the last index, and calls
`appendEntries`. -/
def broadcastStart (srv : Server n Cmd) : Option (Effect n Cmd) :=
  match srv.broadcastsLaunched with
  | 0 => none
  | m + 1 =>
    some
      { server :=
          { srv with
            broadcastsLaunched := m
            broadcasts := srv.broadcasts ++
              [⟨srv.rf.currentTerm, srv.rf.commitIndex,
                srv.rf.sliceIndex2logIndex (srv.rf.log.len - 1), .launch n srv.rf.me none⟩] } }

/-- `start := rf.nextIndex[i]`. -/
def peerNext (srv : Server n Cmd) (b p : ℕ) : Option (Effect n Cmd) :=
  match srv.broadcasts[b]? with
  | none => none
  | some bc =>
    match bc.poll.phase p, srv.rf.nextIndex[p]? with
    | .ready none, some start =>
      match bc.poll.move p (.ready (some start)) with
      | none => none
      | some poll =>
        some { server := { srv with broadcasts := srv.broadcasts.set b { bc with poll := poll } } }
    | _, _ => none

/-- One round of the loop: give up or build a request and send it. -/
def peerCall (srv : Server n Cmd) (k b p : ℕ) : Option (Effect n Cmd) :=
  match srv.broadcasts[b]? with
  | none => none
  | some bc =>
    match bc.poll.phase p, srv.rf.nextIndex[p]? with
    | .ready (some start), some next =>
      if srv.rf.givesUp start next bc.end_ then
        match bc.poll.move p (.sending false) with
        | none => none
        | some poll =>
          some
            { server := { srv with broadcasts := srv.broadcasts.set b { bc with poll := poll } } }
      else
        match srv.rf.appendRequest bc.term bc.leaderCommit start bc.end_,
          bc.poll.move p (.calling (some start) k) with
        | some args, some poll =>
          some
            { server := { srv with broadcasts := srv.broadcasts.set b { bc with poll := poll } }
              appendCall := some { src := srv.rf.me, dst := p, sender := srv.rf, args := args } }
        | _, _ => none
    | _, _ => none

def peerRetry (srv : Server n Cmd) (b p : ℕ) : Option (Effect n Cmd) :=
  match srv.broadcasts[b]? with
  | none => none
  | some bc =>
    match bc.poll.phase p with
    | .calling l _ =>
      match bc.poll.move p (.ready l) with
      | none => none
      | some poll =>
        some { server := { srv with broadcasts := srv.broadcasts.set b { bc with poll := poll } } }
    | _ => none

def peerReturn (calls : List (AppendCall Cmd)) (srv : Server n Cmd) (b p : ℕ) :
    Option (Effect n Cmd) :=
  match srv.broadcasts[b]? with
  | none => none
  | some bc =>
    match bc.poll.phase p with
    | .calling _ k =>
      match calls[k]? with
      | none => none
      | some call =>
        match call.reply with
        | none => none
        | some reply =>
          match srv.rf.handleAppendReply p bc.term bc.end_ call.args reply with
          | none => none
          | some (rf, verdict) =>
            match bc.poll.move p verdict.phase with
            | none => none
            | some poll =>
              some
                { server :=
                    { srv with
                      rf := rf, broadcasts := srv.broadcasts.set b { bc with poll := poll } } }
    | _ => none

def peerRecv (srv : Server n Cmd) (b p : ℕ) : Option (Effect n Cmd) :=
  match srv.broadcasts[b]? with
  | none => none
  | some bc =>
    match bc.poll.recv p with
    | none => none
    | some poll =>
      some { server := { srv with broadcasts := srv.broadcasts.set b { bc with poll := poll } } }

/-- The counting goroutine of `appendEntries` has the lock. -/
def peerDecide (srv : Server n Cmd) (b : ℕ) : Option (Effect n Cmd) :=
  match srv.broadcasts[b]? with
  | none => none
  | some bc =>
    if bc.poll.deciding then
      some
        { server :=
            { srv with
              rf := srv.rf.commit bc.term bc.end_
              broadcasts := srv.broadcasts.set b { bc with poll := bc.poll.decided } } }
    else none

/-! #### Applying and snapshots -/

def applyLog (srv : Server n Cmd) : Option (Effect n Cmd) :=
  match srv.rf.applyLog with
  | none => none
  | some (rf, msg) => some { server := { srv with rf := rf }, applyMsg := some msg }

/-- The service calls `Snapshot`, for an index it has seen applied. -/
def snapshot (srv : Server n Cmd) (index : ℕ) (data : List (GobValue Cmd)) :
    Option (Effect n Cmd) :=
  if index ≤ srv.rf.lastApplied then
    match srv.rf.snapshotRead index data with
    | none => none
    | some c => some { server := { srv with snapshots := srv.snapshots ++ [c] } }
  else none

def snapshotPublish (srv : Server n Cmd) (j : ℕ) : Option (Effect n Cmd) :=
  match srv.snapshots[j]? with
  | none => none
  | some c =>
    if c.published then none
    else
      some
        { server :=
            { srv with
              rf := srv.rf.snapshotPublish c
              snapshots := srv.snapshots.set j { c with published := true } } }

def snapshotTrim (cfg : Config) (srv : Server n Cmd) (j : ℕ) : Option (Effect n Cmd) :=
  match srv.snapshots[j]? with
  | none => none
  | some c =>
    if c.published then
      match srv.rf.snapshotTrim cfg c with
      | none => none
      | some rf => some { server := { srv with rf := rf, snapshots := srv.snapshots.eraseIdx j } }
    else none

def act (cfg : Config) (votes : List (VoteCall Cmd)) (appends : List (AppendCall Cmd))
    (srv : Server n Cmd) : LocalAction Cmd → Option (Effect n Cmd)
  | .tick => some srv.tick
  | .electionCheck => srv.electionCheck
  | .electionStart => srv.electionStart
  | .voteCall e p => srv.voteCall votes.length e p
  | .voteRetry e p => srv.voteRetry e p
  | .voteReturn e p => srv.voteReturn votes e p
  | .voteRecv e p => srv.voteRecv e p
  | .voteDecide e => srv.voteDecide cfg e
  | .beatCheck => srv.beatCheck
  | .beatFire => srv.beatFire
  | .heartbeatStart => srv.heartbeatStart
  | .heartbeatCall h p => srv.heartbeatCall appends.length h p
  | .heartbeatRetry h p => srv.heartbeatRetry h p
  | .heartbeatReturn h p => srv.heartbeatReturn appends h p
  | .start command => some (srv.start cfg command)
  | .broadcastStart => srv.broadcastStart
  | .peerNext b p => srv.peerNext b p
  | .peerCall b p => srv.peerCall appends.length b p
  | .peerRetry b p => srv.peerRetry b p
  | .peerReturn b p => srv.peerReturn appends b p
  | .peerRecv b p => srv.peerRecv b p
  | .peerDecide b => srv.peerDecide b
  | .applyLog => srv.applyLog
  | .snapshot index data => srv.snapshot index data
  | .snapshotPublish j => srv.snapshotPublish j
  | .snapshotTrim j => srv.snapshotTrim cfg j

end Server

/-! ### The steps of the cluster -/

inductive Action (Cmd : Type*) where
  | act (s : ℕ) (a : LocalAction Cmd)
  | handleVote (k : ℕ)
  | handleAppend (k : ℕ)
  | crash (s : ℕ)
  | restart (s : ℕ)

namespace Cluster

/-- The first `n` peers run; nothing has been stored. -/
def initial [Zero Cmd] (n : ℕ) : Cluster n Cmd where
  servers s := .boot (Raft.Make s .empty)
  voteCalls := []
  appendCalls := []
  applyCh := []
  leaders := []
  created := []

def Up (C : Cluster n Cmd) (s : ℕ) : Prop := s < n ∧ (C.servers s).rf.dead = false

instance (C : Cluster n Cmd) (s : ℕ) : Decidable (C.Up s) := by
  unfold Up
  infer_instance

def perform (C : Cluster n Cmd) (s : ℕ) (eff : Effect n Cmd) : Cluster n Cmd where
  servers := Function.update C.servers s eff.server
  voteCalls := C.voteCalls ++ eff.voteCall.toList
  appendCalls := C.appendCalls ++ eff.appendCall.toList
  applyCh := C.applyCh ++ eff.applyMsg.toList.map (s, ·)
  leaders := C.leaders ++ eff.leader.toList.map (s, ·)
  created := C.created ++ eff.created.toList

/-- Replace the state of a peer, leaving its goroutines alone. -/
def setRf (C : Cluster n Cmd) (s : ℕ) (rf : Raft Cmd) : Cluster n Cmd :=
  { C with servers := Function.update C.servers s { C.servers s with rf := rf } }

def step [Zero Cmd] (cfg : Config) (C : Cluster cfg.peers Cmd) :
    Action Cmd → Option (Cluster cfg.peers Cmd)
  | .act s a =>
    if C.Up s then
      match (C.servers s).act cfg C.voteCalls C.appendCalls a with
      | none => none
      | some eff => some (C.perform s eff)
    else none
  | .handleVote k =>
    match C.voteCalls[k]? with
    | none => none
    | some call =>
      if C.Up call.dst ∧ call.reply.isNone then
        let (rf, reply) := (C.servers call.dst).rf.RequestVote call.args
        some
          { C.setRf call.dst rf with
            voteCalls := C.voteCalls.set k { call with reply := some reply } }
      else none
  | .handleAppend k =>
    match C.appendCalls[k]? with
    | none => none
    | some call =>
      if C.Up call.dst ∧ call.reply.isNone then
        let (rf, reply) := (C.servers call.dst).rf.AppendEntries cfg call.args
        some
          { C.setRf call.dst rf with
            appendCalls := C.appendCalls.set k { call with reply := some reply } }
      else none
  | .crash s =>
    if C.Up s then
      some
        { C with
          servers := Function.update C.servers s (.boot { (C.servers s).rf with dead := true }) }
    else none
  | .restart s =>
    if s < cfg.peers ∧ (C.servers s).rf.dead = true then
      some
        { C with
          servers := Function.update C.servers s
            (.boot (Raft.Make s (C.servers s).rf.persister)) }
    else none

end Cluster

/-- The cluster as a transition system. -/
def raft [Zero Cmd] (cfg : Config) : Machine (Cluster cfg.peers Cmd) (Action Cmd) :=
  .ofStep (.initial cfg.peers) (Cluster.step cfg)

end DistLabs
