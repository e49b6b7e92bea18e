import DistLabs.Raft.Cluster
import DistLabs.Raft.NodeSpec
import Mathlib.Tactic.SplitIfs

/-!
# What a step can do

The step functions of the cluster, inverted once: `Server.Acts` lists what a step of one peer can
do and `Cluster.Moves` what a step of the cluster can do. Proofs about steps go by cases on these.
-/

namespace DistLabs

variable {Cmd : Type*} {n : ℕ}

namespace Server

/-- The possible effects of a step of one peer, with the conditions they are subject to. -/
inductive Acts (cfg : Config) (votes : List (VoteCall Cmd)) (appends : List (AppendCall Cmd))
    (srv : Server n Cmd) : LocalAction Cmd → Effect n Cmd → Prop
  /-- Only the numbers of goroutines yet to be scheduled change. -/
  | quiet {a : LocalAction Cmd} (srv' : Server n Cmd) (hrf : srv'.rf = srv.rf)
      (he : srv'.elections = srv.elections) (hh : srv'.heartbeats = srv.heartbeats)
      (hb : srv'.broadcasts = srv.broadcasts) (hs : srv'.snapshots = srv.snapshots) :
      Acts cfg votes appends srv a { server := srv' }
  | electionStart (m : ℕ) :
      Acts cfg votes appends srv .electionStart
        { server :=
            { srv with
              rf := srv.rf.becomeCandidate (srv.rf.currentTerm + 1)
              electionsChecked := m
              elections := srv.elections ++
                [⟨srv.rf.currentTerm + 1, srv.rf.getLastLogEntryTermIndex.1,
                  srv.rf.getLastLogEntryTermIndex.2, .launch n srv.rf.me ()⟩] } }
  | voteCall {e p : ℕ} {el : Election n} {poll : Poll n Unit} (hel : srv.elections[e]? = some el)
      (hph : el.poll.phase p = .ready ())
      (hpoll : poll.phase = Function.update el.poll.phase p (.calling () votes.length)) :
      Acts cfg votes appends srv (.voteCall e p)
        { server := { srv with elections := srv.elections.set e { el with poll := poll } }
          voteCall := some
            { src := srv.rf.me, dst := p, sender := srv.rf
              args := ⟨el.term, srv.rf.me, el.lastLogTerm, el.lastLogIndex⟩ } }
  | voteRetry {e p k : ℕ} {el : Election n} {poll : Poll n Unit}
      (hel : srv.elections[e]? = some el) (hph : el.poll.phase p = .calling () k)
      (hpoll : poll.phase = Function.update el.poll.phase p (.ready ())) :
      Acts cfg votes appends srv (.voteRetry e p)
        { server := { srv with elections := srv.elections.set e { el with poll := poll } } }
  | voteReturn {e p k : ℕ} {el : Election n} {poll : Poll n Unit} {call : VoteCall Cmd}
      {reply : RequestVoteReply} (hel : srv.elections[e]? = some el)
      (hph : el.poll.phase p = .calling () k) (hcall : votes[k]? = some call)
      (hreply : call.reply = some reply)
      (hpoll : poll.phase =
        Function.update el.poll.phase p (.sending (srv.rf.handleVoteReply el.term reply).2)) :
      Acts cfg votes appends srv (.voteReturn e p)
        { server :=
            { srv with
              rf := (srv.rf.handleVoteReply el.term reply).1
              elections := srv.elections.set e { el with poll := poll } } }
  | voteRecv {e p : ℕ} {b : Bool} {el : Election n} {poll : Poll n Unit}
      (hel : srv.elections[e]? = some el) (hph : el.poll.phase p = .sending b)
      (hpoll : poll.phase = Function.update el.poll.phase p (.finished b)) :
      Acts cfg votes appends srv (.voteRecv e p)
        { server := { srv with elections := srv.elections.set e { el with poll := poll } } }
  | voteLose {e : ℕ} {el : Election n} (hel : srv.elections[e]? = some el)
      (hd : el.poll.deciding = true)
      (hlost : ¬ (srv.rf.state = .candidate ∧ srv.rf.currentTerm = el.term)) :
      Acts cfg votes appends srv (.voteDecide e)
        { server :=
            { srv with elections := srv.elections.set e { el with poll := el.poll.decided } } }
  | voteWin {e x y : ℕ} {el : Election n} (hel : srv.elections[e]? = some el)
      (hd : el.poll.deciding = true) (hstate : srv.rf.state = .candidate)
      (hterm : srv.rf.currentTerm = el.term) :
      Acts cfg votes appends srv (.voteDecide e)
        { server :=
            { srv with
              rf := srv.rf.becomeLeader cfg
              elections := srv.elections.set e { el with poll := el.poll.decided }
              heartbeatsLaunched := x
              beatsChecking := y }
          leader := some srv.rf.currentTerm }
  | heartbeatStart (m : ℕ) :
      Acts cfg votes appends srv .heartbeatStart
        { server :=
            { srv with
              heartbeatsLaunched := m
              heartbeats := srv.heartbeats ++
                [⟨srv.rf.currentTerm, srv.rf.commitIndex,
                  fun p => if p < n ∧ p ≠ srv.rf.me then .ready () else .absent⟩] } }
  | heartbeatStop {h p : ℕ} {hb : Heartbeat} (hhb : srv.heartbeats[h]? = some hb)
      (hph : hb.phase p = .ready ()) (hstate : srv.rf.state ≠ .leader) :
      Acts cfg votes appends srv (.heartbeatCall h p)
        { server :=
            { srv with
              heartbeats := srv.heartbeats.set h
                { hb with phase := Function.update hb.phase p (.finished false) } } }
  | heartbeatCall {h p : ℕ} {hb : Heartbeat} {args : AppendEntriesArgs Cmd}
      (hhb : srv.heartbeats[h]? = some hb) (hph : hb.phase p = .ready ())
      (hstate : srv.rf.state = .leader)
      (hargs : srv.rf.heartbeatRequest hb.term hb.commitIndex p = some args) :
      Acts cfg votes appends srv (.heartbeatCall h p)
        { server :=
            { srv with
              heartbeats := srv.heartbeats.set h
                { hb with phase := Function.update hb.phase p (.calling () appends.length) } }
          appendCall := some { src := srv.rf.me, dst := p, sender := srv.rf, args := args } }
  | heartbeatRetry {h p k : ℕ} {hb : Heartbeat} (hhb : srv.heartbeats[h]? = some hb)
      (hph : hb.phase p = .calling () k) :
      Acts cfg votes appends srv (.heartbeatRetry h p)
        { server :=
            { srv with
              heartbeats := srv.heartbeats.set h
                { hb with phase := Function.update hb.phase p (.ready ()) } } }
  | heartbeatReturn {h p k : ℕ} {hb : Heartbeat} {call : AppendCall Cmd}
      {reply : AppendEntriesReply} (hhb : srv.heartbeats[h]? = some hb)
      (hph : hb.phase p = .calling () k) (hcall : appends[k]? = some call)
      (hreply : call.reply = some reply) :
      Acts cfg votes appends srv (.heartbeatReturn h p)
        { server :=
            { srv with
              rf := srv.rf.handleHeartbeatReply reply
              heartbeats := srv.heartbeats.set h
                { hb with phase := Function.update hb.phase p (.finished true) } } }
  | start {command : Option Cmd} (m : ℕ) (hstate : srv.rf.state = .leader) :
      Acts cfg votes appends srv (.start command)
        { server := { srv with rf := (srv.rf.Start cfg command).1, broadcastsLaunched := m }
          created := some ⟨srv.rf.currentTerm, srv.rf.log.len + srv.rf.X, command⟩ }
  | broadcastStart (m : ℕ) :
      Acts cfg votes appends srv .broadcastStart
        { server :=
            { srv with
              broadcastsLaunched := m
              broadcasts := srv.broadcasts ++
                [⟨srv.rf.currentTerm, srv.rf.commitIndex,
                  srv.rf.sliceIndex2logIndex (srv.rf.log.len - 1),
                  .launch n srv.rf.me none⟩] } }
  | peerNext {b p start : ℕ} {bc : Broadcast n} {poll : Poll n (Option ℕ)}
      (hbc : srv.broadcasts[b]? = some bc) (hph : bc.poll.phase p = .ready none)
      (hnext : srv.rf.nextIndex[p]? = some start)
      (hpoll : poll.phase = Function.update bc.poll.phase p (.ready (some start))) :
      Acts cfg votes appends srv (.peerNext b p)
        { server := { srv with broadcasts := srv.broadcasts.set b { bc with poll := poll } } }
  | peerGiveUp {b p start next : ℕ} {bc : Broadcast n} {poll : Poll n (Option ℕ)}
      (hbc : srv.broadcasts[b]? = some bc) (hph : bc.poll.phase p = .ready (some start))
      (hnext : srv.rf.nextIndex[p]? = some next) (hguard : srv.rf.givesUp start next bc.end_)
      (hpoll : poll.phase = Function.update bc.poll.phase p (.sending false)) :
      Acts cfg votes appends srv (.peerCall b p)
        { server := { srv with broadcasts := srv.broadcasts.set b { bc with poll := poll } } }
  | peerCall {b p start next : ℕ} {bc : Broadcast n} {poll : Poll n (Option ℕ)}
      {args : AppendEntriesArgs Cmd} (hbc : srv.broadcasts[b]? = some bc)
      (hph : bc.poll.phase p = .ready (some start)) (hnext : srv.rf.nextIndex[p]? = some next)
      (hguard : ¬ srv.rf.givesUp start next bc.end_)
      (hargs : srv.rf.appendRequest bc.term bc.leaderCommit start bc.end_ = some args)
      (hpoll : poll.phase =
        Function.update bc.poll.phase p (.calling (some start) appends.length)) :
      Acts cfg votes appends srv (.peerCall b p)
        { server := { srv with broadcasts := srv.broadcasts.set b { bc with poll := poll } }
          appendCall := some { src := srv.rf.me, dst := p, sender := srv.rf, args := args } }
  | peerRetry {b p k : ℕ} {l : Option ℕ} {bc : Broadcast n} {poll : Poll n (Option ℕ)}
      (hbc : srv.broadcasts[b]? = some bc) (hph : bc.poll.phase p = .calling l k)
      (hpoll : poll.phase = Function.update bc.poll.phase p (.ready l)) :
      Acts cfg votes appends srv (.peerRetry b p)
        { server := { srv with broadcasts := srv.broadcasts.set b { bc with poll := poll } } }
  | peerReturn {b p k : ℕ} {l : Option ℕ} {bc : Broadcast n} {poll : Poll n (Option ℕ)}
      {call : AppendCall Cmd} {reply : AppendEntriesReply} {rf : Raft Cmd} {v : Raft.Verdict}
      (hbc : srv.broadcasts[b]? = some bc) (hph : bc.poll.phase p = .calling l k)
      (hcall : appends[k]? = some call) (hreply : call.reply = some reply)
      (hrf : srv.rf.handleAppendReply p bc.term bc.end_ call.args reply = some (rf, v))
      (hpoll : poll.phase = Function.update bc.poll.phase p v.phase) :
      Acts cfg votes appends srv (.peerReturn b p)
        { server :=
            { srv with
              rf := rf, broadcasts := srv.broadcasts.set b { bc with poll := poll } } }
  | peerRecv {b p : ℕ} {v : Bool} {bc : Broadcast n} {poll : Poll n (Option ℕ)}
      (hbc : srv.broadcasts[b]? = some bc) (hph : bc.poll.phase p = .sending v)
      (hpoll : poll.phase = Function.update bc.poll.phase p (.finished v)) :
      Acts cfg votes appends srv (.peerRecv b p)
        { server := { srv with broadcasts := srv.broadcasts.set b { bc with poll := poll } } }
  | peerDecide {b : ℕ} {bc : Broadcast n} (hbc : srv.broadcasts[b]? = some bc)
      (hd : bc.poll.deciding = true) :
      Acts cfg votes appends srv (.peerDecide b)
        { server :=
            { srv with
              rf := srv.rf.commit bc.term bc.end_
              broadcasts := srv.broadcasts.set b { bc with poll := bc.poll.decided } } }
  | applyLog {rf : Raft Cmd} {msg : ApplyMsg Cmd} (h : srv.rf.applyLog = some (rf, msg)) :
      Acts cfg votes appends srv .applyLog
        { server := { srv with rf := rf }, applyMsg := some msg }
  | snapshot {index : ℕ} {data : List (GobValue Cmd)} {c : Raft.SnapshotCall Cmd}
      (hidx : index ≤ srv.rf.lastApplied) (hc : srv.rf.snapshotRead index data = some c) :
      Acts cfg votes appends srv (.snapshot index data)
        { server := { srv with snapshots := srv.snapshots ++ [c] } }
  | snapshotPublish {j : ℕ} {c : Raft.SnapshotCall Cmd} (hc : srv.snapshots[j]? = some c)
      (hp : c.published = false) :
      Acts cfg votes appends srv (.snapshotPublish j)
        { server :=
            { srv with
              rf := srv.rf.snapshotPublish c
              snapshots := srv.snapshots.set j { c with published := true } } }
  | snapshotTrim {j : ℕ} {c : Raft.SnapshotCall Cmd} {rf : Raft Cmd}
      (hc : srv.snapshots[j]? = some c) (hp : c.published = true)
      (hrf : srv.rf.snapshotTrim cfg c = some rf) :
      Acts cfg votes appends srv (.snapshotTrim j)
        { server := { srv with rf := rf, snapshots := srv.snapshots.eraseIdx j } }

variable {cfg : Config} {votes : List (VoteCall Cmd)} {appends : List (AppendCall Cmd)}
  {srv : Server n Cmd} {a : LocalAction Cmd} {eff : Effect n Cmd}

/-! ### The steps of a peer, one by one -/

lemma snapshot_eq_some {index : ℕ} {data : List (GobValue Cmd)}
    (h : srv.snapshot index data = some eff) :
    index ≤ srv.rf.lastApplied ∧ ∃ c, srv.rf.snapshotRead index data = some c ∧
      eff = { server := { srv with snapshots := srv.snapshots ++ [c] } } := by
  simp only [snapshot] at h
  split_ifs at h with hidx
  split at h <;> cases h
  rename_i c hc
  exact ⟨hidx, c, hc, rfl⟩

lemma acts_of_electionCheck (h : srv.electionCheck = some eff) :
    srv.Acts cfg votes appends .electionCheck eff := by
  simp only [electionCheck] at h
  split at h <;> cases h
  exact .quiet _ rfl rfl rfl rfl rfl

lemma acts_of_electionStart (h : srv.electionStart = some eff) :
    srv.Acts cfg votes appends .electionStart eff := by
  simp only [electionStart] at h
  split at h
  · cases h
  · rename_i m _
    have hterm : (srv.rf.becomeCandidate (srv.rf.currentTerm + 1)).currentTerm =
        srv.rf.currentTerm + 1 := by simp [Raft.becomeCandidate]
    have hme : (srv.rf.becomeCandidate (srv.rf.currentTerm + 1)).me = srv.rf.me := by
      simp [Raft.becomeCandidate]
    have hlast : (srv.rf.becomeCandidate (srv.rf.currentTerm + 1)).getLastLogEntryTermIndex =
        srv.rf.getLastLogEntryTermIndex := by
      simp [Raft.becomeCandidate, Raft.getLastLogEntryTermIndex]
    rw [hterm, hme, hlast] at h
    cases h
    exact .electionStart m

lemma acts_of_voteCall {e p : ℕ} (h : srv.voteCall votes.length e p = some eff) :
    srv.Acts cfg votes appends (.voteCall e p) eff := by
  simp only [voteCall] at h
  split at h
  · cases h
  · rename_i el hel
    split at h
    · rename_i hph
      split at h <;> cases h
      rename_i poll hpoll
      exact .voteCall hel hph (Poll.phase_of_move hpoll)
    · cases h

lemma acts_of_voteRetry {e p : ℕ} (h : srv.voteRetry e p = some eff) :
    srv.Acts cfg votes appends (.voteRetry e p) eff := by
  simp only [voteRetry] at h
  split at h
  · cases h
  · rename_i el hel
    split at h
    · rename_i k hph
      split at h <;> cases h
      rename_i poll hpoll
      exact .voteRetry hel hph (Poll.phase_of_move hpoll)
    · cases h

lemma acts_of_voteReturn {e p : ℕ} (h : srv.voteReturn votes e p = some eff) :
    srv.Acts cfg votes appends (.voteReturn e p) eff := by
  simp only [voteReturn] at h
  split at h
  · cases h
  · rename_i el hel
    split at h
    · rename_i k hph
      split at h
      · cases h
      · rename_i reply hreply
        obtain ⟨call, hcall, hreply⟩ := Option.bind_eq_some_iff.mp hreply
        split at h <;> cases h
        rename_i poll hpoll
        exact .voteReturn hel hph hcall hreply (Poll.phase_of_move hpoll)
    · cases h

lemma acts_of_voteRecv {e p : ℕ} (h : srv.voteRecv e p = some eff) :
    srv.Acts cfg votes appends (.voteRecv e p) eff := by
  simp only [voteRecv] at h
  split at h
  · cases h
  · rename_i el hel
    split at h <;> cases h
    rename_i poll hpoll
    obtain ⟨b, hph, hphase⟩ := Poll.phase_of_recv hpoll
    exact .voteRecv hel hph hphase

lemma acts_of_voteDecide {e : ℕ} (h : srv.voteDecide cfg e = some eff) :
    srv.Acts cfg votes appends (.voteDecide e) eff := by
  simp only [voteDecide] at h
  split at h
  · cases h
  · rename_i el hel
    split_ifs at h with hd hwin <;> cases h
    · exact .voteWin hel hd hwin.1 hwin.2
    · exact .voteLose hel hd hwin

lemma acts_of_beatCheck (h : srv.beatCheck = some eff) :
    srv.Acts cfg votes appends .beatCheck eff := by
  simp only [beatCheck] at h
  split at h <;> cases h
  exact .quiet _ rfl rfl rfl rfl rfl

lemma acts_of_beatFire (h : srv.beatFire = some eff) :
    srv.Acts cfg votes appends .beatFire eff := by
  simp only [beatFire] at h
  split at h <;> cases h
  exact .quiet _ rfl rfl rfl rfl rfl

lemma acts_of_heartbeatStart (h : srv.heartbeatStart = some eff) :
    srv.Acts cfg votes appends .heartbeatStart eff := by
  simp only [heartbeatStart] at h
  split at h <;> cases h
  exact .heartbeatStart _

lemma acts_of_heartbeatCall {i p : ℕ} (h : srv.heartbeatCall appends.length i p = some eff) :
    srv.Acts cfg votes appends (.heartbeatCall i p) eff := by
  simp only [heartbeatCall] at h
  split at h
  · cases h
  · rename_i hb hhb
    split at h
    · rename_i hph
      split_ifs at h with hstate
      · cases h
        exact .heartbeatStop hhb hph hstate
      · split at h <;> cases h
        rename_i args hargs
        exact .heartbeatCall hhb hph (not_not.mp hstate) hargs
    · cases h

lemma acts_of_heartbeatRetry {i p : ℕ} (h : srv.heartbeatRetry i p = some eff) :
    srv.Acts cfg votes appends (.heartbeatRetry i p) eff := by
  simp only [heartbeatRetry] at h
  split at h
  · cases h
  · rename_i hb hhb
    split at h <;> cases h
    rename_i k hph
    exact .heartbeatRetry hhb hph

lemma acts_of_heartbeatReturn {i p : ℕ} (h : srv.heartbeatReturn appends i p = some eff) :
    srv.Acts cfg votes appends (.heartbeatReturn i p) eff := by
  simp only [heartbeatReturn] at h
  split at h
  · cases h
  · rename_i hb hhb
    split at h
    · rename_i k hph
      split at h <;> cases h
      rename_i reply hreply
      obtain ⟨call, hcall, hreply⟩ := Option.bind_eq_some_iff.mp hreply
      exact .heartbeatReturn hhb hph hcall hreply
    · cases h

lemma acts_start (command : Option Cmd) :
    srv.Acts cfg votes appends (.start command) (srv.start cfg command) := by
  by_cases hstate : srv.rf.state = .leader
  · have hres : (srv.rf.Start cfg command).2 =
        (srv.rf.log.len + srv.rf.X, srv.rf.currentTerm, true) := by
      simp [Raft.Start, hstate]
    simp only [start, hres, if_true]
    exact .start _ hstate
  · have hres : (srv.rf.Start cfg command).2.2.2 = false := by
      simp [Raft.Start, hstate]
    simp only [start, hres]
    exact .quiet _ rfl rfl rfl rfl rfl

lemma acts_of_broadcastStart (h : srv.broadcastStart = some eff) :
    srv.Acts cfg votes appends .broadcastStart eff := by
  simp only [broadcastStart] at h
  split at h <;> cases h
  exact .broadcastStart _

lemma acts_of_peerNext {b p : ℕ} (h : srv.peerNext b p = some eff) :
    srv.Acts cfg votes appends (.peerNext b p) eff := by
  simp only [peerNext] at h
  split at h
  · cases h
  · rename_i bc hbc
    split at h
    · rename_i start hph hnext
      split at h <;> cases h
      rename_i poll hpoll
      exact .peerNext hbc hph hnext (Poll.phase_of_move hpoll)
    · cases h

lemma acts_of_peerCall {b p : ℕ} (h : srv.peerCall appends.length b p = some eff) :
    srv.Acts cfg votes appends (.peerCall b p) eff := by
  simp only [peerCall] at h
  split at h
  · cases h
  · rename_i bc hbc
    split at h
    · rename_i start next hph hnext
      split_ifs at h with hguard
      · split at h <;> cases h
        rename_i poll hpoll
        exact .peerGiveUp hbc hph hnext hguard (Poll.phase_of_move hpoll)
      · split at h <;> cases h
        rename_i args poll hargs hpoll
        exact .peerCall hbc hph hnext hguard hargs (Poll.phase_of_move hpoll)
    · cases h

lemma acts_of_peerRetry {b p : ℕ} (h : srv.peerRetry b p = some eff) :
    srv.Acts cfg votes appends (.peerRetry b p) eff := by
  simp only [peerRetry] at h
  split at h
  · cases h
  · rename_i bc hbc
    split at h
    · rename_i l k hph
      split at h <;> cases h
      rename_i poll hpoll
      exact .peerRetry hbc hph (Poll.phase_of_move hpoll)
    · cases h

lemma acts_of_peerReturn {b p : ℕ} (h : srv.peerReturn appends b p = some eff) :
    srv.Acts cfg votes appends (.peerReturn b p) eff := by
  simp only [peerReturn] at h
  split at h
  · cases h
  · rename_i bc hbc
    split at h
    · rename_i l k hph
      split at h
      · cases h
      · rename_i call hcall
        split at h
        · cases h
        · rename_i reply hreply
          split at h
          · cases h
          · rename_i rf v hrf
            split at h <;> cases h
            rename_i poll hpoll
            exact .peerReturn hbc hph hcall hreply hrf (Poll.phase_of_move hpoll)
    · cases h

lemma acts_of_peerRecv {b p : ℕ} (h : srv.peerRecv b p = some eff) :
    srv.Acts cfg votes appends (.peerRecv b p) eff := by
  simp only [peerRecv] at h
  split at h
  · cases h
  · rename_i bc hbc
    split at h <;> cases h
    rename_i poll hpoll
    obtain ⟨v, hph, hphase⟩ := Poll.phase_of_recv hpoll
    exact .peerRecv hbc hph hphase

lemma acts_of_peerDecide {b : ℕ} (h : srv.peerDecide b = some eff) :
    srv.Acts cfg votes appends (.peerDecide b) eff := by
  simp only [peerDecide] at h
  split at h
  · cases h
  · rename_i bc hbc
    split_ifs at h with hd
    cases h
    exact .peerDecide hbc hd

lemma acts_of_applyLog (h : srv.applyLog = some eff) :
    srv.Acts cfg votes appends .applyLog eff := by
  simp only [applyLog] at h
  split at h <;> cases h
  rename_i rf msg hrf
  exact .applyLog hrf

lemma acts_of_snapshotPublish {j : ℕ} (h : srv.snapshotPublish j = some eff) :
    srv.Acts cfg votes appends (.snapshotPublish j) eff := by
  simp only [snapshotPublish] at h
  split at h
  · cases h
  · rename_i c hc
    split_ifs at h with hp
    cases h
    exact .snapshotPublish hc (by simpa using hp)

lemma acts_of_snapshotTrim {j : ℕ} (h : srv.snapshotTrim cfg j = some eff) :
    srv.Acts cfg votes appends (.snapshotTrim j) eff := by
  simp only [snapshotTrim] at h
  split at h
  · cases h
  · rename_i c hc
    split_ifs at h with hp
    split at h <;> cases h
    rename_i rf hrf
    exact .snapshotTrim hc hp hrf

lemma acts_of_act (h : srv.act cfg votes appends a = some eff) :
    srv.Acts cfg votes appends a eff := by
  cases a with
  | tick =>
    cases h
    exact .quiet _ rfl rfl rfl rfl rfl
  | electionCheck => exact acts_of_electionCheck h
  | electionStart => exact acts_of_electionStart h
  | voteCall e p => exact acts_of_voteCall h
  | voteRetry e p => exact acts_of_voteRetry h
  | voteReturn e p => exact acts_of_voteReturn h
  | voteRecv e p => exact acts_of_voteRecv h
  | voteDecide e => exact acts_of_voteDecide h
  | beatCheck => exact acts_of_beatCheck h
  | beatFire => exact acts_of_beatFire h
  | heartbeatStart => exact acts_of_heartbeatStart h
  | heartbeatCall i p => exact acts_of_heartbeatCall h
  | heartbeatRetry i p => exact acts_of_heartbeatRetry h
  | heartbeatReturn i p => exact acts_of_heartbeatReturn h
  | start command =>
    cases h
    exact acts_start command
  | broadcastStart => exact acts_of_broadcastStart h
  | peerNext b p => exact acts_of_peerNext h
  | peerCall b p => exact acts_of_peerCall h
  | peerRetry b p => exact acts_of_peerRetry h
  | peerReturn b p => exact acts_of_peerReturn h
  | peerRecv b p => exact acts_of_peerRecv h
  | peerDecide b => exact acts_of_peerDecide h
  | applyLog => exact acts_of_applyLog h
  | snapshot index data =>
    obtain ⟨hidx, c, hc, rfl⟩ := snapshot_eq_some h
    exact .snapshot hidx hc
  | snapshotPublish j => exact acts_of_snapshotPublish h
  | snapshotTrim j => exact acts_of_snapshotTrim h

/-! ### What follows from a step of a peer -/

/-- A step that makes no entry, sends nothing on `applyCh` and leaves the calls of `Snapshot`
alone. -/
structure Silent (srv : Server n Cmd) (eff : Effect n Cmd) : Prop where
  created : eff.created = none
  applyMsg : eff.applyMsg = none
  snapshots : eff.server.snapshots = srv.snapshots

/-- What a step of one peer does, what its goroutines note apart. -/
inductive Change (cfg : Config) (srv : Server n Cmd) (a : LocalAction Cmd) (eff : Effect n Cmd) :
    Prop
  | idle (hs : srv.Silent eff) (hrf : eff.server.rf = srv.rf)
  | campaign (hs : srv.Silent eff)
      (hrf : eff.server.rf = srv.rf.becomeCandidate (srv.rf.currentTerm + 1))
  | win (hs : srv.Silent eff) (hstate : srv.rf.state = .candidate)
      (hleader : eff.leader = some srv.rf.currentTerm)
      (hrf : eff.server.rf = srv.rf.becomeLeader cfg)
  | stepDown {term : ℕ} (hs : srv.Silent eff) (hterm : srv.rf.currentTerm < term)
      (hrf : eff.server.rf = srv.rf.becomeFollower term none)
  | advance {b : Broadcast n} {p : ℕ} (hs : srv.Silent eff) (hb : b ∈ srv.broadcasts)
      (hterm : srv.rf.currentTerm = b.term) (hrf : eff.server.rf = srv.rf.advanceNext p b.end_)
  | commit {i : ℕ} {b : Broadcast n} (ha : a = .peerDecide i) (hs : srv.Silent eff)
      (hrf : eff.server.rf = srv.rf.commit b.term b.end_)
  | start {command : Option Cmd} (ha : a = .start command) (hstate : srv.rf.state = .leader)
      (hrf : eff.server.rf = (srv.rf.Start cfg command).1)
      (hb : eff.server.broadcasts = srv.broadcasts) (hs : eff.server.snapshots = srv.snapshots)
      (hmsg : eff.applyMsg = none)
      (hcreated : eff.created = some ⟨srv.rf.currentTerm, srv.rf.log.len + srv.rf.X, command⟩)
  | applyLog {msg : ApplyMsg Cmd} (happly : srv.rf.applyLog = some (eff.server.rf, msg))
      (hmsg : eff.applyMsg = some msg) (hs : eff.server.snapshots = srv.snapshots)
      (hcreated : eff.created = none)
  | read {index : ℕ} {data : List (GobValue Cmd)} {c : Raft.SnapshotCall Cmd}
      (ha : a = .snapshot index data) (hidx : index ≤ srv.rf.lastApplied)
      (hread : srv.rf.snapshotRead index data = some c)
      (heff : eff = { server := { srv with snapshots := srv.snapshots ++ [c] } })
  | publish {j : ℕ} {c : Raft.SnapshotCall Cmd} (ha : a = .snapshotPublish j)
      (hc : srv.snapshots[j]? = some c) (hp : c.published = false)
      (heff : eff =
        { server :=
            { srv with
              rf := srv.rf.snapshotPublish c
              snapshots := srv.snapshots.set j { c with published := true } } })
  | trim {j : ℕ} {c : Raft.SnapshotCall Cmd} {rf : Raft Cmd} (ha : a = .snapshotTrim j)
      (hc : srv.snapshots[j]? = some c) (hp : c.published = true)
      (hrf : srv.rf.snapshotTrim cfg c = some rf)
      (heff : eff = { server := { srv with rf := rf, snapshots := srv.snapshots.eraseIdx j } })

lemma Acts.change (h : srv.Acts cfg votes appends a eff) : srv.Change cfg a eff := by
  cases h with
  | quiet srv' hrf _ _ _ hs => exact .idle ⟨rfl, rfl, hs⟩ hrf
  | electionStart => exact .campaign ⟨rfl, rfl, rfl⟩ rfl
  | voteReturn =>
    simp only [Raft.handleVoteReply]
    split_ifs with _ hgt
    · exact .idle ⟨rfl, rfl, rfl⟩ rfl
    · exact .stepDown ⟨rfl, rfl, rfl⟩ hgt rfl
    · exact .idle ⟨rfl, rfl, rfl⟩ rfl
  | voteWin _ _ hstate _ => exact .win ⟨rfl, rfl, rfl⟩ hstate rfl rfl
  | heartbeatReturn =>
    simp only [Raft.handleHeartbeatReply]
    split_ifs with hgt
    · exact .stepDown ⟨rfl, rfl, rfl⟩ hgt rfl
    · exact .idle ⟨rfl, rfl, rfl⟩ rfl
  | start _ hstate => exact .start rfl hstate rfl rfl rfl rfl rfl
  | peerReturn hbc _ _ _ hrf _ =>
    rcases Raft.handleAppendReply_rf hrf with rfl | ⟨hgt, rfl⟩ | ⟨hterm, rfl⟩
    · exact .idle ⟨rfl, rfl, rfl⟩ rfl
    · exact .stepDown ⟨rfl, rfl, rfl⟩ hgt rfl
    · exact .advance ⟨rfl, rfl, rfl⟩ (List.mem_of_getElem? hbc) hterm rfl
  | peerDecide _ _ => exact .commit rfl ⟨rfl, rfl, rfl⟩ rfl
  | applyLog h => exact .applyLog h rfl rfl rfl
  | snapshot hidx hread => exact .read rfl hidx hread rfl
  | snapshotPublish hc hp => exact .publish rfl hc hp rfl
  | snapshotTrim hc hp hrf => exact .trim rfl hc hp hrf rfl
  | _ => exact .idle ⟨rfl, rfl, rfl⟩ rfl

/-- What a step of one peer does to its state. -/
lemma Acts.rf_step (h : srv.Acts cfg votes appends a eff) :
    Raft.Step cfg srv.rf eff.server.rf := by
  cases h.change with
  | idle _ hrf => exact hrf ▸ .idle
  | campaign _ hrf => exact hrf ▸ .campaign
  | win _ hstate _ hrf => exact hrf ▸ .win hstate
  | stepDown _ hterm hrf => exact hrf ▸ .stepDown hterm
  | advance _ _ _ hrf => exact hrf ▸ .advance
  | commit _ _ hrf => exact hrf ▸ .commit
  | start _ hstate hrf => exact hrf ▸ .start hstate
  | applyLog happly => exact .applyLog happly
  | read _ _ _ heff => exact heff ▸ .idle
  | publish _ _ _ heff => exact heff ▸ .publish
  | trim _ _ _ hrf heff => exact heff ▸ .trim hrf

/-- Where the `appendEntries` of a peer come from: what one has captured never changes, and a new
one captures the current state. -/
lemma Acts.mem_broadcasts (h : srv.Acts cfg votes appends a eff) {b : Broadcast n}
    (hb : b ∈ eff.server.broadcasts) :
    (∃ b₀ ∈ srv.broadcasts, b.term = b₀.term ∧ b.leaderCommit = b₀.leaderCommit ∧
        b.end_ = b₀.end_) ∨
      eff.server.rf = srv.rf ∧ b.term = srv.rf.currentTerm ∧
        b.leaderCommit = srv.rf.commitIndex ∧
        b.end_ = srv.rf.sliceIndex2logIndex (srv.rf.log.len - 1) := by
  have hold : b ∈ srv.broadcasts → ∃ b₀ ∈ srv.broadcasts, b.term = b₀.term ∧
      b.leaderCommit = b₀.leaderCommit ∧ b.end_ = b₀.end_ := fun hb => ⟨b, hb, rfl, rfl, rfl⟩
  have hset : ∀ {i : ℕ} {b₀ : Broadcast n} {poll : Poll n (Option ℕ)},
      srv.broadcasts[i]? = some b₀ → b ∈ srv.broadcasts.set i { b₀ with poll := poll } →
      ∃ b₀ ∈ srv.broadcasts, b.term = b₀.term ∧ b.leaderCommit = b₀.leaderCommit ∧
        b.end_ = b₀.end_ := by
    intro i b₀ poll hi hb
    rcases List.mem_or_eq_of_mem_set hb with hb | rfl
    · exact hold hb
    · exact ⟨b₀, List.mem_of_getElem? hi, rfl, rfl, rfl⟩
  cases h with
  | quiet srv' _ _ _ hbs _ => exact .inl (hold (hbs ▸ hb))
  | broadcastStart m =>
    rcases List.mem_append.mp hb with hb | hb
    · exact .inl (hold hb)
    · obtain rfl := List.mem_singleton.mp hb
      exact .inr ⟨rfl, rfl, rfl, rfl⟩
  | peerNext hi | peerGiveUp hi | peerCall hi | peerRetry hi | peerReturn hi | peerRecv hi
  | peerDecide hi => exact .inl (hset hi hb)
  | _ => exact .inl (hold hb)

/-- Where the elections of a peer come from. -/
lemma Acts.mem_elections (h : srv.Acts cfg votes appends a eff) {el : Election n}
    (hel : el ∈ eff.server.elections) :
    (∃ el₀ ∈ srv.elections, el.term = el₀.term ∧ el.lastLogTerm = el₀.lastLogTerm ∧
        el.lastLogIndex = el₀.lastLogIndex) ∨
      eff.server.rf = srv.rf.becomeCandidate (srv.rf.currentTerm + 1) ∧
        el.term = srv.rf.currentTerm + 1 ∧
        (el.lastLogTerm, el.lastLogIndex) = srv.rf.getLastLogEntryTermIndex := by
  have hold : el ∈ srv.elections → ∃ el₀ ∈ srv.elections, el.term = el₀.term ∧
      el.lastLogTerm = el₀.lastLogTerm ∧ el.lastLogIndex = el₀.lastLogIndex :=
    fun hel => ⟨el, hel, rfl, rfl, rfl⟩
  have hset : ∀ {i : ℕ} {el₀ : Election n} {poll : Poll n Unit}, srv.elections[i]? = some el₀ →
      el ∈ srv.elections.set i { el₀ with poll := poll } → ∃ el₀ ∈ srv.elections,
        el.term = el₀.term ∧ el.lastLogTerm = el₀.lastLogTerm ∧
        el.lastLogIndex = el₀.lastLogIndex := by
    intro i el₀ poll hi hel
    rcases List.mem_or_eq_of_mem_set hel with hel | rfl
    · exact hold hel
    · exact ⟨el₀, List.mem_of_getElem? hi, rfl, rfl, rfl⟩
  cases h with
  | quiet srv' _ he _ _ _ => exact .inl (hold (he ▸ hel))
  | electionStart m =>
    rcases List.mem_append.mp hel with hel | hel
    · exact .inl (hold hel)
    · obtain rfl := List.mem_singleton.mp hel
      exact .inr ⟨rfl, rfl, rfl⟩
  | voteCall hi | voteRetry hi | voteReturn hi | voteRecv hi | voteLose hi | voteWin hi =>
    exact .inl (hset hi hel)
  | _ => exact .inl (hold hel)

/-- Where the heartbeats of a peer come from. -/
lemma Acts.mem_heartbeats (h : srv.Acts cfg votes appends a eff) {hb : Heartbeat}
    (hhb : hb ∈ eff.server.heartbeats) :
    (∃ hb₀ ∈ srv.heartbeats, hb.term = hb₀.term ∧ hb.commitIndex = hb₀.commitIndex) ∨
      eff.server.rf = srv.rf ∧ hb.term = srv.rf.currentTerm ∧
        hb.commitIndex = srv.rf.commitIndex := by
  have hold : hb ∈ srv.heartbeats →
      ∃ hb₀ ∈ srv.heartbeats, hb.term = hb₀.term ∧ hb.commitIndex = hb₀.commitIndex :=
    fun hhb => ⟨hb, hhb, rfl, rfl⟩
  have hset : ∀ {i : ℕ} {hb₀ : Heartbeat} {phase : ℕ → Phase Unit},
      srv.heartbeats[i]? = some hb₀ → hb ∈ srv.heartbeats.set i { hb₀ with phase := phase } →
      ∃ hb₀ ∈ srv.heartbeats, hb.term = hb₀.term ∧ hb.commitIndex = hb₀.commitIndex := by
    intro i hb₀ phase hi hhb
    rcases List.mem_or_eq_of_mem_set hhb with hhb | rfl
    · exact hold hhb
    · exact ⟨hb₀, List.mem_of_getElem? hi, rfl, rfl⟩
  cases h with
  | quiet srv' _ _ hh _ _ => exact .inl (hold (hh ▸ hhb))
  | heartbeatStart m =>
    rcases List.mem_append.mp hhb with hhb | hhb
    · exact .inl (hold hhb)
    · obtain rfl := List.mem_singleton.mp hhb
      exact .inr ⟨rfl, rfl, rfl⟩
  | heartbeatStop hi | heartbeatCall hi | heartbeatRetry hi | heartbeatReturn hi =>
    exact .inl (hset hi hhb)
  | _ => exact .inl (hold hhb)

/-- How the goroutine for peer `p` of one `appendEntries` comes to be engaged. -/
inductive PhaseMove (appends : List (AppendCall Cmd)) (srv : Server n Cmd) (eff : Effect n Cmd)
    (p : ℕ) (b : Broadcast n) : Phase (Option ℕ) → Prop
  | same : PhaseMove appends srv eff p b (b.poll.phase p)
  | call {start next : ℕ} {args : AppendEntriesArgs Cmd}
      (hnext : srv.rf.nextIndex[p]? = some next) (hguard : ¬ srv.rf.givesUp start next b.end_)
      (hargs : srv.rf.appendRequest b.term b.leaderCommit start b.end_ = some args)
      (hcall : eff.appendCall =
        some { src := srv.rf.me, dst := p, sender := srv.rf, args := args }) :
      PhaseMove appends srv eff p b (.calling (some start) appends.length)
  | accept {l : Option ℕ} {k : ℕ} {call : AppendCall Cmd} {reply : AppendEntriesReply}
      (hph : b.poll.phase p = .calling l k) (hcall : appends[k]? = some call)
      (hreply : call.reply = some reply)
      (hrf : srv.rf.handleAppendReply p b.term b.end_ call.args reply =
        some (eff.server.rf, .report true)) :
      PhaseMove appends srv eff p b (.sending true)
  | recv (hph : b.poll.phase p = .sending true) : PhaseMove appends srv eff p b (.finished true)

lemma Acts.phase_move (h : srv.Acts cfg votes appends a eff) {b : Broadcast n}
    (hb : b ∈ eff.server.broadcasts) (p : ℕ) :
    (b.poll.phase p).engaged = false ∨
      ∃ b₀ ∈ srv.broadcasts, b.term = b₀.term ∧ b.end_ = b₀.end_ ∧
        PhaseMove appends srv eff p b₀ (b.poll.phase p) := by
  have hold : b ∈ srv.broadcasts → ∃ b₀ ∈ srv.broadcasts, b.term = b₀.term ∧
      b.end_ = b₀.end_ ∧ PhaseMove appends srv eff p b₀ (b.poll.phase p) :=
    fun hb => ⟨b, hb, rfl, rfl, .same⟩
  have hset : ∀ {i q : ℕ} {b₀ : Broadcast n} {poll : Poll n (Option ℕ)} {ph : Phase (Option ℕ)},
      srv.broadcasts[i]? = some b₀ → poll.phase = Function.update b₀.poll.phase q ph →
      (ph.engaged = false ∨ PhaseMove appends srv eff q b₀ ph) →
      b ∈ srv.broadcasts.set i { b₀ with poll := poll } → (b.poll.phase p).engaged = false ∨
        ∃ b₀ ∈ srv.broadcasts, b.term = b₀.term ∧ b.end_ = b₀.end_ ∧
          PhaseMove appends srv eff p b₀ (b.poll.phase p) := by
    intro i q b₀ poll ph hi hpoll hph hb
    rcases List.mem_or_eq_of_mem_set hb with hb | rfl
    · exact .inr (hold hb)
    · simp only [hpoll]
      rcases eq_or_ne p q with rfl | hne
      · rw [Function.update_self]
        exact hph.imp_right fun hm => ⟨b₀, List.mem_of_getElem? hi, rfl, rfl, hm⟩
      · rw [Function.update_of_ne hne]
        exact .inr ⟨b₀, List.mem_of_getElem? hi, rfl, rfl, .same⟩
  cases h with
  | quiet srv' _ _ _ hbs _ => exact .inr (hold (hbs ▸ hb))
  | broadcastStart m =>
    rcases List.mem_append.mp hb with hb | hb
    · exact .inr (hold hb)
    · obtain rfl := List.mem_singleton.mp hb
      left
      simp only [Poll.launch]
      split_ifs <;> rfl
  | peerNext hi _ _ hpoll | peerGiveUp hi _ _ _ hpoll | peerRetry hi _ hpoll =>
    exact hset hi hpoll (.inl rfl) hb
  | peerCall hi _ hnext hguard hargs hpoll =>
    exact hset hi hpoll (.inr (.call hnext hguard hargs rfl)) hb
  | @peerReturn _ _ _ _ _ _ _ _ _ v hi hph hcall hreply hrf hpoll =>
    refine hset hi hpoll ?_ hb
    cases v with
    | report b =>
      cases b with
      | true => exact .inr (.accept hph hcall hreply hrf)
      | false => exact .inl rfl
    | retry => exact .inl rfl
  | @peerRecv _ _ v _ _ hi hph hpoll =>
    refine hset hi hpoll ?_ hb
    cases v with
    | true => exact .inr (.recv hph)
    | false => exact .inl rfl
  | @peerDecide _ bc hi _ =>
    rcases List.mem_or_eq_of_mem_set hb with hb | rfl
    · exact .inr (hold hb)
    · exact .inr ⟨bc, List.mem_of_getElem? hi, rfl, rfl, .same⟩
  | _ => exact .inr (hold hb)

/-- A step of a peer changes its log only by `Start` and by `Snapshot`. -/
lemma Acts.log_X (h : srv.Acts cfg votes appends a eff) :
    eff.server.rf.log = srv.rf.log ∧ eff.server.rf.X = srv.rf.X ∧ eff.created = none ∨
      (∃ command, a = .start command ∧ srv.rf.state = .leader ∧
        eff.server.rf = (srv.rf.Start cfg command).1 ∧
        eff.server.broadcasts = srv.broadcasts ∧
        eff.created = some ⟨srv.rf.currentTerm, srv.rf.log.len + srv.rf.X, command⟩) ∨
      ∃ j c, a = .snapshotTrim j ∧ srv.snapshots[j]? = some c ∧
        srv.rf.snapshotTrim cfg c = some eff.server.rf := by
  cases h.change with
  | idle hs hrf => exact .inl ⟨by rw [hrf], by rw [hrf], hs.created⟩
  | campaign hs hrf => exact .inl (by simp [hrf, hs.created, Raft.becomeCandidate])
  | win hs _ _ hrf => exact .inl (by simp [hrf, hs.created, Raft.becomeLeader])
  | stepDown hs _ hrf => exact .inl (by simp [hrf, hs.created, Raft.becomeFollower])
  | @advance b p hs _ _ hrf =>
    obtain ⟨next, matched, h⟩ := srv.rf.advanceNext_eq p b.end_
    exact .inl (by simp [hrf, hs.created, h])
  | @commit _ b _ hs hrf =>
    obtain ⟨c, h⟩ := srv.rf.commit_eq b.term b.end_
    exact .inl (by simp [hrf, hs.created, h])
  | start ha hstate hrf hb _ _ hcreated =>
    exact .inr (.inl ⟨_, ha, hstate, hrf, hb, hcreated⟩)
  | applyLog happly _ _ hcreated =>
    obtain ⟨-, hrf, -⟩ := Raft.applyLog_eq_some happly
    exact .inl ⟨by rw [hrf], by rw [hrf], hcreated⟩
  | read _ _ _ heff | publish _ _ _ heff => exact .inl (heff ▸ ⟨rfl, rfl, rfl⟩)
  | trim ha hc _ hrf heff => exact .inr (.inr ⟨_, _, ha, hc, by rw [hrf, heff]⟩)

/-- What a step of a peer does to the commit index and to what has been applied: only a counting
goroutine moves the one, and only `applyLog` the other. -/
lemma Acts.progress (h : srv.Acts cfg votes appends a eff) :
    (eff.server.rf.commitIndex = srv.rf.commitIndex ∨ ∃ b, a = .peerDecide b) ∧
        eff.server.rf.lastApplied = srv.rf.lastApplied ∧ eff.applyMsg = none ∨
      ∃ msg, srv.rf.applyLog = some (eff.server.rf, msg) ∧ eff.applyMsg = some msg := by
  cases h.change with
  | idle hs hrf => exact .inl ⟨.inl (by rw [hrf]), by rw [hrf], hs.applyMsg⟩
  | campaign hs hrf => exact .inl (by simp [hrf, hs.applyMsg, Raft.becomeCandidate])
  | win hs _ _ hrf => exact .inl (by simp [hrf, hs.applyMsg, Raft.becomeLeader])
  | stepDown hs _ hrf => exact .inl (by simp [hrf, hs.applyMsg, Raft.becomeFollower])
  | @advance b p hs _ _ hrf =>
    obtain ⟨next, matched, h⟩ := srv.rf.advanceNext_eq p b.end_
    exact .inl (by simp [hrf, hs.applyMsg, h])
  | @commit _ b ha hs hrf =>
    obtain ⟨c, h⟩ := srv.rf.commit_eq b.term b.end_
    exact .inl ⟨.inr ⟨_, ha⟩, by simp [hrf, h], hs.applyMsg⟩
  | start _ hstate hrf _ _ hmsg =>
    exact .inl (by simp [hrf, hmsg, Raft.start_of_leader hstate])
  | applyLog happly hmsg => exact .inr ⟨_, happly, hmsg⟩
  | read _ _ _ heff | publish _ _ _ heff => exact .inl (heff ▸ ⟨.inl rfl, rfl, rfl⟩)
  | trim _ _ _ hrf heff =>
    obtain ⟨rest, -, rfl⟩ := Raft.snapshotTrim_eq_some hrf
    exact .inl (heff ▸ ⟨.inl rfl, rfl, rfl⟩)

lemma Acts.commitIndex_eq (h : srv.Acts cfg votes appends a eff) :
    eff.server.rf.commitIndex = srv.rf.commitIndex ∨ ∃ b, a = .peerDecide b := by
  rcases h.progress with ⟨hc, -⟩ | ⟨msg, happly, -⟩
  · exact hc
  · obtain ⟨-, hrf, -⟩ := Raft.applyLog_eq_some happly
    exact .inl (by rw [hrf])

/-- What a step of a peer does to its calls of `Snapshot` and to its snapshot. -/
inductive SnapshotMove (cfg : Config) (srv : Server n Cmd) :
    LocalAction Cmd → Server n Cmd → Prop
  | keep {a : LocalAction Cmd} {srv' : Server n Cmd} (hs : srv'.snapshots = srv.snapshots)
      (hsnap : srv'.rf.snapshot = srv.rf.snapshot) : SnapshotMove cfg srv a srv'
  | read {index : ℕ} {data : List (GobValue Cmd)} {c : Raft.SnapshotCall Cmd}
      (hidx : index ≤ srv.rf.lastApplied) (hread : srv.rf.snapshotRead index data = some c) :
      SnapshotMove cfg srv (.snapshot index data) { srv with snapshots := srv.snapshots ++ [c] }
  | publish {j : ℕ} {c : Raft.SnapshotCall Cmd} (hc : srv.snapshots[j]? = some c)
      (hp : c.published = false) :
      SnapshotMove cfg srv (.snapshotPublish j)
        { srv with
          rf := srv.rf.snapshotPublish c
          snapshots := srv.snapshots.set j { c with published := true } }
  | trim {j : ℕ} {c : Raft.SnapshotCall Cmd} {rf : Raft Cmd} (hc : srv.snapshots[j]? = some c)
      (hp : c.published = true) (hrf : srv.rf.snapshotTrim cfg c = some rf) :
      SnapshotMove cfg srv (.snapshotTrim j)
        { srv with rf := rf, snapshots := srv.snapshots.eraseIdx j }

lemma Acts.snapshotMove (h : srv.Acts cfg votes appends a eff) :
    srv.SnapshotMove cfg a eff.server := by
  cases h.change with
  | idle hs hrf => exact .keep hs.snapshots (by rw [hrf])
  | campaign hs hrf => exact .keep hs.snapshots (by simp [hrf, Raft.becomeCandidate])
  | win hs _ _ hrf => exact .keep hs.snapshots (by simp [hrf, Raft.becomeLeader])
  | stepDown hs _ hrf => exact .keep hs.snapshots (by simp [hrf, Raft.becomeFollower])
  | @advance b p hs _ _ hrf =>
    obtain ⟨next, matched, h⟩ := srv.rf.advanceNext_eq p b.end_
    exact .keep hs.snapshots (by simp [hrf, h])
  | @commit _ b _ hs hrf =>
    obtain ⟨c, h⟩ := srv.rf.commit_eq b.term b.end_
    exact .keep hs.snapshots (by simp [hrf, h])
  | start _ hstate hrf _ hs => exact .keep hs (by simp [hrf, Raft.start_of_leader hstate])
  | applyLog happly _ hs =>
    obtain ⟨-, hrf, -⟩ := Raft.applyLog_eq_some happly
    exact .keep hs (by rw [hrf])
  | read ha hidx hread heff => exact ha ▸ heff ▸ .read hidx hread
  | publish ha hc hp heff => exact ha ▸ heff ▸ .publish hc hp
  | trim ha hc hp hrf heff => exact ha ▸ heff ▸ .trim hc hp hrf

/-- Where the calls of `Snapshot` come from: what one has computed never changes. -/
lemma Acts.mem_snapshots (h : srv.Acts cfg votes appends a eff) {c : Raft.SnapshotCall Cmd}
    (hc : c ∈ eff.server.snapshots) :
    (∃ c₀ ∈ srv.snapshots, c.index = c₀.index ∧ c.mergedCommands = c₀.mergedCommands ∧
        c.lastIncludedTerm = c₀.lastIncludedTerm) ∨
      eff.server.rf = srv.rf ∧ ∃ index data, a = .snapshot index data ∧
        index ≤ srv.rf.lastApplied ∧ srv.rf.snapshotRead index data = some c := by
  have hold : c ∈ srv.snapshots → ∃ c₀ ∈ srv.snapshots, c.index = c₀.index ∧
      c.mergedCommands = c₀.mergedCommands ∧ c.lastIncludedTerm = c₀.lastIncludedTerm :=
    fun hc => ⟨c, hc, rfl, rfl, rfl⟩
  have hm := h.snapshotMove
  generalize eff.server = srv' at hc hm
  cases hm with
  | keep hs => exact .inl (hold (hs ▸ hc))
  | read hidx hread =>
    rcases List.mem_append.mp hc with hc | hc
    · exact .inl (hold hc)
    · obtain rfl := List.mem_singleton.mp hc
      exact .inr ⟨rfl, _, _, rfl, hidx, hread⟩
  | publish hj _ =>
    rcases List.mem_or_eq_of_mem_set hc with hc | rfl
    · exact .inl (hold hc)
    · exact .inl ⟨_, List.mem_of_getElem? hj, rfl, rfl, rfl⟩
  | trim => exact .inl (hold (List.mem_of_mem_eraseIdx hc))

/-- Without a call of `Snapshot` none starts, and the snapshot stays as it is. -/
lemma Acts.snapshots_eq_nil (h : srv.Acts cfg votes appends a eff) (hs : srv.snapshots = [])
    (ha : ∀ index data, a ≠ .snapshot index data) :
    eff.server.snapshots = [] ∧ eff.server.rf.snapshot = srv.rf.snapshot := by
  have hm := h.snapshotMove
  generalize eff.server = srv' at hm
  cases hm with
  | keep hs' hsnap => exact ⟨hs'.trans hs, hsnap⟩
  | read => exact absurd rfl (ha _ _)
  | publish hc _ | trim hc _ _ => simp [hs] at hc

end Server

namespace Cluster

/-- The possible steps of the cluster. -/
inductive Moves [Zero Cmd] (cfg : Config) (C : Cluster cfg.peers Cmd) :
    Action Cmd → Cluster cfg.peers Cmd → Prop
  | act {s : ℕ} {a : LocalAction Cmd} {eff : Effect cfg.peers Cmd} (hup : C.Up s)
      (h : (C.servers s).Acts cfg C.voteCalls C.appendCalls a eff) :
      Moves cfg C (.act s a) (C.perform s eff)
  | handleVote {k : ℕ} {call : VoteCall Cmd} (hk : C.voteCalls[k]? = some call)
      (hup : C.Up call.dst) (hnew : call.reply = none) :
      Moves cfg C (.handleVote k)
        { C.setRf call.dst ((C.servers call.dst).rf.RequestVote call.args).1 with
          voteCalls := C.voteCalls.set k
            { call with reply := some ((C.servers call.dst).rf.RequestVote call.args).2 } }
  | handleAppend {k : ℕ} {call : AppendCall Cmd} (hk : C.appendCalls[k]? = some call)
      (hup : C.Up call.dst) (hnew : call.reply = none) :
      Moves cfg C (.handleAppend k)
        { C.setRf call.dst ((C.servers call.dst).rf.AppendEntries cfg call.args).1 with
          appendCalls := C.appendCalls.set k
            { call with reply := some ((C.servers call.dst).rf.AppendEntries cfg call.args).2 } }
  | crash {s : ℕ} (hup : C.Up s) :
      Moves cfg C (.crash s)
        { C with
          servers := Function.update C.servers s (.boot { (C.servers s).rf with dead := true }) }
  | restart {s : ℕ} (hs : s < cfg.peers) (hdead : (C.servers s).rf.dead = true) :
      Moves cfg C (.restart s)
        { C with
          servers := Function.update C.servers s
            (.boot (Raft.Make s (C.servers s).rf.persister)) }

variable [Zero Cmd] {cfg : Config} {C C' : Cluster cfg.peers Cmd} {a : Action Cmd}

lemma moves_of_step (h : C.step cfg a = some C') : C.Moves cfg a C' := by
  cases a with
  | act s a =>
    simp only [step] at h
    split_ifs at h with hup
    split at h <;> cases h
    rename_i eff heff
    exact .act hup (Server.acts_of_act heff)
  | handleVote k =>
    simp only [step] at h
    split at h
    · cases h
    · rename_i call hk
      split_ifs at h with hc
      cases h
      exact .handleVote hk hc.1 (Option.isNone_iff_eq_none.mp hc.2)
  | handleAppend k =>
    simp only [step] at h
    split at h
    · cases h
    · rename_i call hk
      split_ifs at h with hc
      cases h
      exact .handleAppend hk hc.1 (Option.isNone_iff_eq_none.mp hc.2)
  | crash s =>
    simp only [step] at h
    split_ifs at h with hup
    cases h
    exact .crash hup
  | restart s =>
    simp only [step] at h
    split_ifs at h with hc
    cases h
    exact .restart hc.1 hc.2

/-- What a step of the cluster can do to peer `s`. -/
inductive MovesPeer (cfg : Config) (C : Cluster cfg.peers Cmd) (s : ℕ) :
    Action Cmd → Server cfg.peers Cmd → Prop
  | other {a : Action Cmd} : MovesPeer cfg C s a (C.servers s)
  | act {a : LocalAction Cmd} {eff : Effect cfg.peers Cmd} (hup : C.Up s)
      (h : (C.servers s).Acts cfg C.voteCalls C.appendCalls a eff) :
      MovesPeer cfg C s (.act s a) eff.server
  | handleVote {k : ℕ} {call : VoteCall Cmd} (hk : C.voteCalls[k]? = some call) (hup : C.Up s)
      (hdst : call.dst = s) :
      MovesPeer cfg C s (.handleVote k)
        { C.servers s with rf := ((C.servers s).rf.RequestVote call.args).1 }
  | handleAppend {k : ℕ} {call : AppendCall Cmd} (hk : C.appendCalls[k]? = some call)
      (hup : C.Up s) (hdst : call.dst = s) :
      MovesPeer cfg C s (.handleAppend k)
        { C.servers s with rf := ((C.servers s).rf.AppendEntries cfg call.args).1 }
  | crash (hup : C.Up s) :
      MovesPeer cfg C s (.crash s) (.boot { (C.servers s).rf with dead := true })
  | restart (hs : s < cfg.peers) (hdead : (C.servers s).rf.dead = true) :
      MovesPeer cfg C s (.restart s) (.boot (Raft.Make s (C.servers s).rf.persister))

lemma Moves.peer (h : C.Moves cfg a C') (s : ℕ) : C.MovesPeer cfg s a (C'.servers s) := by
  cases h with
  | @act r b eff hup hacts =>
    rcases eq_or_ne s r with rfl | hne
    · simpa only [perform, Function.update_self] using .act hup hacts
    · simpa only [perform, Function.update_of_ne hne] using .other
  | @handleVote k call hk hup _ =>
    rcases eq_or_ne s call.dst with rfl | hne
    · simpa only [setRf, Function.update_self] using .handleVote hk hup rfl
    · simpa only [setRf, Function.update_of_ne hne] using .other
  | @handleAppend k call hk hup _ =>
    rcases eq_or_ne s call.dst with rfl | hne
    · simpa only [setRf, Function.update_self] using .handleAppend hk hup rfl
    · simpa only [setRf, Function.update_of_ne hne] using .other
  | @crash r hup =>
    rcases eq_or_ne s r with rfl | hne
    · simpa only [Function.update_self] using .crash hup
    · simpa only [Function.update_of_ne hne] using .other
  | @restart r hr hdead =>
    rcases eq_or_ne s r with rfl | hne
    · simpa only [Function.update_self] using .restart hr hdead
    · simpa only [Function.update_of_ne hne] using .other

end Cluster

end DistLabs
