import DistLabs.Raft.Steps

/-!
# One peer and its store

A peer on its own, with an environment that may send it any request and answer its calls with
anything. What holds of every run here holds of every peer of a cluster, whatever the others do.

`Raft.Durable` says that the persister decodes to the peer's term, vote and log. It holds whenever
the lock is free. Recovery after a crash gives the state back exactly when no snapshot is involved:
`readPersist` restores neither the snapshot nor `X`.
-/

namespace DistLabs

variable {Cmd : Type*} [Zero Cmd] {cfg : Config}

/-! ### A peer in an arbitrary environment -/

/-- What can happen to a peer. The lists given to `act` are the calls with the replies that the
environment has made up. -/
inductive Input (Cmd : Type*) where
  | act (votes : List (VoteCall Cmd)) (appends : List (AppendCall Cmd)) (a : LocalAction Cmd)
  | requestVote (args : RequestVoteArgs)
  | appendEntries (args : AppendEntriesArgs Cmd)
  | crash
  | restart

def Server.respond (cfg : Config) (srv : Server cfg.peers Cmd) :
    Input Cmd → Option (Server cfg.peers Cmd)
  | .act votes appends a =>
    if srv.rf.dead then none else (srv.act cfg votes appends a).map Effect.server
  | .requestVote args =>
    if srv.rf.dead then none else some { srv with rf := (srv.rf.RequestVote args).1 }
  | .appendEntries args =>
    if srv.rf.dead then none else some { srv with rf := (srv.rf.AppendEntries cfg args).1 }
  | .crash => if srv.rf.dead then none else some (.boot { srv.rf with dead := true })
  | .restart =>
    if srv.rf.dead then some (.boot (Raft.Make srv.rf.me srv.rf.persister)) else none

/-- A peer that has just been made, as a transition system of its own. -/
def peerFrom (cfg : Config) (rf : Raft Cmd) : Machine (Server cfg.peers Cmd) (Input Cmd) :=
  .ofStep (.boot rf) (Server.respond cfg)

/-- Peer `me` with an empty store. -/
def peer (cfg : Config) (me : ℕ) : Machine (Server cfg.peers Cmd) (Input Cmd) :=
  peerFrom cfg (Raft.Make me .empty)

namespace Raft

/-- What can happen to the state of a peer, crashes included. -/
inductive Life (cfg : Config) (rf : Raft Cmd) : Raft Cmd → Prop
  | live {rf' : Raft Cmd} (hlive : rf.dead = false) (h : Step cfg rf rf') : Life cfg rf rf'
  | crash (hlive : rf.dead = false) : Life cfg rf { rf with dead := true }
  | restart (hdead : rf.dead = true) : Life cfg rf (Make rf.me rf.persister)

end Raft

/-- The possible responses of a peer, with the conditions they are subject to. -/
inductive Server.Responds (cfg : Config) (srv : Server cfg.peers Cmd) :
    Input Cmd → Server cfg.peers Cmd → Prop
  | act {votes : List (VoteCall Cmd)} {appends : List (AppendCall Cmd)} {a : LocalAction Cmd}
      {eff : Effect cfg.peers Cmd} (hlive : srv.rf.dead = false)
      (heff : srv.act cfg votes appends a = some eff) :
      Responds cfg srv (.act votes appends a) eff.server
  | requestVote {args : RequestVoteArgs} (hlive : srv.rf.dead = false) :
      Responds cfg srv (.requestVote args) { srv with rf := (srv.rf.RequestVote args).1 }
  | appendEntries {args : AppendEntriesArgs Cmd} (hlive : srv.rf.dead = false) :
      Responds cfg srv (.appendEntries args) { srv with rf := (srv.rf.AppendEntries cfg args).1 }
  | crash (hlive : srv.rf.dead = false) :
      Responds cfg srv .crash (.boot { srv.rf with dead := true })
  | restart (hdead : srv.rf.dead = true) :
      Responds cfg srv .restart (.boot (Raft.Make srv.rf.me srv.rf.persister))

lemma Server.responds_of_respond {srv srv' : Server cfg.peers Cmd} {i : Input Cmd}
    (h : srv.respond cfg i = some srv') : srv.Responds cfg i srv' := by
  cases i with
  | act votes appends a =>
    simp only [respond] at h
    split_ifs at h with hdead
    obtain ⟨eff, heff, rfl⟩ := Option.map_eq_some_iff.mp h
    exact .act (by simpa using hdead) heff
  | requestVote args =>
    simp only [respond] at h
    split_ifs at h with hdead
    cases h
    exact .requestVote (by simpa using hdead)
  | appendEntries args =>
    simp only [respond] at h
    split_ifs at h with hdead
    cases h
    exact .appendEntries (by simpa using hdead)
  | crash =>
    simp only [respond] at h
    split_ifs at h with hdead
    cases h
    exact .crash (by simpa using hdead)
  | restart =>
    simp only [respond] at h
    split_ifs at h with hdead
    cases h
    exact .restart hdead

lemma Server.respond_life {srv srv' : Server cfg.peers Cmd} {i : Input Cmd}
    (h : srv.respond cfg i = some srv') : Raft.Life cfg srv.rf srv'.rf := by
  cases responds_of_respond h with
  | act hlive heff => exact .live hlive (acts_of_act heff).rf_step
  | requestVote hlive => exact .live hlive .requestVote
  | appendEntries hlive => exact .live hlive .appendEntries
  | crash hlive => exact .crash hlive
  | restart hdead => exact .restart hdead

/-! ### The store holds the state -/

namespace Raft

/-- The store decodes to the peer's term, vote and log, or was never written and the peer has
the values `Make` starts with. -/
def Durable (rf : Raft Cmd) : Prop :=
  decodeState rf.persister.raftstate = some (rf.currentTerm, rf.votedFor, rf.log.elems) ∨
    rf.persister.raftstate = [] ∧ rf.currentTerm = 0 ∧ rf.votedFor = none ∧
      rf.log.elems = [sentinel]

variable {rf rf' : Raft Cmd}

lemma Durable.of_untouched (h : Durable rf) (hu : Untouched rf rf') : Durable rf' := by
  unfold Durable
  rw [hu.persister, hu.currentTerm, hu.votedFor, hu.log]
  exact h

lemma durable_make_empty (me : ℕ) : Durable (Make me (.empty : Persister Cmd)) :=
  .inr ⟨rfl, rfl, rfl, rfl⟩

/-- A restart reads back the term, the vote and the log. -/
lemma make_of_durable (h : Durable rf) (me : ℕ) :
    (Make me rf.persister).currentTerm = rf.currentTerm ∧
      (Make me rf.persister).votedFor = rf.votedFor ∧
      (Make me rf.persister).log = .ofList rf.log.elems := by
  rcases h with h | ⟨hnil, hterm, hvote, hlog⟩
  · simp [Make, readPersist, h]
  · simp [Make, readPersist, hnil, DistLabs.Raft.decodeState, fresh, hterm, hvote, hlog]

@[simp] lemma persister_make (me : ℕ) (p : Persister Cmd) : (Make me p).persister = p := by
  unfold Make readPersist
  split <;> rfl

@[simp] lemma me_make (me : ℕ) (p : Persister Cmd) : (Make me p).me = me := by
  unfold Make readPersist
  split <;> rfl

lemma dead_make (me : ℕ) (p : Persister Cmd) : (Make me p).dead = false := by
  unfold Make readPersist
  split <;> rfl

lemma state_make (me : ℕ) (p : Persister Cmd) : (Make me p).state = .follower := by
  unfold Make readPersist
  split <;> rfl

lemma commitIndex_make (me : ℕ) (p : Persister Cmd) : (Make me p).commitIndex = 0 := by
  unfold Make readPersist
  split <;> rfl

lemma X_make (me : ℕ) (p : Persister Cmd) : (Make me p).X = 0 := by
  unfold Make readPersist
  split <;> rfl

lemma snapshot_make (me : ℕ) (p : Persister Cmd) : (Make me p).snapshot = none := by
  unfold Make readPersist
  split <;> rfl

lemma Durable.life (h : Durable rf) (hl : Life cfg rf rf') : Durable rf' := by
  cases hl with
  | live hlive hstep =>
    rcases hstep.stored hlive with hs | hu
    · exact .inl hs.decodeState
    · exact h.of_untouched hu
  | crash => exact h
  | restart =>
    obtain ⟨hterm, hvote, hlog⟩ := make_of_durable h rf.me
    unfold Durable
    rw [persister_make, hterm, hvote, hlog]
    exact h

lemma Life.me_eq (h : Life cfg rf rf') : rf'.me = rf.me := by
  cases h with
  | live _ hstep => exact hstep.me_dead.1
  | crash => rfl
  | restart => exact me_make _ _

lemma Durable.currentTerm_le (h : Durable rf) (hl : Life cfg rf rf') :
    rf.currentTerm ≤ rf'.currentTerm := by
  cases hl with
  | live _ hstep => exact hstep.currentTerm_le
  | crash => exact le_rfl
  | restart => exact (make_of_durable h rf.me).1.ge

lemma Life.log_pos (h : Life cfg rf rf') (hd : Durable rf) (hpos : 0 < rf.log.len) :
    0 < rf'.log.len := by
  cases h with
  | live _ hstep => exact hstep.log_pos hpos
  | crash => exact hpos
  | restart =>
    rw [(make_of_durable hd rf.me).2.2]
    exact hpos

end Raft

/-! ### Runs -/

section Run

variable {me : ℕ} {l : List (Server cfg.peers Cmd)} {srv : Server cfg.peers Cmd}

lemma peer_durable (h : (peer cfg me).Run Machine.Any l) : ∀ srv ∈ l, srv.rf.Durable := by
  refine h.invariant ?_ ?_
  · rintro srv rfl
    exact Raft.durable_make_empty me
  · intro srv _ i srv' _ _ hd hnext
    exact hd.life (Server.respond_life hnext)

lemma peer_me (h : (peer cfg me).Reachable srv) : srv.rf.me = me := by
  refine h.invariant (I := fun srv => srv.rf.me = me) ?_ ?_
  · rintro srv rfl
    exact Raft.me_make me _
  · intro srv i srv' hme hnext
    exact (Server.respond_life hnext).me_eq.trans hme

lemma peer_log_pos (h : (peer cfg me).Run Machine.Any l) : ∀ srv ∈ l, 0 < srv.rf.log.len := by
  refine h.invariant ?_ ?_
  · rintro srv rfl
    exact Nat.one_pos
  · intro srv _ i srv' hr _ hpos hnext
    exact (Server.respond_life hnext).log_pos (peer_durable hr srv List.mem_cons_self) hpos

/-- In every run of a peer the store holds the peer's term, vote and log whenever the lock is
free; so a granted vote, a success and an accepted command have been stored when they are
reported. The term never falls, restarts included. -/
theorem durable_state (h : (peer cfg me).Run Machine.Any l) :
    (∀ srv ∈ l, srv.rf.Durable) ∧
      (∀ srv ∈ l, srv.rf.dead = false →
        (∀ args, (srv.rf.RequestVote args).2.voteGranted = true →
          Raft.decodeState (srv.rf.RequestVote args).1.persister.raftstate =
            some (args.term, some args.candidateId, srv.rf.log.elems)) ∧
        (∀ args, (srv.rf.AppendEntries cfg args).2.success = true →
          Raft.decodeState (srv.rf.AppendEntries cfg args).1.persister.raftstate =
            some (args.term, some args.leaderId,
              (srv.rf.AppendEntries cfg args).1.log.elems)) ∧
        (∀ command, srv.rf.state = .leader →
          Raft.decodeState (srv.rf.Start cfg command).1.persister.raftstate =
            some (srv.rf.currentTerm, srv.rf.votedFor, srv.rf.log.elems ++
              [⟨(srv.rf.Start cfg command).2.2.1, (srv.rf.Start cfg command).2.1,
                command⟩]))) ∧
      l.Pairwise fun later earlier => earlier.rf.currentTerm ≤ later.rf.currentTerm := by
  refine ⟨peer_durable h, fun srv _ hlive => ⟨?_, ?_, ?_⟩, ?_⟩
  · exact fun args hg => Raft.decodeState_requestVote hlive hg
  · exact fun args hs => Raft.decodeState_appendEntries hlive hs
  · exact fun command hstate => Raft.decodeState_start hlive hstate command
  · refine Machine.Run.pairwise (fun hab hbc => hbc.trans hab) ?_ h
    intro srv past i srv' hr _ hnext
    exact (peer_durable hr srv List.mem_cons_self).currentTerm_le (Server.respond_life hnext)

/-- A peer that votes, accepts an entry, votes in a later term, crashes and restarts. -/
theorem durable_state_restart :
    ∃ srv past, (peer (.doubling 3) 0).Run Machine.Any (srv :: past) ∧
      srv.rf.currentTerm = 2 ∧ srv.rf.votedFor = some 2 ∧
      srv.rf.log.elems = [⟨0, 0, some 0⟩, ⟨1, 1, some 7⟩] ∧
      ∀ srv' ∈ srv :: past, srv'.rf.Durable := by
  obtain ⟨srv, past, hrun, hp⟩ : ∃ srv past,
      (peer (.doubling 3) 0).Run Machine.Any (srv :: past) ∧
        srv.rf.currentTerm = 2 ∧ srv.rf.votedFor = some 2 ∧
          srv.rf.log.elems = [⟨0, 0, some 0⟩, ⟨1, 1, some 7⟩] :=
    Machine.exists_run_of_trace (fun _ _ => true) (fun _ _ _ => trivial)
      [.requestVote ⟨1, 1, 0, 0⟩, .appendEntries ⟨1, 1, 0, 0, [⟨1, 1, some 7⟩], 0⟩,
        .requestVote ⟨2, 2, 1, 1⟩, .crash, .restart] (by decide)
  exact ⟨srv, past, hrun, hp.1, hp.2.1, hp.2.2, (durable_state hrun).1⟩

end Run

/-! ### The peers of a cluster -/

namespace Cluster

variable {C C' : Cluster cfg.peers Cmd} {a : Action Cmd}

/-- A step of the cluster leaves a peer alone or is something the peer can do on its own. -/
lemma respond_of_step (h : C.step cfg a = some C') (s : ℕ) (hme : (C.servers s).rf.me = s) :
    C'.servers s = C.servers s ∨ ∃ i, (C.servers s).respond cfg i = some (C'.servers s) := by
  cases a with
  | act r b =>
    simp only [step] at h
    split_ifs at h with hup
    split at h <;> cases h
    rename_i eff heff
    by_cases hs : s = r
    · subst hs
      exact .inr ⟨.act C.voteCalls C.appendCalls b, by
        simp [Server.respond, hup.2, heff, perform]⟩
    · exact .inl (by simp [perform, hs])
  | handleVote k =>
    simp only [step] at h
    split at h
    · cases h
    · rename_i call _
      split_ifs at h with hc
      cases h
      by_cases hs : s = call.dst
      · subst hs
        exact .inr ⟨.requestVote call.args, by simp [Server.respond, hc.1.2, setRf]⟩
      · exact .inl (by simp [setRf, hs])
  | handleAppend k =>
    simp only [step] at h
    split at h
    · cases h
    · rename_i call _
      split_ifs at h with hc
      cases h
      by_cases hs : s = call.dst
      · subst hs
        exact .inr ⟨.appendEntries call.args, by simp [Server.respond, hc.1.2, setRf]⟩
      · exact .inl (by simp [setRf, hs])
  | crash r =>
    simp only [step] at h
    split_ifs at h with hup
    cases h
    by_cases hs : s = r
    · subst hs
      exact .inr ⟨.crash, by simp [Server.respond, hup.2]⟩
    · exact .inl (by simp [hs])
  | restart r =>
    simp only [step] at h
    split_ifs at h with hc
    cases h
    by_cases hs : s = r
    · subst hs
      exact .inr ⟨.restart, by simp [Server.respond, hc.2, hme]⟩
    · exact .inl (by simp [hs])

end Cluster

/-- In a run of the cluster every peer makes a run of its own. -/
lemma peer_of_raft {P : Cluster cfg.peers Cmd → Action Cmd → Prop}
    {l : List (Cluster cfg.peers Cmd)} (h : (raft cfg).Run P l) :
    ∀ C ∈ l, ∀ s, (peer cfg s).Reachable (C.servers s) := by
  refine h.invariant ?_ ?_
  · rintro C rfl s
    exact .of_init rfl
  · intro C _ a C' _ _ hC hnext s
    rcases Cluster.respond_of_step hnext s (peer_me (hC s)) with hs | ⟨i, hi⟩
    · rw [hs]
      exact hC s
    · exact (hC s).steps (.single i hi)

section Raft

variable {P : Cluster cfg.peers Cmd → Action Cmd → Prop} {C C' : Cluster cfg.peers Cmd}
  {past : List (Cluster cfg.peers Cmd)} {a : Action Cmd}

lemma raft_me (h : (raft cfg).Run P (C :: past)) (s : ℕ) : (C.servers s).rf.me = s :=
  peer_me (peer_of_raft h C List.mem_cons_self s)

lemma raft_durable (h : (raft cfg).Run P (C :: past)) (s : ℕ) : (C.servers s).rf.Durable := by
  obtain ⟨past, hr⟩ := peer_of_raft h C List.mem_cons_self s
  exact peer_durable hr _ List.mem_cons_self

lemma raft_log_pos (h : (raft cfg).Run P (C :: past)) (s : ℕ) : 0 < (C.servers s).rf.log.len := by
  obtain ⟨past, hr⟩ := peer_of_raft h C List.mem_cons_self s
  exact peer_log_pos hr _ List.mem_cons_self

lemma raft_currentTerm_le (h : (raft cfg).Run P (C :: past)) (hnext : (raft cfg).next C a C')
    (s : ℕ) : (C.servers s).rf.currentTerm ≤ (C'.servers s).rf.currentTerm := by
  rcases Cluster.respond_of_step hnext s (raft_me h s) with hs | ⟨i, hi⟩
  · rw [hs]
  · exact (raft_durable h s).currentTerm_le (Server.respond_life hi)

end Raft

end DistLabs
