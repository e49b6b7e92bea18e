import DistLabs.Raft.Election

/-!
# Who speaks for a term

`heartbeat` and `appendEntries` capture the term once and then only check that the peer is leader.
A goroutine that outlives its leadership, or was started by one and reads the term after it was
lost, therefore sends requests for a term in which the peer does not lead any more, once the peer
leads again. Without such stragglers every request is built by the leader of its term.
-/

namespace DistLabs

variable {Cmd : Type*} {cfg : Config}

section Senders

variable {n : ℕ} {srv : Server n Cmd} {a : LocalAction Cmd} {eff : Effect n Cmd}
  {votes : List (VoteCall Cmd)} {appends : List (AppendCall Cmd)}

/-- All goroutines that may still send requests have captured the current term. -/
structure Server.SendersCurrent (srv : Server n Cmd) : Prop where
  heartbeats : ∀ hb ∈ srv.heartbeats, ∀ p, (hb.phase p).running = true →
    hb.term = srv.rf.currentTerm
  broadcasts : ∀ b ∈ srv.broadcasts, ∀ p, (b.poll.phase p).running = true →
    b.term = srv.rf.currentTerm

lemma running_update {ℓ : Type*} {f : ℕ → Phase ℓ} {Q : Prop} {p : ℕ} {ph : Phase ℓ}
    (h : ∀ q, (f q).running = true → Q) (hp : (f p).running = true) :
    ∀ q, (Function.update f p ph q).running = true → Q := by
  intro q hq
  rcases eq_or_ne q p with rfl | hne
  · exact h q hp
  · rw [Function.update_of_ne hne] at hq
    exact h q hq

/-- A step of a leader that stays leader starts no sender for another term. -/
lemma Server.SendersCurrent.acts (h : srv.SendersCurrent)
    (hacts : srv.Acts cfg votes appends a eff)
    (hterm : eff.server.rf.currentTerm = srv.rf.currentTerm) : eff.server.SendersCurrent := by
  have hhb := h.heartbeats
  have hbc := h.broadcasts
  rw [← hterm] at hhb hbc
  cases hacts with
  | quiet srv' _ _ hh hb _ => exact ⟨hh ▸ hhb, hb ▸ hbc⟩
  | heartbeatStart m => exact ⟨forall_mem_concat hhb fun _ _ => rfl, hbc⟩
  | @heartbeatStop i p hb hi hph _ =>
    refine ⟨forall_mem_set hhb ?_ i, hbc⟩
    exact running_update (hhb hb (List.mem_of_getElem? hi)) (by rw [hph]; rfl)
  | @heartbeatCall i p hb args hi hph _ _ =>
    refine ⟨forall_mem_set hhb ?_ i, hbc⟩
    exact running_update (hhb hb (List.mem_of_getElem? hi)) (by rw [hph]; rfl)
  | @heartbeatRetry i p k hb hi hph =>
    refine ⟨forall_mem_set hhb ?_ i, hbc⟩
    exact running_update (hhb hb (List.mem_of_getElem? hi)) (by rw [hph]; rfl)
  | @heartbeatReturn i p k hb call reply hi hph _ _ =>
    refine ⟨forall_mem_set hhb ?_ i, hbc⟩
    exact running_update (hhb hb (List.mem_of_getElem? hi)) (by rw [hph]; rfl)
  | broadcastStart m => exact ⟨hhb, forall_mem_concat hbc fun _ _ => rfl⟩
  | @peerNext b p start bc poll hb hph _ hpoll =>
    refine ⟨hhb, forall_mem_set hbc ?_ b⟩
    simp only [hpoll]
    exact running_update (hbc bc (List.mem_of_getElem? hb)) (by rw [hph]; rfl)
  | @peerGiveUp b p start next bc poll hb hph _ _ hpoll =>
    refine ⟨hhb, forall_mem_set hbc ?_ b⟩
    simp only [hpoll]
    exact running_update (hbc bc (List.mem_of_getElem? hb)) (by rw [hph]; rfl)
  | @peerCall b p start next bc poll args hb hph _ _ _ hpoll =>
    refine ⟨hhb, forall_mem_set hbc ?_ b⟩
    simp only [hpoll]
    exact running_update (hbc bc (List.mem_of_getElem? hb)) (by rw [hph]; rfl)
  | @peerRetry b p k l bc poll hb hph hpoll =>
    refine ⟨hhb, forall_mem_set hbc ?_ b⟩
    simp only [hpoll]
    exact running_update (hbc bc (List.mem_of_getElem? hb)) (by rw [hph]; rfl)
  | @peerReturn b p k l bc poll call reply rf v hb hph _ _ _ hpoll =>
    refine ⟨hhb, forall_mem_set hbc ?_ b⟩
    simp only [hpoll]
    exact running_update (hbc bc (List.mem_of_getElem? hb)) (by rw [hph]; rfl)
  | @peerRecv b p v bc poll hb hph hpoll =>
    refine ⟨hhb, forall_mem_set hbc ?_ b⟩
    intro q hq
    refine hbc bc (List.mem_of_getElem? hb) q ?_
    simp only [hpoll] at hq
    rcases eq_or_ne q p with rfl | hne
    · rw [Function.update_self] at hq
      cases hq
    · rwa [Function.update_of_ne hne] at hq
  | @peerDecide b bc hb _ =>
    refine ⟨hhb, forall_mem_set hbc ?_ b⟩
    exact hbc bc (List.mem_of_getElem? hb)
  | _ => exact ⟨hhb, hbc⟩

/-- A handler runs at the peer. -/
lemma Server.SendersCurrent.setRf (h : srv.SendersCurrent) {rf : Raft Cmd}
    (hterm : rf.currentTerm = srv.rf.currentTerm) :
    ({ srv with rf := rf } : Server n Cmd).SendersCurrent := by
  refine ⟨?_, ?_⟩
  · simpa only [hterm] using h.heartbeats
  · simpa only [hterm] using h.broadcasts

lemma Server.SendersCurrent.boot (rf : Raft Cmd) :
    (Server.boot rf : Server n Cmd).SendersCurrent :=
  ⟨by simp [Server.boot], by simp [Server.boot]⟩

/-- A request just built names the term of its builder, provided the builder's senders have captured
it. -/
lemma Server.SendersCurrent.args_term (h : srv.SendersCurrent)
    (hacts : srv.Acts cfg votes appends a eff) :
    ∀ c ∈ eff.appendCall, c.args.term = srv.rf.currentTerm := by
  intro c hc
  cases hacts with
  | @heartbeatCall i p hb args hhb hph hstate hargs =>
    cases hc
    rw [(heartbeatRequest_eq_some hargs).1]
    exact h.heartbeats _ (List.mem_of_getElem? hhb) p (by rw [hph]; rfl)
  | @peerCall b p start next bc poll args hbc hph hnext hguard hargs hpoll =>
    cases hc
    obtain ⟨prev, entries, -, -, rfl⟩ := appendRequest_eq_some hargs
    exact h.broadcasts _ (List.mem_of_getElem? hbc) p (by rw [hph]; rfl)
  | _ => cases hc

end Senders

/-- The condition on a step: a peer that becomes leader has no goroutine left that may send
requests and has captured another term. -/
def NoStragglers (C : Cluster cfg.peers Cmd) : Action Cmd → Prop
  | .act s (.voteDecide e) =>
    ∀ el, (C.servers s).elections[e]? = some el → (C.servers s).rf.state = .candidate →
      (C.servers s).rf.currentTerm = el.term → (C.servers s).SendersCurrent
  | _ => True

/-- The senders of every leader have captured its term. -/
def Cluster.LeadersCurrent {n : ℕ} (C : Cluster n Cmd) : Prop :=
  ∀ s, (C.servers s).rf.state = .leader → (C.servers s).SendersCurrent

section Moves

variable {C C' : Cluster cfg.peers Cmd} {a : Action Cmd}

lemma Cluster.LeadersCurrent.act {s : ℕ} {a : LocalAction Cmd} {eff : Effect cfg.peers Cmd}
    (h : C.LeadersCurrent) (hP : NoStragglers C (.act s a))
    (hacts : (C.servers s).Acts cfg C.voteCalls C.appendCalls a eff)
    (hlead : eff.server.rf.state = .leader) : eff.server.SendersCurrent := by
  by_cases hnl : eff.leader = none
  · rcases hacts.ballot hnl with hsame | hc | ⟨T, -, hf⟩
    · exact (h s (hsame.state ▸ hlead)).acts hacts hsame.currentTerm
    · simp [hc, Raft.becomeCandidate] at hlead
    · simp [hf, Raft.becomeFollower] at hlead
  · cases hacts with
    | voteWin hel hd hstate hterm =>
      have hcur := hP _ hel hstate hterm
      exact ⟨hcur.heartbeats, hcur.broadcasts⟩
    | _ => exact absurd rfl hnl

lemma Cluster.LeadersCurrent.movesPeer [Zero Cmd] {srv : Server cfg.peers Cmd} {s : ℕ}
    (h : C.LeadersCurrent) (hP : NoStragglers C a) (hm : C.MovesPeer cfg s a srv)
    (hlead : srv.rf.state = .leader) : srv.SendersCurrent := by
  cases hm with
  | other => exact h s hlead
  | act _ hacts => exact h.act hP hacts hlead
  | @handleVote _ call =>
    generalize hr : (C.servers s).rf.RequestVote call.args = r at hlead ⊢
    have hout := hr ▸ (C.servers s).rf.voteOutcome call.args
    cases hout with
    | refuse => exact (h s hlead).setRf rfl
    | grant => exact (h s (by simpa using hlead)).setRf (by simp)
    | bump | bumpGrant => simp [Raft.becomeFollower] at hlead
  | @handleAppend _ call =>
    rcases (Raft.appendOutcome cfg (C.servers s).rf call.args).followed with ⟨-, hr⟩ | ⟨-, hf⟩
    · simp only [hr] at hlead ⊢
      exact (h s hlead).setRf rfl
    · simp [hf.state] at hlead
  | crash | restart => exact .boot _

end Moves

section Run

variable [Zero Cmd] {l : List (Cluster cfg.peers Cmd)}

lemma raft_leadersCurrent (h : (raft cfg).Run NoStragglers l) : ∀ C ∈ l, C.LeadersCurrent := by
  refine h.invariant ?_ ?_
  · rintro C rfl s hs
    simp [Cluster.initial, Server.boot, Raft.state_make] at hs
  · intro C past a C' _ hP hC hnext s
    exact hC.movesPeer hP ((Cluster.moves_of_step hnext).peer s)

/-- In a run without stragglers, every request in the network with term `t` and leader `s` was built
in a state of the run in which `s` was leader of `t`. -/
theorem requests_from_leader (h : (raft cfg).Run NoStragglers l) :
    ∀ C ∈ l, ∀ call ∈ C.appendCalls, ∃ C₀ ∈ l,
      (C₀.servers call.args.leaderId).rf = call.sender ∧ call.sender.state = .leader ∧
        call.sender.currentTerm = call.args.term := by
  refine Machine.Run.history
    (I := fun l => ∀ C ∈ l, ∀ call ∈ C.appendCalls, ∃ C₀ ∈ l,
      (C₀.servers call.args.leaderId).rf = call.sender ∧ call.sender.state = .leader ∧
        call.sender.currentTerm = call.args.term) ?_ ?_ h
  · rintro C rfl C' hC' call hcall
    obtain rfl := List.mem_singleton.mp hC'
    simp [Cluster.initial] at hcall
  · intro C past a C' hr ih hP hnext D hD call hcall
    have hold : ∀ D ∈ C :: past, ∀ call ∈ D.appendCalls, ∃ C₀ ∈ C' :: C :: past,
        (C₀.servers call.args.leaderId).rf = call.sender ∧ call.sender.state = .leader ∧
          call.sender.currentTerm = call.args.term := by
      intro D hD call hcall
      obtain ⟨C₀, hC₀, hspoken⟩ := ih D hD call hcall
      exact ⟨C₀, List.mem_cons_of_mem _ hC₀, hspoken⟩
    rcases List.mem_cons.mp hD with rfl | hD
    · rcases (Cluster.moves_of_step hnext).mem_appendCalls hcall with
        ⟨c₀, hc₀, r, rfl⟩ | ⟨s, b, eff, -, -, hacts, hc⟩
      · exact hold C List.mem_cons_self c₀ hc₀
      · -- the request is being built, and `C` is the state it is built in
        obtain ⟨hgen, hsrc, hsender, -⟩ :=
          ((raft_wired hr C List.mem_cons_self).servers s).appendCall hacts call hc
        have hstate := hgen.state
        have hcur := raft_leadersCurrent hr C List.mem_cons_self s (hsender ▸ hstate)
        refine ⟨C, by simp, ?_, hstate, ?_⟩
        · rw [hgen.leaderId, hsrc, raft_me hr s, hsender]
        · rw [hcur.args_term hacts call hc, hsender]
    · exact hold D hD call hcall

/-- Whether a peer that counts votes has never started a sender. -/
def noSenders (C : Cluster cfg.peers Cmd) : Action Cmd → Bool
  | .act s (.voteDecide _) => (C.servers s).heartbeats.isEmpty && (C.servers s).broadcasts.isEmpty
  | _ => true

omit [Zero Cmd] in
lemma noStragglers_of_noSenders (C : Cluster cfg.peers Cmd) (a : Action Cmd)
    (h : noSenders C a = true) : NoStragglers C a := by
  unfold noSenders at h
  split at h
  · simp only [Bool.and_eq_true, List.isEmpty_iff] at h
    exact fun _ _ _ _ => ⟨by simp [h.1], by simp [h.2]⟩
  · unfold NoStragglers
    split
    · simp_all
    · trivial

/-- The first heartbeat of the first leader. -/
theorem requests_from_leader_heartbeat :
    ∃ C past, (raft (.doubling 2)).Run NoStragglers (C :: past) ∧
      ∃ call ∈ C.appendCalls, call.args = (⟨1, 0, 0, 0, [], 0⟩ : AppendEntriesArgs ℕ) ∧
        ∃ C₀ ∈ C :: past,
          (C₀.servers call.args.leaderId).rf = call.sender ∧ call.sender.state = .leader ∧
            call.sender.currentTerm = call.args.term := by
  obtain ⟨C, past, hr, call, hcall, hargs⟩ : ∃ C past,
      (raft (.doubling 2)).Run NoStragglers (C :: past) ∧
        ∃ call ∈ C.appendCalls, call.args = (⟨1, 0, 0, 0, [], 0⟩ : AppendEntriesArgs ℕ) :=
    Machine.exists_run_of_trace noSenders noStragglers_of_noSenders
      (electing 0 0 1 0 ++ [.act 0 .heartbeatStart, .act 0 (.heartbeatCall 0 1)])
      (by decide +kernel)
  exact ⟨C, past, hr, call, hcall, hargs,
    requests_from_leader hr C List.mem_cons_self call hcall⟩

/-- Peer 0 leads term 1 and starts a heartbeat, votes for peer 1 in term 2 and is elected again.
Then its first heartbeat goes on. -/
def straggling : List (Action ℕ) :=
  electing 0 0 1 0 ++ [.act 0 .heartbeatStart, .act 1 .tick, .act 1 .electionCheck,
    .act 1 .electionStart, .act 1 (.voteCall 0 0), .handleVote 1] ++ electing 0 1 1 2 ++
      [.act 0 (.heartbeatCall 0 1)]

/-- A request with term 1 is built by a leader of term 3. -/
theorem straggler_speaks :
    ∃ C : Cluster (Config.doubling 2).peers ℕ, (raft (.doubling 2)).Reachable C ∧
      ∃ call ∈ C.appendCalls, call.args.term = 1 ∧ call.args.leaderId = 0 ∧
        call.sender.currentTerm = 3 := by
  obtain ⟨C, past, hr, hcall⟩ : ∃ C past,
      (raft (.doubling 2)).Run Machine.Any (C :: past) ∧
        ∃ call ∈ C.appendCalls, call.args.term = 1 ∧ call.args.leaderId = 0 ∧
          call.sender.currentTerm = 3 :=
    Machine.exists_run_of_trace (fun _ _ => true) (fun _ _ _ => trivial) straggling
      (by decide +kernel)
  exact ⟨C, ⟨past, hr⟩, hcall⟩

end Run

end DistLabs
