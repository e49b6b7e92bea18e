import DistLabs.Raft.Replication
import DistLabs.Raft.TermSearch

/-!
# Safety

Log matching, the order of terms, leader completeness and state machine safety, as long as no
goroutine slices behind the end of its log. Without that condition a leader can send entries that
had been cut off its log, and all four fail.
-/

namespace DistLabs

open ReplicatedLog

variable {Cmd : Type*} {cfg : Config}

/-! ### Log matching -/

/-- The logs of the peers, and the logs that the requests in the network are slices of. -/
def Cluster.logs {n : ℕ} (C : Cluster n Cmd) : Set (List (LogEntry Cmd)) :=
  {ℓ | (∃ s, (C.servers s).rf.log.elems = ℓ) ∨ ∃ c ∈ C.appendCalls, Call.log c = ℓ}

section Run

variable [Zero Cmd] {C : Cluster cfg.peers Cmd} {past : List (Cluster cfg.peers Cmd)}

lemma Replicates.grounded {t : State ℕ (LogEntry Cmd)} (h : Replicates C t)
    (hreach : (machine (logParams cfg.peers)).Reachable t) {ℓ : List (LogEntry Cmd)}
    (hℓ : ℓ ∈ C.logs) : Chronicle.Grounded LogEntry.term t.reign ℓ := by
  have hinv := inv_of_reachable hreach
  rcases hℓ with ⟨s, rfl⟩ | ⟨c, hc, rfl⟩
  · have hg := (hinv.replica s).grounded
    rwa [h.server s] at hg
  · obtain ⟨-, r, hr, hp⟩ := hinv.message _ (h.logged.messages c hc)
    exact (hinv.valid.grounded_log hr).of_isPrefix hp

/-- The log of a leader is the one on record for its term. -/
lemma Replicates.reign_of_leader {t : State ℕ (LogEntry Cmd)} (h : Replicates C t)
    (hreach : (machine (logParams cfg.peers)).Reachable t) {s : ℕ}
    (hstate : (C.servers s).rf.state = .leader) :
    ∃ r, t.reign (C.servers s).rf.currentTerm = some r ∧
      r.log = (C.servers s).rf.log.elems := by
  have hserver := h.server s
  have hrole : (t.server s).role = .leader := by
    rw [hserver, Raft.replica, hstate]
    rfl
  obtain ⟨-, r, hr, hlog⟩ := ((inv_of_reachable hreach).replica s).leader hrole
  rw [hserver] at hr hlog
  exact ⟨r, hr, hlog⟩

/-- Entries stand at their indices. -/
lemma raft_index_eq (h : (raft cfg).Run SlicesWithinLog (C :: past)) {ℓ : List (LogEntry Cmd)}
    (hℓ : ℓ ∈ C.logs) {i : ℕ} {e : LogEntry Cmd} (he : ℓ[i]? = some e) : e.index = i := by
  rcases hℓ with ⟨s, rfl⟩ | ⟨c, hc, rfl⟩
  · have hplain := raft_plain (raft_noSnapshot h) C List.mem_cons_self
    exact ((hplain.servers s).plainLog.placed he).1
  · have hplain := (raft_sliced h C List.mem_cons_self c hc).plainLog
    rw [Call.log, List.getElem?_take] at he
    split_ifs at he
    exact (hplain.placed he).1

/-- Log matching: in every state of every run without snapshots in which no goroutine slices
behind the end of its log, at most one entry has been created for any index and term, every request
is a slice of a log, and if two logs, of peers or behind requests, hold an entry with the same index
and the same term, they are identical up to it. -/
theorem log_matching (h : (raft cfg).Run SlicesWithinLog (C :: past)) :
    (C.created.map fun e => (e.index, e.term)).Nodup ∧
      (∀ c ∈ C.appendCalls, c.args.SliceOf c.log) ∧
      ∀ ℓ ∈ C.logs, ∀ ℓ' ∈ C.logs, ∀ i j e e', ℓ[i]? = some e → ℓ'[j]? = some e' →
        e.index = e'.index → e.term = e'.term → i = j ∧ ℓ.take (i + 1) = ℓ'.take (i + 1) := by
  obtain ⟨t, hreach, hC⟩ := raft_replicates h
  refine ⟨hC.nodup, fun c hc => (raft_sliced h C List.mem_cons_self c hc).sliceOf, ?_⟩
  intro ℓ hℓ ℓ' hℓ' i j e e' he he' hidx hterm
  obtain rfl : i = j := by rw [← raft_index_eq h hℓ he, hidx, raft_index_eq h hℓ' he']
  exact ⟨rfl, (hC.grounded hreach hℓ).take_eq (hC.grounded hreach hℓ') ⟨e, he, hterm⟩
    ⟨e', he', rfl⟩⟩

/-- Of three peers, the first leader appends two commands, gets the first to peer 1 and commits it,
then gets the second to peer 1, which learns that the first is committed. -/
def firstCommands : List (Action ℕ) :=
  electing 0 0 1 0 ++ [.act 0 (.start (some 11))] ++ replicating 0 0 1 0 ++
    [.act 0 (.peerDecide 0), .act 0 .applyLog, .act 0 (.start (some 12))] ++
    replicating 0 1 1 1 ++ [.act 1 .applyLog]

/-- The leader and peer 1 hold the second command. -/
theorem log_matching_firstCommands :
    ∃ (C : Cluster (Config.doubling 3).peers ℕ) (past : List (Cluster (Config.doubling 3).peers ℕ)),
      (raft (.doubling 3)).Run SlicesWithinLog (C :: past) ∧
      ((C.servers 0).rf.log.elems[2]? = some ⟨1, 2, some 12⟩ ∧
        (C.servers 1).rf.log.elems[2]? = some ⟨1, 2, some 12⟩) ∧
      (C.servers 0).rf.log.elems.take 3 = (C.servers 1).rf.log.elems.take 3 := by
  obtain ⟨C, past, hr, h0, h1⟩ : ∃ (C : Cluster (Config.doubling 3).peers ℕ)
      (past : List (Cluster (Config.doubling 3).peers ℕ)),
      (raft (.doubling 3)).Run SlicesWithinLog (C :: past) ∧
      ((C.servers 0).rf.log.elems[2]? = some ⟨1, 2, some 12⟩ ∧
        (C.servers 1).rf.log.elems[2]? = some ⟨1, 2, some 12⟩) :=
    Machine.exists_run_of_trace slicesWithinLog slicesWithinLog_sound firstCommands
      (by decide +kernel)
  exact ⟨C, past, hr, ⟨h0, h1⟩, ((log_matching hr).2.2 _ (.inl ⟨0, rfl⟩) _ (.inl ⟨1, rfl⟩) 2 2 _ _
    h0 h1 rfl rfl).2⟩

/-! ### Terms -/

/-- Terms are ordered: in every state of every run without snapshots in which no goroutine slices
behind the end of its log, every log starts with the sentinel, whose term is zero, the later entries
have positive terms, and terms do not decrease along the log. A leader has no entry of a term above
its own, though a follower may. -/
theorem terms_ordered (h : (raft cfg).Run SlicesWithinLog (C :: past)) (s : ℕ) :
    ((C.servers s).rf.log.elems[0]? = some Raft.sentinel ∧
        (Raft.sentinel : LogEntry Cmd).term = 0) ∧
      (∀ i e, (C.servers s).rf.log.elems[i]? = some e → 0 < i → 1 ≤ e.term) ∧
      Raft.TermsSorted (C.servers s).rf.log.elems ∧
      ((C.servers s).rf.state = .leader →
        ∀ e ∈ (C.servers s).rf.log.elems, e.term ≤ (C.servers s).rf.currentTerm) := by
  obtain ⟨t, hreach, hC⟩ := raft_replicates h
  have hinv := inv_of_reachable hreach
  have hplain := ((raft_plain (raft_noSnapshot h) C List.mem_cons_self).servers s).plainLog
  refine ⟨⟨hplain.head, rfl⟩, ?_, ?_, ?_⟩
  · intro i e he hi
    have := hplain.whole.term_pos_iff i e he
    omega
  · refine List.pairwise_iff_getElem.mpr fun i j hi hj hij => ?_
    exact hinv.valid.term_le (hC.grounded hreach (.inl ⟨s, rfl⟩))
      ⟨_, List.getElem?_eq_getElem hi, rfl⟩ ⟨_, List.getElem?_eq_getElem hj, rfl⟩ hij.le
  · intro hstate e he
    -- the log of a leader is the one the chronicle has for its term
    obtain ⟨r, hr, hlog⟩ := hC.reign_of_leader hreach hstate
    obtain ⟨i, hi⟩ := List.getElem?_of_mem he
    refine (hinv.valid _ r hr).le (i := i) ⟨e, ?_, rfl⟩
    rw [hlog]
    exact hi

/-- The second leader has an entry of the first term in front of its own. -/
theorem terms_ordered_secondLeader :
    ∃ (C : Cluster (Config.doubling 3).peers ℕ) (past : List (Cluster (Config.doubling 3).peers ℕ)),
      (raft (.doubling 3)).Run SlicesWithinLog (C :: past) ∧
      (C.servers 1).rf.log.elems.map LogEntry.term = [0, 1, 1, 2] ∧
      ∀ e ∈ (C.servers 1).rf.log.elems, e.term ≤ (C.servers 1).rf.currentTerm := by
  obtain ⟨C, past, hr, hterms, hstate⟩ : ∃ (C : Cluster (Config.doubling 3).peers ℕ)
      (past : List (Cluster (Config.doubling 3).peers ℕ)),
      (raft (.doubling 3)).Run SlicesWithinLog (C :: past) ∧
      ((C.servers 1).rf.log.elems.map LogEntry.term = [0, 1, 1, 2] ∧
        (C.servers 1).rf.state = .leader) :=
    Machine.exists_run_of_trace slicesWithinLog slicesWithinLog_sound
      (firstCommands ++ electing 1 0 2 1 ++ [.act 1 (.start (some 21))]) (by decide +kernel)
  exact ⟨C, past, hr, hterms, (terms_ordered hr 1).2.2.2 hstate⟩

/-! ### Leader completeness -/

/-- Leader completeness: in every run without snapshots in which no goroutine slices behind the end
of its log, what some peer has committed in some state of the run is in the log of every leader from
then on whose term is not below that of the peer. -/
theorem leader_completeness (h : (raft cfg).Run SlicesWithinLog (C :: past))
    {D : Cluster cfg.peers Cmd} (hD : D ∈ C :: past) {s s' : ℕ}
    (hstate : (C.servers s').rf.state = .leader)
    (hterm : (D.servers s).rf.currentTerm ≤ (C.servers s').rf.currentTerm) :
    (D.servers s).rf.log.elems.take ((D.servers s).rf.commitIndex + 1) <+:
      (C.servers s').rf.log.elems := by
  obtain ⟨t, hreach, hC, hpast⟩ := raft_shadowed h
  obtain ⟨u, hu, hsteps, hDu⟩ := hpast D hD
  obtain ⟨r, hr, hlog⟩ := hC.reign_of_leader hreach hstate
  rw [← hlog]
  have hsettled := ((safe_of_reachable hu).commit s).mono (extends_of_steps hu hsteps) le_rfl
    List.prefix_rfl
  rw [hDu.server s] at hsettled
  rcases eq_or_ne (D.servers s).rf.commitIndex 0 with hzero | hne
  · -- only the sentinel is committed, with which every log starts
    have hplain := raft_plain (raft_noSnapshot h)
    have hhead := ((hplain D hD).servers s).plainLog.head
    have hhead' := ((hplain C List.mem_cons_self).servers s').plainLog.head
    rw [← hlog] at hhead'
    rw [hzero, List.take_one, List.head?_eq_getElem?, hhead]
    exact List.singleton_prefix_iff_head?_eq_some.mpr (List.head?_eq_getElem?.trans hhead')
  · exact (inv_of_reachable hreach).settled_isPrefix hsettled hne hterm hr

/-- The second leader has what peer 0 has committed in the first term. -/
theorem leader_completeness_secondLeader :
    ∃ (C : Cluster (Config.doubling 3).peers ℕ) (past : List (Cluster (Config.doubling 3).peers ℕ)),
      (raft (.doubling 3)).Run SlicesWithinLog (C :: past) ∧
      (C.servers 0).rf.commitIndex = 1 ∧ (C.servers 1).rf.state = .leader ∧
      (C.servers 0).rf.log.elems.take 2 <+: (C.servers 1).rf.log.elems := by
  obtain ⟨C, past, hr, hcommit, hstate, hterm⟩ : ∃ (C : Cluster (Config.doubling 3).peers ℕ)
      (past : List (Cluster (Config.doubling 3).peers ℕ)),
      (raft (.doubling 3)).Run SlicesWithinLog (C :: past) ∧
      (C.servers 0).rf.commitIndex = 1 ∧ (C.servers 1).rf.state = .leader ∧
      (C.servers 0).rf.currentTerm ≤ (C.servers 1).rf.currentTerm :=
    Machine.exists_run_of_trace slicesWithinLog slicesWithinLog_sound
      (firstCommands ++ electing 1 0 2 1) (by decide +kernel)
  have hprefix := leader_completeness hr List.mem_cons_self hstate hterm
  rw [hcommit] at hprefix
  exact ⟨C, past, hr, hcommit, hstate, hprefix⟩

/-! ### State machine safety -/

/-- State machine safety: in every run without snapshots in which no goroutine slices behind the end
of its log, no two messages on the channels of the peers have the same index and different
commands. -/
theorem state_machine_safety (h : (raft cfg).Run SlicesWithinLog (C :: past)) {s s' : ℕ}
    {m m' : ApplyMsg Cmd} (hm : (s, m) ∈ C.applyCh) (hm' : (s', m') ∈ C.applyCh)
    (hidx : m.commandIndex = m'.commandIndex) : m.command = m'.command := by
  obtain ⟨t, hreach, hC⟩ := raft_replicates h
  obtain ⟨e, he, hcmd⟩ := hC.logged.applied _ hm
  obtain ⟨e', he', hcmd'⟩ := hC.logged.applied _ hm'
  rw [hidx] at he
  rw [← hcmd, ← hcmd', applied_unique hreach he he']

/-- The leader and peer 1 have applied the first command. -/
theorem state_machine_safety_firstCommands :
    ∃ (C : Cluster (Config.doubling 3).peers ℕ) (past : List (Cluster (Config.doubling 3).peers ℕ)),
      (raft (.doubling 3)).Run SlicesWithinLog (C :: past) ∧
      ((0, ⟨some 11, 1⟩) ∈ C.applyCh ∧ (1, ⟨some 11, 1⟩) ∈ C.applyCh) ∧
      ∀ s m, (s, m) ∈ C.applyCh → m.commandIndex = 1 → m.command = some 11 := by
  obtain ⟨C, past, hr, h0, h1⟩ : ∃ (C : Cluster (Config.doubling 3).peers ℕ)
      (past : List (Cluster (Config.doubling 3).peers ℕ)),
      (raft (.doubling 3)).Run SlicesWithinLog (C :: past) ∧
      ((0, ⟨some 11, 1⟩) ∈ C.applyCh ∧ (1, ⟨some 11, 1⟩) ∈ C.applyCh) :=
    Machine.exists_run_of_trace slicesWithinLog slicesWithinLog_sound firstCommands
      (by decide +kernel)
  exact ⟨C, past, hr, ⟨h0, h1⟩, fun s m hm hidx => state_machine_safety hr hm h0 hidx⟩

/-- Peer 0 is leader of term 1 and appends three commands. Peer 1 becomes leader of term 2 by the
vote of peer 2; peer 0 refuses its own, as its log is longer, but moves to term 2, and only then
starts its broadcast, for the term 2 and up to index 3. Peer 1 gets its command 21 to peer 2, and 21
and 22 to peer 0, whose log ends at index 2 from then on, and applies both. Peer 0 is elected for
term 3, and its old goroutine sends peer 1 a request of term 2 that ends with the entry of term 1
that was cut off. With that entry in its log peer 1 votes for peer 2, which has not seen 22. -/
def cutOffEntry : List (Action ℕ) :=
  electing 0 0 1 0 ++
    [.act 0 (.start (some 11)), .act 0 (.start (some 12)), .act 0 (.start (some 13))] ++
    electing 1 0 2 1 ++ [.act 1 (.voteCall 0 0), .handleVote 2] ++
    [.act 0 .broadcastStart, .act 0 (.peerNext 0 1)] ++
    [.act 1 (.start (some 21))] ++ replicating 1 0 2 0 ++
    [.act 1 (.start (some 22))] ++ replicating 1 1 0 1 ++
    [.act 1 (.peerDecide 1), .act 1 .applyLog, .act 1 .applyLog] ++
    electing 0 1 2 3 ++ [.act 0 (.peerCall 0 1), .handleAppend 2] ++
    electing 2 0 1 4 ++ [.act 2 (.start (some 41))] ++ replicating 2 0 1 3 ++
    [.act 2 (.peerDecide 0), .act 2 .applyLog, .act 2 .applyLog]

/-- Peers 1 and 2 apply different commands at index 2. -/
theorem cutOffEntry_applies_two_commands :
    ∃ (C : Cluster (Config.doubling 3).peers ℕ) (past : List (Cluster (Config.doubling 3).peers ℕ)),
      (raft (.doubling 3)).Run NoSnapshot (C :: past) ∧
      (1, ⟨some 22, 2⟩) ∈ C.applyCh ∧ (2, ⟨some 41, 2⟩) ∈ C.applyCh :=
  Machine.exists_run_of_trace noSnapshot noSnapshot_sound cutOffEntry (by decide +kernel)

end Run

end DistLabs
