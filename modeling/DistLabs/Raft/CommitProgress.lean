import DistLabs.Raft.Acceptance
import DistLabs.Raft.Leadership

/-!
# The commit index of a peer

`AppendEntries` sets the commit index to the commit index of the request, cut down to the last entry
that it has written, or to the previous entry of the request if it has written nothing. It does not
look at the commit index it had. A request that writes nothing may begin far below it, and then the
commit index falls, under what has been applied too.

What is shown here is that nothing else makes it fall: as long as every request that is handled
reaches as far as the commit index, it only grows, and nothing is applied behind it.
-/

namespace DistLabs

variable {Cmd : Type*} {cfg : Config}

namespace Raft

variable {rf rf' : Raft Cmd} {args : AppendEntriesArgs Cmd}

/-! ### One request -/

/-- The request has an entry above the offset that the log does not have, or has with another
term. -/
def Brings (rf : Raft Cmd) (args : AppendEntriesArgs Cmd) : Prop :=
  ∃ (j : ℕ) (e : LogEntry Cmd), args.entries[j]? = some e ∧ rf.X < args.prevLogIndex + 1 + j ∧
    ∀ x, rf.log.elems[args.prevLogIndex + 1 + j - rf.X]? = some x → x.term ≠ e.term

/-- The request is out of date, or does not ask for a higher commit index, or it reaches as far as
the commit index: with its last entry if it brings anything, else with its previous entry. -/
def Covers (rf : Raft Cmd) (args : AppendEntriesArgs Cmd) : Prop :=
  args.term < rf.currentTerm ∨ args.leaderCommit ≤ rf.commitIndex ∨
    rf.Brings args ∧ (∀ e ∈ args.entries.getLast?, rf.commitIndex ≤ e.index) ∨
    ¬rf.Brings args ∧ rf.commitIndex ≤ args.prevLogIndex

/-- The merge writes something exactly if the request brings something. -/
lemma WritesFrom.brings_iff {i : ℕ} (h : rf.WritesFrom args i) :
    rf.Brings args ↔ args.entries.drop (rf.X + i - (args.prevLogIndex + 1)) ≠ [] := by
  have hlt := h.prev_lt
  have hstart := h.start_le
  have hle := h.le_length
  rw [ne_eq, List.drop_eq_nil_iff, not_le]
  constructor
  · rintro ⟨j, e, hj, hX, hne⟩
    by_contra hge
    have hj' := (List.getElem?_eq_some_iff.mp hj).1
    -- the entry is before the position, where the log and the request agree
    have hq : args.prevLogIndex + 1 + j - rf.X < i := by omega
    have hx := List.getElem?_eq_getElem (l := rf.log.elems) (Nat.lt_of_lt_of_le hq hle)
    refine hne _ hx (h.term_eq hq (by omega) (by omega) hx ?_)
    rw [← hj]
    congr 1
    omega
  · intro hlen
    refine ⟨_, _, List.getElem?_eq_getElem hlen, by omega, fun x hx => ?_⟩
    rw [show args.prevLogIndex + 1 + (rf.X + i - (args.prevLogIndex + 1)) - rf.X = i by omega] at hx
    rcases h.end_or_conflict with hend | ⟨y, f, hy, hf, hne⟩
    · have := (List.getElem?_eq_some_iff.mp hx).1
      omega
    · cases hx.symm.trans hy
      cases (List.getElem?_eq_getElem hlen).symm.trans hf
      exact hne

lemma Covers.commitIndex_le (h : rf.Covers args) (hpos : 0 < rf.log.len) :
    rf.commitIndex ≤ (rf.AppendEntries cfg args).1.commitIndex := by
  by_cases hs : (rf.AppendEntries cfg args).2.success = true
  · obtain ⟨i, hw, -, hcommit⟩ := exists_writesFrom_slice hpos hs
    rw [hcommit]
    unfold updateCommit
    split_ifs with hgt
    · simp only
      rcases h with hterm | hle | ⟨hb, hlast⟩ | ⟨hb, hprev⟩
      · rcases (appendOutcome cfg rf args).followed with ⟨-, hr⟩ | ⟨hge, -⟩
        · rw [hr] at hs
          cases hs
        · omega
      · omega
      · have hne := hw.brings_iff.mp hb
        rw [ne_eq, List.drop_eq_nil_iff] at hne
        rw [List.getLast?_drop, if_neg hne]
        cases he : args.entries.getLast? with
        | none => simp [List.getLast?_eq_none_iff.mp he] at hne
        | some e => exact le_min hgt.le (hlast e he)
      · rw [not_not.mp (hw.brings_iff.not.mp hb)]
        exact le_min hgt.le hprev
    · exact le_rfl
  · exact (unchanged_of_not_success (by simpa using hs)).2.ge

/-! ### The other steps -/

lemma commitIndex_le_commit (rf : Raft Cmd) (term end_ : ℕ) :
    rf.commitIndex ≤ (rf.commit term end_).commitIndex := by
  unfold commit
  split_ifs with h
  · exact h.2.2.le
  · exact le_rfl

/-- Only `applyLog` moves `lastApplied`, and not behind the commit index. -/
lemma Step.lastApplied_eq (h : Step cfg rf rf') :
    rf'.lastApplied = rf.lastApplied ∨ rf'.lastApplied ≤ rf'.commitIndex := by
  cases h with
  | start hstate => exact .inl (by simp [start_of_leader hstate])
  | @advance i end_ =>
    obtain ⟨next, matched, h⟩ := rf.advanceNext_eq i end_
    exact .inl (by simp [h])
  | @commit term end_ =>
    obtain ⟨c, h⟩ := rf.commit_eq term end_
    exact .inl (by simp [h])
  | applyLog h =>
    obtain ⟨hlt, rfl, _⟩ := applyLog_eq_some h
    exact .inr hlt
  | trim h =>
    obtain ⟨rest, _, rfl⟩ := snapshotTrim_eq_some h
    exact .inl rfl
  | @requestVote args =>
    generalize hr : rf.RequestVote args = r
    have hout := hr ▸ rf.voteOutcome args
    cases hout <;> exact .inl (by simp [becomeFollower])
  | @appendEntries args =>
    rcases (appendOutcome cfg rf args).followed with ⟨_, h⟩ | ⟨_, h⟩
    · exact .inl (by simp [h])
    · exact .inl h.lastApplied
  | _ => exact .inl (by simp [becomeCandidate, becomeLeader, becomeFollower, snapshotPublish])

lemma lastApplied_make [Zero Cmd] (me : ℕ) (p : Persister Cmd) : (Make me p).lastApplied = 0 := by
  unfold Make readPersist
  split <;> rfl

lemma Life.lastApplied_eq [Zero Cmd] (h : Life cfg rf rf') :
    rf'.lastApplied = rf.lastApplied ∨ rf'.lastApplied ≤ rf'.commitIndex := by
  cases h with
  | live _ hstep => exact hstep.lastApplied_eq
  | crash => exact .inl rfl
  | restart => exact .inr (by rw [lastApplied_make]; exact Nat.zero_le _)

lemma commitIndex_requestVote (rf : Raft Cmd) (args : RequestVoteArgs) :
    (rf.RequestVote args).1.commitIndex = rf.commitIndex := by
  generalize hr : rf.RequestVote args = r
  have hout := hr ▸ rf.voteOutcome args
  cases hout <;> simp [becomeFollower]

end Raft

lemma Server.Acts.commitIndex_le {n : ℕ} {srv : Server n Cmd} {votes : List (VoteCall Cmd)}
    {appends : List (AppendCall Cmd)} {a : LocalAction Cmd} {eff : Effect n Cmd}
    (h : srv.Acts cfg votes appends a eff) :
    srv.rf.commitIndex ≤ eff.server.rf.commitIndex := by
  rcases h.commitIndex_eq with heq | ⟨b, rfl⟩
  · exact heq.ge
  · cases h with
    | quiet srv' hrf => rw [hrf]
    | peerDecide => exact srv.rf.commitIndex_le_commit _ _

/-! ### Runs -/

/-- The condition on a step: a request that is handled reaches as far as the commit index. -/
def CommitsForward (C : Cluster cfg.peers Cmd) : Action Cmd → Prop
  | .handleAppend k => ∀ call ∈ C.appendCalls[k]?, (C.servers call.dst).rf.Covers call.args
  | _ => True

section Run

variable [Zero Cmd] {C C' : Cluster cfg.peers Cmd} {past : List (Cluster cfg.peers Cmd)}
  {a : Action Cmd} {s : ℕ}

/-- What a step of the cluster does to the commit index of a peer that it does not restart. -/
lemma Cluster.Moves.commitIndex_le (hm : C.Moves cfg a C') (hf : CommitsForward C a)
    (hpos : ∀ s, 0 < (C.servers s).rf.log.len) (ha : a ≠ .restart s) :
    (C.servers s).rf.commitIndex ≤ (C'.servers s).rf.commitIndex := by
  cases hm with
  | @act r b eff hup h =>
    rcases eq_or_ne s r with rfl | hne
    · simpa [Cluster.perform] using h.commitIndex_le
    · simp [Cluster.perform, hne]
  | @handleVote k call hk =>
    rcases eq_or_ne s call.dst with rfl | hne
    · simp [Cluster.setRf, Raft.commitIndex_requestVote]
    · simp [Cluster.setRf, hne]
  | @handleAppend k call hk =>
    rcases eq_or_ne s call.dst with rfl | hne
    · have hle : _ ≤ ((C.servers call.dst).rf.AppendEntries cfg call.args).1.commitIndex :=
        (hf call hk).commitIndex_le (hpos _)
      simpa [Cluster.setRf] using hle
    · simp [Cluster.setRf, hne]
  | @crash r =>
    rcases eq_or_ne s r with rfl | hne
    · simp [Server.boot]
    · simp [hne]
  | @restart r =>
    have hne : s ≠ r := fun heq => ha (heq ▸ rfl)
    simp [hne]

/-- A peer that is up is not restarted. -/
lemma Cluster.Moves.ne_restart (hm : C.Moves cfg a C') (hup : (C.servers s).rf.dead = false) :
    a ≠ .restart s := by
  rintro rfl
  cases hm with
  | restart _ hdead => cases hup.symm.trans hdead

lemma lastApplied_le_of_next (h : (raft cfg).Run CommitsForward (C :: past))
    (hf : CommitsForward C a) (hnext : (raft cfg).next C a C')
    (hle : (C.servers s).rf.lastApplied ≤ (C.servers s).rf.commitIndex) :
    (C'.servers s).rf.lastApplied ≤ (C'.servers s).rf.commitIndex := by
  have hm := Cluster.moves_of_step hnext
  rcases eq_or_ne a (.restart s) with rfl | ha
  · cases hm
    simp [Server.boot, Raft.lastApplied_make]
  · have hcommit := hm.commitIndex_le hf (raft_log_pos h) ha
    rcases Cluster.respond_of_step hnext s (raft_me h s) with hs | ⟨i, hi⟩
    · rwa [hs]
    · rcases (Server.respond_life hi).lastApplied_eq with heq | hle'
      · rw [heq]
        exact hle.trans hcommit
      · exact hle'

/-- Commit progress: in every run in which every request that is handled reaches as far as the
receiver's commit index or does not ask for a higher one, nothing is applied behind the commit index
of a peer, and while the peer is up its commit index never falls. -/
theorem commit_progress (h : (raft cfg).Run CommitsForward (C :: past)) (s : ℕ) :
    (∀ D ∈ C :: past, (D.servers s).rf.lastApplied ≤ (D.servers s).rf.commitIndex) ∧
      ∀ seg, seg <:+: C :: past → (∀ D ∈ seg, (D.servers s).rf.dead = false) →
        seg.Pairwise fun later earlier =>
          (earlier.servers s).rf.commitIndex ≤ (later.servers s).rf.commitIndex := by
  constructor
  · refine h.invariant ?_ ?_
    · rintro D rfl
      simp [Cluster.initial, Server.boot, Raft.lastApplied_make]
    · intro D _ a D' hr hf hle hnext
      exact lastApplied_le_of_next hr hf hnext hle
  · refine h.pairwise_infix (fun hab hbc => hbc.trans hab) ?_
    intro D _ a D' hr hf hnext hup _
    have hm := Cluster.moves_of_step hnext
    exact hm.commitIndex_le hf (raft_log_pos hr) (hm.ne_restart hup)

/-- A check of `CommitsForward` for runs in which no peer is asked for a higher commit index
twice. -/
def commitsForward (C : Cluster cfg.peers Cmd) : Action Cmd → Bool
  | .handleAppend k => C.appendCalls[k]?.all fun call =>
      call.args.leaderCommit ≤ (C.servers call.dst).rf.commitIndex ||
        (C.servers call.dst).rf.commitIndex == 0
  | _ => true

omit [Zero Cmd] in
lemma commitsForward_sound (C : Cluster cfg.peers Cmd) (a : Action Cmd)
    (h : commitsForward C a = true) : CommitsForward C a := by
  cases a with
  | handleAppend k =>
    intro call hcall
    simp only [commitsForward, Option.mem_def.mp hcall, Option.all_some, Bool.or_eq_true,
      decide_eq_true_eq, beq_iff_eq] at h
    rcases h with hle | hzero
    · exact .inr (.inl hle)
    · unfold Raft.Covers
      rw [hzero]
      by_cases hb : (C.servers call.dst).rf.Brings call.args
      · exact .inr (.inr (.inl ⟨hb, fun _ _ => Nat.zero_le _⟩))
      · exact .inr (.inr (.inr ⟨hb, Nat.zero_le _⟩))
  | _ => trivial

/-- The leader commits its first command, and peer 1 learns of it with the second. -/
theorem commit_progress_first :
    ∃ (C : Cluster (Config.doubling 3).peers ℕ) (past : List (Cluster (Config.doubling 3).peers ℕ)),
      (raft (.doubling 3)).Run CommitsForward (C :: past) ∧
      ((C.servers 1).rf.commitIndex = 1 ∧ (C.servers 1).rf.lastApplied = 1) ∧
      ∀ D ∈ C :: past, (D.servers 1).rf.lastApplied ≤ (D.servers 1).rf.commitIndex := by
  obtain ⟨C, past, hr, hp⟩ : ∃ (C : Cluster (Config.doubling 3).peers ℕ)
      (past : List (Cluster (Config.doubling 3).peers ℕ)),
      (raft (.doubling 3)).Run CommitsForward (C :: past) ∧
      ((C.servers 1).rf.commitIndex = 1 ∧ (C.servers 1).rf.lastApplied = 1) :=
    Machine.exists_run_of_trace commitsForward commitsForward_sound
      (electing 0 0 1 0 ++ [.act 0 (.start (some 11))] ++ replicating 0 0 1 0 ++
        [.act 0 (.peerDecide 0), .act 0 (.start (some 12))] ++ replicating 0 1 1 1 ++
        [.act 1 .applyLog]) (by decide +kernel)
  exact ⟨C, past, hr, hp, (commit_progress hr 1).1⟩

/-- Of three peers, peer 0 is leader. Its first command gets to peer 1, whose reply is delayed, and
to peer 2, whose reply commits it. The second command gets to peer 1 with the commit index 1, which
peer 1 applies, and is committed by the reply of peer 2. Then a heartbeat goes to peer 1, with the
commit index 2 and, as peer 0 has heard nothing of peer 1, the previous entry 0. -/
def laggingNextIndex : List (Action ℕ) :=
  electing 0 0 1 0 ++
    [.act 0 (.start (some 11)), .act 0 .broadcastStart, .act 0 (.peerNext 0 1),
      .act 0 (.peerCall 0 1), .handleAppend 0, .act 0 (.peerNext 0 2), .act 0 (.peerCall 0 2),
      .handleAppend 1, .act 0 (.peerReturn 0 2), .act 0 (.peerRecv 0 2), .act 0 (.peerDecide 0),
      .act 0 (.start (some 12)), .act 0 .broadcastStart, .act 0 (.peerNext 1 1),
      .act 0 (.peerCall 1 1), .handleAppend 2, .act 1 .applyLog, .act 0 (.peerNext 1 2),
      .act 0 (.peerCall 1 2), .handleAppend 3, .act 0 (.peerReturn 1 2), .act 0 (.peerRecv 1 2),
      .act 0 (.peerDecide 1), .act 0 .heartbeatStart, .act 0 (.heartbeatCall 0 1)]

/-- The heartbeat takes the commit index of peer 1 back to 0, behind what it has applied. -/
theorem laggingNextIndex_uncommits :
    ∃ (C C' : Cluster (Config.doubling 3).peers ℕ), (raft (.doubling 3)).Reachable C ∧
      (raft (.doubling 3)).next C (.handleAppend 4) C' ∧
      (C.servers 1).rf.commitIndex = 1 ∧ (C'.servers 1).rf.commitIndex = 0 ∧
      (C'.servers 1).rf.lastApplied = 1 := by
  obtain ⟨C, C', past, hr, hstep, hp⟩ : ∃ (C C' : Cluster (Config.doubling 3).peers ℕ)
      (past : List (Cluster (Config.doubling 3).peers ℕ)),
      (raft (.doubling 3)).Run Machine.Any (C :: past) ∧
      (raft (.doubling 3)).next C (.handleAppend 4) C' ∧
      ((C.servers 1).rf.commitIndex = 1 ∧ (C'.servers 1).rf.commitIndex = 0 ∧
        (C'.servers 1).rf.lastApplied = 1) :=
    Machine.exists_step_of_trace (fun _ _ => true) (fun _ _ _ => trivial) laggingNextIndex
      (by decide +kernel)
  exact ⟨C, C', ⟨past, hr⟩, hstep, hp⟩

end Run

end DistLabs
