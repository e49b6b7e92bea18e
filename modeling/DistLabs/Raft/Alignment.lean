import DistLabs.Raft.CommitProgress
import DistLabs.Raft.Recovery
import DistLabs.Raft.Slicing

/-!
# Indices and positions

A peer keeps its log from index `X` on, and every handler converts between the index of an entry and
its position in the slice. The two agree as long as nobody slices behind the end of a log and nobody
is restarted from a compacted log, whose offset is lost. Then `Start` returns the index of the entry
it appends, the commands come on `applyCh` one by one, and the entries of a request follow the
previous entry.

The previous entry of a request is an entry of the sender, except that a heartbeat to a peer that
lags behind the snapshot takes it from the snapshot, with index and term the wrong way round.
-/

namespace DistLabs

variable {Cmd : Type*} {cfg : Config}

/-! ### One peer -/

namespace Raft

variable {rf rf' : Raft Cmd} {args : AppendEntriesArgs Cmd}

lemma Indexed.congr (h : rf.Indexed) (hlog : rf'.log = rf.log) (hX : rf'.X = rf.X) :
    rf'.Indexed := by
  refine ⟨hlog ▸ h.pos, ?_⟩
  rw [hlog, hX]
  exact h.index

lemma Indexed.start (h : rf.Indexed) (hstate : rf.state = .leader) (command : Option Cmd) :
    (rf.Start cfg command).1.Indexed := by
  rw [start_of_leader hstate]
  refine ⟨?_, fun k e he => ?_⟩
  · simp [Slice.len_append]
  · simp only [log_persistUnlessKilled, X_persistUnlessKilled, Slice.elems_append] at he ⊢
    rw [List.getElem?_append] at he
    split_ifs at he with hk
    · exact h.index k e he
    · have hk0 := (List.getElem?_eq_some_iff.mp he).1
      simp only [List.length_singleton] at hk0
      obtain rfl := List.mem_singleton.mp (List.mem_of_getElem? he)
      simp only [Slice.len]
      omega

lemma Indexed.snapshotTrim (h : rf.Indexed) {c : SnapshotCall Cmd}
    (hrf : rf.snapshotTrim cfg c = some rf') : rf'.Indexed := by
  obtain ⟨rest, hrest, rfl⟩ := snapshotTrim_eq_some hrf
  obtain ⟨hge, -, rfl⟩ := Slice.from?_eq_some.mp hrest
  refine ⟨by simp [persist, Slice.len], fun k e he => ?_⟩
  simp only [persist, Slice.elems_append, Slice.elems_ofList, List.singleton_append] at he ⊢
  cases k with
  | zero =>
    cases he
    rfl
  | succ k =>
    rw [List.getElem?_cons_succ, List.getElem?_drop] at he
    rw [h.index _ e he]
    unfold logIndex2sliceIndex at hge ⊢
    omega

lemma Indexed.appendEntries (h : rf.Indexed) (ha : args.Consecutive) :
    (rf.AppendEntries cfg args).1.Indexed := by
  cases hs : (rf.AppendEntries cfg args).2.success with
  | true => exact h.merged ha hs
  | false =>
    refine h.congr (unchanged_of_not_success hs).1 ?_
    rcases (appendOutcome cfg rf args).followed with ⟨-, hr⟩ | ⟨-, hf⟩
    · rw [hr]
    · exact hf.X

/-- A log that is read back begins at index 0 only if it was not compacted. -/
lemma Indexed.make [Zero Cmd] (h : rf.Indexed) (hd : rf.Durable) {me : ℕ}
    (h0 : ∀ e ∈ (Make me rf.persister).log.elems.head?, e.index = 0) :
    (Make me rf.persister).Indexed := by
  have hlog := (make_of_durable hd me).2.2
  obtain ⟨e, he⟩ : ∃ e, rf.log.elems[0]? = some e := ⟨_, List.getElem?_eq_getElem h.pos⟩
  have hX : rf.X = 0 := by
    rw [hlog, Slice.elems_ofList, List.head?_eq_getElem?] at h0
    have hzero := h0 e he
    have hidx := h.index 0 e he
    omega
  refine ⟨by rw [hlog]; exact h.pos, fun k e he => ?_⟩
  rw [X_make, ← hX]
  rw [hlog] at he
  exact h.index k e he

/-- The previous entry of a request is the one before `start`. -/
lemma Indexed.prevLogIndex_appendRequest (h : rf.Indexed) {term leaderCommit start end_ : ℕ}
    (hargs : rf.appendRequest term leaderCommit start end_ = some args) (hstart : rf.X < start) :
    args.prevLogIndex + 1 = start := by
  obtain ⟨prev, entries, hprev, -, rfl⟩ := appendRequest_eq_some hargs
  have hidx := h.index _ prev (Slice.get?_eq_some.mp hprev).2
  unfold logIndex2sliceIndex at hidx
  simp only
  omega

/-- The entries of a request that stays within the log are those behind its previous entry. -/
lemma Indexed.consecutive_appendRequest (h : rf.Indexed) {term leaderCommit start end_ : ℕ}
    (hargs : rf.appendRequest term leaderCommit start end_ = some args) (hstart : rf.X < start)
    (hend : rf.logIndex2sliceIndex end_ < rf.log.len) : args.Consecutive := by
  have hprev := h.prevLogIndex_appendRequest hargs hstart
  obtain ⟨prev, entries, -, hentries, rfl⟩ := appendRequest_eq_some hargs
  obtain ⟨-, -, -, rfl⟩ := Slice.reslice?_eq_some.mp hentries
  unfold logIndex2sliceIndex at hend
  intro j e he
  simp only [logIndex2sliceIndex, List.getElem?_take, List.getElem?_drop] at he hprev ⊢
  split_ifs at he with hj
  rw [Slice.array_getElem?_of_lt (by omega)] at he
  have := h.index _ e he
  omega

/-- A peer that applies an entry sends the next index. -/
lemma Indexed.commandIndex {msg : ApplyMsg Cmd} (h : rf.Indexed)
    (hX : rf.X ≤ rf.lastApplied) (happly : rf.applyLog = some (rf', msg)) :
    msg.commandIndex = rf.lastApplied + 1 := by
  obtain ⟨-, -, e, he, rfl⟩ := applyLog_eq_some happly
  have hidx := h.index _ e (Slice.get?_eq_some.mp he).2
  unfold logIndex2sliceIndex at hidx
  simp only
  omega

end Raft

/-! ### Peers and requests -/

/-- A peer whose log is aligned, and that compacts only what it has applied. -/
structure Server.Aligned {n : ℕ} (srv : Server n Cmd) : Prop where
  indexed : srv.rf.Indexed
  X_le : srv.rf.X ≤ srv.rf.lastApplied
  snapshots : ∀ c ∈ srv.snapshots, c.index ≤ srv.rf.lastApplied

structure Cluster.Aligned {n : ℕ} (C : Cluster n Cmd) : Prop where
  servers : ∀ s, (C.servers s).Aligned
  appends : ∀ call ∈ C.appendCalls, call.args.Consecutive
  senders : ∀ call ∈ C.appendCalls, call.sender.Indexed

section Acts

variable {n : ℕ} {srv : Server n Cmd} {votes : List (VoteCall Cmd)}
  {appends : List (AppendCall Cmd)} {a : LocalAction Cmd} {eff : Effect n Cmd}

lemma Server.Acts.lastApplied_le (h : srv.Acts cfg votes appends a eff) :
    srv.rf.lastApplied ≤ eff.server.rf.lastApplied := by
  rcases h.progress with ⟨-, heq, -⟩ | ⟨msg, happly, -⟩
  · exact heq.ge
  · obtain ⟨-, hrf, -⟩ := Raft.applyLog_eq_some happly
    rw [hrf]
    exact Nat.le_succ _

lemma Server.Aligned.acts (h : srv.Aligned) (hacts : srv.Acts cfg votes appends a eff) :
    eff.server.Aligned := by
  have hle := hacts.lastApplied_le
  have hsnap : ∀ c ∈ eff.server.snapshots, c.index ≤ eff.server.rf.lastApplied := by
    intro c hc
    rcases hacts.mem_snapshots hc with ⟨c₀, hc₀, hidx, -⟩ | ⟨-, index, data, -, hidx, hread⟩
    · rw [hidx]
      exact (h.snapshots c₀ hc₀).trans hle
    · obtain ⟨_, _, -, -, rfl⟩ := Raft.snapshotRead_eq_some hread
      exact hidx.trans hle
  rcases hacts.log_X with ⟨hlog, hX, -⟩ | ⟨command, -, hstate, hrf, -, -⟩ | ⟨j, c, -, hc, hrf⟩
  · exact ⟨h.indexed.congr hlog hX, hX ▸ h.X_le.trans hle, hsnap⟩
  · refine ⟨hrf ▸ h.indexed.start hstate command, ?_, hsnap⟩
    have hX : eff.server.rf.X = srv.rf.X := by simp [hrf, Raft.start_of_leader hstate]
    rw [hX]
    exact h.X_le.trans hle
  · refine ⟨h.indexed.snapshotTrim hrf, ?_, hsnap⟩
    obtain ⟨rest, -, hrf⟩ := Raft.snapshotTrim_eq_some hrf
    rw [hrf]
    exact h.snapshots c (List.mem_of_getElem? hc)

lemma Server.Aligned.requestVote (h : srv.Aligned) (args : RequestVoteArgs) :
    ({ srv with rf := (srv.rf.RequestVote args).1 } : Server n Cmd).Aligned := by
  obtain ⟨T, v, st, p, hrf⟩ := srv.rf.requestVote_eq args
  rw [hrf]
  exact ⟨h.indexed.congr rfl rfl, h.X_le, h.snapshots⟩

lemma Server.Aligned.appendEntries (h : srv.Aligned) {args : AppendEntriesArgs Cmd}
    (ha : args.Consecutive) :
    ({ srv with rf := (srv.rf.AppendEntries cfg args).1 } : Server n Cmd).Aligned := by
  rcases (Raft.appendOutcome cfg srv.rf args).followed with ⟨-, hr⟩ | ⟨-, hf⟩
  · rw [hr]
    exact h
  · refine ⟨h.indexed.appendEntries ha, ?_, ?_⟩
    · simp only [hf.X, hf.lastApplied]
      exact h.X_le
    · simp only [hf.lastApplied]
      exact h.snapshots

end Acts

/-- The condition on a step: a goroutine of `appendEntries` that builds a request does not slice
behind the end of the log, and a peer is restarted from a log that begins at index 0. -/
def StartsUncompacted [Zero Cmd] (C : Cluster cfg.peers Cmd) : Action Cmd → Prop
  | .act s (.peerCall b p) => SlicesWithinLog C (.act s (.peerCall b p))
  | .restart s =>
    ∀ e ∈ (Raft.Make s (C.servers s).rf.persister).log.elems.head?, e.index = 0
  | _ => True

section Moves

variable [Zero Cmd] {C C' : Cluster cfg.peers Cmd} {a : Action Cmd} {s : ℕ}

lemma Server.Aligned.boot {n : ℕ} (me : ℕ) :
    (Server.boot (Raft.Make me (.empty : Persister Cmd)) : Server n Cmd).Aligned := by
  refine ⟨⟨Nat.one_pos, fun k e he => ?_⟩, le_rfl, by simp [Server.boot]⟩
  have hk : k = 0 := Nat.lt_one_iff.mp (List.getElem?_eq_some_iff.mp he).1
  subst hk
  cases he
  rfl

lemma Server.Aligned.movesPeer {srv : Server cfg.peers Cmd} (h : (C.servers s).Aligned)
    (ha : ∀ call ∈ C.appendCalls, call.args.Consecutive) (hd : (C.servers s).rf.Durable)
    (hP : StartsUncompacted C a) (hm : C.MovesPeer cfg s a srv) : srv.Aligned := by
  cases hm with
  | other => exact h
  | act _ hacts => exact h.acts hacts
  | handleVote => exact h.requestVote _
  | handleAppend hk => exact h.appendEntries (ha _ (List.mem_of_getElem? hk))
  | crash => exact ⟨h.indexed.congr rfl rfl, h.X_le, by simp [Server.boot]⟩
  | restart =>
    refine ⟨h.indexed.make hd hP, ?_, by simp [Server.boot]⟩
    simp [Server.boot, Raft.X_make]

/-- A request that is built has the entries behind its previous entry. -/
lemma Server.Aligned.appendCall {b : LocalAction Cmd} {eff : Effect cfg.peers Cmd}
    (h : (C.servers s).Aligned) (hP : StartsUncompacted C (.act s b))
    (hacts : (C.servers s).Acts cfg C.voteCalls C.appendCalls b eff) :
    ∀ call ∈ eff.appendCall, call.args.Consecutive ∧ call.sender.Indexed := by
  intro call hcall
  cases hacts with
  | heartbeatCall _ _ _ hargs =>
    cases hcall
    refine ⟨fun j e he => ?_, h.indexed⟩
    simp [(heartbeatRequest_eq_some hargs).2.2.1] at he
  | peerCall hbc hph hnext hguard hargs _ =>
    cases hcall
    refine ⟨?_, h.indexed⟩
    refine h.indexed.consecutive_appendRequest hargs ?_ (hP _ _ _ hbc hph hnext hguard)
    exact not_le.mp fun hle => hguard (.inr (.inl hle))
  | _ => cases hcall

lemma Cluster.Aligned.moves (h : C.Aligned) (hd : ∀ s, (C.servers s).rf.Durable)
    (hP : StartsUncompacted C a) (hm : C.Moves cfg a C') : C'.Aligned := by
  have hcalls : ∀ call ∈ C'.appendCalls, call.args.Consecutive ∧ call.sender.Indexed := by
    intro call hcall
    rcases hm.mem_appendCalls hcall with ⟨c₀, hc₀, r, rfl⟩ | ⟨s, b, eff, rfl, -, hacts, hce⟩
    · exact ⟨h.appends c₀ hc₀, h.senders c₀ hc₀⟩
    · exact (h.servers s).appendCall hP hacts call hce
  exact ⟨fun s => (h.servers s).movesPeer h.appends (hd s) hP (hm.peer s),
    fun call hcall => (hcalls call hcall).1, fun call hcall => (hcalls call hcall).2⟩

end Moves

/-! ### What is applied -/

/-- The values of `CommandIndex` that peer `s` has sent on its `applyCh`. -/
def Cluster.sent {n : ℕ} (C : Cluster n Cmd) (s : ℕ) : List ℕ :=
  (C.applyCh.filter fun m => m.1 = s).map fun m => m.2.commandIndex

/-- From one state to a later one, peer `s` has sent the indices from one `lastApplied` to the
other. -/
def SentOn {n : ℕ} (s : ℕ) (later earlier : Cluster n Cmd) : Prop :=
  ∃ m, (later.servers s).rf.lastApplied = (earlier.servers s).rf.lastApplied + m ∧
    later.sent s = earlier.sent s ++ List.range' ((earlier.servers s).rf.lastApplied + 1) m

lemma SentOn.trans {n s : ℕ} {C₁ C₂ C₃ : Cluster n Cmd} (h : SentOn s C₁ C₂)
    (h' : SentOn s C₂ C₃) : SentOn s C₁ C₃ := by
  obtain ⟨m, hlast, hsent⟩ := h
  obtain ⟨m', hlast', hsent'⟩ := h'
  refine ⟨m' + m, by omega, ?_⟩
  rw [hsent, hsent', List.append_assoc, hlast',
    show (C₃.servers s).rf.lastApplied + m' + 1 = (C₃.servers s).rf.lastApplied + 1 + m' by omega,
    List.range'_append_1]

lemma SentOn.of_eq {n s : ℕ} {C C' : Cluster n Cmd}
    (hlast : (C'.servers s).rf.lastApplied = (C.servers s).rf.lastApplied)
    (hsent : C'.sent s = C.sent s) : SentOn s C' C :=
  ⟨0, hlast, by simp [hsent]⟩

section Run

variable [Zero Cmd] {C C' : Cluster cfg.peers Cmd} {past : List (Cluster cfg.peers Cmd)}
  {a : Action Cmd} {s : ℕ}

lemma Cluster.Aligned.sentOn (h : C.Aligned) (hm : C.Moves cfg a C') (ha : a ≠ .restart s) :
    SentOn s C' C := by
  cases hm with
  | @act r b eff hup hacts =>
    rcases eq_or_ne s r with rfl | hne
    · rcases hacts.progress with ⟨-, hlast, hmsg⟩ | ⟨msg, happly, hmsg⟩
      · refine .of_eq ?_ ?_
        · simpa [Cluster.perform] using hlast
        · simp [Cluster.sent, Cluster.perform, hmsg]
      · have hidx := (h.servers s).indexed.commandIndex (h.servers s).X_le happly
        obtain ⟨-, hrf, -⟩ := Raft.applyLog_eq_some happly
        refine ⟨1, by simp [Cluster.perform, hrf], ?_⟩
        simp [Cluster.sent, Cluster.perform, hmsg, hidx]
    · refine .of_eq (by simp [Cluster.perform, hne]) ?_
      have hfilter : (eff.applyMsg.toList.map (r, ·)).filter (fun m => m.1 = s) = [] := by
        simp [hne.symm]
      simp only [Cluster.sent, Cluster.perform, List.filter_append, hfilter, List.append_nil]
  | @handleVote k call =>
    refine .of_eq ?_ rfl
    rcases eq_or_ne s call.dst with rfl | hne
    · obtain ⟨T, v, st, p, hrf⟩ := (C.servers call.dst).rf.requestVote_eq call.args
      simp [Cluster.setRf, hrf]
    · simp [Cluster.setRf, hne]
  | @handleAppend k call =>
    refine .of_eq ?_ rfl
    rcases eq_or_ne s call.dst with rfl | hne
    · rcases (Raft.appendOutcome cfg (C.servers call.dst).rf call.args).followed with
        ⟨-, hr⟩ | ⟨-, hf⟩
      · simp [Cluster.setRf, hr]
      · simp [Cluster.setRf, hf.lastApplied]
    · simp [Cluster.setRf, hne]
  | @crash r =>
    refine .of_eq ?_ rfl
    rcases eq_or_ne s r with rfl | hne
    · simp [Server.boot]
    · simp [hne]
  | @restart r =>
    have hne : s ≠ r := fun heq => ha (heq ▸ rfl)
    exact .of_eq (by simp [hne]) rfl

lemma raft_aligned {l : List (Cluster cfg.peers Cmd)} (h : (raft cfg).Run StartsUncompacted l) :
    ∀ C ∈ l, C.Aligned := by
  refine h.invariant ?_ ?_
  · rintro C rfl
    exact ⟨fun s => .boot s, by simp [Cluster.initial], by simp [Cluster.initial]⟩
  · intro C past a C' hr hP hC hnext
    exact hC.moves (raft_durable hr) hP (Cluster.moves_of_step hnext)

/-- Index alignment: in every run in which no slice of a log goes behind its end and every peer is
started from a log that begins at index 0, the entries of every log have the indices of their
positions, nothing is compacted that has not been applied, and `Start` returns the index of the
entry it appends. From its start on, an incarnation of a peer sends the command indices 1, 2, 3 and
so on. -/
theorem index_alignment (h : (raft cfg).Run StartsUncompacted (C :: past)) (s : ℕ) :
    0 < (C.servers s).rf.log.len ∧
      (∀ k e, (C.servers s).rf.log.elems[k]? = some e → e.index = (C.servers s).rf.X + k) ∧
      (C.servers s).rf.X ≤ (C.servers s).rf.lastApplied ∧
      (∀ command, (C.servers s).rf.state = .leader →
        ∃ e, ((C.servers s).rf.Start cfg command).1.log.elems =
            (C.servers s).rf.log.elems ++ [e] ∧
          e.command = command ∧ e.index = ((C.servers s).rf.Start cfg command).2.1) ∧
      ∀ seg D p, seg ++ [D] <:+: C :: past → D.servers s = .boot (Raft.Make s p) →
        (∀ E ∈ seg, (E.servers s).rf.dead = false) →
          ∀ E ∈ seg, E.sent s = D.sent s ++ List.range' 1 (E.servers s).rf.lastApplied := by
  have hC := (raft_aligned h C List.mem_cons_self).servers s
  refine ⟨hC.indexed.pos, hC.indexed.index, hC.X_le, fun command hstate => ?_, ?_⟩
  · refine ⟨⟨(C.servers s).rf.currentTerm, _, command⟩, ?_, rfl, rfl⟩
    simp [Raft.Start, hstate]
  · intro seg D p hseg hboot hup E hE
    have hpair := h.pairwise_infix (R := SentOn s) (A := fun E => (E.servers s).rf.dead = false)
      SentOn.trans (fun D _ a D' hr hP hnext hup _ => by
        have hm := Cluster.moves_of_step hnext
        exact (raft_aligned hr D List.mem_cons_self).sentOn hm (hm.ne_restart hup)) _ hseg ?_
    · obtain ⟨m, hlast, hsent⟩ := (List.pairwise_append.mp hpair).2.2 E hE D List.mem_cons_self
      simp only [hboot, Server.boot, Raft.lastApplied_make, Nat.zero_add] at hlast hsent
      rw [hsent, hlast]
    · refine forall_mem_concat hup ?_
      simp [hboot, Server.boot, Raft.dead_make]

/-- A check of `StartsUncompacted`. -/
def startsUncompacted (C : Cluster cfg.peers Cmd) : Action Cmd → Bool
  | .act s (.peerCall b p) => slicesWithinLog C (.act s (.peerCall b p))
  | .restart s =>
    (Raft.Make s (C.servers s).rf.persister).log.elems.head?.all fun e => e.index = 0
  | _ => true

lemma startsUncompacted_sound (C : Cluster cfg.peers Cmd) (a : Action Cmd)
    (h : startsUncompacted C a = true) : StartsUncompacted C a := by
  unfold startsUncompacted at h
  unfold StartsUncompacted
  split at h
  · exact slicesWithinLog_sound C _ h
  · simpa [Option.all_eq_true] using h
  · trivial

/-- The leader of three peers commits a command with the vote of peer 1, applies and compacts it,
and goes on with a second one. Peer 2 is restarted in between. -/
def compactingLeader : List (Action ℕ) :=
  electing 0 0 1 0 ++ [.act 0 (.start (some 11))] ++ replicating 0 0 1 0 ++
    [.act 0 (.peerDecide 0), .act 0 .applyLog,
      .act 0 (.snapshot 1 [.int 1, .commands [some 11]]), .act 0 (.snapshotPublish 0),
      .act 0 (.snapshotTrim 0), .crash 2, .restart 2, .act 0 (.start (some 12))] ++
    replicating 0 1 1 1 ++ [.act 0 (.peerDecide 1), .act 0 .applyLog]

/-- The compacted log of the leader begins at index 1. -/
theorem index_alignment_compacted :
    ∃ (C : Cluster (Config.doubling 3).peers ℕ) (past : List (Cluster (Config.doubling 3).peers ℕ)),
      (raft (.doubling 3)).Run StartsUncompacted (C :: past) ∧
      ((C.servers 0).rf.X = 1 ∧ (C.servers 0).rf.log.len = 2 ∧ C.sent 0 = [1, 2]) ∧
      ∀ k e, (C.servers 0).rf.log.elems[k]? = some e → e.index = 1 + k := by
  obtain ⟨C, past, hr, hC⟩ : ∃ (C : Cluster (Config.doubling 3).peers ℕ)
      (past : List (Cluster (Config.doubling 3).peers ℕ)),
      (raft (.doubling 3)).Run StartsUncompacted (C :: past) ∧
      ((C.servers 0).rf.X = 1 ∧ (C.servers 0).rf.log.len = 2 ∧ C.sent 0 = [1, 2]) :=
    Machine.exists_run_of_trace startsUncompacted startsUncompacted_sound compactingLeader
      (by decide +kernel)
  exact ⟨C, past, hr, hC, hC.1 ▸ (index_alignment hr 0).2.1⟩

end Run

/-! ### The previous entry of a request -/

/-- The condition on a step: besides `StartsUncompacted`, a leader that sends a heartbeat to a peer
has not compacted the entry before `nextIndex`. -/
def SendsHeldPrev [Zero Cmd] (C : Cluster cfg.peers Cmd) : Action Cmd → Prop
  | .act s (.heartbeatCall _ p) => (C.servers s).rf.state = .leader →
      ∀ next ∈ (C.servers s).rf.nextIndex[p]?, (C.servers s).rf.X < next
  | a => StartsUncompacted C a

/-- The previous entry of the request is in the log of the sender. -/
def PrevHeld (call : AppendCall Cmd) : Prop :=
  ∃ e ∈ call.sender.log.elems, e.index = call.args.prevLogIndex ∧ e.term = call.args.prevLogTerm

section Run

variable [Zero Cmd] {C C' : Cluster cfg.peers Cmd} {past : List (Cluster cfg.peers Cmd)}
  {a : Action Cmd} {s : ℕ}

lemma raft_startsUncompacted {l : List (Cluster cfg.peers Cmd)}
    (h : (raft cfg).Run SendsHeldPrev l) : (raft cfg).Run StartsUncompacted l := by
  refine h.mono fun C past a _ hP => ?_
  unfold SendsHeldPrev at hP
  split at hP
  · trivial
  · exact hP

omit [Zero Cmd] in
lemma Raft.heartbeatRequest_prev {rf : Raft Cmd} {term commitIndex i : ℕ}
    {args : AppendEntriesArgs Cmd} (h : rf.heartbeatRequest term commitIndex i = some args)
    (hX : ∀ next ∈ rf.nextIndex[i]?, rf.X < next) :
    ∃ e ∈ rf.log.elems, e.index = args.prevLogIndex ∧ e.term = args.prevLogTerm := by
  simp only [Raft.heartbeatRequest] at h
  split at h
  · cases h
  · rename_i next hnext
    have hlt := hX next hnext
    rw [if_neg (by omega)] at h
    split at h <;> cases h
    rename_i prev hprev
    exact ⟨prev, List.mem_of_getElem? (Slice.get?_eq_some.mp hprev).2, rfl, rfl⟩

lemma prevHeld_of_acts {b : LocalAction Cmd} {eff : Effect cfg.peers Cmd}
    (hP : SendsHeldPrev C (.act s b))
    (hacts : (C.servers s).Acts cfg C.voteCalls C.appendCalls b eff) :
    ∀ call ∈ eff.appendCall, PrevHeld call := by
  intro call hcall
  cases hacts with
  | heartbeatCall _ _ hstate hargs =>
    cases hcall
    exact Raft.heartbeatRequest_prev hargs (hP hstate)
  | peerCall _ _ _ _ hargs _ =>
    cases hcall
    obtain ⟨prev, entries, hprev, -, rfl⟩ := appendRequest_eq_some hargs
    exact ⟨prev, List.mem_of_getElem? (Slice.get?_eq_some.mp hprev).2, rfl, rfl⟩
  | _ => cases hcall

lemma raft_prevHeld {l : List (Cluster cfg.peers Cmd)} (h : (raft cfg).Run SendsHeldPrev l) :
    ∀ C ∈ l, ∀ call ∈ C.appendCalls, PrevHeld call := by
  refine h.invariant ?_ ?_
  · rintro C rfl
    simp [Cluster.initial]
  · intro C past a C' _ hP hC hnext call hcall
    rcases (Cluster.moves_of_step hnext).mem_appendCalls hcall with
      ⟨c₀, hc₀, r, rfl⟩ | ⟨s, b, eff, rfl, -, hacts, hce⟩
    · exact hC c₀ hc₀
    · exact prevHeld_of_acts hP hacts call hce

/-- Requests carry a true previous entry: in every run in which no heartbeat goes to a peer that
lags behind the snapshot, no slice of a log goes behind its end and every peer is started from a
log that begins at index 0, the previous entry of every request is an entry of the log of its
sender at the moment it was built, and the entries of the request follow it one by one. -/
theorem requests_carry_prev (h : (raft cfg).Run SendsHeldPrev (C :: past)) :
    ∀ call ∈ C.appendCalls,
      (∃ e ∈ call.sender.log.elems,
        e.index = call.args.prevLogIndex ∧ e.term = call.args.prevLogTerm) ∧
      ∀ k e, call.args.entries[k]? = some e → e.index = call.args.prevLogIndex + 1 + k := by
  intro call hcall
  exact ⟨raft_prevHeld h C List.mem_cons_self call hcall,
    (raft_aligned (raft_startsUncompacted h) C List.mem_cons_self).appends call hcall⟩

/-- A check of `SendsHeldPrev`. -/
def sendsHeldPrev (C : Cluster cfg.peers Cmd) : Action Cmd → Bool
  | .act s (.heartbeatCall _ p) =>
    (C.servers s).rf.nextIndex[p]?.all fun next => (C.servers s).rf.X < next
  | a => startsUncompacted C a

lemma sendsHeldPrev_sound (C : Cluster cfg.peers Cmd) (a : Action Cmd)
    (h : sendsHeldPrev C a = true) : SendsHeldPrev C a := by
  unfold sendsHeldPrev at h
  unfold SendsHeldPrev
  split at h
  · intro _ next hnext
    simpa [Option.mem_def.mp hnext] using h
  · exact startsUncompacted_sound C _ h

/-- The compacted leader sends peer 1 a heartbeat, with the entry 2 as the previous one. -/
theorem requests_carry_prev_compacted :
    ∃ (C : Cluster (Config.doubling 3).peers ℕ) (past : List (Cluster (Config.doubling 3).peers ℕ)),
      (raft (.doubling 3)).Run SendsHeldPrev (C :: past) ∧
      ((C.appendCalls.map fun call => (call.args.prevLogIndex, call.args.prevLogTerm)) =
        [(0, 0), (1, 1), (2, 1)]) ∧
      ∀ call ∈ C.appendCalls, ∃ e ∈ call.sender.log.elems,
        e.index = call.args.prevLogIndex ∧ e.term = call.args.prevLogTerm := by
  obtain ⟨C, past, hr, hC⟩ : ∃ (C : Cluster (Config.doubling 3).peers ℕ)
      (past : List (Cluster (Config.doubling 3).peers ℕ)),
      (raft (.doubling 3)).Run SendsHeldPrev (C :: past) ∧
      (C.appendCalls.map fun call => (call.args.prevLogIndex, call.args.prevLogTerm)) =
        [(0, 0), (1, 1), (2, 1)] :=
    Machine.exists_run_of_trace sendsHeldPrev sendsHeldPrev_sound
      (compactingLeader ++ [.act 0 .heartbeatStart, .act 0 (.heartbeatCall 0 1)])
      (by decide +kernel)
  exact ⟨C, past, hr, hC, fun call hcall => (requests_carry_prev hr call hcall).1⟩

/-- The leader has compacted its log up to index 2, and sends a heartbeat to peer 2, which has not
seen any command. -/
def laggingPeer : List (Action ℕ) :=
  compactingLeader ++
    [.act 0 (.snapshot 2 [.int 2, .commands [some 12]]), .act 0 (.snapshotPublish 0),
      .act 0 (.snapshotTrim 0), .act 0 .heartbeatStart, .act 0 (.heartbeatCall 0 2)]

/-- The heartbeat names index 1 and term 2 as the previous entry. The leader has no such entry, and
none has ever been appended. -/
theorem laggingPeer_swaps_prev :
    ∃ C : Cluster (Config.doubling 3).peers ℕ, (raft (.doubling 3)).Reachable C ∧
      ∃ call ∈ C.appendCalls, (call.args.prevLogIndex, call.args.prevLogTerm) = (1, 2) ∧
        ∀ e ∈ Raft.sentinel :: C.created ++ call.sender.log.elems,
          ¬(e.index = call.args.prevLogIndex ∧ e.term = call.args.prevLogTerm) := by
  obtain ⟨C, past, hr, hC⟩ : ∃ (C : Cluster (Config.doubling 3).peers ℕ)
      (past : List (Cluster (Config.doubling 3).peers ℕ)),
      (raft (.doubling 3)).Run Machine.Any (C :: past) ∧
      ∃ call ∈ C.appendCalls, (call.args.prevLogIndex, call.args.prevLogTerm) = (1, 2) ∧
        ∀ e ∈ Raft.sentinel :: C.created ++ call.sender.log.elems,
          ¬(e.index = call.args.prevLogIndex ∧ e.term = call.args.prevLogTerm) :=
    Machine.exists_run_of_trace (fun _ _ => true) (fun _ _ _ => trivial) laggingPeer
      (by decide +kernel)
  exact ⟨C, ⟨past, hr⟩, hC⟩

end Run

end DistLabs
