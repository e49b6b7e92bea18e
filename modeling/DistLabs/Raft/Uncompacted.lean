import DistLabs.Raft.Acceptance
import DistLabs.Raft.Leadership

/-!
# Runs without snapshots

Without calls of `Snapshot` the offset `X` stays 0 and indices are positions in the log. Then every
entry sits at the position its index names, in the logs, in the requests, and in the part of the
backing arrays that a goroutine of `appendEntries` may slice, even behind the end of the log.
-/

namespace DistLabs

variable {Cmd : Type*} {cfg : Config}

/-- The condition on a step: the service does not call `Snapshot`. -/
def NoSnapshot {n : ℕ} (_ : Cluster n Cmd) : Action Cmd → Prop
  | .act _ (.snapshot _ _) => False
  | _ => True

/-- An entry that may stand at position `i`. -/
def LogEntry.Placed (i : ℕ) (e : LogEntry Cmd) : Prop := e.index = i ∧ (0 < i → 0 < e.term)

/-- The entries of a request stand behind the previous entry. -/
def AppendEntriesArgs.Placed (args : AppendEntriesArgs Cmd) : Prop :=
  ∀ (j : ℕ) (e : LogEntry Cmd), args.entries[j]? = some e → e.Placed (args.prevLogIndex + 1 + j)

namespace Raft

/-! ### AppendEntries without a snapshot -/

/-- The log of a peer without a snapshot. -/
structure PlainLog [Zero Cmd] (rf : Raft Cmd) : Prop where
  X : rf.X = 0
  snapshot : rf.snapshot = none
  head : rf.log.elems[0]? = some sentinel
  log : rf.log.Filled LogEntry.Placed rf.log.len

variable [Zero Cmd] {rf : Raft Cmd} {args : AppendEntriesArgs Cmd}

lemma PlainLog.placed (h : rf.PlainLog) {i : ℕ} {e : LogEntry Cmd}
    (he : rf.log.elems[i]? = some e) : e.Placed i :=
  Slice.filled_len_iff.mp h.log i e he

lemma PlainLog.len_pos (h : rf.PlainLog) : 0 < rf.log.len :=
  (List.getElem?_eq_some_iff.mp h.head).1

lemma PlainLog.whole (h : rf.PlainLog) : rf.Whole := by
  refine ⟨h.X, ⟨h.len_pos, fun k e he => ?_⟩, fun i e he => ⟨fun hpos => ?_, (h.placed he).2⟩⟩
  · rw [(h.placed he).1, h.X, Nat.zero_add]
  · by_contra h0
    obtain rfl : i = 0 := by omega
    cases h.head.symm.trans he
    exact Nat.lt_irrefl 0 hpos

/-- The request fits the log: its previous entry is there, and the log and the request agree from
there to position `i`, which is the end of the log or holds another term. -/
structure Fits (log : List (LogEntry Cmd)) (args : AppendEntriesArgs Cmd) (i : ℕ) : Prop where
  lt : args.prevLogIndex < log.length
  prev : args.prevLogIndex = 0 ∨
    ∃ x, log[args.prevLogIndex]? = some x ∧ x.term = args.prevLogTerm
  point : MergePoint log (args.prevLogIndex + 1) args.entries i

omit [Zero Cmd] in
/-- What `AppendEntries` does to a log that is not compacted and to the commit index. -/
lemma Whole.appendEntries (h : rf.Whole) (cfg : Config) (args : AppendEntriesArgs Cmd) :
    ((rf.AppendEntries cfg args).2.success = false ∧
        (rf.AppendEntries cfg args).1.log = rf.log ∧
        (rf.AppendEntries cfg args).1.commitIndex = rf.commitIndex) ∨
      (rf.AppendEntries cfg args).2.success = true ∧ rf.currentTerm ≤ args.term ∧
        ∃ i, Fits rf.log.elems args i ∧
          (rf.AppendEntries cfg args).1.log = (rf.log.upto i).append cfg.growslice
            (args.entries.drop (i - (args.prevLogIndex + 1))) ∧
          (rf.AppendEntries cfg args).1.commitIndex =
            (rf.updateCommit args
              (args.entries.drop (i - (args.prevLogIndex + 1)))).commitIndex := by
  cases hs : (rf.AppendEntries cfg args).2.success with
  | false => exact .inl ⟨rfl, unchanged_of_not_success hs⟩
  | true =>
    obtain ⟨hterm, -⟩ := (h.indexed.success_iff cfg args).mp hs
    obtain ⟨i, hw, hlog, hcommit⟩ := exists_writesFrom_slice h.indexed.pos hs
    have hlt := hw.prev_lt
    simp only [WritesFrom, h.X, Nat.zero_add, Nat.sub_zero, Nat.max_zero, Nat.zero_sub,
      List.drop_zero] at hw hlog hcommit hlt
    refine .inr ⟨rfl, hterm, i, ⟨?_, h.exists_of_success hs, hw⟩, hlog, hcommit⟩
    exact Nat.lt_of_lt_of_le hlt hw.le_length

omit [Zero Cmd] in
/-- The merged log takes every position from the old log or from the request. -/
lemma Fits.getElem? {log : List (LogEntry Cmd)} {i : ℕ} (h : Fits log args i) (q : ℕ) :
    (log.take i ++ args.entries.drop (i - (args.prevLogIndex + 1)))[q]? =
      if q < i then log[q]? else args.entries[q - (args.prevLogIndex + 1)]? :=
  h.point.getElem? q

omit [Zero Cmd] in
lemma Fits.placed {log : List (LogEntry Cmd)} {i : ℕ} (h : Fits log args i)
    (hl : ∀ (q : ℕ) (e : LogEntry Cmd), log[q]? = some e → e.Placed q) (ha : args.Placed) :
    ∀ (q : ℕ) (e : LogEntry Cmd),
      (log.take i ++ args.entries.drop (i - (args.prevLogIndex + 1)))[q]? = some e →
        e.Placed q := by
  intro q e he
  rw [h.getElem?] at he
  split_ifs at he with hq
  · exact hl q e he
  · have hp := ha _ e he
    have h1 := h.point.start_le
    rwa [Nat.add_sub_cancel' (by omega)] at hp

/-- The request changes the log to another one without a snapshot. -/
lemma PlainLog.of_appendEntries (h : rf.PlainLog) (ha : args.Placed) :
    (rf.AppendEntries cfg args).1.PlainLog := by
  obtain ⟨hX, hsnap⟩ : (rf.AppendEntries cfg args).1.X = 0 ∧
      (rf.AppendEntries cfg args).1.snapshot = none := by
    rcases (appendOutcome cfg rf args).followed with ⟨-, hr⟩ | ⟨-, hf⟩
    · rw [hr]
      exact ⟨h.X, h.snapshot⟩
    · rw [hf.X, hf.snapshot]
      exact ⟨h.X, h.snapshot⟩
  rcases h.whole.appendEntries cfg args with ⟨-, hlog, -⟩ | ⟨-, -, i, hfit, hlog, -⟩
  · exact ⟨hX, hsnap, hlog ▸ h.head, hlog ▸ h.log⟩
  · have hplaced := hfit.placed (fun _ _ => h.placed) ha
    refine ⟨hX, hsnap, ?_, ?_⟩
    · rw [hlog, Slice.elems_append, Slice.elems_upto, hfit.getElem?,
        if_pos (Nat.lt_of_lt_of_le (Nat.succ_pos _) hfit.point.start_le), h.head]
    · rw [hlog, Slice.filled_len_iff]
      simpa using hplaced

/-- What is known of the backing array stays known. -/
lemma PlainLog.filled_appendEntries (h : rf.PlainLog) (ha : args.Placed) {m : ℕ}
    (hm : rf.log.Filled LogEntry.Placed m) :
    (rf.AppendEntries cfg args).1.log.Filled LogEntry.Placed m := by
  rcases h.whole.appendEntries cfg args with ⟨-, hlog, -⟩ | ⟨-, -, i, hfit, hlog, -⟩
  · rwa [hlog]
  · rw [hlog]
    exact (hm.upto i).append cfg.growslice (hfit.placed (fun _ _ => h.placed) ha)

/-! ### Requests without a snapshot -/

/-- The request a goroutine of `appendEntries` builds without a snapshot. -/
structure PlainRequest (rf : Raft Cmd) (term leaderCommit start end_ : ℕ)
    (args : AppendEntriesArgs Cmd) : Prop where
  term : args.term = term
  leaderCommit : args.leaderCommit = leaderCommit
  index : args.prevLogIndex + 1 = start
  prev : ∃ x, rf.log.elems[args.prevLogIndex]? = some x ∧ x.term = args.prevLogTerm
  entries : rf.log.reslice? start (end_ + 1 : ℕ) = some args.entries

omit [Zero Cmd] in
lemma start_pos_of_not_givesUp {start next end_ : ℕ} (h : ¬ rf.givesUp start next end_) :
    0 < start := by
  by_contra h0
  exact h (.inr (.inl (by omega)))

lemma PlainLog.appendRequest (h : rf.PlainLog) {term leaderCommit start end_ : ℕ}
    (hargs : rf.appendRequest term leaderCommit start end_ = some args) (hstart : 0 < start) :
    PlainRequest rf term leaderCommit start end_ args := by
  obtain ⟨prev, entries, hprev, hentries, rfl⟩ := appendRequest_eq_some hargs
  obtain ⟨m, rfl⟩ := Nat.exists_eq_succ_of_ne_zero hstart.ne'
  simp only [logIndex2sliceIndex, h.X, Nat.succ_eq_add_one] at hprev hentries
  rw [show ((m + 1 : ℕ) : ℤ) - (0 : ℕ) - 1 = (m : ℕ) by omega, Slice.get?_natCast] at hprev
  rw [show ((m + 1 : ℕ) : ℤ) - (0 : ℕ) = (m + 1 : ℕ) by omega,
    show (end_ : ℤ) - (0 : ℕ) + 1 = (end_ + 1 : ℕ) by omega] at hentries
  have hidx := (h.placed hprev).1
  exact ⟨rfl, rfl, by simp [hidx], ⟨prev, by simpa [hidx] using hprev, rfl⟩, hentries⟩

end Raft

/-! ### Peers and requests -/

/-- A peer that has never been asked for a snapshot. -/
structure Server.Plain [Zero Cmd] {n : ℕ} (srv : Server n Cmd) : Prop where
  plainLog : srv.rf.PlainLog
  snapshots : srv.snapshots = []
  term_pos : srv.rf.state ≠ .follower → 0 < srv.rf.currentTerm
  ends : ∀ b ∈ srv.broadcasts, srv.rf.log.Filled LogEntry.Placed (b.end_ + 1)

structure Cluster.Plain [Zero Cmd] {n : ℕ} (C : Cluster n Cmd) : Prop where
  servers : ∀ s, (C.servers s).Plain
  appends : ∀ c ∈ C.appendCalls, c.args.Placed

section Plain

variable [Zero Cmd] {n : ℕ} {srv : Server n Cmd} {a : LocalAction Cmd} {eff : Effect n Cmd}
  {votes : List (VoteCall Cmd)} {appends : List (AppendCall Cmd)}

/-- The goroutines that were there, when the log has changed. -/
lemma Server.Plain.ends_of {rf : Raft Cmd} (h : srv.Plain)
    (hacts : srv.Acts cfg votes appends a eff) (hrf : eff.server.rf = rf)
    (hlog : ∀ m, srv.rf.log.Filled LogEntry.Placed m → rf.log.Filled LogEntry.Placed m) :
    ∀ b ∈ eff.server.broadcasts, eff.server.rf.log.Filled LogEntry.Placed (b.end_ + 1) := by
  intro b hb
  rcases hacts.mem_broadcasts hb with ⟨b₀, hb₀, -, -, hend⟩ | ⟨hsame, -, -, hend⟩
  · rw [hrf, hend]
    exact hlog _ (h.ends b₀ hb₀)
  · have hpos := h.plainLog.len_pos
    have hlen : b.end_ + 1 = srv.rf.log.len := by
      rw [hend, Raft.sliceIndex2logIndex, h.plainLog.X]
      omega
    rw [hsame, hlen]
    exact h.plainLog.log

lemma Server.Plain.acts (h : srv.Plain) (hacts : srv.Acts cfg votes appends a eff)
    (ha : ∀ index data, a ≠ .snapshot index data) : eff.server.Plain := by
  obtain ⟨hsnap, hsn⟩ := hacts.snapshots_eq_nil h.snapshots ha
  have hnone := hsn.trans h.plainLog.snapshot
  have hterm : eff.server.rf.state ≠ .follower → 0 < eff.server.rf.currentTerm := by
    intro hst
    by_cases hnl : eff.leader = none
    · rcases hacts.ballot hnl with hs | hc | ⟨T, -, hf⟩
      · rw [hs.currentTerm]
        exact h.term_pos (hs.state ▸ hst)
      · simp [hc, Raft.becomeCandidate]
      · simp [hf, Raft.becomeFollower] at hst
    · cases hacts with
      | voteWin _ _ hstate _ => exact h.term_pos (by simp [hstate])
      | _ => exact absurd rfl hnl
  rcases hacts.log_X with ⟨hlog, hX, -⟩ | ⟨command, -, hstate, hrf, -, -⟩ | ⟨j, c, -, hc, -⟩
  · refine ⟨⟨hX.trans h.plainLog.X, hnone, hlog ▸ h.plainLog.head, hlog ▸ h.plainLog.log⟩, hsnap,
      hterm, h.ends_of hacts rfl fun m hm => hlog ▸ hm⟩
  · have hlog : eff.server.rf.log = srv.rf.log.append cfg.growslice
        [⟨srv.rf.currentTerm, srv.rf.log.len + srv.rf.X, command⟩] := by
      simp [hrf, Raft.start_of_leader hstate]
    have hX : eff.server.rf.X = 0 := by
      simp [hrf, Raft.start_of_leader hstate, h.plainLog.X]
    have hplaced : ∀ (i : ℕ) (e : LogEntry Cmd), (srv.rf.log.elems ++
        [⟨srv.rf.currentTerm, srv.rf.log.len + srv.rf.X, command⟩])[i]? = some e →
          e.Placed i := by
      intro i e he
      rw [List.getElem?_append] at he
      split_ifs at he with hi
      · exact h.plainLog.placed he
      · have hi0 := (List.getElem?_eq_some_iff.mp he).1
        simp only [List.length_singleton] at hi0
        obtain rfl := List.mem_singleton.mp (List.mem_of_getElem? he)
        refine ⟨?_, fun _ => h.term_pos (by simp [hstate])⟩
        simp only [h.plainLog.X, Slice.len]
        omega
    refine ⟨⟨hX, hnone, ?_, ?_⟩, hsnap, hterm, h.ends_of hacts rfl fun m hm => ?_⟩
    · rw [hlog, Slice.elems_append, List.getElem?_append_left h.plainLog.len_pos,
        h.plainLog.head]
    · rw [hlog, Slice.filled_len_iff]
      simpa using hplaced
    · rw [hlog]
      exact hm.append _ hplaced
  · simp [h.snapshots] at hc

/-- Every request that is built has its entries in place. -/
lemma Server.Plain.placed (h : srv.Plain) (hacts : srv.Acts cfg votes appends a eff) :
    ∀ c ∈ eff.appendCall, c.args.Placed := by
  intro c hc
  cases hacts with
  | heartbeatCall hhb hph hstate hargs =>
    cases hc
    intro j e he
    simp [(heartbeatRequest_eq_some hargs).2.2.1] at he
  | @peerCall b p start next bc poll args hbc hph hnext hguard hargs hpoll =>
    cases hc
    have hreq := h.plainLog.appendRequest hargs (Raft.start_pos_of_not_givesUp hguard)
    intro j e hj
    rw [hreq.index]
    exact (h.ends bc (List.mem_of_getElem? hbc)).reslice hreq.entries j e hj
  | _ => cases hc

lemma Server.Plain.requestVote (h : srv.Plain) (args : RequestVoteArgs) :
    ({ srv with rf := (srv.rf.RequestVote args).1 } : Server n Cmd).Plain := by
  obtain ⟨⟨hX, hnone, hhead, hlog⟩, hsnap, hterm, hends⟩ := h
  generalize hr : srv.rf.RequestVote args = r
  have hout := hr ▸ srv.rf.voteOutcome args
  cases hout with
  | refuse => exact ⟨⟨hX, hnone, hhead, hlog⟩, hsnap, hterm, hends⟩
  | bump | bumpGrant =>
    refine ⟨⟨?_, ?_, ?_, ?_⟩, hsnap, by simp [Raft.becomeFollower], ?_⟩ <;>
      simpa [Raft.becomeFollower]
  | grant => refine ⟨⟨?_, ?_, ?_, ?_⟩, hsnap, ?_, ?_⟩ <;> simpa

lemma Server.Plain.appendEntries (h : srv.Plain) {args : AppendEntriesArgs Cmd}
    (ha : args.Placed) :
    ({ srv with rf := (srv.rf.AppendEntries cfg args).1 } : Server n Cmd).Plain := by
  refine ⟨h.plainLog.of_appendEntries ha, h.snapshots, ?_, fun b hb => ?_⟩
  · rcases (Raft.appendOutcome cfg srv.rf args).followed with ⟨-, hr⟩ | ⟨-, hf⟩
    · rw [hr]
      exact h.term_pos
    · exact fun hst => absurd hf.state hst
  · exact h.plainLog.filled_appendEntries ha (h.ends b hb)

/-- A restart reads the log back. -/
lemma Server.Plain.restart (h : srv.Plain) (hd : srv.rf.Durable) (me : ℕ) :
    (Server.boot (Raft.Make me srv.rf.persister) : Server n Cmd).Plain := by
  have hlog : (Raft.Make me srv.rf.persister).log = .ofList srv.rf.log.elems :=
    (Raft.make_of_durable hd me).2.2
  refine ⟨⟨Raft.X_make _ _, Raft.snapshot_make _ _, ?_, ?_⟩, rfl, ?_, ?_⟩
  · simp only [Server.boot, hlog, Slice.elems_ofList, h.plainLog.head]
  · simp only [Server.boot, hlog, Slice.filled_len_iff, Slice.elems_ofList]
    exact fun i e he => h.plainLog.placed he
  · simp [Server.boot, Raft.state_make]
  · simp [Server.boot]

end Plain

section Run

variable [Zero Cmd] {C C' : Cluster cfg.peers Cmd} {a : Action Cmd}

lemma Cluster.Plain.movesPeer {srv : Server cfg.peers Cmd} {s : ℕ} (h : C.Plain)
    (hd : (C.servers s).rf.Durable) (hP : NoSnapshot C a) (hm : C.MovesPeer cfg s a srv) :
    srv.Plain := by
  have hs := h.servers s
  cases hm with
  | other => exact hs
  | act _ hacts =>
    refine hs.acts hacts fun index data ha => ?_
    subst ha
    exact hP
  | @handleVote _ call => exact hs.requestVote call.args
  | handleAppend hk => exact hs.appendEntries (h.appends _ (List.mem_of_getElem? hk))
  | crash =>
    obtain ⟨⟨hX, hnone, hhead, hlog⟩, -, hterm, -⟩ := hs
    exact ⟨⟨hX, hnone, hhead, hlog⟩, rfl, hterm, by simp [Server.boot]⟩
  | restart => exact hs.restart hd s

lemma Cluster.Plain.moves (h : C.Plain) (hd : ∀ s, (C.servers s).rf.Durable)
    (hP : NoSnapshot C a) (hm : C.Moves cfg a C') : C'.Plain := by
  refine ⟨fun v => h.movesPeer (hd v) hP (hm.peer v), fun c hc => ?_⟩
  rcases hm.mem_appendCalls hc with ⟨c₀, hc₀, r, rfl⟩ | ⟨s, b, eff, -, -, hacts, hce⟩
  · exact h.appends c₀ hc₀
  · exact (h.servers s).placed hacts c hce

variable {l : List (Cluster cfg.peers Cmd)}

lemma raft_plain (h : (raft cfg).Run NoSnapshot l) : ∀ C ∈ l, C.Plain := by
  refine h.invariant ?_ ?_
  · rintro C rfl
    refine ⟨fun s => ⟨⟨rfl, rfl, rfl, ?_⟩, rfl,
      by simp [Cluster.initial, Server.boot, Raft.state_make],
      by simp [Cluster.initial, Server.boot]⟩, by simp [Cluster.initial]⟩
    rw [Slice.filled_len_iff]
    intro i e he
    have hi : i = 0 := Nat.lt_one_iff.mp (List.getElem?_eq_some_iff.mp he).1
    subst hi
    cases he
    exact ⟨rfl, by simp⟩
  · intro C past a C' hr hP hC hnext
    exact hC.moves (raft_durable hr) hP (Cluster.moves_of_step hnext)

/-- Without snapshots leaders do not compact their logs. -/
lemma raft_compactsInTenure (h : (raft cfg).Run NoSnapshot l) :
    (raft cfg).Run CompactsInTenure l := by
  refine h.mono fun C past a hr hP => ?_
  have hC := (raft_plain hr C List.mem_cons_self).servers
  unfold CompactsInTenure
  split
  · exact fun _ _ _ _ => ⟨(hC _).plainLog.X, (hC _).snapshots⟩
  · exact hP.elim
  · trivial

end Run

end DistLabs
