import DistLabs.Consensus.ReplicatedLog
import DistLabs.Raft.Uncompacted

/-!
# Requests as slices of logs

A goroutine of `appendEntries` re-slices the log up to the end it has captured, and Go checks such
a slice against the capacity only. As long as the log reaches that far, a request is a slice of the
sender's log, and accepting it makes the receiver's log what following the sender's log would make
it.
-/

namespace DistLabs

open ReplicatedLog

variable {Cmd : Type*} {cfg : Config}

/-- The condition on a step: the service does not call `Snapshot`, and a goroutine of
`appendEntries` that builds a request does not slice behind the end of the log. -/
def SlicesWithinLog (C : Cluster cfg.peers Cmd) : Action Cmd → Prop
  | .act s (.peerCall b p) =>
    ∀ bc start next, (C.servers s).broadcasts[b]? = some bc →
      bc.poll.phase p = .ready (some start) → (C.servers s).rf.nextIndex[p]? = some next →
      ¬ (C.servers s).rf.givesUp start next bc.end_ →
        (C.servers s).rf.logIndex2sliceIndex bc.end_ < (C.servers s).rf.log.len
  | .act _ (.snapshot _ _) => False
  | _ => True

/-- The request reads as the slice of the log `L` that ends with it. -/
structure AppendEntriesArgs.SliceOf (args : AppendEntriesArgs Cmd) (L : List (LogEntry Cmd)) :
    Prop where
  length : L.length = args.prevLogIndex + 1 + args.entries.length
  prev : ∃ x, L[args.prevLogIndex]? = some x ∧ x.index = args.prevLogIndex ∧
    x.term = args.prevLogTerm
  entries : args.entries = L.drop (args.prevLogIndex + 1)

/-- The part of the sender's log that the request ends with. -/
def Call.log (c : AppendCall Cmd) : List (LogEntry Cmd) :=
  c.sender.log.elems.take (c.args.prevLogIndex + 1 + c.args.entries.length)

namespace Raft

variable [Zero Cmd] {rf : Raft Cmd} {args : AppendEntriesArgs Cmd} {L ℓ : List (LogEntry Cmd)}
  {i : ℕ}

omit [Zero Cmd] in
lemma sliceOf_take {k : ℕ} (hk : args.prevLogIndex < k) (hlen : k ≤ rf.log.elems.length)
    (hprev : ∃ x, rf.log.elems[args.prevLogIndex]? = some x ∧ x.index = args.prevLogIndex ∧
      x.term = args.prevLogTerm)
    (hentries : args.entries = (rf.log.elems.take k).drop (args.prevLogIndex + 1)) :
    args.SliceOf (rf.log.elems.take (args.prevLogIndex + 1 + args.entries.length)) := by
  have hk' : args.prevLogIndex + 1 + args.entries.length = k := by
    simp only [hentries, List.length_drop, List.length_take]
    omega
  obtain ⟨x, hx, hidx, hterm⟩ := hprev
  rw [hk']
  refine ⟨?_, ⟨x, ?_, hidx, hterm⟩, hentries⟩
  · rw [hk', List.length_take]
    omega
  · rw [List.getElem?_take_of_lt hk, hx]

/-- The request of `appendEntries`. -/
lemma PlainLog.appendRequest_sliceOf (h : rf.PlainLog) {term leaderCommit start end_ : ℕ}
    (hargs : rf.appendRequest term leaderCommit start end_ = some args) (hstart : 0 < start)
    (hend : end_ < rf.log.len) :
    args.SliceOf (rf.log.elems.take (args.prevLogIndex + 1 + args.entries.length)) := by
  have hreq := h.appendRequest hargs hstart
  obtain ⟨hle, -, hentries⟩ := Slice.reslice?_natCast.mp hreq.entries
  obtain ⟨x, hx, hterm⟩ := hreq.prev
  have hidx := hreq.index
  refine sliceOf_take (k := end_ + 1) (by omega) hend ⟨x, hx, (h.placed hx).1, hterm⟩ ?_
  rw [hidx, hentries, Slice.array, List.take_append_of_le_length hend]

/-- The request of a heartbeat. -/
lemma PlainLog.heartbeatRequest_sliceOf (h : rf.PlainLog) {term commitIndex p : ℕ}
    (hargs : rf.heartbeatRequest term commitIndex p = some args) :
    args.SliceOf (rf.log.elems.take (args.prevLogIndex + 1 + args.entries.length)) := by
  simp only [heartbeatRequest, h.X, h.snapshot] at hargs
  split at hargs
  · cases hargs
  · rename_i next _
    split_ifs at hargs with hneg
    split at hargs
    · cases hargs
    · rename_i prev hprev
      cases hargs
      rw [Slice.get?_eq_some] at hprev
      have hidx := (h.placed hprev.2).1
      have hlt := (List.getElem?_eq_some_iff.mp hprev.2).1
      refine sliceOf_take (k := prev.index + 1) (Nat.lt_succ_self _) (by omega)
        ⟨prev, by rw [hidx]; exact hprev.2, rfl, rfl⟩ ?_
      simp

/-! ### Accepting a request -/

omit [Zero Cmd] in
/-- Where the merge starts to write, the log agrees with the log that the request is a slice of. -/
lemma Fits.take_eq (hfit : Fits ℓ args i) (hslice : args.SliceOf L) (h0 : L[0]? = ℓ[0]?)
    (hmatch : ∀ j T, Has LogEntry.term ℓ j T → Has LogEntry.term L j T →
      ℓ.take (j + 1) = L.take (j + 1)) {k : ℕ} (hki : k ≤ i) (hkL : k ≤ L.length)
    (hk : args.prevLogIndex < k) : ℓ.take k = L.take k := by
  obtain ⟨j, rfl⟩ := Nat.exists_eq_succ_of_ne_zero (Nat.ne_zero_of_lt hk)
  have hjℓ : j < ℓ.length := Nat.lt_of_lt_of_le hki hfit.point.le_length
  obtain ⟨x, hx⟩ : ∃ x, ℓ[j]? = some x := ⟨_, List.getElem?_eq_getElem hjℓ⟩
  obtain ⟨y, hy⟩ : ∃ y, L[j]? = some y := ⟨_, List.getElem?_eq_getElem hkL⟩
  refine hmatch j x.term ⟨x, hx, rfl⟩ ⟨y, hy, ?_⟩
  rcases Nat.lt_or_eq_of_le (Nat.le_of_lt_succ hk) with hlt | rfl
  · have he : args.entries[j - (args.prevLogIndex + 1)]? = some y := by
      rw [hslice.entries, List.getElem?_drop, Nat.add_sub_cancel' hlt, hy]
    refine (hfit.point.agree _ x y ?_ ?_ he).symm
    · rwa [Nat.add_sub_cancel' hlt]
    · rwa [Nat.add_sub_cancel' hlt]
  · rcases hfit.prev with hzero | ⟨x', hx', hxterm⟩
    · rw [hzero] at hx hy
      rw [hx, hy] at h0
      rw [Option.some.inj h0]
    · obtain ⟨y', hy', -, hyterm⟩ := hslice.prev
      rw [Option.some.inj (hx.symm.trans hx'), Option.some.inj (hy.symm.trans hy'), hxterm, hyterm]

omit [Zero Cmd] in
/-- The merged log is the old one, which extends the sender's, or the sender's, which extends the
old one or conflicts with it. -/
lemma Fits.merge (hfit : Fits ℓ args i) (hslice : args.SliceOf L) (h0 : L[0]? = ℓ[0]?)
    (hmatch : ∀ j T, Has LogEntry.term ℓ j T → Has LogEntry.term L j T →
      ℓ.take (j + 1) = L.take (j + 1)) :
    L <+: ℓ ∧ ℓ.take i ++ args.entries.drop (i - (args.prevLogIndex + 1)) = ℓ ∨
      ℓ.take i ++ args.entries.drop (i - (args.prevLogIndex + 1)) = L ∧
        Merge LogEntry.term ℓ L L := by
  have htake := fun k => hfit.take_eq hslice h0 hmatch (k := k)
  have hstart := hfit.point.start_le
  have hlen := hslice.length
  rcases Nat.lt_or_ge i L.length with hlt | hge
  · -- the request goes on where the merge starts to write
    right
    have hi := htake i le_rfl hlt.le hstart
    have hL : ℓ.take i ++ args.entries.drop (i - (args.prevLogIndex + 1)) = L := by
      rw [hi, hslice.entries, List.drop_drop, Nat.add_sub_cancel' hstart, List.take_append_drop]
    refine ⟨hL, ?_⟩
    rcases hfit.point.conflict with rfl | ⟨x, e, hx, he, hne⟩
    · refine .extend ?_
      rw [List.take_length] at hi
      rw [hi]
      exact List.take_prefix _ _
    · refine .replace hx ?_ hne
      rw [← he, hslice.entries, List.getElem?_drop, Nat.add_sub_cancel' hstart]
  · left
    have hi := htake L.length hge le_rfl (by omega)
    rw [List.take_length] at hi
    refine ⟨hi ▸ List.take_prefix _ _, ?_⟩
    rw [List.drop_eq_nil_of_le (by omega), List.append_nil]
    rcases hfit.point.conflict with rfl | ⟨x, e, hx, he, hne⟩
    · exact List.take_length
    · have := (List.getElem?_eq_some_iff.mp he).1
      omega

omit [Zero Cmd] in
/-- The commit index is not moved behind what the request covers. -/
lemma updateCommit_le (rf : Raft Cmd) (args : AppendEntriesArgs Cmd)
    (rest : List (LogEntry Cmd)) :
    (rf.updateCommit args rest).commitIndex = rf.commitIndex ∨
      (rf.updateCommit args rest).commitIndex ≤ args.leaderCommit ∧
        ((rf.updateCommit args rest).commitIndex ≤ args.prevLogIndex ∨
          ∃ e ∈ rest, (rf.updateCommit args rest).commitIndex ≤ e.index) := by
  unfold updateCommit
  split_ifs
  · right
    split
    · rename_i last hlast
      exact ⟨min_le_left _ _, .inr ⟨last, List.mem_of_getLast? hlast, min_le_right _ _⟩⟩
    · exact ⟨min_le_left _ _, .inl (min_le_right _ _)⟩
  · exact .inl rfl

/-- The role in the protocol of `DistLabs.Consensus.ReplicatedLog`. -/
def State.role : Raft.State → Role
  | .follower => .follower
  | .candidate => .candidate
  | .leader => .leader

/-- The peer as a server of that protocol. -/
def replica (rf : Raft Cmd) : Replica (LogEntry Cmd) :=
  ⟨rf.currentTerm, rf.state.role, rf.log.elems, rf.commitIndex⟩

omit [Zero Cmd] in
@[simp] lemma replica_persistUnlessKilled (rf : Raft Cmd) :
    rf.persistUnlessKilled.replica = rf.replica := by
  simp [replica]

omit [Zero Cmd] in
lemma replica_becomeCandidate (rf : Raft Cmd) (T : ℕ) :
    (rf.becomeCandidate T).replica = { rf.replica with term := T, role := .candidate } := by
  simp [becomeCandidate, replica, State.role]

omit [Zero Cmd] in
lemma replica_becomeFollower (rf : Raft Cmd) (T : ℕ) (v : Option ℕ) :
    (rf.becomeFollower T v).replica = { rf.replica with term := T, role := .follower } := by
  simp [becomeFollower, replica, State.role]

omit [Zero Cmd] in
lemma replica_start (cfg : Config) (hstate : rf.state = .leader) (command : Option Cmd) :
    (rf.Start cfg command).1.replica =
      { rf.replica with
        log := rf.replica.log ++ [⟨rf.currentTerm, rf.log.len + rf.X, command⟩] } := by
  simp [start_of_leader hstate, replica]

/-- The last entry named by a vote request is that of the candidate's log. -/
lemma PlainLog.getLastLogEntryTermIndex (h : rf.PlainLog) :
    rf.getLastLogEntryTermIndex.1 = lastTerm LogEntry.term rf.log.elems ∧
      rf.getLastLogEntryTermIndex.2 + 1 = rf.log.elems.length := by
  have hpos : 0 < rf.log.elems.length := h.len_pos
  obtain ⟨e, he⟩ : ∃ e, rf.log.elems[rf.log.elems.length - 1]? = some e :=
    ⟨_, List.getElem?_eq_getElem (by omega)⟩
  have hidx := (h.placed he).1
  refine ⟨by simp [Raft.getLastLogEntryTermIndex, lastTerm, List.getLast?_eq_getElem?, he], ?_⟩
  simp only [Raft.getLastLogEntryTermIndex, List.getLast?_eq_getElem?, he, Option.getD_some]
  omega

lemma PlainLog.upToDate (h : rf.PlainLog) {B : List (LogEntry Cmd)} {term index : ℕ}
    (hup : rf.isUpToDate term index = true) (hterm : term = lastTerm LogEntry.term B)
    (hindex : index + 1 = B.length) : UpToDate LogEntry.term rf.log.elems B := by
  obtain ⟨hlast, hlen⟩ := h.getLastLogEntryTermIndex
  rw [isUpToDate_iff, hlast] at hup
  subst hterm
  exact hup.imp_right fun ⟨heq, hle⟩ => ⟨heq, by omega⟩

/-- A request that is a slice of `L` is handled like the message `L`. -/
lemma PlainLog.receive (cfg : Config) (h : rf.PlainLog) (ha : args.Placed) (hslice : args.SliceOf L)
    (h0 : L[0]? = some sentinel)
    (hmatch : ∀ j T, Has LogEntry.term rf.log.elems j T → Has LogEntry.term L j T →
      rf.log.elems.take (j + 1) = L.take (j + 1)) :
    args.term < rf.currentTerm ∧ (rf.AppendEntries cfg args).1 = rf ∨
      rf.currentTerm ≤ args.term ∧ ∃ ℓ c,
        (rf.AppendEntries cfg args).1.replica = ⟨args.term, .follower, ℓ, c⟩ ∧
        Merge LogEntry.term rf.log.elems L ℓ ∧
        (c = rf.commitIndex ∨
          c ≤ args.leaderCommit ∧ c < L.length ∧ ℓ.take (c + 1) = L.take (c + 1)) := by
  rcases (appendOutcome cfg rf args).followed with ⟨hlt, hr⟩ | ⟨hterm, hf⟩
  · exact .inl ⟨hlt, by rw [hr]⟩
  refine .inr ⟨hterm, _, _, by rw [replica, hf.currentTerm, hf.state]; rfl, ?_⟩
  rcases h.whole.appendEntries cfg args with ⟨-, hlog, hcommit⟩ | ⟨-, -, i, hfit, hlog, hcommit⟩
  · rw [hlog, hcommit]
    exact ⟨.keep, .inl rfl⟩
  rw [hlog, hcommit, Slice.elems_append, Slice.elems_upto]
  have hlen := hslice.length
  have hbound : ∀ e ∈ args.entries.drop (i - (args.prevLogIndex + 1)), e.index < L.length := by
    intro e he
    obtain ⟨j, hj⟩ := List.getElem?_of_mem (List.mem_of_mem_drop he)
    have := (ha j e hj).1
    have := (List.getElem?_eq_some_iff.mp hj).1
    omega
  have hc := updateCommit_le rf args (args.entries.drop (i - (args.prevLogIndex + 1)))
  generalize (rf.updateCommit args _).commitIndex = c at hc ⊢
  have hcL : c = rf.commitIndex ∨ c ≤ args.leaderCommit ∧ c < L.length := by
    refine hc.imp_right fun ⟨hle, hcov⟩ => ⟨hle, ?_⟩
    rcases hcov with hprev | ⟨e, he, hce⟩
    · omega
    · exact Nat.lt_of_le_of_lt hce (hbound e he)
  rcases hfit.merge hslice (h0.trans h.head.symm) hmatch with ⟨hp, hsame⟩ | ⟨hL, hmerge⟩
  · rw [hsame]
    exact ⟨.keep, hcL.imp_right fun ⟨hle, hlt⟩ => ⟨hle, hlt, take_eq_of_isPrefix hp hlt⟩⟩
  · rw [hL]
    exact ⟨hmerge, hcL.imp_right fun ⟨hle, hlt⟩ => ⟨hle, hlt, rfl⟩⟩

end Raft

/-! ### Runs -/

section Run

variable [Zero Cmd] {C C' : Cluster cfg.peers Cmd} {a : Action Cmd}
  {l : List (Cluster cfg.peers Cmd)}

lemma raft_noSnapshot (h : (raft cfg).Run SlicesWithinLog l) : (raft cfg).Run NoSnapshot l := by
  refine h.mono fun C past a _ hP => ?_
  unfold NoSnapshot
  split
  · exact hP
  · trivial

/-- A request in the network and the log it is a slice of. -/
structure Sliced (c : AppendCall Cmd) : Prop where
  plainLog : c.sender.PlainLog
  sliceOf : c.args.SliceOf c.log

lemma Server.Plain.sliced {s : ℕ} {b : LocalAction Cmd} {eff : Effect cfg.peers Cmd}
    (h : (C.servers s).Plain) (hP : SlicesWithinLog C (.act s b))
    (hacts : (C.servers s).Acts cfg C.voteCalls C.appendCalls b eff) :
    ∀ c ∈ eff.appendCall, Sliced c := by
  intro c hc
  cases hacts with
  | heartbeatCall _ _ _ hargs =>
    cases hc
    exact ⟨h.plainLog, h.plainLog.heartbeatRequest_sliceOf hargs⟩
  | @peerCall i p start next bc poll args hbc hph hnext hguard hargs hpoll =>
    cases hc
    have hend := hP bc start next hbc hph hnext hguard
    simp only [Raft.logIndex2sliceIndex, h.plainLog.X] at hend
    exact ⟨h.plainLog, h.plainLog.appendRequest_sliceOf hargs (Raft.start_pos_of_not_givesUp hguard)
      (by omega)⟩
  | _ => cases hc

lemma raft_sliced (h : (raft cfg).Run SlicesWithinLog l) :
    ∀ C ∈ l, ∀ c ∈ C.appendCalls, Sliced c := by
  refine h.invariant ?_ ?_
  · rintro C rfl
    simp [Cluster.initial]
  · intro C past a C' hr hP hC hnext c hc
    have hplain := raft_plain (raft_noSnapshot hr) C List.mem_cons_self
    rcases (Cluster.moves_of_step hnext).mem_appendCalls hc with
      ⟨c₀, hc₀, r, rfl⟩ | ⟨s, b, eff, rfl, -, hacts, hce⟩
    · exact ⟨(hC c₀ hc₀).plainLog, (hC c₀ hc₀).sliceOf⟩
    · exact (hplain.servers s).sliced hP hacts c hce

/-- A check of `SlicesWithinLog` that looks at every goroutine that is scheduled. -/
def slicesWithinLog (C : Cluster cfg.peers Cmd) : Action Cmd → Bool
  | .act s (.peerCall b _) =>
    (C.servers s).broadcasts[b]?.all fun bc =>
      (C.servers s).rf.logIndex2sliceIndex bc.end_ < (C.servers s).rf.log.len
  | .act _ (.snapshot _ _) => false
  | _ => true

omit [Zero Cmd] in
lemma slicesWithinLog_sound (C : Cluster cfg.peers Cmd) (a : Action Cmd)
    (h : slicesWithinLog C a = true) : SlicesWithinLog C a := by
  cases a with
  | act s b =>
    cases b with
    | peerCall b p =>
      intro bc _ _ hbc _ _ _
      simpa [slicesWithinLog, hbc] using h
    | snapshot => cases h
    | _ => trivial
  | _ => trivial

end Run

end DistLabs
