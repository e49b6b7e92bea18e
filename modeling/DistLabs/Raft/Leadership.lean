import DistLabs.Raft.Election

/-!
# What a leader commits

No line of `appendEntries` checks the term of the entry at `end`. It has the leader's term all the
same: `becomeLeader` sets `nextIndex` to the length of the log, a goroutine that finds `nextIndex`
above `end` gives up, and everything from that length on was appended by `Start` in this term.

With a compacted log the length is not the next index any more, so the argument needs leaders to be
elected before they compact.
-/

namespace DistLabs

variable {Cmd : Type*} {cfg : Config}

section Tenure

variable {n : ℕ} {srv srv' : Server n Cmd} {a : LocalAction Cmd} {eff : Effect n Cmd}
  {votes : List (VoteCall Cmd)} {appends : List (AppendCall Cmd)} {s : ℕ}

/-- What holds while a peer is leader; `base` is the length its log had when it became leader. -/
structure Server.Leads (srv : Server n Cmd) (base : ℕ) : Prop where
  next : ∀ i ∈ srv.rf.nextIndex, base ≤ i
  terms : ∀ i e, base ≤ i → srv.rf.log.get? (srv.rf.logIndex2sliceIndex i) = some e →
    e.term = srv.rf.currentTerm
  X_le : srv.rf.X ≤ srv.rf.commitIndex
  engaged : ∀ b ∈ srv.broadcasts, b.term = srv.rf.currentTerm →
    ∀ p, (b.poll.phase p).engaged = true → base ≤ b.end_
  snapshots : ∀ c ∈ srv.snapshots, c.index ≤ srv.rf.commitIndex ∧
    (base ≤ c.index → c.lastIncludedTerm = srv.rf.currentTerm)

/-- What holds of a candidate and of a leader. -/
structure Server.Tenure (srv : Server n Cmd) : Prop where
  bounds : srv.rf.state ≠ .follower → ∀ b ∈ srv.broadcasts, b.term = srv.rf.currentTerm →
    b.end_ < srv.rf.X + srv.rf.log.len
  candidate : srv.rf.state = .candidate → ∀ b ∈ srv.broadcasts, b.term = srv.rf.currentTerm →
    ∀ p, (b.poll.phase p).engaged = false
  leader : srv.rf.state = .leader → ∃ base, srv.Leads base

lemma Server.Tenure.of_follower (h : srv.rf.state = .follower) : srv.Tenure :=
  ⟨by simp [h], by simp [h], by simp [h]⟩

/-- A change of a peer that does not end its candidacy or leadership, nor touches its log. -/
structure SameTenure (rf rf' : Raft Cmd) : Prop where
  state : rf'.state = rf.state
  currentTerm : rf'.currentTerm = rf.currentTerm
  X : rf'.X = rf.X
  log : rf'.log = rf.log
  commitIndex : rf.commitIndex ≤ rf'.commitIndex
  nextIndex : ∀ base, (∀ i ∈ rf.nextIndex, base ≤ i) → ∀ i ∈ rf'.nextIndex, base ≤ i

lemma SameTenure.refl (rf : Raft Cmd) : SameTenure rf rf :=
  ⟨rfl, rfl, rfl, rfl, le_rfl, fun _ h => h⟩

/-- The goroutines `bs'` of `appendEntries` come from `bs`, and none has newly engaged. -/
def Disengages (bs bs' : List (Broadcast n)) : Prop :=
  ∀ b' ∈ bs', ∃ b ∈ bs, b'.term = b.term ∧ b'.end_ = b.end_ ∧
    ∀ p, (b'.poll.phase p).engaged = true → (b.poll.phase p).engaged = true

lemma Disengages.refl (bs : List (Broadcast n)) : Disengages bs bs :=
  fun b hb => ⟨b, hb, rfl, rfl, fun _ h => h⟩

lemma disengages_set {bs : List (Broadcast n)} {i p : ℕ} {b : Broadcast n}
    {poll : Poll n (Option ℕ)} {ph : Phase (Option ℕ)} (hb : bs[i]? = some b)
    (hpoll : poll.phase = Function.update b.poll.phase p ph)
    (hph : ph.engaged = true → (b.poll.phase p).engaged = true) :
    Disengages bs (bs.set i { b with poll := poll }) := by
  refine forall_mem_set (Disengages.refl bs) ?_ i
  refine ⟨b, List.mem_of_getElem? hb, rfl, rfl, fun q hq => ?_⟩
  simp only [hpoll] at hq
  rcases eq_or_ne q p with rfl | hne
  · rw [Function.update_self] at hq
    exact hph hq
  · rwa [Function.update_of_ne hne] at hq

lemma Server.Tenure.mono (h : srv.Tenure) (hrf : SameTenure srv.rf srv'.rf)
    (hb : Disengages srv.broadcasts srv'.broadcasts)
    (hs : ∀ c' ∈ srv'.snapshots, ∃ c ∈ srv.snapshots, c'.index = c.index ∧
      c'.lastIncludedTerm = c.lastIncludedTerm) : srv'.Tenure := by
  refine ⟨fun hst b' hb' hterm => ?_, fun hst b' hb' hterm p => ?_, fun hst => ?_⟩
  · obtain ⟨b, hbm, ht, he, -⟩ := hb b' hb'
    rw [he, hrf.X, hrf.log]
    exact h.bounds (hrf.state ▸ hst) b hbm (by rw [← ht, hterm, hrf.currentTerm])
  · obtain ⟨b, hbm, ht, -, hen⟩ := hb b' hb'
    have hno := h.candidate (hrf.state ▸ hst) b hbm (by rw [← ht, hterm, hrf.currentTerm]) p
    by_contra hne
    simp [hen p (by simpa using hne)] at hno
  · obtain ⟨base, hl⟩ := h.leader (hrf.state ▸ hst)
    refine ⟨base, hrf.nextIndex base hl.next, ?_, ?_, ?_, ?_⟩
    · rw [hrf.log, hrf.currentTerm]
      simpa only [Raft.logIndex2sliceIndex, hrf.X] using hl.terms
    · rw [hrf.X]
      exact hl.X_le.trans hrf.commitIndex
    · intro b' hb' hterm p hp
      obtain ⟨b, hbm, ht, he, hen⟩ := hb b' hb'
      rw [he]
      exact hl.engaged b hbm (by rw [← ht, hterm, hrf.currentTerm]) p (hen p hp)
    · intro c' hc'
      obtain ⟨c, hc, hi, hlt⟩ := hs c' hc'
      rw [hi, hlt, hrf.currentTerm]
      exact ⟨(hl.snapshots c hc).1.trans hrf.commitIndex, (hl.snapshots c hc).2⟩

/-- A peer becomes candidate: its goroutines have captured earlier terms. -/
lemma Server.Tenure.campaign (hterm : ∀ b ∈ srv'.broadcasts, b.term < srv'.rf.currentTerm)
    (hstate : srv'.rf.state = .candidate) : srv'.Tenure := by
  refine ⟨fun _ b hb ht => ?_, fun _ b hb ht => ?_, by simp [hstate]⟩
  all_goals exact absurd ht (hterm b hb).ne

/-- A candidate wins. Its goroutines have not engaged, and there is nothing behind `base` yet. -/
lemma Server.Tenure.win (h : srv.Tenure) (hstate : srv.rf.state = .candidate)
    (hX : srv.rf.X = 0) (hs : srv.snapshots = []) (hrf : srv'.rf = srv.rf.becomeLeader cfg)
    (hb : srv'.broadcasts = srv.broadcasts) (hsn : srv'.snapshots = srv.snapshots) :
    srv'.Tenure := by
  refine ⟨fun _ => ?_, fun hc => ?_, fun _ => ⟨srv.rf.log.len, ?_, ?_, ?_, ?_, ?_⟩⟩
  · rw [hrf, hb]
    exact h.bounds (by simp [hstate])
  · simp [hrf, Raft.becomeLeader] at hc
  · rw [hrf]
    exact fun i hi => (List.eq_of_mem_replicate hi).ge
  · rw [hrf]
    intro i e hi he
    rw [Raft.get?_logIndex2sliceIndex (by exact hX)] at he
    have hlt : i < srv.rf.log.elems.length := (List.getElem?_eq_some_iff.mp he).1
    unfold Slice.len at hi
    omega
  · simp [hrf, Raft.becomeLeader, hX]
  · intro b hbm hterm p hp
    rw [hrf] at hterm
    have := h.candidate hstate b (hb ▸ hbm) hterm p
    simp [hp] at this
  · simp [hsn, hs]

/-- A leader appends an entry of its term. -/
lemma Server.Tenure.start (h : srv.Tenure) (hstate : srv.rf.state = .leader)
    {command : Option Cmd} (hrf : srv'.rf = (srv.rf.Start cfg command).1)
    (hb : srv'.broadcasts = srv.broadcasts) (hs : srv'.snapshots = srv.snapshots) :
    srv'.Tenure := by
  rw [Raft.start_of_leader hstate] at hrf
  obtain ⟨base, hl⟩ := h.leader hstate
  refine ⟨fun _ b hbm hterm => ?_, fun hc => ?_, fun _ => ⟨base, ?_, ?_, ?_, ?_, ?_⟩⟩
  · have := h.bounds (by simp [hstate]) b (hb ▸ hbm) (by simpa [hrf] using hterm)
    simp only [hrf, Raft.log_persistUnlessKilled, Raft.X_persistUnlessKilled, Slice.len_append,
      List.length_singleton]
    omega
  · simp [hrf, hstate] at hc
  · simpa [hrf] using hl.next
  · intro i e hi he
    simp only [hrf, Raft.logIndex2sliceIndex, Raft.X_persistUnlessKilled,
      Raft.log_persistUnlessKilled, Slice.get?_eq_some, Slice.elems_append] at he
    obtain ⟨h0, he⟩ := he
    simp only [hrf, Raft.currentTerm_persistUnlessKilled]
    rw [List.getElem?_append] at he
    split_ifs at he with hlt
    · exact hl.terms i e hi (Slice.get?_eq_some.mpr ⟨h0, he⟩)
    · obtain rfl := List.mem_singleton.mp (List.mem_of_getElem? he)
      rfl
  · simpa [hrf] using hl.X_le
  · simpa [hrf, hb] using hl.engaged
  · simpa [hrf, hs] using hl.snapshots

/-- Trimming keeps the entries above the snapshot under their indices. -/
lemma Raft.get?_snapshotTrim_of_lt {rf rf' : Raft Cmd} {c : Raft.SnapshotCall Cmd} {i : ℕ}
    (h : rf.snapshotTrim cfg c = some rf') (hi : c.index < i) :
    rf'.log.get? (rf'.logIndex2sliceIndex i) = rf.log.get? (rf.logIndex2sliceIndex i) := by
  obtain ⟨rest, hrest, rfl⟩ := Raft.snapshotTrim_eq_some h
  obtain ⟨hge, -, rfl⟩ := Slice.from?_eq_some.mp hrest
  unfold Raft.logIndex2sliceIndex at hge ⊢
  obtain ⟨j, rfl⟩ := Nat.exists_eq_add_of_lt hi
  simp only [Raft.persist]
  rw [show ((c.index + j + 1 : ℕ) : ℤ) - c.index = (j + 1 : ℕ) by omega, Slice.get?_natCast,
    show ((c.index + j + 1 : ℕ) : ℤ) - rf.X = ((c.index - rf.X + 1 : ℤ).toNat + j : ℕ) by omega,
    Slice.get?_natCast, Slice.elems_append, Slice.elems_ofList, List.singleton_append,
    List.getElem?_cons_succ, List.getElem?_drop]

lemma Raft.get?_snapshotTrim {rf rf' : Raft Cmd} {c : Raft.SnapshotCall Cmd} {e : LogEntry Cmd}
    {i : ℕ} (h : rf.snapshotTrim cfg c = some rf')
    (he : rf'.log.get? (rf'.logIndex2sliceIndex i) = some e) :
    i = c.index ∧ e.term = c.lastIncludedTerm ∨
      rf.log.get? (rf.logIndex2sliceIndex i) = some e := by
  rcases Nat.lt_or_ge c.index i with hlt | hge
  · exact .inr (Raft.get?_snapshotTrim_of_lt h hlt ▸ he)
  · obtain ⟨rest, -, rfl⟩ := Raft.snapshotTrim_eq_some h
    obtain ⟨h0, he⟩ := Slice.get?_eq_some.mp he
    simp only [Raft.persist, Raft.logIndex2sliceIndex] at h0 he
    obtain rfl : i = c.index := by omega
    rw [Int.sub_self, Slice.elems_append, Slice.elems_ofList] at he
    cases he
    exact .inl ⟨rfl, rfl⟩

lemma Raft.len_snapshotTrim {rf rf' : Raft Cmd} {c : Raft.SnapshotCall Cmd}
    (h : rf.snapshotTrim cfg c = some rf') : rf'.X + rf'.log.len = rf.X + rf.log.len := by
  obtain ⟨rest, hrest, rfl⟩ := Raft.snapshotTrim_eq_some h
  obtain ⟨hge, hle, rfl⟩ := Slice.from?_eq_some.mp hrest
  simp only [Raft.logIndex2sliceIndex, Slice.len] at hge hle
  simp only [Raft.persist, Raft.logIndex2sliceIndex, Slice.len, Slice.elems_append,
    Slice.elems_ofList, List.length_append, List.length_drop, List.length_singleton]
  omega

/-- A peer trims its log. -/
lemma Server.Tenure.trim (h : srv.Tenure) {c : Raft.SnapshotCall Cmd} (hc : c ∈ srv.snapshots)
    {rf : Raft Cmd} (hrf : srv.rf.snapshotTrim cfg c = some rf) (hs : srv'.rf = rf)
    (hb : srv'.broadcasts = srv.broadcasts) (hsn : ∀ c ∈ srv'.snapshots, c ∈ srv.snapshots) :
    srv'.Tenure := by
  have hget := fun i e => Raft.get?_snapshotTrim (i := i) (e := e) hrf
  have hlen := Raft.len_snapshotTrim hrf
  obtain ⟨rest, -, hrf⟩ := Raft.snapshotTrim_eq_some hrf
  have hstate : rf.state = srv.rf.state := by simp [hrf, Raft.persist]
  have hterm : rf.currentTerm = srv.rf.currentTerm := by simp [hrf, Raft.persist]
  have hcommit : rf.commitIndex = srv.rf.commitIndex := by simp [hrf, Raft.persist]
  refine ⟨fun hst => ?_, fun hst => ?_, fun hst => ?_⟩
  · rw [hs, hlen, hterm, hb]
    exact h.bounds (by rwa [hs, hstate] at hst)
  · rw [hs, hterm, hb]
    exact h.candidate (by rwa [hs, hstate] at hst)
  · obtain ⟨base, hl⟩ := h.leader (by rwa [hs, hstate] at hst)
    refine ⟨base, ?_, ?_, ?_, ?_, ?_⟩
    · rw [hs, hrf]
      exact hl.next
    · intro i e hi he
      rw [hs] at he ⊢
      rw [hterm]
      rcases hget i e he with ⟨rfl, het⟩ | he
      · exact het.trans ((hl.snapshots c hc).2 hi)
      · exact hl.terms i e hi he
    · rw [hs, hcommit, hrf]
      exact (hl.snapshots c hc).1
    · rw [hs, hterm, hb]
      exact hl.engaged
    · rw [hs, hcommit, hterm]
      exact fun c hc => hl.snapshots c (hsn c hc)

/-- A new `appendEntries` ends with the log, and has engaged nobody. -/
lemma Server.Tenure.broadcast (h : srv.Tenure) {b : Broadcast n}
    (hend : b.end_ < srv.rf.X + srv.rf.log.len)
    (hb : ∀ p, (b.poll.phase p).engaged = false) (hrf : srv'.rf = srv.rf)
    (hbs : srv'.broadcasts = srv.broadcasts ++ [b]) (hs : srv'.snapshots = srv.snapshots) :
    srv'.Tenure := by
  refine ⟨fun hst => ?_, fun hst => ?_, fun hst => ?_⟩
  · rw [hrf, hbs]
    exact forall_mem_concat (h.bounds (hrf ▸ hst)) fun _ => hend
  · rw [hrf, hbs]
    exact forall_mem_concat (h.candidate (hrf ▸ hst)) fun _ => hb
  · obtain ⟨base, hl⟩ := h.leader (hrf ▸ hst)
    refine ⟨base, hrf ▸ hl.next, hrf ▸ hl.terms, hrf ▸ hl.X_le, ?_, ?_⟩
    · rw [hrf, hbs]
      exact forall_mem_concat hl.engaged fun _ p hp => by simp [hb p] at hp
    · rw [hrf, hs]
      exact hl.snapshots

/-- A goroutine of `appendEntries` engages: `nextIndex` is not above the end. -/
lemma Server.Tenure.engage (h : srv.Tenure) (hstate : srv.rf.state = .leader) {i p next : ℕ}
    {b : Broadcast n} {poll : Poll n (Option ℕ)} {ph : Phase (Option ℕ)}
    (hbi : srv.broadcasts[i]? = some b)
    (hpoll : poll.phase = Function.update b.poll.phase p ph)
    (hnext : srv.rf.nextIndex[p]? = some next) (hle : next ≤ b.end_) (hrf : srv'.rf = srv.rf)
    (hbs : srv'.broadcasts = srv.broadcasts.set i { b with poll := poll })
    (hs : srv'.snapshots = srv.snapshots) : srv'.Tenure := by
  have hmem := List.mem_of_getElem? hbi
  obtain ⟨base, hl⟩ := h.leader hstate
  refine ⟨fun hst => ?_, fun hst => ?_, fun hst => ⟨base, hrf ▸ hl.next, hrf ▸ hl.terms,
    hrf ▸ hl.X_le, ?_, ?_⟩⟩
  · rw [hrf, hbs]
    refine forall_mem_set (h.bounds (hrf ▸ hst)) ?_ i
    exact h.bounds (hrf ▸ hst) b hmem
  · rw [hrf, hstate] at hst
    cases hst
  · rw [hrf, hbs]
    refine forall_mem_set hl.engaged (fun hterm q hq => ?_) i
    simp only [hpoll] at hq
    rcases eq_or_ne q p with rfl | hne
    · exact (hl.next next (List.mem_of_getElem? hnext)).trans hle
    · rw [Function.update_of_ne hne] at hq
      exact hl.engaged b hmem hterm q hq
  · rw [hrf, hs]
    exact hl.snapshots

/-- A call of `Snapshot` has read the term of its last entry. -/
lemma Server.Tenure.read (h : srv.Tenure) {index : ℕ} {data : List (GobValue Cmd)}
    {c : Raft.SnapshotCall Cmd} (hc : srv.rf.snapshotRead index data = some c)
    (hle : index ≤ srv.rf.commitIndex) (hrf : srv'.rf = srv.rf)
    (hb : srv'.broadcasts = srv.broadcasts) (hs : srv'.snapshots = srv.snapshots ++ [c]) :
    srv'.Tenure := by
  refine ⟨hrf ▸ hb ▸ h.bounds, hrf ▸ hb ▸ h.candidate, fun hst => ?_⟩
  obtain ⟨base, hl⟩ := h.leader (hrf ▸ hst)
  refine ⟨base, hrf ▸ hl.next, hrf ▸ hl.terms, hrf ▸ hl.X_le, hrf ▸ hb ▸ hl.engaged, ?_⟩
  rw [hrf, hs]
  refine forall_mem_concat hl.snapshots ?_
  obtain ⟨commands, e, -, he, rfl⟩ := Raft.snapshotRead_eq_some hc
  exact ⟨hle, fun hbase => hl.terms index e hbase he⟩

lemma SameTenure.advanceNext (rf : Raft Cmd) (i end_ : ℕ) :
    SameTenure rf (rf.advanceNext i end_) := by
  unfold Raft.advanceNext
  split_ifs with hgt
  · refine ⟨rfl, rfl, rfl, rfl, le_rfl, fun base hbase j hj => ?_⟩
    by_cases hi : i < rf.nextIndex.length
    · refine forall_mem_set hbase ?_ i j hj
      rw [List.getElem?_eq_getElem hi, Option.getD_some] at hgt
      exact (hbase _ (List.getElem_mem hi)).trans (Nat.le_of_lt hgt)
    · rw [show (rf.nextIndex.set i (end_ + 1)) = rf.nextIndex from
        List.set_eq_of_length_le (Nat.not_lt.mp hi)] at hj
      exact hbase j hj
  · exact .refl rf

lemma SameTenure.commit (rf : Raft Cmd) (term end_ : ℕ) : SameTenure rf (rf.commit term end_) := by
  unfold Raft.commit
  split_ifs with hc
  · exact ⟨rfl, rfl, rfl, rfl, Nat.le_of_lt hc.2.2, fun _ h => h⟩
  · exact .refl rf

/-- What a reply to `AppendEntries` does to the peer and to the goroutine that waited for it. -/
lemma handleAppendReply_sameTenure {rf rf' : Raft Cmd} {p term end_ : ℕ}
    {args : AppendEntriesArgs Cmd} {reply : AppendEntriesReply} {v : Raft.Verdict}
    (h : rf.handleAppendReply p term end_ args reply = some (rf', v)) :
    SameTenure rf rf' ∨ rf'.state = .follower := by
  rcases Raft.handleAppendReply_rf h with rfl | ⟨-, rfl⟩ | ⟨-, rfl⟩
  · exact .inl (.refl _)
  · exact .inr (by simp [Raft.becomeFollower])
  · exact .inl (.advanceNext rf p end_)

lemma Server.Tenure.acts (h : srv.Tenure) (hok : srv.Ok votes appends s)
    (hpos : 0 < srv.rf.log.len) (hacts : srv.Acts cfg votes appends a eff)
    (hwin : eff.leader.isSome → srv.rf.X = 0 ∧ srv.snapshots = [])
    (hsnap : ∀ index data, a = .snapshot index data → index ≤ srv.rf.commitIndex) :
    eff.server.Tenure := by
  have hsame : ∀ c' ∈ srv.snapshots, ∃ c ∈ srv.snapshots, c'.index = c.index ∧
      c'.lastIncludedTerm = c.lastIncludedTerm := fun c hc => ⟨c, hc, rfl, rfl⟩
  cases hacts with
  | quiet srv' hrf _ _ hb hs =>
    exact h.mono (hrf ▸ .refl _) (hb ▸ .refl _) (hs ▸ hsame)
  | electionStart m =>
    refine .campaign (fun b hb => ?_) (by simp [Raft.becomeCandidate])
    have := (hok.broadcasts b hb).term_le
    simp only [Raft.becomeCandidate, Raft.currentTerm_persistUnlessKilled]
    omega
  | voteReturn =>
    simp only [Raft.handleVoteReply]
    split_ifs
    · exact h.mono (.refl _) (.refl _) hsame
    · exact .of_follower (by simp [Raft.becomeFollower])
    · exact h.mono (.refl _) (.refl _) hsame
  | voteWin _ _ hstate _ =>
    obtain ⟨hX, hs⟩ := hwin rfl
    exact h.win hstate hX hs rfl rfl rfl
  | heartbeatReturn =>
    simp only [Raft.handleHeartbeatReply]
    split_ifs
    · exact .of_follower (by simp [Raft.becomeFollower])
    · exact h.mono (.refl _) (.refl _) hsame
  | start m hstate => exact h.start hstate rfl rfl rfl
  | broadcastStart m =>
    refine h.broadcast ?_ (fun p => ?_) rfl rfl rfl
    · simp only [Raft.sliceIndex2logIndex]
      omega
    · simp only [Poll.launch]
      split_ifs <;> rfl
  | peerNext hb hph _ hpoll =>
    exact h.mono (.refl _) (disengages_set hb hpoll (by simp [Phase.engaged])) hsame
  | peerGiveUp hb hph _ _ hpoll =>
    exact h.mono (.refl _) (disengages_set hb hpoll (by simp [Phase.engaged])) hsame
  | peerCall hb hph hnext hguard _ hpoll =>
    have hstate : srv.rf.state = .leader := not_not.mp fun hs => hguard (.inl hs)
    exact h.engage hstate hb hpoll hnext
      (Nat.not_lt.mp fun hlt => hguard (.inr (.inr (.inl hlt)))) rfl rfl rfl
  | peerRetry hb hph hpoll =>
    exact h.mono (.refl _) (disengages_set hb hpoll (by simp [Phase.engaged])) hsame
  | peerReturn hb hph _ _ hrf hpoll =>
    rcases handleAppendReply_sameTenure hrf with hst | hf
    · exact h.mono hst (disengages_set hb hpoll fun _ => by rw [hph]; rfl) hsame
    · exact .of_follower hf
  | @peerRecv b p v bc poll hb hph hpoll =>
    refine h.mono (.refl _) (disengages_set hb hpoll fun hen => ?_) hsame
    rw [hph]
    cases v with
    | true => rfl
    | false => cases hen
  | @peerDecide b bc hb _ =>
    refine h.mono (.commit _ _ _) ?_ hsame
    refine forall_mem_set (Disengages.refl _) ?_ b
    exact ⟨bc, List.mem_of_getElem? hb, rfl, rfl, fun _ hp => hp⟩
  | applyLog hrf =>
    obtain ⟨_, rfl, _⟩ := Raft.applyLog_eq_some hrf
    exact h.mono ⟨rfl, rfl, rfl, rfl, le_rfl, fun _ h => h⟩ (.refl _) hsame
  | snapshot _ hc => exact h.read hc (hsnap _ _ rfl) rfl rfl rfl
  | @snapshotPublish j c hc _ =>
    refine h.mono ⟨rfl, rfl, rfl, rfl, le_rfl, fun _ h => h⟩ (.refl _) ?_
    refine forall_mem_set hsame ?_ j
    exact ⟨c, List.mem_of_getElem? hc, rfl, rfl⟩
  | snapshotTrim hc _ hrf =>
    exact h.trim (List.mem_of_getElem? hc) hrf rfl rfl fun c hc => List.mem_of_mem_eraseIdx hc
  | _ => exact h.mono (.refl _) (.refl _) hsame

/-- In a leader's `appendEntries` that has received a `true`, the entry at `end` has the leader's
term. -/
lemma Server.Tenure.term_of_deciding (h : srv.Tenure)
    (hstate : srv.rf.state = .leader) {b : Broadcast n} (hb : b ∈ srv.broadcasts)
    (hterm : b.term = srv.rf.currentTerm) (hd : b.poll.deciding = true)
    (hX : srv.rf.X ≤ b.end_) :
    ∃ e, srv.rf.log.get? (srv.rf.logIndex2sliceIndex b.end_) = some e ∧
      e.term = srv.rf.currentTerm := by
  obtain ⟨base, hl⟩ := h.leader hstate
  obtain ⟨p, hp⟩ := b.poll.exists_mem_yes hd
  have hbase := hl.engaged b hb hterm p (by rw [(Poll.mem_yes.mp hp).2]; rfl)
  have hlt := h.bounds (by simp [hstate]) b hb hterm
  have hget : ∃ e, srv.rf.log.get? (srv.rf.logIndex2sliceIndex b.end_) = some e := by
    unfold Raft.logIndex2sliceIndex Slice.len at *
    refine ⟨_, Slice.get?_eq_some.mpr ⟨by omega, List.getElem?_eq_getElem ?_⟩⟩
    omega
  obtain ⟨e, he⟩ := hget
  exact ⟨e, he, hl.terms _ e hbase he⟩

end Tenure

/-- The condition on a step: a peer that becomes leader has not compacted its log and is not about
to, and `Snapshot` is called for committed entries. -/
def CompactsInTenure (C : Cluster cfg.peers Cmd) : Action Cmd → Prop
  | .act s (.voteDecide e) =>
    ∀ el, (C.servers s).elections[e]? = some el → (C.servers s).rf.state = .candidate →
      (C.servers s).rf.currentTerm = el.term →
        (C.servers s).rf.X = 0 ∧ (C.servers s).snapshots = []
  | .act s (.snapshot index _) => index ≤ (C.servers s).rf.commitIndex
  | _ => True

section Moves

variable {C C' : Cluster cfg.peers Cmd} {a : Action Cmd}

lemma Server.Tenure.requestVote {n : ℕ} {srv : Server n Cmd} (h : srv.Tenure)
    (args : RequestVoteArgs) :
    ({ srv with rf := (srv.rf.RequestVote args).1 } : Server n Cmd).Tenure := by
  generalize hr : srv.rf.RequestVote args = r
  have hout := hr ▸ srv.rf.voteOutcome args
  cases hout with
  | refuse => exact h
  | bump | bumpGrant => exact .of_follower (by simp [Raft.becomeFollower])
  | grant =>
    refine h.mono ?_ (.refl _) fun c hc => ⟨c, hc, rfl, rfl⟩
    constructor <;> simp

lemma Server.Tenure.appendEntries {n : ℕ} {srv : Server n Cmd} (h : srv.Tenure)
    (args : AppendEntriesArgs Cmd) :
    ({ srv with rf := (srv.rf.AppendEntries cfg args).1 } : Server n Cmd).Tenure := by
  rcases (Raft.appendOutcome cfg srv.rf args).followed with ⟨-, hr⟩ | ⟨-, hf⟩
  · rw [hr]
    exact h
  · exact .of_follower hf.state

lemma Server.Tenure.movesPeer [Zero Cmd] {srv : Server cfg.peers Cmd} {s : ℕ}
    (h : (C.servers s).Tenure) (hw : C.Wired) (hpos : 0 < (C.servers s).rf.log.len)
    (hP : CompactsInTenure C a) (hm : C.MovesPeer cfg s a srv) : srv.Tenure := by
  cases hm with
  | other => exact h
  | act _ hacts =>
    refine h.acts (hw.servers s) hpos hacts (fun hl => ?_) fun index data ha => ?_
    · cases hacts with
      | voteWin hel _ hstate hterm => exact hP _ hel hstate hterm
      | _ => cases hl
    · subst ha
      exact hP
  | @handleVote _ call => exact h.requestVote call.args
  | @handleAppend _ call => exact h.appendEntries call.args
  | crash =>
    refine h.mono ⟨rfl, rfl, rfl, rfl, le_rfl, fun _ h => h⟩ ?_ ?_ <;>
      simp [Server.boot, Disengages]
  | restart => exact .of_follower (Raft.state_make _ _)

end Moves

section Run

variable [Zero Cmd] {l : List (Cluster cfg.peers Cmd)}

lemma raft_tenure (h : (raft cfg).Run CompactsInTenure l) :
    ∀ C ∈ l, ∀ s, (C.servers s).Tenure := by
  refine h.invariant ?_ ?_
  · rintro C rfl s
    exact .of_follower (Raft.state_make _ _)
  · intro C past a C' hr hP hC hnext s
    exact (hC s).movesPeer (raft_wired hr C List.mem_cons_self) (raft_log_pos hr s) hP
      ((Cluster.moves_of_step hnext).peer s)

/-- What the counting goroutine does when it sets `commitIndex`. -/
lemma commit_of_peerDecide {C C' : Cluster cfg.peers Cmd} {s i : ℕ}
    (hstep : (raft cfg).next C (.act s (.peerDecide i)) C')
    (hset : (C'.servers s).rf.commitIndex ≠ (C.servers s).rf.commitIndex) :
    ∃ b, (C.servers s).broadcasts[i]? = some b ∧ b.poll.deciding = true ∧ s < cfg.peers ∧
      (C.servers s).rf.state = .leader ∧ (C.servers s).rf.currentTerm = b.term ∧
      (C.servers s).rf.commitIndex < b.end_ ∧
      (C'.servers s).rf = { (C.servers s).rf with commitIndex := b.end_ } := by
  cases Cluster.moves_of_step hstep with
  | act hup hacts =>
    simp only [Cluster.perform, Function.update_self] at hset ⊢
    cases hacts with
    | quiet srv' hrf => exact absurd (by rw [hrf]) hset
    | @peerDecide _ b hb hd =>
      have hc : (C.servers s).rf.state = .leader ∧ (C.servers s).rf.currentTerm = b.term ∧
          (C.servers s).rf.commitIndex < b.end_ := by
        by_contra hno
        exact hset (by rw [Raft.commit, if_neg hno])
      exact ⟨b, hb, hd, hup.1, hc.1, hc.2.1, hc.2.2, by rw [Raft.commit, if_pos hc]⟩

/-- A leader commits by counting only entries of its own term: in every run whose leaders compact
their logs only after their election, whenever the counting goroutine of `appendEntries` sets
`commitIndex` to `end`, the entry at `end` has the leader's term. -/
theorem commits_own_term {C C' : Cluster cfg.peers Cmd} {past : List (Cluster cfg.peers Cmd)}
    (h : (raft cfg).Run CompactsInTenure (C :: past)) {s i : ℕ}
    (hstep : (raft cfg).next C (.act s (.peerDecide i)) C')
    (hset : (C'.servers s).rf.commitIndex ≠ (C.servers s).rf.commitIndex) :
    (C'.servers s).rf.state = .leader ∧
      ∃ e, (C'.servers s).rf.log.get?
          ((C'.servers s).rf.logIndex2sliceIndex (C'.servers s).rf.commitIndex) = some e ∧
        e.term = (C'.servers s).rf.currentTerm := by
  have hten := raft_tenure h C List.mem_cons_self s
  obtain ⟨b, hb, hd, -, hstate, hterm, hlt, hrf⟩ := commit_of_peerDecide hstep hset
  obtain ⟨base, hl⟩ := hten.leader hstate
  rw [hrf]
  exact ⟨hstate, hten.term_of_deciding hstate (List.mem_of_getElem? hb) hterm.symm hd
    (hl.X_le.trans hlt.le)⟩

/-- Peer `s` sends its `b`-th broadcast to peer `p` by call `k` and receives the answer. -/
def replicating (s b p k : ℕ) : List (Action ℕ) :=
  [.act s .broadcastStart, .act s (.peerNext b p), .act s (.peerCall b p), .handleAppend k,
    .act s (.peerReturn b p), .act s (.peerRecv b p)]

/-- A check of `CompactsInTenure` that does not look at who wins. -/
def compactsInTenure (C : Cluster cfg.peers Cmd) : Action Cmd → Bool
  | .act s (.voteDecide _) => (C.servers s).rf.X == 0 && (C.servers s).snapshots.isEmpty
  | .act s (.snapshot index _) => index ≤ (C.servers s).rf.commitIndex
  | _ => true

omit [Zero Cmd] in
lemma compactsInTenure_sound (C : Cluster cfg.peers Cmd) (a : Action Cmd)
    (h : compactsInTenure C a = true) : CompactsInTenure C a := by
  unfold compactsInTenure at h
  unfold CompactsInTenure
  split at h
  · simp only [Bool.and_eq_true, beq_iff_eq, List.isEmpty_iff] at h
    exact fun _ _ _ _ => h
  · simpa using h
  · trivial

/-- The first leader commits its first entry. -/
theorem commits_own_term_first :
    ∃ (C C' : Cluster (Config.doubling 2).peers ℕ)
      (past : List (Cluster (Config.doubling 2).peers ℕ)),
      (raft (.doubling 2)).Run CompactsInTenure (C :: past) ∧
      (raft (.doubling 2)).next C (.act 0 (.peerDecide 0)) C' ∧
      ((C.servers 0).rf.commitIndex = 0 ∧ (C'.servers 0).rf.commitIndex = 1) ∧
      ∃ e, (C'.servers 0).rf.log.get?
          ((C'.servers 0).rf.logIndex2sliceIndex (C'.servers 0).rf.commitIndex) = some e ∧
        e.term = (C'.servers 0).rf.currentTerm := by
  obtain ⟨C, C', past, hr, hstep, hset⟩ : ∃ (C C' : Cluster (Config.doubling 2).peers ℕ)
      (past : List (Cluster (Config.doubling 2).peers ℕ)),
      (raft (.doubling 2)).Run CompactsInTenure (C :: past) ∧
      (raft (.doubling 2)).next C (.act 0 (.peerDecide 0)) C' ∧
      ((C.servers 0).rf.commitIndex = 0 ∧ (C'.servers 0).rf.commitIndex = 1) :=
    Machine.exists_step_of_trace compactsInTenure compactsInTenure_sound
      (electing 0 0 1 0 ++ [.act 0 (.start (some 11))] ++ replicating 0 0 1 0) (by decide +kernel)
  exact ⟨C, C', past, hr, hstep, hset,
    (commits_own_term hr hstep (by rw [hset.1, hset.2]; decide)).2⟩

/-- Peer 0 commits an entry in term 1, compacts its log and appends another entry. Before the entry
is broadcast peer 1 stands for term 2, and peer 0 refuses its vote but steps down. It is elected
again, in term 3. Now `nextIndex` is the length of the compacted log, and the broadcast finds work
to do. -/
def compactedLeader : List (Action ℕ) :=
  electing 0 0 1 0 ++ [.act 0 (.start (some 11))] ++ replicating 0 0 1 0 ++
    [.act 0 (.peerDecide 0), .act 0 .applyLog,
      .act 0 (.snapshot 1 [.int 1, .commands [some 11]]), .act 0 (.snapshotPublish 0),
      .act 0 (.snapshotTrim 0), .act 0 (.start (some 12)), .act 1 .tick, .act 1 .electionCheck,
      .act 1 .electionStart, .act 1 (.voteCall 0 0), .handleVote 1] ++
    electing 0 1 1 2 ++ replicating 0 1 1 1

/-- A leader of term 3 commits an entry of term 1 by counting. -/
theorem compactedLeader_commits_old_term :
    ∃ (C C' : Cluster (Config.doubling 2).peers ℕ), (raft (.doubling 2)).Reachable C ∧
      (raft (.doubling 2)).next C (.act 0 (.peerDecide 1)) C' ∧
      (C.servers 0).rf.commitIndex = 1 ∧ (C'.servers 0).rf.commitIndex = 2 ∧
      (C'.servers 0).rf.currentTerm = 3 ∧
      (C'.servers 0).rf.log.get? ((C'.servers 0).rf.logIndex2sliceIndex 2) =
        some ⟨1, 2, some 12⟩ := by
  obtain ⟨C, C', past, hr, hstep, hp⟩ : ∃ (C C' : Cluster (Config.doubling 2).peers ℕ)
      (past : List (Cluster (Config.doubling 2).peers ℕ)),
      (raft (.doubling 2)).Run Machine.Any (C :: past) ∧
      (raft (.doubling 2)).next C (.act 0 (.peerDecide 1)) C' ∧
      ((C.servers 0).rf.commitIndex = 1 ∧ (C'.servers 0).rf.commitIndex = 2 ∧
        (C'.servers 0).rf.currentTerm = 3 ∧
        (C'.servers 0).rf.log.get? ((C'.servers 0).rf.logIndex2sliceIndex 2) =
          some ⟨1, 2, some 12⟩) :=
    Machine.exists_step_of_trace (fun _ _ => true) (fun _ _ _ => trivial) compactedLeader
      (by decide +kernel)
  exact ⟨C, C', ⟨past, hr⟩, hstep, hp⟩

end Run

end DistLabs
