import DistLabs.Raft.Alignment
import DistLabs.Raft.NextIndex
import DistLabs.Raft.TermSearch

/-!
# Where a request is cut from

A goroutine of `appendEntries` has captured `end` once and goes back with `start` from one reply to
the next. Its guard looks at the role, at the offset of the log and at `nextIndex`, but not at the
term, so a goroutine of an earlier leadership may find itself leader again, over a log that has been
cut off in the meantime.

With a check of the term, `end` lies in the log, since a leader only appends, and `start` does not
pass `end`: a reply makes it smaller, or sends it to the end of a run of a term in the leader's own
log, and what is behind `end` there is one run that goes to the end.
-/

namespace DistLabs

variable {Cmd : Type*} {cfg : Config}

/-- The `start` a goroutine of `appendEntries` goes on with. -/
def Phase.start? : Phase (Option ℕ) → Option ℕ
  | .ready start | .calling start _ => start
  | _ => none

/-! ### Where `start` comes from -/

section Acts

variable {n : ℕ} {srv : Server n Cmd} {votes : List (VoteCall Cmd)}
  {appends : List (AppendCall Cmd)} {a : LocalAction Cmd} {eff : Effect n Cmd}

/-- How the goroutine for peer `p` of `appendEntries` comes to go on with `start`. -/
inductive StartFrom (appends : List (AppendCall Cmd)) (rf rf' : Raft Cmd) (b : Broadcast n)
    (p start : ℕ) : Prop
  | same (h : (b.poll.phase p).start? = some start)
  | next (hrf : rf' = rf) (hnext : rf.nextIndex[p]? = some start)
  | retry {l : Option ℕ} {k : ℕ} {call : AppendCall Cmd} {reply : AppendEntriesReply}
      (hph : b.poll.phase p = .calling l k) (hcall : appends[k]? = some call)
      (hreply : call.reply = some reply)
      (hrf : rf.handleAppendReply p b.term b.end_ call.args reply = some (rf', .retry start))

lemma Server.Acts.start_from (h : srv.Acts cfg votes appends a eff) {b : Broadcast n}
    (hb : b ∈ eff.server.broadcasts) {p start : ℕ}
    (hstart : (b.poll.phase p).start? = some start) :
    ∃ b₀ ∈ srv.broadcasts, b.term = b₀.term ∧ b.end_ = b₀.end_ ∧
      StartFrom appends srv.rf eff.server.rf b₀ p start := by
  have hold : b ∈ srv.broadcasts → ∃ b₀ ∈ srv.broadcasts, b.term = b₀.term ∧ b.end_ = b₀.end_ ∧
      StartFrom appends srv.rf eff.server.rf b₀ p start :=
    fun hb => ⟨b, hb, rfl, rfl, .same hstart⟩
  have hset : ∀ {i q : ℕ} {b₀ : Broadcast n} {poll : Poll n (Option ℕ)} {ph : Phase (Option ℕ)},
      srv.broadcasts[i]? = some b₀ → poll.phase = Function.update b₀.poll.phase q ph →
      (ph.start? = some start → StartFrom appends srv.rf eff.server.rf b₀ q start) →
      b ∈ srv.broadcasts.set i { b₀ with poll := poll } →
      ∃ b₀ ∈ srv.broadcasts, b.term = b₀.term ∧ b.end_ = b₀.end_ ∧
        StartFrom appends srv.rf eff.server.rf b₀ p start := by
    intro i q b₀ poll ph hi hpoll hph hb
    rcases List.mem_or_eq_of_mem_set hb with hb | rfl
    · exact hold hb
    · refine ⟨b₀, List.mem_of_getElem? hi, rfl, rfl, ?_⟩
      simp only [hpoll] at hstart
      rcases eq_or_ne p q with rfl | hne
      · rw [Function.update_self] at hstart
        exact hph hstart
      · rw [Function.update_of_ne hne] at hstart
        exact .same hstart
  cases h with
  | quiet srv' _ _ _ hbs _ => exact hold (hbs ▸ hb)
  | broadcastStart m =>
    rcases List.mem_append.mp hb with hb | hb
    · exact hold hb
    · -- a new goroutine has not read `nextIndex` yet
      obtain rfl := List.mem_singleton.mp hb
      simp only [Poll.launch] at hstart
      split_ifs at hstart <;> cases hstart
  | peerNext hi _ hnext hpoll =>
    refine hset hi hpoll (fun hs => ?_) hb
    cases hs
    exact .next rfl hnext
  | peerGiveUp hi _ _ _ hpoll => exact hset hi hpoll (fun hs => by cases hs) hb
  | peerCall hi hph _ _ _ hpoll =>
    exact hset hi hpoll (fun hs => .same (by rw [hph]; exact hs)) hb
  | peerRetry hi hph hpoll =>
    exact hset hi hpoll (fun hs => .same (by rw [hph]; exact hs)) hb
  | @peerReturn _ _ _ _ _ _ _ _ _ v hi hph hcall hreply hrf hpoll =>
    refine hset hi hpoll (fun hs => ?_) hb
    cases v with
    | report => cases hs
    | retry =>
      cases hs
      exact .retry hph hcall hreply hrf
  | peerRecv hi _ hpoll => exact hset hi hpoll (fun hs => by cases hs) hb
  | @peerDecide _ bc hi _ =>
    rcases List.mem_or_eq_of_mem_set hb with hb | rfl
    · exact hold hb
    · exact ⟨bc, List.mem_of_getElem? hi, rfl, rfl, .same hstart⟩
  | _ => exact hold hb

end Acts

/-! ### One peer -/

/-- What holds of the goroutines that have captured the present term of their peer: what the log has
behind `end` is of this term, and `start` has not passed `end` where the guard lets it through. -/
structure Bounded {n : ℕ} (rf : Raft Cmd) (bs : List (Broadcast n)) : Prop where
  tail : rf.state ≠ .follower → ∀ b ∈ bs, b.term = rf.currentTerm → ∀ i e, 0 < i →
    b.end_ < rf.X + i → rf.log.elems[i]? = some e → e.term = rf.currentTerm
  start : rf.state = .leader → ∀ b ∈ bs, b.term = rf.currentTerm → ∀ p start,
    (b.poll.phase p).start? = some start →
      start ≤ b.end_ ∨ start ≤ rf.X ∨ ∀ next ∈ rf.nextIndex[p]?, b.end_ < next

section Bounded

variable {n : ℕ} {rf rf' : Raft Cmd} {bs bs' : List (Broadcast n)}

lemma Bounded.of_follower (h : rf.state = .follower) : Bounded rf bs :=
  ⟨by simp [h], by simp [h]⟩

/-- Where the entries behind slot 0 come from, if the offset does not fall. -/
lemma TenureMove.term_of_getElem? (hm : TenureMove cfg rf bs rf') (hX : rf.X ≤ rf'.X)
    (hstate : rf'.state ≠ .follower) {i : ℕ} {e : LogEntry Cmd} (hi : 0 < i)
    (he : rf'.log.elems[i]? = some e) :
    e.term = rf.currentTerm ∨
      ∃ j, 0 < j ∧ rf.X + j = rf'.X + i ∧ rf.log.elems[j]? = some e := by
  cases hm with
  | keep _ _ hX' hlog => exact .inr ⟨i, hi, by rw [hX'], hlog ▸ he⟩
  | @advance b p =>
    obtain ⟨next, matched, heq⟩ := rf.advanceNext_eq p b.end_
    rw [heq] at he ⊢
    exact .inr ⟨i, hi, rfl, he⟩
  | follow hst => exact absurd hst hstate
  | campaign => exact .inr ⟨i, hi, by simp [Raft.becomeCandidate], by
      simpa [Raft.becomeCandidate] using he⟩
  | win => exact .inr ⟨i, hi, rfl, he⟩
  | start hst =>
    simp only [Raft.start_of_leader hst, Raft.log_persistUnlessKilled, Slice.elems_append] at he
    rw [List.getElem?_append] at he
    split_ifs at he with hlt
    · exact .inr ⟨i, hi, by simp [Raft.start_of_leader hst], he⟩
    · obtain rfl := List.mem_singleton.mp (List.mem_of_getElem? he)
      exact .inl rfl
  | trim hrf =>
    obtain ⟨rest, hrest, rfl⟩ := Raft.snapshotTrim_eq_some hrf
    obtain ⟨hge, -, rfl⟩ := Slice.from?_eq_some.mp hrest
    obtain ⟨k, rfl⟩ := Nat.exists_eq_succ_of_ne_zero hi.ne'
    simp only [Raft.persist, Slice.elems_append, Slice.elems_ofList, List.singleton_append,
      List.getElem?_cons_succ, List.getElem?_drop, Raft.logIndex2sliceIndex] at he hge hX ⊢
    exact .inr ⟨_, by omega, by omega, he⟩

lemma Bounded.tail_move (h : Bounded rf bs) (hm : TenureMove cfg rf bs rf')
    (hbs : KeepsEnds rf rf' bs bs') (hterm : ∀ b ∈ bs, b.term ≤ rf.currentTerm)
    (hX : rf'.state ≠ .follower → rf.X ≤ rf'.X) (hstate : rf'.state ≠ .follower)
    {b : Broadcast n} (hb : b ∈ bs') (hbT : b.term = rf'.currentTerm) {i : ℕ} {e : LogEntry Cmd}
    (hi : 0 < i) (hend : b.end_ < rf'.X + i) (he : rf'.log.elems[i]? = some e) :
    e.term = rf'.currentTerm := by
  rcases hbs b hb with ⟨b₀, hb₀, hbt, hbe⟩ | ⟨rfl, hbe⟩
  · rcases hm.term_cases hstate with ⟨hst, hT⟩ | hT
    · rw [hT] at hbT ⊢
      rcases hm.term_of_getElem? (hX hstate) hstate hi he with hT | ⟨j, hj, hij, hget⟩
      · exact hT
      · exact h.tail hst b₀ hb₀ (hbt ▸ hbT) j e hj (by omega) hget
    · -- nobody has captured the new term
      have := hterm b₀ hb₀
      omega
  · have hlt := (List.getElem?_eq_some_iff.mp he).1
    unfold Raft.logEnd Slice.len at hbe
    omega

/-- A goroutine goes on from a reply. It goes back from where it was, or to the end of a run of a
term that is followed by another one, which is not behind `end`. -/
lemma Bounded.retry (h : Bounded rf bs) (hstate : rf.state = .leader) {b : Broadcast n}
    (hb : b ∈ bs) (hbT : b.term = rf.currentTerm) {p start start' : ℕ}
    {args : AppendEntriesArgs Cmd} {reply : AppendEntriesReply}
    (hprev : args.prevLogIndex < start) (hbefore : start ≤ b.end_ ∨ start ≤ rf.X)
    (hxIndex : reply.success = false → reply.xIndex ≤ args.prevLogIndex)
    (hrf : rf.handleAppendReply p b.term b.end_ args reply = some (rf', .retry start')) :
    start' ≤ b.end_ ∨ start' ≤ rf.X := by
  cases Raft.replyOutcome hrf with
  | short _ _ _ hlen => omega
  | missing _ _ hs _ _ =>
    have := hxIndex hs
    omega
  | @found index _ _ _ _ hc =>
    rcases Nat.eq_zero_or_pos index with rfl | hpos
    · exact .inr le_rfl
    · refine .inl (not_lt.mp fun hlt => ?_)
      obtain ⟨y, z, hy, hyT, hz, hzT⟩ := (Raft.isContainTerm_eq_true hc).resolve_left hpos.ne'
      have hst : rf.state ≠ .follower := by simp [hstate]
      have h1 := h.tail hst b hb hbT index y hpos hlt hy
      have h2 := h.tail hst b hb hbT (index + 1) z (Nat.succ_pos _) (by omega) hz
      exact hzT (by rw [h2, ← h1, hyT])

end Bounded

/-! ### Runs -/

/-- The condition on a step: a goroutine of `appendEntries` that builds a request finds its peer in
the term it has captured, a peer that becomes leader has not compacted its log, calls of `Snapshot`
take effect in the order of their indices, and a peer is restarted from a log that begins at index
0. -/
def SendsInTerm [Zero Cmd] (C : Cluster cfg.peers Cmd) : Action Cmd → Prop
  | .act s (.peerCall b p) =>
    ∀ bc start next, (C.servers s).broadcasts[b]? = some bc →
      bc.poll.phase p = .ready (some start) → (C.servers s).rf.nextIndex[p]? = some next →
      ¬ (C.servers s).rf.givesUp start next bc.end_ →
        (C.servers s).rf.currentTerm = bc.term
  | .act s (.snapshotTrim j) =>
    ∀ c ∈ (C.servers s).snapshots[j]?, (C.servers s).rf.X ≤ c.index
  | .restart s => StartsUncompacted C (.restart s)
  | a => ElectsUncompacted C a

section Run

variable [Zero Cmd] {C C' : Cluster cfg.peers Cmd} {past : List (Cluster cfg.peers Cmd)}
  {a : Action Cmd} {s : ℕ}

lemma SendsInTerm.electsUncompacted (h : SendsInTerm C a) : ElectsUncompacted C a := by
  cases a with
  | act s b =>
    cases b with
    | voteDecide => exact h
    | _ => trivial
  | _ => trivial

omit [Zero Cmd] in
/-- In the term that it has captured, the end of a goroutine lies in the log of a leader. -/
lemma InRange.logIndex2sliceIndex_lt {n peers : ℕ} {rf : Raft Cmd} {bs : List (Broadcast n)}
    (h : InRange peers rf bs) {b : Broadcast n} (hb : b ∈ bs) (hbT : rf.currentTerm = b.term)
    {start next : ℕ} (hguard : ¬rf.givesUp start next b.end_) :
    rf.logIndex2sliceIndex b.end_ < rf.log.len := by
  have hstate : rf.state = .leader := not_not.mp fun hs => hguard (.inl hs)
  have hlt := h.ends (by simp [hstate]) b hb hbT.symm
  unfold Raft.logEnd at hlt
  unfold Raft.logIndex2sliceIndex
  omega

lemma raft_sendsAligned {l : List (Cluster cfg.peers Cmd)} (h : (raft cfg).Run SendsInTerm l) :
    (raft cfg).Run StartsUncompacted l := by
  refine h.mono fun C past a hr hP => ?_
  cases a with
  | act s b =>
    cases b with
    | peerCall b p =>
      intro bc start next hbc hph hnext hguard
      exact (raft_inRange hr C List.mem_cons_self _).logIndex2sliceIndex_lt
        (List.mem_of_getElem? hbc) (hP bc start next hbc hph hnext hguard) hguard
    | _ => trivial
  | restart => exact hP
  | _ => trivial

/-- No rejection names an index behind the previous entry of its request. -/
def RejectsBefore (calls : List (AppendCall Cmd)) : Prop :=
  ∀ (k : ℕ) (call : AppendCall Cmd) (r : AppendEntriesReply), calls[k]? = some call →
    call.reply = some r → r.success = false → r.xIndex ≤ call.args.prevLogIndex

lemma raft_rejectsBefore {l : List (Cluster cfg.peers Cmd)} (h : (raft cfg).Run SendsInTerm l) :
    ∀ C ∈ l, RejectsBefore C.appendCalls := by
  refine h.invariant ?_ ?_
  · rintro C rfl k call r hk
    simp [Cluster.initial] at hk
  · intro C past a C' hr _ hC hnext k call r hk hreply hfail
    have hw := raft_wired hr C List.mem_cons_self
    rcases hw.answered (Cluster.moves_of_step hnext) hk hreply with
      hk | ⟨call₀, -, -, -, rfl, happ⟩
    · exact hC k call r hk hreply hfail
    · have hal := (raft_aligned (raft_sendsAligned hr) C List.mem_cons_self).servers call₀.dst
      obtain rfl : ((C.servers call₀.dst).rf.AppendEntries cfg call₀.args).2 = r := by rw [happ]
      exact hal.indexed.xIndex_le hfail

/-- The offset of a candidate or leader does not fall. -/
lemma Cluster.MovesPeer.X_le {srv : Server cfg.peers Cmd} (hm : C.MovesPeer cfg s a srv)
    (hP : SendsInTerm C a) (hstate : srv.rf.state ≠ .follower) :
    (C.servers s).rf.X ≤ srv.rf.X := by
  cases hm with
  | other => exact le_rfl
  | act _ hacts =>
    rcases hacts.log_X with ⟨-, hX, -⟩ | ⟨command, -, hst, hrf, -, -⟩ | ⟨j, c, rfl, hc, hrf⟩
    · exact hX.ge
    · simp [hrf, Raft.start_of_leader hst]
    · obtain ⟨rest, -, hrf⟩ := Raft.snapshotTrim_eq_some hrf
      rw [hrf]
      exact hP c hc
  | @handleVote k call =>
    obtain ⟨T, v, st, p, hrf⟩ := (C.servers s).rf.requestVote_eq call.args
    simp [hrf]
  | @handleAppend k call =>
    rcases (Raft.appendOutcome cfg (C.servers s).rf call.args).followed with ⟨-, hr⟩ | ⟨-, hf⟩
    · simp [hr]
    · exact absurd hf.state hstate
  | crash => exact le_rfl
  | restart => exact absurd (Raft.state_make _ _) hstate

/-- Where the goroutines of a peer go on from, after a step of the cluster. -/
lemma Cluster.MovesPeer.start_from {srv : Server cfg.peers Cmd} (hm : C.MovesPeer cfg s a srv)
    {b : Broadcast cfg.peers} (hb : b ∈ srv.broadcasts) {p start : ℕ}
    (hstart : (b.poll.phase p).start? = some start) :
    ∃ b₀ ∈ (C.servers s).broadcasts, b.term = b₀.term ∧ b.end_ = b₀.end_ ∧
      StartFrom C.appendCalls (C.servers s).rf srv.rf b₀ p start := by
  cases hm with
  | act _ hacts => exact hacts.start_from hb hstart
  | other | handleVote | handleAppend => exact ⟨b, hb, rfl, rfl, .same hstart⟩
  | crash | restart => simp [Server.boot] at hb

omit [Zero Cmd] in
/-- A leader that stays one keeps the bounds. -/
lemma Bounded.start_move (h : Bounded (C.servers s).rf (C.servers s).broadcasts)
    (hok : (C.servers s).Ok C.voteCalls C.appendCalls s) (hal : C.Aligned)
    (hrej : RejectsBefore C.appendCalls)
    (hstate : (C.servers s).rf.state = .leader) {rf' : Raft Cmd}
    (hX : (C.servers s).rf.X ≤ rf'.X) (hgrows : NextGrows (C.servers s).rf rf')
    {b : Broadcast cfg.peers} (hb : b ∈ (C.servers s).broadcasts)
    (hbT : b.term = (C.servers s).rf.currentTerm) {p start : ℕ}
    (hfrom : StartFrom C.appendCalls (C.servers s).rf rf' b p start) :
    start ≤ b.end_ ∨ start ≤ rf'.X ∨ ∀ next ∈ rf'.nextIndex[p]?, b.end_ < next := by
  -- what is known of the goroutine stays known
  have hkeep : ∀ start, (start ≤ b.end_ ∨ start ≤ (C.servers s).rf.X ∨
      ∀ next ∈ (C.servers s).rf.nextIndex[p]?, b.end_ < next) →
      start ≤ b.end_ ∨ start ≤ rf'.X ∨ ∀ next ∈ rf'.nextIndex[p]?, b.end_ < next := by
    intro start hstart
    refine hstart.imp_right (Or.imp (fun hle => hle.trans hX) fun hnext next' hnext' => ?_)
    obtain ⟨next, hle, hn⟩ := hgrows p next' hnext'
    exact (hnext next hn).trans_le hle
  cases hfrom with
  | same hstart => exact hkeep start (h.start hstate b hb hbT p start hstart)
  | next _ hnext =>
    refine hkeep start ?_
    rcases Nat.lt_or_ge b.end_ start with hlt | hge
    · refine .inr (.inr fun next hn => ?_)
      cases hnext.symm.trans hn
      exact hlt
    · exact .inl hge
  | @retry l k call reply hph hcall hreply hrf =>
    obtain ⟨start₀, call₀, rfl, hk, hbuilt⟩ := (hok.broadcasts b hb).call p l k hph
    obtain rfl : call = call₀ := Option.some.inj (hcall.symm.trans hk)
    obtain ⟨next, -, hguard⟩ := hbuilt.guard
    have hprev := (hal.senders call (List.mem_of_getElem? hcall)).prevLogIndex_appendRequest
      hbuilt.args (not_le.mp fun hle => hguard (.inr (.inl hle)))
    have hbefore := h.start hstate b hb hbT p start₀ (by rw [hph]; rfl)
    refine hkeep start ?_
    rcases or_assoc.mpr hbefore with hbefore | hnext
    · refine or_assoc.mp (.inl ?_)
      exact h.retry hstate hb hbT (by omega) hbefore (hrej k call reply hcall hreply) hrf
    · exact .inr (.inr hnext)

lemma raft_bounded {l : List (Cluster cfg.peers Cmd)} (h : (raft cfg).Run SendsInTerm l) :
    ∀ C ∈ l, ∀ s, Bounded (C.servers s).rf (C.servers s).broadcasts := by
  refine h.invariant ?_ ?_
  · rintro C rfl s
    exact .of_follower (Raft.state_make _ _)
  · intro C past a C' hr hP hC hnext s
    have hm := (Cluster.moves_of_step hnext).peer s
    have hok := (raft_wired hr C List.mem_cons_self).servers s
    obtain ⟨hmove, hends⟩ := hm.tenure (raft_log_pos hr s)
    refine ⟨fun hst b hb hbT i e hi hend he => ?_, fun hst b hb hbT p start hstart => ?_⟩
    · exact (hC s).tail_move hmove hends (fun b hb => (hok.broadcasts b hb).term_le)
        (hm.X_le hP) hst hb hbT hi hend he
    · by_cases hlead : (C.servers s).rf.state = .leader
      · obtain ⟨hT, hgrows⟩ := hmove.tenure_of_leader hlead hst
        obtain ⟨b₀, hb₀, hbt, hbe, hfrom⟩ := hm.start_from hb hstart
        rw [hbe]
        exact (hC s).start_move hok (raft_aligned (raft_sendsAligned hr) C List.mem_cons_self)
          (raft_rejectsBefore hr C List.mem_cons_self) hlead (hm.X_le hP (by simp [hst])) hgrows hb₀
          (by rw [← hbt, hbT, hT]) hfrom
      · -- a new leader has nothing to send that was captured before
        obtain ⟨hrf, hX⟩ := hm.win hP.electsUncompacted hlead hst
        have hlt := (raft_inRange (.next hr hP hnext) C' List.mem_cons_self s).ends
          (by simp [hst]) b hb hbT
        refine .inr (.inr fun next hn => ?_)
        rw [hrf] at hn hlt
        have := List.eq_of_mem_replicate (List.mem_of_getElem? hn)
        simp only [Raft.logEnd, Raft.becomeLeader, hX] at hlt
        omega

/-- Replication goroutines stay inside the log: in every run in which a goroutine of `appendEntries`
sends only in the term it has captured, no peer becomes leader with a compacted log, calls of
`Snapshot` take effect in order and every peer is started from a log that begins at index 0,
whenever a goroutine passes its guard the previous entry and the entries from `start` to `end` are
in the log, and the request holds these entries and no other ones. -/
theorem sends_within_log (h : (raft cfg).Run SendsInTerm (C :: past)) {b p start next : ℕ}
    {bc : Broadcast cfg.peers} (hP : SendsInTerm C (.act s (.peerCall b p)))
    (hbc : (C.servers s).broadcasts[b]? = some bc) (hph : bc.poll.phase p = .ready (some start))
    (hnext : (C.servers s).rf.nextIndex[p]? = some next)
    (hguard : ¬(C.servers s).rf.givesUp start next bc.end_) :
    1 ≤ (C.servers s).rf.logIndex2sliceIndex start ∧ start ≤ bc.end_ ∧
      (C.servers s).rf.logIndex2sliceIndex bc.end_ < (C.servers s).rf.log.len ∧
      ∃ args, (C.servers s).rf.appendRequest bc.term bc.leaderCommit start bc.end_ = some args ∧
        args.entries = ((C.servers s).rf.log.elems.take (bc.end_ + 1 - (C.servers s).rf.X)).drop
          (start - (C.servers s).rf.X) ∧
        args.entries.length = bc.end_ - start + 1 := by
  have hstate : (C.servers s).rf.state = .leader := not_not.mp fun hs => hguard (.inl hs)
  have hX : (C.servers s).rf.X < start := not_le.mp fun hle => hguard (.inr (.inl hle))
  have hle : next ≤ bc.end_ := not_lt.mp fun hlt => hguard (.inr (.inr (.inl hlt)))
  have hT := hP bc start next hbc hph hnext hguard
  have hb := List.mem_of_getElem? hbc
  have hend := (raft_inRange h C List.mem_cons_self s).logIndex2sliceIndex_lt hb hT hguard
  have hstart : start ≤ bc.end_ := by
    rcases (raft_bounded h C List.mem_cons_self s).start hstate bc hb hT.symm p start
      (by rw [hph]; rfl) with hle | hle | hlt
    · exact hle
    · omega
    · have := hlt next hnext
      omega
  refine ⟨?_, hstart, hend, ?_⟩
  · unfold Raft.logIndex2sliceIndex
    omega
  · unfold Raft.logIndex2sliceIndex at hend
    obtain ⟨prev, hprev⟩ : ∃ prev,
        (C.servers s).rf.log.elems[start - 1 - (C.servers s).rf.X]? = some prev :=
      ⟨_, List.getElem?_eq_getElem (show _ < (C.servers s).rf.log.len by omega)⟩
    refine ⟨_, appendRequest_of_lt hprev hX hstart hend, rfl, ?_⟩
    unfold Slice.len at hend
    simp only [List.length_drop, List.length_take]
    omega

/-- A check of `SendsInTerm` that does not look at the guards. -/
def sendsInTerm (C : Cluster cfg.peers Cmd) : Action Cmd → Bool
  | .act s (.peerCall b _) =>
    (C.servers s).broadcasts[b]?.all fun bc => (C.servers s).rf.currentTerm = bc.term
  | .act s (.snapshotTrim j) =>
    (C.servers s).snapshots[j]?.all fun c => (C.servers s).rf.X ≤ c.index
  | .restart s => startsUncompacted C (.restart s)
  | a => electsUncompacted C a

lemma sendsInTerm_sound (C : Cluster cfg.peers Cmd) (a : Action Cmd)
    (h : sendsInTerm C a = true) : SendsInTerm C a := by
  cases a with
  | act s b =>
    cases b with
    | peerCall b p =>
      intro bc _ _ hbc _ _ _
      simpa [sendsInTerm, hbc] using h
    | snapshotTrim j =>
      intro c hc
      simpa [sendsInTerm, Option.mem_def.mp hc] using h
    | voteDecide e => exact electsUncompacted_sound C (.act s (.voteDecide e)) h
    | _ => trivial
  | restart s => exact startsUncompacted_sound C (.restart s) h
  | _ => trivial

/-- The leader has compacted its log, and its second `appendEntries` is about to send. -/
theorem sends_within_log_compacted :
    ∃ (C : Cluster (Config.doubling 2).peers ℕ) (past : List (Cluster (Config.doubling 2).peers ℕ))
      (bc : Broadcast (Config.doubling 2).peers),
      (raft (.doubling 2)).Run SendsInTerm (C :: past) ∧
      ((C.servers 0).rf.X = 1 ∧ (C.servers 0).broadcasts[1]? = some bc ∧
        bc.poll.phase 1 = .ready (some 2) ∧ bc.end_ = 2) ∧
      (C.servers 0).rf.logIndex2sliceIndex bc.end_ < (C.servers 0).rf.log.len ∧
      ∃ args, (C.servers 0).rf.appendRequest bc.term bc.leaderCommit 2 bc.end_ = some args ∧
        args.entries.length = 1 := by
  obtain ⟨C, past, hr, hX, hP, hbc, hnext, hguard⟩ :
      ∃ (C : Cluster (Config.doubling 2).peers ℕ)
        (past : List (Cluster (Config.doubling 2).peers ℕ)),
      (raft (.doubling 2)).Run SendsInTerm (C :: past) ∧
      (C.servers 0).rf.X = 1 ∧ sendsInTerm C (.act 0 (.peerCall 1 1)) = true ∧
      ((C.servers 0).broadcasts[1]?.map fun bc => (bc.poll.phase 1, bc.end_)) =
        some (.ready (some 2), 2) ∧
      (C.servers 0).rf.nextIndex[1]? = some 2 ∧ ¬(C.servers 0).rf.givesUp 2 2 2 :=
    Machine.exists_run_of_trace sendsInTerm sendsInTerm_sound
      (compactedOnce ++ [.act 0 (.start (some 12)), .act 0 .broadcastStart, .act 0 (.peerNext 1 1)])
      (by decide +kernel)
  obtain ⟨bc, hb, hphase⟩ := Option.map_eq_some_iff.mp hbc
  obtain ⟨hph, hend⟩ := Prod.mk.inj hphase
  obtain ⟨-, -, hlt, args, hargs, -, hlen⟩ :=
    sends_within_log hr (sendsInTerm_sound C _ hP) hb hph hnext (by rwa [hend])
  exact ⟨C, past, bc, hr, ⟨hX, hb, hph, hend⟩, hlt, args, hargs, by rw [hlen, hend]⟩

/-- Peer 0 is leader of term 1, appends two entries and lets a goroutine of `appendEntries` read
`nextIndex`. Peer 1 wins term 2 and replaces the first of the two entries, which cuts off the second
one. Peer 0 then wins term 3. -/
def truncatedLog : List (Action ℕ) :=
  electing 0 0 1 0 ++
    [.act 0 (.start (some 11)), .act 0 (.start (some 12)), .act 0 .broadcastStart,
      .act 0 (.peerNext 0 1)] ++
    electing 1 0 2 1 ++ [.act 1 (.start (some 21))] ++ replicating 1 0 0 0 ++ electing 0 1 2 2

/-- The goroutine of term 1 passes its guard in term 3. Its `end` is behind the log, and the request
it builds holds the entry that was cut off. -/
theorem truncatedLog_exposed :
    ∃ (C : Cluster (Config.doubling 3).peers ℕ) (bc : Broadcast (Config.doubling 3).peers)
      (next : ℕ), (raft (.doubling 3)).Reachable C ∧
      (C.servers 0).broadcasts[0]? = some bc ∧ bc.poll.phase 1 = .ready (some 1) ∧
      (C.servers 0).rf.nextIndex[1]? = some next ∧ ¬(C.servers 0).rf.givesUp 1 next bc.end_ ∧
      (C.servers 0).rf.log.len ≤ (C.servers 0).rf.logIndex2sliceIndex bc.end_ ∧
      ∃ args, (C.servers 0).rf.appendRequest bc.term bc.leaderCommit 1 bc.end_ = some args ∧
        ∃ e ∈ args.entries, e ∉ (C.servers 0).rf.log.elems := by
  obtain ⟨C, past, hr, hbc, hnext, hguard, hlen, args, hargs, hcut⟩ :
      ∃ (C : Cluster (Config.doubling 3).peers ℕ)
        (past : List (Cluster (Config.doubling 3).peers ℕ)),
      (raft (.doubling 3)).Run Machine.Any (C :: past) ∧
      ((C.servers 0).broadcasts[0]?.map fun bc =>
        (bc.poll.phase 1, bc.term, bc.leaderCommit, bc.end_)) = some (.ready (some 1), 1, 0, 2) ∧
      (C.servers 0).rf.nextIndex[1]? = some 2 ∧ ¬(C.servers 0).rf.givesUp 1 2 2 ∧
      (C.servers 0).rf.log.len ≤ (C.servers 0).rf.logIndex2sliceIndex 2 ∧
      ∃ args ∈ (C.servers 0).rf.appendRequest 1 0 1 2,
        ∃ e ∈ args.entries, e ∉ (C.servers 0).rf.log.elems :=
    Machine.exists_run_of_trace (fun _ _ => true) (fun _ _ _ => trivial) truncatedLog
      (by decide +kernel)
  obtain ⟨bc, hb, hbc⟩ := Option.map_eq_some_iff.mp hbc
  simp only [Prod.mk.injEq] at hbc
  obtain ⟨hph, hterm, hcommit, hend⟩ := hbc
  exact ⟨C, bc, 2, ⟨past, hr⟩, hb, hph, hnext, by rwa [hend], by rwa [hend], args,
    by rwa [hterm, hcommit, hend], hcut⟩

end Run

end DistLabs
