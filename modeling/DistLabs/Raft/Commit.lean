import DistLabs.Raft.Uncompacted

/-!
# What the counting goroutine counts

A peer that accepts a request holds the last entry of the request from then on, and has stored it
when it answers. In the goroutines of `appendEntries` of a leader that last entry is the one at
`end`, and has the leader's term. So every `true` the counting goroutine receives stands for a peer
that has stored the leader's entry.
-/

namespace DistLabs

variable {Cmd : Type*} {cfg : Config}

/-! ### The last entry of a request -/

/-- The term of the last entry of a request, which is the previous entry of an empty one. -/
def AppendEntriesArgs.lastTerm (args : AppendEntriesArgs Cmd) : ℕ :=
  match args.entries.getLast? with
  | some e => e.term
  | none => args.prevLogTerm

/-- The request ends at index `i` with an entry of its own term. -/
structure AppendEntriesArgs.EndsAt (args : AppendEntriesArgs Cmd) (i : ℕ) : Prop where
  pos : 0 < i
  index : args.prevLogIndex + args.entries.length = i
  term : args.lastTerm = args.term

namespace Raft

variable {rf : Raft Cmd} {args : AppendEntriesArgs Cmd}

/-- The merged log has the terms of the request. -/
lemma Fits.term_eq {log : List (LogEntry Cmd)} {i : ℕ} (h : Fits log args i) {j : ℕ}
    {e : LogEntry Cmd} (he : args.entries[j]? = some e) :
    ∃ x, (log.take i ++ args.entries.drop (i - (args.prevLogIndex + 1)))[
      args.prevLogIndex + 1 + j]? = some x ∧ x.term = e.term := by
  rw [h.getElem?]
  split_ifs with hlt
  · have hx := List.getElem?_eq_getElem (Nat.lt_of_lt_of_le hlt h.point.le_length)
    exact ⟨_, hx, h.point.agree j _ e hlt hx he⟩
  · exact ⟨e, by simpa using he, rfl⟩

lemma Fits.lastTerm_eq {log : List (LogEntry Cmd)} {i q : ℕ} (h : Fits log args i) (hq : 0 < q)
    (hidx : args.prevLogIndex + args.entries.length = q) :
    ∃ x, (log.take i ++ args.entries.drop (i - (args.prevLogIndex + 1)))[q]? = some x ∧
      x.term = args.lastTerm := by
  unfold AppendEntriesArgs.lastTerm
  split
  · rename_i e he
    have hpos : 0 < args.entries.length :=
      List.length_pos_iff.mpr (List.ne_nil_of_mem (List.mem_of_getLast? he))
    rw [List.getLast?_eq_getElem?] at he
    have := h.term_eq he
    rwa [show args.prevLogIndex + 1 + (args.entries.length - 1) = q by omega] at this
  · rename_i hnil
    rw [List.getLast?_eq_none_iff.mp hnil, List.length_nil, Nat.add_zero] at hidx
    obtain ⟨x, hx, hterm⟩ := h.prev.resolve_left (by omega)
    refine ⟨x, ?_, hterm⟩
    rw [h.getElem?, if_pos (by have := h.point.start_le; omega), ← hidx, hx]

/-- The peer is in term `T` and holds, in memory and in its store, an entry of term `t` at
index `i`. -/
structure Holds (rf : Raft Cmd) (T i t : ℕ) : Prop where
  term : rf.currentTerm = T
  entry : ∃ e, rf.log.elems[i]? = some e ∧ e.term = t
  stored : decodeState rf.persister.raftstate =
    some (rf.currentTerm, rf.votedFor, rf.log.elems)

variable [Zero Cmd]

/-- A peer that answers with success holds the last entry of the request. -/
lemma PlainLog.holds (cfg : Config) (h : rf.PlainLog) (hlive : rf.dead = false) {i : ℕ}
    (hends : args.EndsAt i) (hs : (rf.AppendEntries cfg args).2.success = true) :
    (rf.AppendEntries cfg args).1.Holds args.term i args.term := by
  rcases (appendOutcome cfg rf args).followed with ⟨-, hr⟩ | ⟨-, hf⟩
  · rw [hr] at hs
    cases hs
  · refine ⟨hf.currentTerm, ?_, (hf.stored hlive).decodeState⟩
    rcases h.whole.appendEntries cfg args with ⟨hfail, -⟩ | ⟨-, -, j, hfit, hlog, -⟩
    · simp [hs] at hfail
    · rw [hlog, Slice.elems_append, Slice.elems_upto, ← hends.term]
      exact hfit.lastTerm_eq hends.pos hends.index

/-- The request a goroutine of `appendEntries` builds ends with the entry at `end`, as long as the
log reaches that far. -/
lemma PlainLog.appendRequest_endsAt (h : rf.PlainLog) {term leaderCommit start end_ : ℕ}
    (hargs : rf.appendRequest term leaderCommit start end_ = some args) (hstart : 0 < start)
    (hend : 0 < end_) {e : LogEntry Cmd} (he : rf.log.elems[end_]? = some e)
    (hterm : e.term = term) : args.EndsAt end_ := by
  have hreq := h.appendRequest hargs hstart
  obtain ⟨hle, -, hentries⟩ := Slice.reslice?_natCast.mp hreq.entries
  have hlt : end_ < rf.log.len := (List.getElem?_eq_some_iff.mp he).1
  have hidx := hreq.index
  have hlen : args.entries.length = end_ + 1 - start := by
    simp only [hentries, List.length_drop, List.length_take, Slice.array, List.length_append]
    unfold Slice.len at hlt
    omega
  refine ⟨hend, by omega, ?_⟩
  rw [hreq.term, ← hterm, AppendEntriesArgs.lastTerm, List.getLast?_eq_getElem?]
  rcases Nat.eq_zero_or_pos args.entries.length with h0 | hpos
  · obtain ⟨x, hx, hxterm⟩ := hreq.prev
    rw [show args.prevLogIndex = end_ by omega, he] at hx
    cases hx
    rw [List.getElem?_eq_none (by omega), hxterm]
  · have hlast : args.entries[args.entries.length - 1]? = some e := by
      rw [hentries, List.getElem?_drop, ← hentries, List.getElem?_take_of_lt (by omega),
        show start + (args.entries.length - 1) = end_ by omega, Slice.array_getElem?_of_lt hlt, he]
    rw [hlast]

end Raft

/-! ### The requests of a leader -/

/-- A request of this `appendEntries` that was built in its term ends at `end`. -/
def Broadcast.Aimed {n : ℕ} (appends : List (AppendCall Cmd)) (b : Broadcast n) : Prop :=
  ∀ p l k, b.poll.phase p = .calling l k → ∃ call, appends[k]? = some call ∧
    (call.sender.currentTerm = b.term → call.args.EndsAt b.end_)

section Run

variable [Zero Cmd] {C C' : Cluster cfg.peers Cmd} {a : Action Cmd}

/-- A leader builds a request. -/
lemma Server.Plain.aimed {n : ℕ} {srv : Server n Cmd} (h : srv.Plain) (ht : srv.Tenure)
    {b : Broadcast n} (hb : b ∈ srv.broadcasts) {p start next : ℕ}
    {args : AppendEntriesArgs Cmd} (hnext : srv.rf.nextIndex[p]? = some next)
    (hguard : ¬ srv.rf.givesUp start next b.end_)
    (hargs : srv.rf.appendRequest b.term b.leaderCommit start b.end_ = some args)
    (hterm : srv.rf.currentTerm = b.term) : args.EndsAt b.end_ := by
  have hstate : srv.rf.state = .leader := not_not.mp fun hs => hguard (.inl hs)
  have hle : next ≤ b.end_ := Nat.not_lt.mp fun hlt => hguard (.inr (.inr (.inl hlt)))
  obtain ⟨base, hl⟩ := ht.leader hstate
  have hlt : b.end_ < srv.rf.log.elems.length := by
    have := ht.bounds (by simp [hstate]) b hb hterm.symm
    rwa [h.plainLog.X, Nat.zero_add] at this
  have he := List.getElem?_eq_getElem hlt
  have heterm := hl.terms b.end_ _ ((hl.next next (List.mem_of_getElem? hnext)).trans hle)
    ((Raft.get?_logIndex2sliceIndex h.plainLog.X _).trans he)
  -- the sentinel has term 0, and the leader's term is positive
  have hpos : 0 < b.end_ := by
    by_contra h0
    have hhead := h.plainLog.head
    rw [← Nat.eq_zero_of_not_pos h0, he] at hhead
    rw [Option.some.inj hhead] at heterm
    have := h.term_pos (by simp [hstate])
    simp only [Raft.sentinel] at heterm
    omega
  exact h.plainLog.appendRequest_endsAt hargs (Raft.start_pos_of_not_givesUp hguard) hpos he
    (heterm.trans hterm)

lemma Broadcast.Aimed.moves (h : ∀ s, ∀ b ∈ (C.servers s).broadcasts, b.Aimed C.appendCalls)
    (hp : C.Plain) (ht : ∀ s, (C.servers s).Tenure) (hm : C.Moves cfg a C') :
    ∀ s, ∀ b ∈ (C'.servers s).broadcasts, b.Aimed C'.appendCalls := by
  have hgrow : ∀ s, ∀ b ∈ (C.servers s).broadcasts, b.Aimed C'.appendCalls := by
    intro s b hb p l k hph
    obtain ⟨call, hk, hends⟩ := h s b hb p l k hph
    obtain ⟨r, hr, -⟩ := hm.grows.2 k call hk
    exact ⟨_, hr, hends⟩
  intro s b hb p l k hph
  rcases hm.mem_broadcasts hb with hb | ⟨c, eff, rfl, hup, hacts, rfl, hb'⟩
  · exact hgrow s b hb p l k hph
  · rcases hacts.phase_move hb' p with hidle | ⟨b₀, hb₀, hterm, hend, hmove⟩
    · simp [hph, Phase.engaged] at hidle
    · rw [hterm, hend]
      generalize hq : b.poll.phase p = ph at hmove hph
      cases hmove with
      | same => exact hgrow s b₀ hb₀ p l k hph
      | call hnext hguard hargs hcall =>
        cases hph
        refine ⟨_, by simp only [Cluster.perform, hcall]; exact List.getElem?_concat_length, ?_⟩
        exact (hp.servers s).aimed (ht s) hb₀ hnext hguard hargs
      | accept => cases hph
      | recv => cases hph

lemma raft_aimed {l : List (Cluster cfg.peers Cmd)} (h : (raft cfg).Run NoSnapshot l) :
    ∀ C ∈ l, ∀ s, ∀ b ∈ (C.servers s).broadcasts, b.Aimed C.appendCalls := by
  refine h.invariant ?_ ?_
  · rintro C rfl s b hb
    simp [Cluster.initial, Server.boot] at hb
  · intro C past a C' hr _ hC hnext
    exact Broadcast.Aimed.moves hC (raft_plain hr C List.mem_cons_self)
      (raft_tenure (raft_compactsInTenure hr) C List.mem_cons_self) (Cluster.moves_of_step hnext)

end Run

/-! ### Acknowledgements -/

section Acked

variable {n : ℕ} {l : List (Cluster n Cmd)} {k s v T i : ℕ}

/-- Between two states of a run, peer `v` answers call `k` of peer `s`, a request of term `T`, with
success; it then holds an entry of that term at index `i`, in memory and in its store. -/
structure Acks (D D' : Cluster n Cmd) (k s v T i : ℕ) : Prop where
  answer : ∃ call reply, D.appendCalls[k]? = some call ∧ call.reply = none ∧
    D'.appendCalls[k]? = some { call with reply := some reply } ∧ reply.success = true ∧
    call.src = s ∧ call.dst = v ∧ call.args.term = T
  holds : (D'.servers v).rf.Holds T i T

/-- There has been such an answer. -/
def Acked (l : List (Cluster n Cmd)) (k s v T i : ℕ) : Prop :=
  ∃ D D' rest, (D' :: D :: rest) <:+ l ∧ Acks D D' k s v T i

/-- Peer `s` has been in term `T` while a goroutine of its `appendEntries` of this term, with end
`i`, waited for call `k` to peer `v`. -/
def Awaited (l : List (Cluster n Cmd)) (k s v T i : ℕ) : Prop :=
  ∃ D ∈ l, (D.servers s).rf.currentTerm = T ∧ ∃ b ∈ (D.servers s).broadcasts,
    b.term = T ∧ b.end_ = i ∧ ∃ m, b.poll.phase v = .calling m k

lemma Acked.cons (h : Acked l k s v T i) (C : Cluster n Cmd) : Acked (C :: l) k s v T i := by
  obtain ⟨D, D', rest, hl, ha⟩ := h
  exact ⟨D, D', rest, hl.trans (List.suffix_cons C l), ha⟩

lemma Awaited.cons (h : Awaited l k s v T i) (C : Cluster n Cmd) : Awaited (C :: l) k s v T i := by
  obtain ⟨D, hD, ha⟩ := h
  exact ⟨D, List.mem_cons_of_mem C hD, ha⟩

/-- Every `true` of this `appendEntries` of peer `s` stands for an answer of the peer, taken note
of in the term of the `appendEntries`. -/
def Broadcast.Backed (l : List (Cluster n Cmd)) (s : ℕ) (b : Broadcast n) : Prop :=
  ∀ p, b.poll.phase p = .sending true ∨ b.poll.phase p = .finished true →
    ∃ k, Acked l k s p b.term b.end_ ∧ Awaited l k s p b.term b.end_

/-- What is known of the answers after the run `l`, which has led to `C`. -/
structure Tallied (C : Cluster n Cmd) (l : List (Cluster n Cmd)) : Prop where
  replies : ∀ (k : ℕ) (call : AppendCall Cmd) (r : AppendEntriesReply) (i : ℕ),
    C.appendCalls[k]? = some call → call.reply = some r → r.success = true →
      call.args.EndsAt i → Acked l k call.src call.dst call.args.term i
  counted : ∀ s, ∀ b ∈ (C.servers s).broadcasts, b.Backed l s

end Acked

lemma Raft.handleAppendReply_true {rf rf' : Raft Cmd} {p term end_ : ℕ}
    {args : AppendEntriesArgs Cmd} {reply : AppendEntriesReply}
    (h : rf.handleAppendReply p term end_ args reply = some (rf', .report true)) :
    rf.currentTerm = term ∧ reply.success = true := by
  cases replyOutcome h with
  | accept hterm _ hs => exact ⟨hterm, hs⟩

section Run

variable [Zero Cmd] {C C' : Cluster cfg.peers Cmd} {a : Action Cmd}
  {past : List (Cluster cfg.peers Cmd)}

omit [Zero Cmd] in
/-- A goroutine takes note of a success. -/
lemma Tallied.accept (h : Tallied C (C :: past)) (hw : C.Wired) {s p k : ℕ} {m : Option ℕ}
    {b : Broadcast cfg.peers} {call : AppendCall Cmd} {reply : AppendEntriesReply}
    {rf : Raft Cmd} (hb : b ∈ (C.servers s).broadcasts) (haim : b.Aimed C.appendCalls)
    (hph : b.poll.phase p = .calling m k) (hcall : C.appendCalls[k]? = some call)
    (hreply : call.reply = some reply)
    (hrf : (C.servers s).rf.handleAppendReply p b.term b.end_ call.args reply =
      some (rf, .report true)) :
    Acked (C :: past) k s p b.term b.end_ ∧ Awaited (C :: past) k s p b.term b.end_ := by
  obtain ⟨hterm, hs⟩ := Raft.handleAppendReply_true hrf
  obtain ⟨start, call₁, -, hk₁, hbuilt⟩ := ((hw.servers s).broadcasts b hb).call p m k hph
  obtain ⟨call₂, hk₂, hends⟩ := haim p m k hph
  obtain rfl : call = call₁ := Option.some.inj (hcall.symm.trans hk₁)
  obtain rfl : call = call₂ := Option.some.inj (hcall.symm.trans hk₂)
  -- the request was built in the term of the broadcast, since the peer is still in it
  have hsender : call.sender.currentTerm = b.term :=
    Nat.le_antisymm (hterm ▸ hbuilt.term_le.2) hbuilt.term_le.1
  obtain ⟨prev, entries, -, -, hargs⟩ := appendRequest_eq_some hbuilt.args
  have hack := h.replies k call reply b.end_ hcall hreply hs (hends hsender)
  rw [hbuilt.src, hbuilt.dst, hargs] at hack
  exact ⟨hack, C, List.mem_cons_self, hterm, b, hb, rfl, rfl, m, hph⟩

lemma Tallied.moves (h : Tallied C (C :: past)) (hw : C.Wired) (hp : C.Plain)
    (haim : ∀ s, ∀ b ∈ (C.servers s).broadcasts, b.Aimed C.appendCalls)
    (hm : C.Moves cfg a C') : Tallied C' (C' :: C :: past) := by
  refine ⟨fun k call r i hk hr hs hends => ?_, fun s b hb p hph => ?_⟩
  · rcases hw.answered hm hk hr with hk | ⟨call₀, hk₀, hnew, hlive, rfl, happ⟩
    · exact (h.replies k call r i hk hr hs hends).cons C'
    · have hholds := (hp.servers call₀.dst).plainLog.holds cfg hlive hends
        (by rw [happ]; exact hs)
      rw [happ] at hholds
      exact ⟨C, C', past, List.suffix_rfl, ⟨call₀, r, hk₀, hnew, hk, hs, rfl, rfl, rfl⟩, hholds⟩
  · rcases hm.mem_broadcasts hb with hb | ⟨c, eff, rfl, hup, hacts, rfl, hb'⟩
    · obtain ⟨k, hack, hwait⟩ := h.counted s b hb p hph
      exact ⟨k, hack.cons C', hwait.cons C'⟩
    · rcases hacts.phase_move hb' p with hidle | ⟨b₀, hb₀, hterm, hend, hmove⟩
      · rcases hph with hph | hph <;> simp [hph, Phase.engaged] at hidle
      · rw [hterm, hend]
        have hold : b₀.poll.phase p = .sending true ∨ b₀.poll.phase p = .finished true →
            ∃ k, Acked (C.perform s eff :: C :: past) k s p b₀.term b₀.end_ ∧
              Awaited (C.perform s eff :: C :: past) k s p b₀.term b₀.end_ := by
          intro hph
          obtain ⟨k, hack, hwait⟩ := h.counted s b₀ hb₀ p hph
          exact ⟨k, hack.cons _, hwait.cons _⟩
        generalize hq : b.poll.phase p = ph at hmove hph
        cases hmove with
        | same => exact hold hph
        | call => rcases hph with hph | hph <;> cases hph
        | @accept m k call reply hcalling hcall hreply hrf =>
          obtain ⟨hack, hwait⟩ :=
            h.accept hw hb₀ (haim s b₀ hb₀) hcalling hcall hreply hrf
          exact ⟨k, hack.cons _, hwait.cons _⟩
        | recv hsend => exact hold (.inl hsend)

lemma raft_tallied {l : List (Cluster cfg.peers Cmd)} (h : (raft cfg).Run NoSnapshot l) :
    ∀ C past, l = C :: past → Tallied C l := by
  refine h.history (I := fun l => ∀ C past, l = C :: past → Tallied C l) ?_ ?_
  · rintro C rfl _ _ heq
    cases heq
    exact ⟨by simp [Cluster.initial], by simp [Cluster.initial, Server.boot]⟩
  · intro C past a C' hr hC _ hnext _ _ heq
    cases heq
    exact (hC C past rfl).moves (raft_wired hr C List.mem_cons_self)
      (raft_plain hr C List.mem_cons_self) (raft_aimed hr C List.mem_cons_self)
      (Cluster.moves_of_step hnext)

/-- A leader's entry is in its own store. -/
lemma Server.Plain.holds {n : ℕ} {srv : Server n Cmd} (h : srv.Plain) (hd : srv.rf.Durable)
    (hstate : srv.rf.state = .leader) {i : ℕ} {e : LogEntry Cmd}
    (he : srv.rf.log.elems[i]? = some e) (hterm : e.term = srv.rf.currentTerm) :
    srv.rf.Holds srv.rf.currentTerm i srv.rf.currentTerm := by
  refine ⟨rfl, ⟨e, he, hterm⟩, hd.resolve_right fun hnil => ?_⟩
  have := h.term_pos (by simp [hstate])
  omega

/-- When the counting goroutine of a leader acts, a majority holds the entry at `end`. -/
lemma raft_acked {C : Cluster cfg.peers Cmd} {past : List (Cluster cfg.peers Cmd)}
    (h : (raft cfg).Run NoSnapshot (C :: past)) {s : ℕ} (hs : s < cfg.peers)
    {b : Broadcast cfg.peers} (hb : b ∈ (C.servers s).broadcasts)
    (hd : b.poll.deciding = true) (hstate : (C.servers s).rf.state = .leader)
    (hterm : (C.servers s).rf.currentTerm = b.term) :
    ∃ e, (C.servers s).rf.log.elems[b.end_]? = some e ∧
      e.term = (C.servers s).rf.currentTerm ∧
      (C.servers s).rf.Holds (C.servers s).rf.currentTerm b.end_ e.term ∧
      ∃ Q, IsMajority cfg.peers Q ∧ s ∈ Q ∧
        ∀ v ∈ Q, v ≠ s → ∃ k,
          Acked (C :: past) k s v (C.servers s).rf.currentTerm b.end_ ∧
          Awaited (C :: past) k s v (C.servers s).rf.currentTerm b.end_ := by
  have hw := raft_wired h C List.mem_cons_self
  have hten := raft_tenure (raft_compactsInTenure h) C List.mem_cons_self s
  have hplain := (raft_plain h C List.mem_cons_self).servers s
  obtain ⟨e, he, heterm⟩ := hten.term_of_deciding hstate hb hterm.symm hd
    (by rw [hplain.plainLog.X]; exact Nat.zero_le _)
  rw [Raft.get?_logIndex2sliceIndex hplain.plainLog.X] at he
  refine ⟨e, he, heterm, heterm ▸ hplain.holds (raft_durable h s) hstate he heterm,
    insert s b.poll.yes, b.poll.isMajority_insert hs ((hw.servers s).broadcasts b hb).self hd,
    Finset.mem_insert_self _ _, fun v hv hne => ?_⟩
  have hyes := (Finset.mem_insert.mp hv).resolve_left hne
  rw [hterm]
  exact (raft_tallied h C past rfl).counted s b hb v (.inr (Poll.mem_yes.mp hyes).2)

/-- Commit needs a majority: in every run without snapshots, when the counting goroutine of a leader
of term `T` sets `commitIndex` to `end`, the leader and each other peer of some majority have
held, in term `T` and in their stores, an entry with the term of the leader's entry at `end`, which
is `T`. Every other peer held it when it answered with success a request of term `T` that the leader
sent it, and a goroutine of this broadcast waited for that answer while the leader was in
term `T`. -/
theorem commit_needs_majority {C C' : Cluster cfg.peers Cmd} {past : List (Cluster cfg.peers Cmd)}
    (h : (raft cfg).Run NoSnapshot (C :: past)) {s i : ℕ}
    (hstep : (raft cfg).next C (.act s (.peerDecide i)) C')
    (hset : (C'.servers s).rf.commitIndex ≠ (C.servers s).rf.commitIndex) :
    ∃ e, (C.servers s).rf.log.elems[(C'.servers s).rf.commitIndex]? = some e ∧
      e.term = (C.servers s).rf.currentTerm ∧
      (C.servers s).rf.Holds (C.servers s).rf.currentTerm (C'.servers s).rf.commitIndex e.term ∧
      ∃ Q, IsMajority cfg.peers Q ∧ s ∈ Q ∧
        ∀ v ∈ Q, v ≠ s → ∃ k,
          Acked (C :: past) k s v (C.servers s).rf.currentTerm (C'.servers s).rf.commitIndex ∧
          Awaited (C :: past) k s v (C.servers s).rf.currentTerm
            (C'.servers s).rf.commitIndex := by
  obtain ⟨b, hb, hd, hs, hstate, hterm, -, hrf⟩ := commit_of_peerDecide hstep hset
  have hend : (C'.servers s).rf.commitIndex = b.end_ := by rw [hrf]
  rw [hend]
  exact raft_acked h hs (List.mem_of_getElem? hb) hd hstate hterm

/-- A check of `NoSnapshot`. -/
def noSnapshot {n : ℕ} (_ : Cluster n Cmd) : Action Cmd → Bool
  | .act _ (.snapshot _ _) => false
  | _ => true

omit [Zero Cmd] in
lemma noSnapshot_sound {n : ℕ} (C : Cluster n Cmd) (a : Action Cmd) (h : noSnapshot C a = true) :
    NoSnapshot C a := by
  unfold NoSnapshot
  split
  · simp [noSnapshot] at h
  · trivial

/-- Of three peers, the first leader commits its first entry with the answer of peer 1. -/
theorem commit_needs_majority_first :
    ∃ (C C' : Cluster (Config.doubling 3).peers ℕ)
      (past : List (Cluster (Config.doubling 3).peers ℕ)),
      (raft (.doubling 3)).Run NoSnapshot (C :: past) ∧
      (raft (.doubling 3)).next C (.act 0 (.peerDecide 0)) C' ∧
      ((C.servers 0).rf.commitIndex = 0 ∧ (C'.servers 0).rf.commitIndex = 1 ∧
        (C.servers 0).rf.currentTerm = 1) ∧
      ∃ Q, IsMajority 3 Q ∧ 0 ∈ Q ∧ ∀ v ∈ Q, v ≠ 0 → ∃ k, Acked (C :: past) k 0 v 1 1 := by
  obtain ⟨C, C', past, hr, hstep, hset⟩ : ∃ (C C' : Cluster (Config.doubling 3).peers ℕ)
      (past : List (Cluster (Config.doubling 3).peers ℕ)),
      (raft (.doubling 3)).Run NoSnapshot (C :: past) ∧
      (raft (.doubling 3)).next C (.act 0 (.peerDecide 0)) C' ∧
      ((C.servers 0).rf.commitIndex = 0 ∧ (C'.servers 0).rf.commitIndex = 1 ∧
        (C.servers 0).rf.currentTerm = 1) :=
    Machine.exists_step_of_trace noSnapshot noSnapshot_sound
      (electing 0 0 1 0 ++ [.act 0 (.start (some 11))] ++ replicating 0 0 1 0) (by decide +kernel)
  obtain ⟨e, -, -, -, Q, hQ, h0, hacks⟩ :=
    commit_needs_majority hr hstep (by rw [hset.1, hset.2.1]; decide)
  refine ⟨C, C', past, hr, hstep, hset, Q, hQ, h0, fun v hv hne => ?_⟩
  obtain ⟨k, hack, -⟩ := hacks v hv hne
  rw [hset.2.1, hset.2.2] at hack
  exact ⟨k, hack⟩

end Run

end DistLabs
