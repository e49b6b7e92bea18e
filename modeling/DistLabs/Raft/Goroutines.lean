import DistLabs.Raft.Durability

/-!
# Goroutines and the calls they make

What ties the goroutines of a peer to the peer and to the calls in the network: the terms they
have captured are not ahead of the peer's, a goroutine that waits for a call waits for one it has
made with its own arguments, and every `AppendEntries` request was built by a leader.
-/

namespace DistLabs

variable {Cmd : Type*} {n : ℕ}

/-! ### The calls -/

section Grows

variable {Args Reply : Type*} {calls calls' : List (Call Cmd Args Reply)}

/-- Calls are only added and answered, and answered once. -/
def Grows (calls calls' : List (Call Cmd Args Reply)) : Prop :=
  ∀ (k : ℕ) (c : Call Cmd Args Reply), calls[k]? = some c →
    ∃ r, calls'[k]? = some { c with reply := r } ∧ (c.reply.isSome → r = c.reply)

lemma Grows.refl (calls : List (Call Cmd Args Reply)) : Grows calls calls :=
  fun _ c hc => ⟨c.reply, hc, fun _ => rfl⟩

lemma grows_append (calls new : List (Call Cmd Args Reply)) : Grows calls (calls ++ new) := by
  intro k c hc
  refine ⟨c.reply, ?_, fun _ => rfl⟩
  rw [List.getElem?_append_left (List.getElem?_eq_some_iff.mp hc).1, hc]

lemma grows_set {k : ℕ} {call : Call Cmd Args Reply} (hk : calls[k]? = some call)
    (hnew : call.reply = none) (r : Option Reply) :
    Grows calls (calls.set k { call with reply := r }) := by
  intro j c hc
  by_cases hj : k = j
  · subst hj
    obtain rfl : call = c := Option.some.inj (hk.symm.trans hc)
    have hlt := (List.getElem?_eq_some_iff.mp hk).1
    exact ⟨r, by rw [List.getElem?_set_self hlt], by simp [hnew]⟩
  · exact ⟨c.reply, by rw [List.getElem?_set_ne hj, hc], fun _ => rfl⟩

end Grows

/-- An `AppendEntries` request was built by a leader whose term had reached that of the request,
by a heartbeat or by a goroutine of `appendEntries`. -/
structure Genuine (call : AppendCall Cmd) : Prop where
  me : call.sender.me = call.src
  leaderId : call.args.leaderId = call.src
  state : call.sender.state = .leader
  term_le : call.args.term ≤ call.sender.currentTerm
  request :
    (∃ c, call.sender.heartbeatRequest call.args.term c call.dst = some call.args) ∨
      ∃ lc start next end_, call.sender.nextIndex[call.dst]? = some next ∧
        ¬ call.sender.givesUp start next end_ ∧
        call.sender.appendRequest call.args.term lc start end_ = some call.args

lemma heartbeatRequest_eq_some {rf : Raft Cmd} {term commitIndex i : ℕ}
    {args : AppendEntriesArgs Cmd} (h : rf.heartbeatRequest term commitIndex i = some args) :
    args.term = term ∧ args.leaderId = rf.me ∧ args.entries = [] ∧
      args.leaderCommit = commitIndex := by
  simp only [Raft.heartbeatRequest] at h
  split at h
  · cases h
  · split_ifs at h
    all_goals
      split at h <;> cases h
      exact ⟨rfl, rfl, rfl, rfl⟩

lemma appendRequest_eq_some {rf : Raft Cmd} {term leaderCommit start end_ : ℕ}
    {args : AppendEntriesArgs Cmd}
    (h : rf.appendRequest term leaderCommit start end_ = some args) :
    ∃ prev entries, rf.log.get? (rf.logIndex2sliceIndex start - 1) = some prev ∧
      rf.log.reslice? (rf.logIndex2sliceIndex start) (rf.logIndex2sliceIndex end_ + 1) =
        some entries ∧
      args = ⟨term, rf.me, prev.index, prev.term, entries, leaderCommit⟩ := by
  simp only [Raft.appendRequest] at h
  split at h <;> cases h
  rename_i prev entries hprev hentries
  exact ⟨prev, entries, hprev, hentries, rfl⟩

/-- The request for entries that are all in the log. -/
lemma appendRequest_of_lt {rf : Raft Cmd} {term leaderCommit start end_ : ℕ} {prev : LogEntry Cmd}
    (hprev : rf.log.elems[start - 1 - rf.X]? = some prev) (hX : rf.X < start)
    (hse : start ≤ end_) (hend : rf.logIndex2sliceIndex end_ < rf.log.len) :
    rf.appendRequest term leaderCommit start end_ =
      some ⟨term, rf.me, prev.index, prev.term,
        (rf.log.elems.take (end_ + 1 - rf.X)).drop (start - rf.X), leaderCommit⟩ := by
  unfold Raft.logIndex2sliceIndex at hend
  have hstart : rf.logIndex2sliceIndex start = (start - rf.X : ℕ) := by
    unfold Raft.logIndex2sliceIndex
    omega
  have hget : rf.log.get? (rf.logIndex2sliceIndex start - 1) = some prev := by
    rw [← hprev, ← Slice.get?_natCast]
    congr 1
    omega
  have hentries : rf.log.reslice? (rf.logIndex2sliceIndex start)
      (rf.logIndex2sliceIndex end_ + 1) =
        some ((rf.log.elems.take (end_ + 1 - rf.X)).drop (start - rf.X)) := by
    have hcap : rf.log.len ≤ rf.log.cap := Nat.le_add_right _ _
    have htake : rf.log.array.take (end_ + 1 - rf.X) = rf.log.elems.take (end_ + 1 - rf.X) :=
      List.take_append_of_le_length (show _ ≤ rf.log.len by omega)
    rw [hstart, show rf.logIndex2sliceIndex end_ + 1 = (end_ + 1 - rf.X : ℕ) by
      unfold Raft.logIndex2sliceIndex; omega, Slice.reslice?_natCast, htake]
    exact ⟨by omega, by omega, rfl⟩
  simp only [Raft.appendRequest, hget, hentries]

/-! ### The goroutines -/

/-- The goroutines of an election of peer `s`, whose term is now `term`. -/
structure Election.Ok (votes : List (VoteCall Cmd)) (s term : ℕ) (el : Election n) : Prop where
  term_le : el.term ≤ term
  self : el.poll.phase s = .absent
  call : ∀ p k, el.poll.phase p = .calling () k → ∃ call, votes[k]? = some call ∧
    call.src = s ∧ call.dst = p ∧ call.args = ⟨el.term, s, el.lastLogTerm, el.lastLogIndex⟩

/-- A request of a goroutine of `appendEntries`, as it was built. -/
structure BuiltFor (b : Broadcast n) (s p term start : ℕ) (call : AppendCall Cmd) : Prop where
  src : call.src = s
  dst : call.dst = p
  args : call.sender.appendRequest b.term b.leaderCommit start b.end_ = some call.args
  guard : ∃ next, call.sender.nextIndex[p]? = some next ∧ ¬ call.sender.givesUp start next b.end_
  term_le : b.term ≤ call.sender.currentTerm ∧ call.sender.currentTerm ≤ term

/-- The goroutines of one `appendEntries` of peer `s`, whose term is now `term`. -/
structure Broadcast.Ok (appends : List (AppendCall Cmd)) (s term : ℕ) (b : Broadcast n) :
    Prop where
  term_le : b.term ≤ term
  self : b.poll.phase s = .absent
  call : ∀ p l k, b.poll.phase p = .calling l k → ∃ start call, l = some start ∧
    appends[k]? = some call ∧ BuiltFor b s p term start call

/-- All goroutines of a peer. -/
structure Server.Ok (votes : List (VoteCall Cmd)) (appends : List (AppendCall Cmd)) (s : ℕ)
    (srv : Server n Cmd) : Prop where
  elections : ∀ el ∈ srv.elections, el.Ok votes s srv.rf.currentTerm
  heartbeats : ∀ hb ∈ srv.heartbeats, hb.term ≤ srv.rf.currentTerm
  broadcasts : ∀ b ∈ srv.broadcasts, b.Ok appends s srv.rf.currentTerm

/-- The goroutines of every peer and the calls in the network. -/
structure Cluster.Wired (C : Cluster n Cmd) : Prop where
  servers : ∀ s, (C.servers s).Ok C.voteCalls C.appendCalls s
  votes : ∀ c ∈ C.voteCalls, c.args.candidateId = c.src ∧
    c.args.term ≤ (C.servers c.src).rf.currentTerm
  appends : ∀ c ∈ C.appendCalls, Genuine c ∧
    c.sender.currentTerm ≤ (C.servers c.src).rf.currentTerm

section Ok

variable {votes votes' : List (VoteCall Cmd)} {appends appends' : List (AppendCall Cmd)}
  {s term term' p : ℕ}

lemma Election.Ok.mono {el : Election n} (h : el.Ok votes s term) (hv : Grows votes votes')
    (ht : term ≤ term') : el.Ok votes' s term' := by
  refine ⟨h.term_le.trans ht, h.self, fun p k hph => ?_⟩
  obtain ⟨call, hk, hsrc, hdst, hargs⟩ := h.call p k hph
  obtain ⟨r, hr, -⟩ := hv k call hk
  exact ⟨_, hr, hsrc, hdst, hargs⟩

lemma Broadcast.Ok.mono {b : Broadcast n} (h : b.Ok appends s term) (ha : Grows appends appends')
    (ht : term ≤ term') : b.Ok appends' s term' := by
  refine ⟨h.term_le.trans ht, h.self, fun p l k hph => ?_⟩
  obtain ⟨start, call, hl, hk, hb⟩ := h.call p l k hph
  obtain ⟨r, hr, -⟩ := ha k call hk
  exact ⟨start, _, hl, hr, ⟨hb.src, hb.dst, hb.args, hb.guard, hb.term_le.1, hb.term_le.2.trans ht⟩⟩

lemma Server.Ok.mono {srv srv' : Server n Cmd} (h : srv.Ok votes appends s)
    (hv : Grows votes votes') (ha : Grows appends appends')
    (ht : srv.rf.currentTerm ≤ srv'.rf.currentTerm) (he : srv'.elections = srv.elections)
    (hh : srv'.heartbeats = srv.heartbeats) (hb : srv'.broadcasts = srv.broadcasts) :
    srv'.Ok votes' appends' s := by
  refine ⟨?_, ?_, ?_⟩
  · rw [he]
    exact fun el hel => (h.elections el hel).mono hv ht
  · rw [hh]
    exact fun hb hhb => (h.heartbeats hb hhb).trans ht
  · rw [hb]
    exact fun b hb => (h.broadcasts b hb).mono ha ht

/-- A goroutine of an election moves on. -/
lemma Election.Ok.move {el : Election n} {poll : Poll n Unit} {ph : Phase Unit}
    (h : el.Ok votes s term) (hp : el.poll.phase p ≠ .absent)
    (hpoll : poll.phase = Function.update el.poll.phase p ph)
    (hph : ∀ k, ph = .calling () k → ∃ call, votes[k]? = some call ∧ call.src = s ∧
      call.dst = p ∧ call.args = ⟨el.term, s, el.lastLogTerm, el.lastLogIndex⟩) :
    ({ el with poll := poll } : Election n).Ok votes s term := by
  refine ⟨h.term_le, ?_, fun q k hq => ?_⟩
  · have hne : s ≠ p := fun hs => hp (hs ▸ h.self)
    simp only [hpoll, Function.update_of_ne hne, h.self]
  · simp only [hpoll] at hq
    by_cases hqp : q = p
    · subst hqp
      rw [Function.update_self] at hq
      exact hph k hq
    · rw [Function.update_of_ne hqp] at hq
      exact h.call q k hq

/-- A goroutine of `appendEntries` moves on. -/
lemma Broadcast.Ok.move {b : Broadcast n} {poll : Poll n (Option ℕ)} {ph : Phase (Option ℕ)}
    (h : b.Ok appends s term) (hp : b.poll.phase p ≠ .absent)
    (hpoll : poll.phase = Function.update b.poll.phase p ph)
    (hph : ∀ l k, ph = .calling l k → ∃ start call, l = some start ∧
      appends[k]? = some call ∧ BuiltFor b s p term start call) :
    ({ b with poll := poll } : Broadcast n).Ok appends s term := by
  refine ⟨h.term_le, ?_, fun q l k hq => ?_⟩
  · have hne : s ≠ p := fun hs => hp (hs ▸ h.self)
    simp only [hpoll, Function.update_of_ne hne, h.self]
  · simp only [hpoll] at hq
    have hcall : ∃ start call, l = some start ∧ appends[k]? = some call ∧
        BuiltFor b s q term start call := by
      by_cases hqp : q = p
      · subst hqp
        rw [Function.update_self] at hq
        exact hph l k hq
      · rw [Function.update_of_ne hqp] at hq
        exact h.call q l k hq
    obtain ⟨start, call, hl, hk, hb⟩ := hcall
    exact ⟨start, call, hl, hk, ⟨hb.src, hb.dst, hb.args, hb.guard, hb.term_le⟩⟩

lemma Election.Ok.decided {el : Election n} (h : el.Ok votes s term) :
    ({ el with poll := el.poll.decided } : Election n).Ok votes s term :=
  ⟨h.term_le, h.self, h.call⟩

lemma Broadcast.Ok.decided {b : Broadcast n} (h : b.Ok appends s term) :
    ({ b with poll := b.poll.decided } : Broadcast n).Ok appends s term := by
  refine ⟨h.term_le, h.self, fun p l k hph => ?_⟩
  obtain ⟨start, call, hl, hk, hb⟩ := h.call p l k hph
  exact ⟨start, call, hl, hk, ⟨hb.src, hb.dst, hb.args, hb.guard, hb.term_le⟩⟩

lemma forall_mem_set {α : Type*} {Q : α → Prop} {l : List α} (h : ∀ y ∈ l, Q y) {x : α}
    (hx : Q x) (e : ℕ) : ∀ y ∈ l.set e x, Q y := by
  intro y hy
  rcases List.mem_or_eq_of_mem_set hy with hy | rfl
  · exact h y hy
  · exact hx

lemma forall_mem_concat {α : Type*} {Q : α → Prop} {l : List α} (h : ∀ y ∈ l, Q y) {x : α}
    (hx : Q x) : ∀ y ∈ l ++ [x], Q y := by
  intro y hy
  rcases List.mem_append.mp hy with hy | hy
  · exact h y hy
  · exact List.mem_singleton.mp hy ▸ hx

lemma Server.Ok.acts {cfg : Config} {srv : Server n Cmd} {a : LocalAction Cmd}
    {eff : Effect n Cmd} (h : srv.Ok votes appends s) (hme : srv.rf.me = s)
    (hacts : srv.Acts cfg votes appends a eff) :
    eff.server.Ok (votes ++ eff.voteCall.toList) (appends ++ eff.appendCall.toList) s := by
  have ht := hacts.rf_step.currentTerm_le
  -- what was there before is still in order, so only the goroutine that moved is left
  have hel := fun el hel => (h.elections el hel).mono (grows_append votes eff.voteCall.toList) ht
  have hhb := fun hb hhb => (h.heartbeats hb hhb).trans ht
  have hbc := fun b hb =>
    (h.broadcasts b hb).mono (grows_append appends eff.appendCall.toList) ht
  cases hacts with
  | quiet srv' hrf he hh hb _ =>
    exact ⟨he ▸ hel, hh ▸ hhb, hb ▸ hbc⟩
  | electionStart m =>
    refine ⟨forall_mem_concat hel ⟨?_, ?_, ?_⟩, hhb, hbc⟩
    · simp [Raft.becomeCandidate]
    · simp [Poll.launch, hme]
    · intro p k hph
      exact absurd (Poll.launch_phase hph (by simp)).1 (by simp)
  | @voteCall e p el poll he hph hpoll =>
    refine ⟨forall_mem_set hel ?_ e, hhb, hbc⟩
    refine (hel el (List.mem_of_getElem? he)).move (by simp [hph]) hpoll fun k hk => ?_
    cases hk
    exact ⟨_, List.getElem?_concat_length, hme, rfl, by simp [hme]⟩
  | @voteRetry e p k el poll he hph hpoll =>
    refine ⟨forall_mem_set hel ?_ e, hhb, hbc⟩
    exact (hel el (List.mem_of_getElem? he)).move (by simp [hph]) hpoll (by simp)
  | @voteReturn e p k el poll call reply he hph _ _ hpoll =>
    refine ⟨forall_mem_set hel ?_ e, hhb, hbc⟩
    exact (hel el (List.mem_of_getElem? he)).move (by simp [hph]) hpoll (by simp)
  | @voteRecv e p b el poll he hph hpoll =>
    refine ⟨forall_mem_set hel ?_ e, hhb, hbc⟩
    exact (hel el (List.mem_of_getElem? he)).move (by simp [hph]) hpoll (by simp)
  | @voteLose e el he _ _ =>
    exact ⟨forall_mem_set hel (hel el (List.mem_of_getElem? he)).decided e, hhb, hbc⟩
  | @voteWin e x y el he _ _ _ =>
    exact ⟨forall_mem_set hel (hel el (List.mem_of_getElem? he)).decided e, hhb, hbc⟩
  | heartbeatStart m => exact ⟨hel, forall_mem_concat hhb le_rfl, hbc⟩
  | @heartbeatStop i p hb hi _ _ =>
    exact ⟨hel, forall_mem_set hhb (by exact hhb hb (List.mem_of_getElem? hi)) i, hbc⟩
  | @heartbeatCall i p hb args hi _ _ _ =>
    exact ⟨hel, forall_mem_set hhb (by exact hhb hb (List.mem_of_getElem? hi)) i, hbc⟩
  | @heartbeatRetry i p k hb hi _ =>
    exact ⟨hel, forall_mem_set hhb (by exact hhb hb (List.mem_of_getElem? hi)) i, hbc⟩
  | @heartbeatReturn i p k hb call reply hi _ _ _ =>
    exact ⟨hel, forall_mem_set hhb (by exact hhb hb (List.mem_of_getElem? hi)) i, hbc⟩
  | broadcastStart m =>
    refine ⟨hel, hhb, forall_mem_concat hbc ⟨le_rfl, ?_, ?_⟩⟩
    · simp [Poll.launch, hme]
    · intro p l k hph
      exact absurd (Poll.launch_phase hph (by simp)).1 (by simp)
  | @peerNext b p start bc poll hb hph _ hpoll =>
    refine ⟨hel, hhb, forall_mem_set hbc ?_ b⟩
    exact (hbc bc (List.mem_of_getElem? hb)).move (by simp [hph]) hpoll (by simp)
  | @peerGiveUp b p start next bc poll hb hph _ _ hpoll =>
    refine ⟨hel, hhb, forall_mem_set hbc ?_ b⟩
    exact (hbc bc (List.mem_of_getElem? hb)).move (by simp [hph]) hpoll (by simp)
  | @peerCall b p start next bc poll args hb hph hnext hguard hargs hpoll =>
    refine ⟨hel, hhb, forall_mem_set hbc ?_ b⟩
    have hok := hbc bc (List.mem_of_getElem? hb)
    refine hok.move (by simp [hph]) hpoll fun l k hk => ?_
    cases hk
    exact ⟨start, _, rfl, List.getElem?_concat_length, hme, rfl, hargs, ⟨next, hnext, hguard⟩,
      hok.term_le, le_rfl⟩
  | @peerRetry b p k l bc poll hb hph hpoll =>
    refine ⟨hel, hhb, forall_mem_set hbc ?_ b⟩
    exact (hbc bc (List.mem_of_getElem? hb)).move (by simp [hph]) hpoll (by simp)
  | @peerReturn b p k l bc poll call reply rf v hb hph _ _ _ hpoll =>
    refine ⟨hel, hhb, forall_mem_set hbc ?_ b⟩
    refine (hbc bc (List.mem_of_getElem? hb)).move (by simp [hph]) hpoll fun l k hk => ?_
    cases v <;> cases hk
  | @peerRecv b p v bc poll hb hph hpoll =>
    refine ⟨hel, hhb, forall_mem_set hbc ?_ b⟩
    exact (hbc bc (List.mem_of_getElem? hb)).move (by simp [hph]) hpoll (by simp)
  | @peerDecide b bc hb _ =>
    exact ⟨hel, hhb, forall_mem_set hbc (hbc bc (List.mem_of_getElem? hb)).decided b⟩
  | _ => exact ⟨hel, hhb, hbc⟩

end Ok

namespace Cluster

variable [Zero Cmd] {cfg : Config} {C C' : Cluster cfg.peers Cmd} {a : Action Cmd}

/-- The calls only grow. -/
lemma Moves.grows (h : C.Moves cfg a C') :
    Grows C.voteCalls C'.voteCalls ∧ Grows C.appendCalls C'.appendCalls := by
  cases h with
  | act => exact ⟨grows_append _ _, grows_append _ _⟩
  | handleVote hk _ hnew => exact ⟨grows_set hk hnew _, .refl _⟩
  | handleAppend hk _ hnew => exact ⟨.refl _, grows_set hk hnew _⟩
  | crash | restart => exact ⟨.refl _, .refl _⟩

end Cluster

section Calls

variable {cfg : Config} {votes : List (VoteCall Cmd)} {appends : List (AppendCall Cmd)} {s : ℕ}
  {srv : Server n Cmd} {a : LocalAction Cmd} {eff : Effect n Cmd}

lemma Server.Ok.boot (rf : Raft Cmd) : (Server.boot rf : Server n Cmd).Ok votes appends s :=
  ⟨by simp [Server.boot], by simp [Server.boot], by simp [Server.boot]⟩

lemma Server.Ok.voteCall (h : srv.Ok votes appends s)
    (hacts : srv.Acts cfg votes appends a eff) :
    ∀ c ∈ eff.voteCall, c.src = srv.rf.me ∧ c.args.candidateId = srv.rf.me ∧
      c.args.term ≤ srv.rf.currentTerm ∧ c.reply = none := by
  intro c hc
  cases hacts with
  | voteCall he _ _ =>
    cases hc
    exact ⟨rfl, rfl, (h.elections _ (List.mem_of_getElem? he)).term_le, rfl⟩
  | _ => cases hc

lemma Server.Ok.appendCall (h : srv.Ok votes appends s)
    (hacts : srv.Acts cfg votes appends a eff) :
    ∀ c ∈ eff.appendCall, Genuine c ∧ c.src = srv.rf.me ∧ c.sender = srv.rf ∧ c.reply = none := by
  intro c hc
  cases hacts with
  | heartbeatCall hhb hph hstate hargs =>
    cases hc
    obtain ⟨hterm, hme, -⟩ := heartbeatRequest_eq_some hargs
    exact ⟨⟨rfl, hme, hstate, hterm ▸ h.heartbeats _ (List.mem_of_getElem? hhb),
      .inl ⟨_, hterm ▸ hargs⟩⟩, rfl, rfl, rfl⟩
  | peerCall hbc hph hnext hguard hargs hpoll =>
    cases hc
    obtain ⟨prev, entries, -, -, rfl⟩ := appendRequest_eq_some hargs
    exact ⟨⟨rfl, rfl, not_not.mp fun hs => hguard (.inl hs),
      (h.broadcasts _ (List.mem_of_getElem? hbc)).term_le,
      .inr ⟨_, _, _, _, hnext, hguard, hargs⟩⟩, rfl, rfl, rfl⟩
  | _ => cases hc

end Calls

namespace Cluster

variable [Zero Cmd] {cfg : Config} {C C' : Cluster cfg.peers Cmd} {a : Action Cmd}

/-- A call in the network was there before, perhaps without its reply, or is being made. -/
lemma Moves.mem_appendCalls (h : C.Moves cfg a C') {c : AppendCall Cmd} (hc : c ∈ C'.appendCalls) :
    (∃ c₀ ∈ C.appendCalls, ∃ r, c = { c₀ with reply := r }) ∨
      ∃ s b eff, a = .act s b ∧ C.Up s ∧
        (C.servers s).Acts cfg C.voteCalls C.appendCalls b eff ∧ c ∈ eff.appendCall := by
  have hold : c ∈ C.appendCalls → ∃ c₀ ∈ C.appendCalls, ∃ r, c = { c₀ with reply := r } :=
    fun hc => ⟨c, hc, c.reply, rfl⟩
  cases h with
  | @act s b eff hup hacts =>
    rcases List.mem_append.mp hc with hc | hc
    · exact .inl (hold hc)
    · exact .inr ⟨s, b, eff, rfl, hup, hacts, Option.mem_toList.mp hc⟩
  | handleAppend hk hup hnew =>
    rcases List.mem_or_eq_of_mem_set hc with hc | rfl
    · exact .inl (hold hc)
    · exact .inl ⟨_, List.mem_of_getElem? hk, _, rfl⟩
  | _ => exact .inl (hold hc)

/-- A goroutine of `appendEntries` was there before or belongs to the peer that moves. -/
lemma Moves.mem_broadcasts (h : C.Moves cfg a C') {s : ℕ} {b : Broadcast cfg.peers}
    (hb : b ∈ (C'.servers s).broadcasts) :
    b ∈ (C.servers s).broadcasts ∨
      ∃ c eff, a = .act s c ∧ C.Up s ∧
        (C.servers s).Acts cfg C.voteCalls C.appendCalls c eff ∧ C' = C.perform s eff ∧
        b ∈ eff.server.broadcasts := by
  cases h with
  | @act r c eff hup hacts =>
    rcases eq_or_ne s r with rfl | hne
    · refine .inr ⟨c, eff, rfl, hup, hacts, rfl, ?_⟩
      simpa only [perform, Function.update_self] using hb
    · simp only [perform, Function.update_of_ne hne] at hb
      exact .inl hb
  | @handleVote k call hk hup hnew =>
    rcases eq_or_ne s call.dst with rfl | hne
    · simp only [setRf, Function.update_self] at hb
      exact .inl hb
    · simp only [setRf, Function.update_of_ne hne] at hb
      exact .inl hb
  | @handleAppend k call hk hup hnew =>
    rcases eq_or_ne s call.dst with rfl | hne
    · simp only [setRf, Function.update_self] at hb
      exact .inl hb
    · simp only [setRf, Function.update_of_ne hne] at hb
      exact .inl hb
  | @crash r hup | @restart r hs hdead =>
    rcases eq_or_ne s r with rfl | hne
    · simp [Server.boot] at hb
    · simp only [Function.update_of_ne hne] at hb
      exact .inl hb

lemma Wired.servers_moves (hw : C.Wired) (hme : ∀ s, (C.servers s).rf.me = s)
    (ht : ∀ s, (C.servers s).rf.currentTerm ≤ (C'.servers s).rf.currentTerm)
    (h : C.Moves cfg a C') (s : ℕ) : (C'.servers s).Ok C'.voteCalls C'.appendCalls s := by
  obtain ⟨hv, ha⟩ := h.grows
  have hother : C'.servers s = C.servers s → (C'.servers s).Ok C'.voteCalls C'.appendCalls s := by
    intro hs
    rw [hs]
    exact (hw.servers s).mono hv ha le_rfl rfl rfl rfl
  cases h with
  | @act r b eff hup hacts =>
    by_cases hs : s = r
    · subst hs
      simp only [perform, Function.update_self]
      exact (hw.servers s).acts (hme s) hacts
    · exact hother (by simp [perform, hs])
  | @handleVote k call hk hup hnew =>
    by_cases hs : s = call.dst
    · have hterm := ht s
      subst hs
      simp only [setRf, Function.update_self] at hterm ⊢
      exact (hw.servers _).mono hv ha hterm rfl rfl rfl
    · exact hother (by simp [setRf, hs])
  | @handleAppend k call hk hup hnew =>
    by_cases hs : s = call.dst
    · have hterm := ht s
      subst hs
      simp only [setRf, Function.update_self] at hterm ⊢
      exact (hw.servers _).mono hv ha hterm rfl rfl rfl
    · exact hother (by simp [setRf, hs])
  | @crash r hup =>
    by_cases hs : s = r
    · subst hs
      simp only [Function.update_self]
      exact .boot _
    · exact hother (by simp [hs])
  | @restart r hr hdead =>
    by_cases hs : s = r
    · subst hs
      simp only [Function.update_self]
      exact .boot _
    · exact hother (by simp [hs])

lemma Wired.moves (hw : C.Wired) (hme : ∀ s, (C.servers s).rf.me = s)
    (ht : ∀ s, (C.servers s).rf.currentTerm ≤ (C'.servers s).rf.currentTerm)
    (h : C.Moves cfg a C') : C'.Wired := by
  refine ⟨hw.servers_moves hme ht h, ?_, ?_⟩
  · have hold := fun c hc => (hw.votes c hc).imp_right fun hterm => hterm.trans (ht c.src)
    cases h with
    | @act r b eff hup hacts =>
      intro c hc
      rcases List.mem_append.mp hc with hc | hc
      · exact hold c hc
      · obtain ⟨hsrc, hcand, hterm, -⟩ :=
          (hw.servers r).voteCall hacts c (Option.mem_toList.mp hc)
        rw [hme r] at hsrc hcand
        rw [hcand, hsrc]
        exact ⟨rfl, hterm.trans (ht r)⟩
    | @handleVote k call hk hup hnew =>
      have hcall := hold call (List.mem_of_getElem? hk)
      exact forall_mem_set hold (by exact hcall) k
    | _ => exact hold
  · have hold := fun c hc => (hw.appends c hc).imp_right fun hterm => hterm.trans (ht c.src)
    cases h with
    | @act r b eff hup hacts =>
      intro c hc
      rcases List.mem_append.mp hc with hc | hc
      · exact hold c hc
      · obtain ⟨hgen, hsrc, hsender, -⟩ :=
          (hw.servers r).appendCall hacts c (Option.mem_toList.mp hc)
        rw [hme r] at hsrc
        refine ⟨hgen, ?_⟩
        rw [hsender, hsrc]
        exact ht r
    | handleAppend hk hup hnew =>
      obtain ⟨hgen, hterm⟩ := hold _ (List.mem_of_getElem? hk)
      exact forall_mem_set hold
        (by exact ⟨⟨hgen.me, hgen.leaderId, hgen.state, hgen.term_le, hgen.request⟩, hterm⟩) _
    | _ => exact hold

/-- An answer that was not there before is being given. -/
lemma Wired.answered (hw : C.Wired) (hm : C.Moves cfg a C') {k : ℕ}
    {call : AppendCall Cmd} {r : AppendEntriesReply} (hk : C'.appendCalls[k]? = some call)
    (hr : call.reply = some r) :
    C.appendCalls[k]? = some call ∨
      ∃ call₀, C.appendCalls[k]? = some call₀ ∧ call₀.reply = none ∧
        (C.servers call₀.dst).rf.dead = false ∧ call = { call₀ with reply := some r } ∧
        (C.servers call₀.dst).rf.AppendEntries cfg call₀.args =
          ((C'.servers call₀.dst).rf, r) := by
  cases hm with
  | @act s c eff hup hacts =>
    simp only [Cluster.perform, List.getElem?_append] at hk
    split_ifs at hk
    · exact .inl hk
    · have hnone := ((hw.servers s).appendCall hacts call
        (Option.mem_toList.mp (List.mem_of_getElem? hk))).2.2.2
      simp [hr] at hnone
  | @handleAppend j call₀ hj hup hnew =>
    rcases eq_or_ne j k with rfl | hne
    · rw [List.getElem?_set_self (List.getElem?_eq_some_iff.mp hj).1] at hk
      cases hk
      cases hr
      exact .inr ⟨call₀, hj, hnew, hup.2, rfl, by simp [Cluster.setRf]⟩
    · rw [List.getElem?_set_ne hne] at hk
      exact .inl hk
  | _ => exact .inl hk

end Cluster

lemma raft_wired [Zero Cmd] {cfg : Config} {P : Cluster cfg.peers Cmd → Action Cmd → Prop}
    {l : List (Cluster cfg.peers Cmd)} (h : (raft cfg).Run P l) : ∀ C ∈ l, C.Wired := by
  refine h.invariant ?_ ?_
  · rintro C rfl
    exact ⟨fun s => .boot _, by simp [Cluster.initial], by simp [Cluster.initial]⟩
  · intro C past a C' hr _ hw hnext
    exact hw.moves (raft_me hr) (raft_currentTerm_le hr hnext) (Cluster.moves_of_step hnext)

end DistLabs
