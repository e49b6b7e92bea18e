import DistLabs.Consensus.Ballot
import DistLabs.Raft.Goroutines

/-!
# Elections

The elections of the cluster refine the protocol of `DistLabs.Consensus.Ballot`. A peer is running
while it is a candidate. `AppendEntries` overwrites the vote of its receiver by the sender, and the
sender was leader when it built the request, so it is past the term of the request.
-/

namespace DistLabs

variable {Cmd : Type*} {cfg : Config}

/-- The peers' terms, votes and candidacies are those of the ballot. -/
structure Polls (rf : ℕ → Raft Cmd) (t : Ballot.State ℕ) : Prop where
  term : ∀ v, t.term v = (rf v).currentTerm
  vote : ∀ v, t.vote v = (rf v).votedFor
  running : ∀ v, t.running v ↔ (rf v).state = .candidate

/-- Two states of a peer with the same term, vote and role. -/
structure SameBallot (rf rf' : Raft Cmd) : Prop where
  currentTerm : rf'.currentTerm = rf.currentTerm
  votedFor : rf'.votedFor = rf.votedFor
  state : rf'.state = rf.state

section Polls

variable {rf : ℕ → Raft Cmd} {t : Ballot.State ℕ} {s : ℕ} {rf' : Raft Cmd}

lemma Polls.same (h : Polls rf t) (hs : SameBallot (rf s) rf') :
    Polls (Function.update rf s rf') t := by
  have hv : ∀ v, SameBallot (rf v) (Function.update rf s rf' v) := by
    intro v
    rcases eq_or_ne v s with rfl | hne
    · rwa [Function.update_self]
    · rw [Function.update_of_ne hne]
      exact ⟨rfl, rfl, rfl⟩
  refine ⟨fun v => ?_, fun v => ?_, fun v => ?_⟩
  · rw [(hv v).currentTerm, h.term]
  · rw [(hv v).votedFor, h.vote]
  · rw [(hv v).state, h.running]

/-- Updating the ballot and the peer at `s` alike. -/
lemma Polls.update {t' : Ballot.State ℕ} (h : Polls rf t)
    (hterm : t'.term = Function.update t.term s rf'.currentTerm)
    (hvote : t'.vote = Function.update t.vote s rf'.votedFor)
    (hrun : t'.running = Function.update t.running s (rf'.state = .candidate)) :
    Polls (Function.update rf s rf') t' := by
  refine ⟨fun v => ?_, fun v => ?_, fun v => ?_⟩ <;> rcases eq_or_ne v s with rfl | hne
  · simp [hterm]
  · simp [hterm, hne, h.term]
  · simp [hvote]
  · simp [hvote, hne, h.vote]
  · simp [hrun]
  · simp [hrun, hne, h.running]

/-- A server that is not running and has reached term `T` is past it. -/
lemma Polls.past (h : Polls rf t) {T : ℕ} (hT : T ≤ (rf s).currentTerm)
    (hs : (rf s).state ≠ .candidate) : t.Past s T := by
  rcases Nat.lt_or_eq_of_le hT with hlt | heq
  · exact .inl (by rwa [h.term])
  · exact .inr ⟨by rw [h.term, heq], by rwa [h.running]⟩

end Polls

/-- The states of the peers. -/
def Cluster.rf {n : ℕ} (C : Cluster n Cmd) (v : ℕ) : Raft Cmd := (C.servers v).rf

lemma Cluster.rf_update {n : ℕ} (f : ℕ → Server n Cmd) (s : ℕ) (srv : Server n Cmd) :
    (fun v => (Function.update f s srv v).rf) = Function.update (fun v => (f v).rf) s srv.rf := by
  funext v
  rcases eq_or_ne v s with rfl | hne
  · simp
  · simp [hne]

/-- The votes that the goroutines of an election of peer `s` report are among the votes granted (by
whom, in which term, to whom). -/
def Election.Counted {n : ℕ} (s : ℕ) (grants : Set (ℕ × ℕ × ℕ)) (el : Election n) : Prop :=
  ∀ p, el.poll.phase p = .sending true ∨ el.poll.phase p = .finished true →
    (p, el.term, s) ∈ grants

/-- The replies that grant a vote, and the votes that were counted, are recorded. -/
structure Recorded {n : ℕ} (C : Cluster n Cmd) (grants : Set (ℕ × ℕ × ℕ)) : Prop where
  replies : ∀ c ∈ C.voteCalls, ∀ r, c.reply = some r → r.voteGranted = true →
    (c.dst, c.args.term, c.src) ∈ grants
  counted : ∀ s, ∀ el ∈ (C.servers s).elections, el.Counted s grants

lemma Recorded.mono {n : ℕ} {C : Cluster n Cmd} {grants grants' : Set (ℕ × ℕ × ℕ)}
    (h : Recorded C grants) (he : grants ⊆ grants') : Recorded C grants' :=
  ⟨fun c hc r hr hg => he (h.replies c hc r hr hg),
    fun s el hel p hp => he (h.counted s el hel p hp)⟩

section Act

variable {n : ℕ} {C : Cluster n Cmd} {grants : Set (ℕ × ℕ × ℕ)} {s : ℕ} {a : LocalAction Cmd}
  {eff : Effect n Cmd}

/-- A goroutine of an election moves on. -/
lemma Election.Counted.move {el : Election n} {poll : Poll n Unit} {p : ℕ} {ph : Phase Unit}
    (h : el.Counted s grants) (hpoll : poll.phase = Function.update el.poll.phase p ph)
    (hph : ph = .sending true ∨ ph = .finished true → (p, el.term, s) ∈ grants) :
    ({ el with poll := poll } : Election n).Counted s grants := by
  intro q hq
  simp only [hpoll] at hq
  rcases eq_or_ne q p with rfl | hne
  · rw [Function.update_self] at hq
    exact hph hq
  · rw [Function.update_of_ne hne] at hq
    exact h q hq

lemma Raft.handleVoteReply_true {rf : Raft Cmd} {term : ℕ} {reply : RequestVoteReply}
    (h : (rf.handleVoteReply term reply).2 = true) : reply.voteGranted = true := by
  unfold handleVoteReply at h
  split_ifs at h
  exact h

lemma Recorded.counted_acts (h : Recorded C grants) (hw : C.Wired)
    (hacts : (C.servers s).Acts cfg C.voteCalls C.appendCalls a eff) :
    ∀ el ∈ eff.server.elections, el.Counted s grants := by
  have hold := h.counted s
  cases hacts with
  | quiet srv' _ he _ _ _ => exact he ▸ hold
  | electionStart m =>
    refine forall_mem_concat hold fun p hp => ?_
    rcases hp with hp | hp <;> exact absurd (Poll.launch_phase hp (by simp)).1 (by simp)
  | @voteCall e p el poll hel hph hpoll =>
    refine forall_mem_set hold ?_ e
    exact (hold el (List.mem_of_getElem? hel)).move hpoll (by simp)
  | @voteRetry e p k el poll hel hph hpoll =>
    refine forall_mem_set hold ?_ e
    exact (hold el (List.mem_of_getElem? hel)).move hpoll (by simp)
  | @voteReturn e p k el poll call reply hel hph hcall hreply hpoll =>
    refine forall_mem_set hold ?_ e
    refine (hold el (List.mem_of_getElem? hel)).move hpoll fun hp => ?_
    obtain ⟨call', hk, hsrc, hdst, hargs⟩ :=
      ((hw.servers s).elections el (List.mem_of_getElem? hel)).call p k hph
    obtain rfl : call = call' := Option.some.inj (hcall.symm.trans hk)
    have hg := h.replies call (List.mem_of_getElem? hcall) reply hreply
      (Raft.handleVoteReply_true (by simpa using hp))
    rwa [hsrc, hdst, hargs] at hg
  | @voteRecv e p b el poll hel hph hpoll =>
    refine forall_mem_set hold ?_ e
    refine (hold el (List.mem_of_getElem? hel)).move hpoll fun hp => ?_
    exact hold el (List.mem_of_getElem? hel) p (.inl (by simpa [hph] using hp))
  | @voteLose e el hel _ _ =>
    refine forall_mem_set hold ?_ e
    exact hold el (List.mem_of_getElem? hel)
  | @voteWin e x y el hel _ _ _ =>
    refine forall_mem_set hold ?_ e
    exact hold el (List.mem_of_getElem? hel)
  | _ => exact hold

lemma Recorded.act (h : Recorded C grants) (hw : C.Wired)
    (hacts : (C.servers s).Acts cfg C.voteCalls C.appendCalls a eff) :
    Recorded (C.perform s eff) grants := by
  refine ⟨?_, fun v => ?_⟩
  · intro c hc r hr hg
    rcases List.mem_append.mp hc with hc | hc
    · exact h.replies c hc r hr hg
    · have hnone := ((hw.servers s).voteCall hacts c (Option.mem_toList.mp hc)).2.2.2
      simp [hnone] at hr
  · rcases eq_or_ne v s with rfl | hne
    · simp only [Cluster.perform, Function.update_self]
      exact h.counted_acts hw hacts
    · simp only [Cluster.perform, Function.update_of_ne hne]
      exact h.counted v

/-- A step of one peer that does not win an election leaves its term, vote and role alone, makes
it a candidate, or makes it a follower in a later term. -/
lemma Server.Acts.ballot {votes : List (VoteCall Cmd)} {appends : List (AppendCall Cmd)}
    {srv : Server n Cmd} (hacts : srv.Acts cfg votes appends a eff) (hnl : eff.leader = none) :
    SameBallot srv.rf eff.server.rf ∨
      eff.server.rf = srv.rf.becomeCandidate (srv.rf.currentTerm + 1) ∨
      ∃ T, srv.rf.currentTerm < T ∧ eff.server.rf = srv.rf.becomeFollower T none := by
  cases hacts.change with
  | idle _ hrf => exact .inl (hrf ▸ ⟨rfl, rfl, rfl⟩)
  | campaign _ hrf => exact .inr (.inl hrf)
  | win _ _ hleader _ => cases hnl.symm.trans hleader
  | stepDown _ hterm hrf => exact .inr (.inr ⟨_, hterm, hrf⟩)
  | @advance b p _ _ _ hrf =>
    obtain ⟨next, matched, h⟩ := srv.rf.advanceNext_eq p b.end_
    exact .inl (hrf ▸ h ▸ ⟨rfl, rfl, rfl⟩)
  | @commit _ b _ _ hrf =>
    obtain ⟨c, h⟩ := srv.rf.commit_eq b.term b.end_
    exact .inl (hrf ▸ h ▸ ⟨rfl, rfl, rfl⟩)
  | start _ hstate hrf =>
    exact .inl (by constructor <;> simp [hrf, Raft.start_of_leader hstate])
  | applyLog happly =>
    obtain ⟨-, hrf, -⟩ := Raft.applyLog_eq_some happly
    exact .inl (hrf ▸ ⟨rfl, rfl, rfl⟩)
  | read _ _ _ heff | publish _ _ _ heff => exact .inl (heff ▸ ⟨rfl, rfl, rfl⟩)
  | trim _ _ _ hrf heff =>
    obtain ⟨rest, -, rfl⟩ := Raft.snapshotTrim_eq_some hrf
    exact .inl (heff ▸ ⟨rfl, rfl, rfl⟩)

end Act

/-! ### Answering the steps of the cluster -/

section Answer

variable {rf : ℕ → Raft Cmd} {t : Ballot.State ℕ} {s n : ℕ}

lemma Polls.stand (h : Polls rf t) (hme : (rf s).me = s) :
    ∃ t', (Ballot.machine (majority n)).Steps t t' ∧
      Polls (Function.update rf s ((rf s).becomeCandidate ((rf s).currentTerm + 1))) t' := by
  refine ⟨_, .single () (.stand s), h.update ?_ ?_ ?_⟩
  · simp [Raft.becomeCandidate, h.term]
  · simp [Raft.becomeCandidate, hme]
  · simp [Raft.becomeCandidate]

lemma Polls.bump (h : Polls rf t) {T : ℕ} (hT : (rf s).currentTerm < T) :
    ∃ t', (Ballot.machine (majority n)).Steps t t' ∧
      Polls (Function.update rf s ((rf s).becomeFollower T none)) t' := by
  refine ⟨_, .single () (.bump s (T := T) (by rwa [h.term])), h.update ?_ ?_ ?_⟩
  · simp [Raft.becomeFollower]
  · simp [Raft.becomeFollower]
  · simp [Raft.becomeFollower]

/-- Granting a vote in the current term. -/
lemma Polls.grant (h : Polls rf t) {c : ℕ}
    (hv : (rf s).votedFor = none ∨ (rf s).votedFor = some c) :
    ∃ t', (Ballot.machine (majority n)).Steps t t' ∧
      Polls (Function.update rf s ({ rf s with votedFor := some c }.persistUnlessKilled)) t' ∧
      (s, (rf s).currentTerm, c) ∈ t'.grants := by
  refine ⟨_, .single () (.grant s c (by rwa [h.vote])), h.update ?_ ?_ ?_, ?_⟩
  · simp [← h.term]
  · simp
  · simp [← h.running]
  · rw [← h.term]
    exact Set.mem_insert _ _

lemma Polls.requestVote (h : Polls rf t) (args : RequestVoteArgs) :
    ∃ t', (Ballot.machine (majority n)).Steps t t' ∧
      Polls (Function.update rf s ((rf s).RequestVote args).1) t' ∧
      (((rf s).RequestVote args).2.voteGranted = true →
        (s, args.term, args.candidateId) ∈ t'.grants) := by
  generalize hr : (rf s).RequestVote args = r
  have hout := hr ▸ (rf s).voteOutcome args
  cases hout with
  | refuse => exact ⟨t, .refl t, by simpa using h, by simp⟩
  | bump hterm =>
    obtain ⟨t', ht', hp⟩ := h.bump hterm
    exact ⟨t', ht', hp, by simp⟩
  | grant hterm hvote hlog =>
    obtain ⟨t', ht', hp, hg⟩ := h.grant hvote
    exact ⟨t', ht', hp, fun _ => hterm ▸ hg⟩
  | bumpGrant hterm hlog =>
    obtain ⟨t₁, ht₁, hp₁⟩ := h.bump (n := n) hterm
    obtain ⟨t', ht', hp, hg⟩ := hp₁.grant (n := n) (s := s) (c := args.candidateId)
      (.inl (by simp [Raft.becomeFollower]))
    rw [Function.update_self, Function.update_idem] at hp
    rw [Function.update_self] at hg
    refine ⟨t', ht₁.trans ht', hp, fun _ => ?_⟩
    simpa [Raft.becomeFollower] using hg

lemma Polls.appendEntries (cfg : Config) (h : Polls rf t) {args : AppendEntriesArgs Cmd}
    (hpast : t.Past args.leaderId args.term) :
    ∃ t', (Ballot.machine (majority n)).Steps t t' ∧
      Polls (Function.update rf s ((rf s).AppendEntries cfg args).1) t' := by
  rcases (Raft.appendOutcome cfg (rf s) args).followed with ⟨_, hr⟩ | ⟨hterm, hf⟩
  · exact ⟨t, .refl t, by simpa [hr] using h⟩
  · refine ⟨_, .single () (.follow s args.leaderId (T := args.term) (by rwa [h.term]) hpast),
      h.update ?_ ?_ ?_⟩
    · simp [hf.currentTerm]
    · simp [hf.votedFor]
    · simp [hf.state]

lemma Polls.win (cfg : Config) (h : Polls rf t) {A : Finset ℕ} (hA : IsMajority n A)
    (hstate : (rf s).state = .candidate)
    (hg : ∀ v ∈ A, v = s ∨ (v, (rf s).currentTerm, s) ∈ t.grants) :
    ∃ t', (Ballot.machine (majority n)).Steps t t' ∧
      Polls (Function.update rf s ((rf s).becomeLeader cfg)) t' ∧
      ((rf s).currentTerm, s) ∈ t'.winners := by
  have hrun : t.running s := (h.running s).mpr hstate
  refine ⟨_, .single () (.win s hA hrun (by rwa [h.term])), h.update ?_ ?_ ?_, ?_⟩
  · simp [Raft.becomeLeader, ← h.term]
  · simp [Raft.becomeLeader, ← h.vote]
  · simp [Raft.becomeLeader]
  · rw [← h.term]
    exact Set.mem_insert _ _

lemma Polls.restart (h : Polls rf t) {rf' : Raft Cmd}
    (hterm : rf'.currentTerm = (rf s).currentTerm) (hvote : rf'.votedFor = (rf s).votedFor)
    (hstate : rf'.state = .follower) :
    ∃ t', (Ballot.machine (majority n)).Steps t t' ∧ Polls (Function.update rf s rf') t' := by
  refine ⟨_, .single () (.retire s), h.update ?_ ?_ ?_⟩
  · simp [hterm, ← h.term]
  · simp [hvote, ← h.vote]
  · simp [hstate]

end Answer

/-- The simulation relation: the ballot is at the peers' terms, votes and candidacies, its records
cover what the goroutines have seen, every `AppendEntries` request comes from a peer past its term,
and the winners are the leaders, one for each term. -/
structure Elects {n : ℕ} (C : Cluster n Cmd) (t : Ballot.State ℕ) : Prop where
  polls : Polls C.rf t
  recorded : Recorded C t.grants
  appends : ∀ c ∈ C.appendCalls, t.Past c.src c.args.term
  leaders : ∀ x ∈ C.leaders, (x.2, x.1) ∈ t.winners
  nodup : (C.leaders.map Prod.snd).Nodup

section Moves

variable {C C' : Cluster cfg.peers Cmd} {t : Ballot.State ℕ} {s : ℕ}

lemma Cluster.rf_perform (eff : Effect cfg.peers Cmd) :
    (C.perform s eff).rf = Function.update C.rf s eff.server.rf :=
  Cluster.rf_update C.servers s eff.server

lemma Cluster.rf_setRf (rf : Raft Cmd) : (C.setRf s rf).rf = Function.update C.rf s rf :=
  Cluster.rf_update C.servers s { C.servers s with rf := rf }

lemma Cluster.rf_boot (rf : Raft Cmd) :
    ({ C with servers := Function.update C.servers s (.boot rf) } : Cluster cfg.peers Cmd).rf =
      Function.update C.rf s rf :=
  Cluster.rf_update C.servers s (.boot rf)

/-- A peer whose candidacy is decided has a quorum of votes. -/
lemma Recorded.quorum {grants : Set (ℕ × ℕ × ℕ)} (h : Recorded C grants) (hw : C.Wired)
    (hs : s < cfg.peers) {el : Election cfg.peers} (hel : el ∈ (C.servers s).elections)
    (hd : el.poll.deciding = true) :
    IsMajority cfg.peers (insert s el.poll.yes) ∧
      ∀ v ∈ insert s el.poll.yes, v = s ∨ (v, el.term, s) ∈ grants := by
  refine ⟨el.poll.isMajority_insert hs ((hw.servers s).elections el hel).self hd, fun v hv => ?_⟩
  rcases Finset.mem_insert.mp hv with rfl | hv
  · exact .inl rfl
  · exact .inr (h.counted s el hel v (.inr (Poll.mem_yes.mp hv).2))

/-- A peer that wins a term is the first to do so. -/
lemma Elects.term_new (h : Elects C t)
    (hreach : (Ballot.machine (majority cfg.peers)).Reachable t) {t' : Ballot.State ℕ}
    (hsteps : (Ballot.machine (majority cfg.peers)).Steps t t')
    (hstate : (C.servers s).rf.state = .candidate)
    (hwin : ((C.servers s).rf.currentTerm, s) ∈ t'.winners) :
    (C.servers s).rf.currentTerm ∉ C.leaders.map Prod.snd := by
  intro hT
  obtain ⟨⟨v, T⟩, hx, hTs⟩ := List.mem_map.mp hT
  obtain rfl : T = (C.servers s).rf.currentTerm := hTs
  -- an earlier winner of the term would be `s` itself, which is still running
  have hold := h.leaders _ hx
  obtain rfl : v = s := Ballot.winner_unique (hreach.steps hsteps)
    ((Ballot.extends_of_steps hsteps).winners hold) hwin
  refine Ballot.not_winner_of_running hreach ((h.polls.running v).mpr hstate) ?_
  rwa [h.polls.term]

/-- A request that is built comes from a leader, which is past the term of the request. -/
lemma Elects.past (h : Elects C t) (hw : C.Wired) (hme : (C.servers s).rf.me = s)
    {a : LocalAction Cmd} {eff : Effect cfg.peers Cmd}
    (hacts : (C.servers s).Acts cfg C.voteCalls C.appendCalls a eff) :
    ∀ c ∈ (C.perform s eff).appendCalls, t.Past c.src c.args.term := by
  intro c hc
  rcases List.mem_append.mp hc with hc | hc
  · exact h.appends c hc
  · obtain ⟨hgen, hsrc, hsender, -⟩ :=
      (hw.servers s).appendCall hacts c (Option.mem_toList.mp hc)
    have hterm := hgen.term_le
    have hstate := hgen.state
    rw [hsender] at hterm hstate
    rw [hsrc, hme]
    exact h.polls.past hterm (by simp [Cluster.rf, hstate])

lemma Elects.act (h : Elects C t) (hw : C.Wired) (hme : ∀ s, (C.servers s).rf.me = s)
    (hreach : (Ballot.machine (majority cfg.peers)).Reachable t) (hup : C.Up s)
    {a : LocalAction Cmd} {eff : Effect cfg.peers Cmd}
    (hacts : (C.servers s).Acts cfg C.voteCalls C.appendCalls a eff) :
    ∃ t', (Ballot.machine (majority cfg.peers)).Steps t t' ∧ Elects (C.perform s eff) t' := by
  have hrec := h.recorded.act hw hacts
  have hpast := h.past hw (hme s) hacts
  by_cases hnl : eff.leader = none
  · obtain ⟨t', ht', hp⟩ : ∃ t', (Ballot.machine (majority cfg.peers)).Steps t t' ∧
        Polls (C.perform s eff).rf t' := by
      rw [Cluster.rf_perform]
      rcases hacts.ballot hnl with hsame | hc | ⟨T, hT, hf⟩
      · exact ⟨t, .refl t, h.polls.same hsame⟩
      · rw [hc]
        exact h.polls.stand (hme s)
      · rw [hf]
        exact h.polls.bump hT
    have he := Ballot.extends_of_steps ht'
    refine ⟨t', ht', hp, hrec.mono he.grants, fun c hc => he.past _ _ (hpast c hc), ?_, ?_⟩
    · simpa [Cluster.perform, hnl] using fun v T hx => he.winners (h.leaders (v, T) hx)
    · simpa [Cluster.perform, hnl] using h.nodup
  · cases hacts with
    | @voteWin e x y el hel hd hstate hterm =>
      obtain ⟨hmaj, hvotes⟩ := h.recorded.quorum hw hup.1 (List.mem_of_getElem? hel) hd
      obtain ⟨t', ht', hp, hwin⟩ := h.polls.win cfg hmaj hstate (hterm ▸ hvotes)
      have he := Ballot.extends_of_steps ht'
      refine ⟨t', ht', by rwa [Cluster.rf_perform], hrec.mono he.grants,
        fun c hc => he.past _ _ (hpast c hc), ?_, ?_⟩
      · exact forall_mem_concat (fun x hx => he.winners (h.leaders x hx)) hwin
      · have hnew := h.term_new hreach ht' hstate hwin
        have := (List.nodup_concat _ _).mpr ⟨hnew, h.nodup⟩
        simpa [Cluster.perform] using this
    | _ => exact absurd rfl hnl

variable {grants : Set (ℕ × ℕ × ℕ)}

/-- A handler has run at peer `s`. -/
lemma Recorded.setRf (h : Recorded C grants) (s : ℕ) (rf : Raft Cmd) :
    Recorded (C.setRf s rf) grants := by
  refine ⟨h.replies, fun v => ?_⟩
  rcases eq_or_ne v s with rfl | hne
  · simpa [Cluster.setRf] using h.counted v
  · simpa [Cluster.setRf, hne] using h.counted v

/-- A vote request has been answered. -/
lemma Recorded.answer (h : Recorded C grants) {k : ℕ} {call : VoteCall Cmd} {rf : Raft Cmd}
    {reply : RequestVoteReply}
    (hg : reply.voteGranted = true → (call.dst, call.args.term, call.src) ∈ grants) :
    Recorded { C.setRf call.dst rf with
      voteCalls := C.voteCalls.set k { call with reply := some reply } } grants := by
  refine ⟨forall_mem_set h.replies ?_ k, (h.setRf call.dst rf).counted⟩
  rintro r hr hgr
  cases hr
  exact hg hgr

/-- A peer has been booted. -/
lemma Recorded.boot (h : Recorded C grants) (s : ℕ) (rf : Raft Cmd) :
    Recorded { C with servers := Function.update C.servers s (.boot rf) } grants := by
  refine ⟨h.replies, fun v => ?_⟩
  rcases eq_or_ne v s with rfl | hne
  · simp [Server.boot]
  · simpa [hne] using h.counted v

lemma Elects.moves [Zero Cmd] (h : Elects C t) (hw : C.Wired)
    (hme : ∀ s, (C.servers s).rf.me = s) (hd : ∀ s, (C.servers s).rf.Durable)
    (hreach : (Ballot.machine (majority cfg.peers)).Reachable t) {a : Action Cmd}
    (hm : C.Moves cfg a C') :
    ∃ t', (Ballot.machine (majority cfg.peers)).Steps t t' ∧ Elects C' t' := by
  cases hm with
  | act hup hacts => exact h.act hw hme hreach hup hacts
  | @handleVote k call hk hup hnew =>
    obtain ⟨t', ht', hp, hg⟩ := h.polls.requestVote (n := cfg.peers) (s := call.dst) call.args
    have he := Ballot.extends_of_steps ht'
    rw [← Cluster.rf_setRf] at hp
    refine ⟨t', ht', hp, (h.recorded.mono he.grants).answer fun hgr => ?_,
      fun c hc => he.past _ _ (h.appends c hc), fun x hx => he.winners (h.leaders x hx), h.nodup⟩
    rw [← (hw.votes call (List.mem_of_getElem? hk)).1]
    exact hg hgr
  | @handleAppend k call hk hup hnew =>
    have hmem := List.mem_of_getElem? hk
    have hpast := h.appends call hmem
    rw [← (hw.appends call hmem).1.leaderId] at hpast
    obtain ⟨t', ht', hp⟩ := h.polls.appendEntries (n := cfg.peers) (s := call.dst) cfg hpast
    have he := Ballot.extends_of_steps ht'
    have hrec := (h.recorded.mono he.grants).setRf call.dst
      ((C.rf call.dst).AppendEntries cfg call.args).1
    rw [← Cluster.rf_setRf] at hp
    refine ⟨t', ht', hp, ⟨hrec.replies, hrec.counted⟩, ?_,
      fun x hx => he.winners (h.leaders x hx), h.nodup⟩
    refine forall_mem_set (fun c hc => he.past _ _ (h.appends c hc)) ?_ k
    exact he.past _ _ (h.appends call hmem)
  | @crash s hup =>
    refine ⟨t, .refl t, ?_, h.recorded.boot s _, h.appends, h.leaders, h.nodup⟩
    rw [Cluster.rf_boot]
    exact h.polls.same ⟨rfl, rfl, rfl⟩
  | @restart s hs hdead =>
    obtain ⟨hterm, hvote, -⟩ := Raft.make_of_durable (hd s) s
    obtain ⟨t', ht', hp⟩ := h.polls.restart (n := cfg.peers) (s := s) hterm hvote
      (Raft.state_make s _)
    have he := Ballot.extends_of_steps ht'
    refine ⟨t', ht', ?_, (h.recorded.mono he.grants).boot s _,
      fun c hc => he.past _ _ (h.appends c hc), fun x hx => he.winners (h.leaders x hx), h.nodup⟩
    rw [Cluster.rf_boot]
    exact hp

end Moves

section Run

variable [Zero Cmd] {P : Cluster cfg.peers Cmd → Action Cmd → Prop}

/-- Every run of the cluster is a run of the ballot. -/
lemma raft_elects {C : Cluster cfg.peers Cmd} {past : List (Cluster cfg.peers Cmd)}
    (h : (raft cfg).Run P (C :: past)) :
    ∃ t, (Ballot.machine (majority cfg.peers)).Reachable t ∧ Elects C t := by
  refine Machine.simulate ?_ ?_ h
  · rintro C rfl
    refine ⟨Ballot.initial ℕ, rfl, ⟨fun v => rfl, fun v => rfl, fun v => ?_⟩, ⟨?_, ?_⟩, ?_, ?_, ?_⟩
    · simp [Ballot.initial, Cluster.rf, Cluster.initial, Server.boot, Raft.state_make]
    · simp [Cluster.initial]
    · simp [Cluster.initial, Server.boot]
    · simp [Cluster.initial]
    · simp [Cluster.initial]
    · simp [Cluster.initial]
  · intro C past a C' t hr hreach hel _ hnext
    exact hel.moves (raft_wired hr C List.mem_cons_self) (raft_me hr) (raft_durable hr) hreach
      (Cluster.moves_of_step hnext)

/-- No two executions of `becomeLeader` are in the same term. -/
lemma raft_leaders_nodup {C : Cluster cfg.peers Cmd} {past : List (Cluster cfg.peers Cmd)}
    (h : (raft cfg).Run P (C :: past)) : (C.leaders.map Prod.snd).Nodup := by
  obtain ⟨t, -, hel⟩ := raft_elects h
  exact hel.nodup

/-- Election safety: in every run of the cluster, at most one peer ever becomes leader in a given
term. -/
theorem election_safety {C : Cluster cfg.peers Cmd} (h : (raft cfg).Reachable C) {T s s' : ℕ}
    (hs : (s, T) ∈ C.leaders) (hs' : (s', T) ∈ C.leaders) : s = s' := by
  obtain ⟨past, hr⟩ := h
  obtain ⟨t, hreach, hel⟩ := raft_elects hr
  exact Ballot.winner_unique hreach (hel.leaders _ hs) (hel.leaders _ hs')

/-- Peer `s` holds its `e`-th election and wins it with the vote of peer `p`, asked for by call
`k`. -/
def electing (s e p k : ℕ) : List (Action ℕ) :=
  [.act s .tick, .act s .electionCheck, .act s .electionStart, .act s (.voteCall e p),
    .handleVote k, .act s (.voteReturn e p), .act s (.voteRecv e p), .act s (.voteDecide e)]

/-- Of three peers, peer 0 wins term 1 and peer 1 wins term 2. -/
theorem election_safety_two_terms :
    ∃ C : Cluster (Config.doubling 3).peers ℕ, (raft (.doubling 3)).Reachable C ∧
      ((0, 1) ∈ C.leaders ∧ (1, 2) ∈ C.leaders) ∧ ∀ s, (s, 1) ∈ C.leaders → s = 0 := by
  obtain ⟨C, past, hr, hl⟩ : ∃ C past,
      (raft (.doubling 3)).Run Machine.Any (C :: past) ∧
        ((0, 1) ∈ C.leaders ∧ (1, 2) ∈ C.leaders) :=
    Machine.exists_run_of_trace (fun _ _ => true) (fun _ _ _ => trivial)
      (electing 0 0 1 0 ++ electing 1 0 2 1) (by decide)
  exact ⟨C, ⟨past, hr⟩, hl, fun s hs => election_safety ⟨past, hr⟩ hs hl.1⟩

end Run

end DistLabs
