import DistLabs.Raft.Election

/-!
# One vote per term

`RequestVote` grants a vote when none has been given in the term, or again to the candidate it has
been given to. What has been given is in `votedFor`, and `AppendEntries` writes the sender of a
request there, whatever the vote was. A vote request of that sender for the same term that arrives
afterwards is granted, though the vote has gone to another.

So a peer votes once in a term as long as it answers no vote request of a peer after an
`AppendEntries` request of the same peer and term.
-/

namespace DistLabs

variable {Cmd : Type*} {cfg : Config} {n : ℕ}

namespace Cluster

/-- Peer `v` has voted for `c` in term `T`, as far as this state shows: a reply of it grants the
vote, or it stands for the term itself. -/
def Casts (C : Cluster n Cmd) (v T c : ℕ) : Prop :=
  (∃ call ∈ C.voteCalls, call.dst = v ∧ call.args.term = T ∧ call.args.candidateId = c ∧
      call.reply.any RequestVoteReply.voteGranted = true) ∨
    (C.servers v).rf.state = .candidate ∧ (C.servers v).rf.currentTerm = T ∧ c = v

instance (C : Cluster n Cmd) (v T c : ℕ) : Decidable (C.Casts v T c) :=
  inferInstanceAs (Decidable (_ ∨ _))

/-- Peer `v` has answered an `AppendEntries` request of its present term, and its vote is the sender
of that request. -/
def Overwritten (C : Cluster n Cmd) (v : ℕ) : Prop :=
  ∃ call ∈ C.appendCalls, call.dst = v ∧ call.args.term = (C.servers v).rf.currentTerm ∧
    call.reply.isSome = true ∧ (C.servers v).rf.votedFor = some call.args.leaderId

end Cluster

/-- Peer `v` has voted for `c` in term `T`, in some state of the run. -/
def Voted (l : List (Cluster n Cmd)) (v T c : ℕ) : Prop := ∃ D ∈ l, D.Casts v T c

/-- The condition on a step: a peer that answers a vote request has not answered an `AppendEntries`
request of the same sender and term. -/
def VotesFirst (C : Cluster n Cmd) : Action Cmd → Prop
  | .handleVote k => ∀ vote, C.voteCalls[k]? = some vote → ∀ call ∈ C.appendCalls,
      call.dst = vote.dst → call.args.term = vote.args.term →
      call.args.leaderId = vote.args.candidateId → call.reply = none
  | _ => True

/-! ### What a step does to the vote of a peer -/

/-- What a step can do to term, vote and votes of peer `v`. -/
inductive VoteMove (C C' : Cluster n Cmd) (a : Action Cmd) (v : ℕ) : Prop
  | same (hterm : (C'.servers v).rf.currentTerm = (C.servers v).rf.currentTerm)
      (hvote : (C'.servers v).rf.votedFor = (C.servers v).rf.votedFor)
      (hcasts : ∀ T c, C'.Casts v T c → C.Casts v T c)
  | later (hterm : (C.servers v).rf.currentTerm < (C'.servers v).rf.currentTerm)
      (hcasts : ∀ T c, C'.Casts v T c → C.Casts v T c ∨
        T = (C'.servers v).rf.currentTerm ∧ (C'.servers v).rf.votedFor = some c)
  | grant {k : ℕ} {vote : VoteCall Cmd} (ha : a = .handleVote k)
      (hk : C.voteCalls[k]? = some vote) (hdst : vote.dst = v)
      (hargs : vote.args.term = (C.servers v).rf.currentTerm)
      (hterm : (C'.servers v).rf.currentTerm = (C.servers v).rf.currentTerm)
      (hfree : (C.servers v).rf.votedFor = none ∨
        (C.servers v).rf.votedFor = some vote.args.candidateId)
      (hvote : (C'.servers v).rf.votedFor = some vote.args.candidateId)
      (hcasts : ∀ T c, C'.Casts v T c → C.Casts v T c ∨
        T = (C'.servers v).rf.currentTerm ∧ c = vote.args.candidateId)
  | follow (hterm : (C'.servers v).rf.currentTerm = (C.servers v).rf.currentTerm)
      (hover : C'.Overwritten v) (hcasts : ∀ T c, C'.Casts v T c → C.Casts v T c)

section Moves

variable {C C' : Cluster cfg.peers Cmd} {v : ℕ} {a : Action Cmd}

/-- A step that answers no vote request leaves the votes granted as they are. -/
lemma Cluster.Casts.of_calls
    (hcalls : ∀ call ∈ C'.voteCalls, call.dst = v →
      call.reply.any RequestVoteReply.voteGranted = true → call ∈ C.voteCalls)
    (hstate : (C'.servers v).rf.state = .candidate → (C.servers v).rf.state = .candidate ∧
      (C.servers v).rf.currentTerm = (C'.servers v).rf.currentTerm) {T c : ℕ}
    (h : C'.Casts v T c) : C.Casts v T c := by
  rcases h with ⟨call, hmem, hdst, hT, hc, hg⟩ | ⟨hs, hT, hc⟩
  · exact .inl ⟨call, hcalls call hmem hdst hg, hdst, hT, hc, hg⟩
  · obtain ⟨hs', hT'⟩ := hstate hs
    exact .inr ⟨hs', hT'.trans hT, hc⟩

lemma VoteMove.of_sameBallot (h : SameBallot (C.servers v).rf (C'.servers v).rf)
    (hcalls : ∀ call ∈ C'.voteCalls, call.dst = v →
      call.reply.any RequestVoteReply.voteGranted = true → call ∈ C.voteCalls) :
    VoteMove C C' a v := by
  refine .same h.currentTerm h.votedFor fun T c hc => hc.of_calls hcalls fun hs => ?_
  exact ⟨h.state ▸ hs, h.currentTerm.symm⟩

/-- A peer whose state is not touched. -/
lemma VoteMove.of_other (h : C'.servers v = C.servers v)
    (hcalls : ∀ call ∈ C'.voteCalls, call.dst = v →
      call.reply.any RequestVoteReply.voteGranted = true → call ∈ C.voteCalls) :
    VoteMove C C' a v := by
  refine .of_sameBallot ?_ hcalls
  rw [h]
  exact ⟨rfl, rfl, rfl⟩

/-- A peer that becomes follower in a later term. -/
lemma VoteMove.of_follower
    (hterm : (C.servers v).rf.currentTerm < (C'.servers v).rf.currentTerm)
    (hstate : (C'.servers v).rf.state = .follower)
    (hcalls : ∀ call ∈ C'.voteCalls, call.dst = v →
      call.reply.any RequestVoteReply.voteGranted = true → call ∈ C.voteCalls) :
    VoteMove C C' a v := by
  refine .later hterm fun T c hc => .inl (hc.of_calls hcalls fun hs => ?_)
  rw [hstate] at hs
  cases hs

lemma voteMove_act (hw : C.Wired) {s : ℕ} (hme : (C.servers s).rf.me = s) {b : LocalAction Cmd}
    {eff : Effect cfg.peers Cmd} (hacts : (C.servers s).Acts cfg C.voteCalls C.appendCalls b eff) :
    VoteMove C (C.perform s eff) a v := by
  have hcalls : ∀ call ∈ (C.perform s eff).voteCalls, call.dst = v →
      call.reply.any RequestVoteReply.voteGranted = true → call ∈ C.voteCalls := by
    intro call hc _ hg
    refine (List.mem_append.mp hc).resolve_right fun hnew => ?_
    have hnone := ((hw.servers s).voteCall hacts call (Option.mem_toList.mp hnew)).2.2.2
    simp [hnone] at hg
  rcases eq_or_ne v s with rfl | hne
  · have hrf : ((C.perform v eff).servers v).rf = eff.server.rf := by simp [Cluster.perform]
    by_cases hnl : eff.leader = none
    · rcases hacts.ballot hnl with hsame | hc | ⟨T, hT, hf⟩
      · exact .of_sameBallot (hrf ▸ hsame) hcalls
      · refine .later ?_ fun T c hcast => ?_
        · rw [hrf, hc]
          simp [Raft.becomeCandidate]
        · rcases hcast with ⟨call, hmem, hdst, hT, hcand, hg⟩ | ⟨-, hT, rfl⟩
          · exact .inl (.inl ⟨call, hcalls call hmem hdst hg, hdst, hT, hcand, hg⟩)
          · refine .inr ⟨hT.symm, ?_⟩
            rw [hrf, hc]
            simp [Raft.becomeCandidate, hme]
      · refine .of_follower ?_ ?_ hcalls
        · rw [hrf, hf]
          simpa [Raft.becomeFollower] using hT
        · rw [hrf, hf]
          simp [Raft.becomeFollower]
    · cases hacts with
      | voteWin =>
        refine .same (by rw [hrf]; rfl) (by rw [hrf]; rfl)
          fun T c hcast => hcast.of_calls hcalls fun hs => ?_
        rw [hrf] at hs
        cases hs
      | _ => exact absurd rfl hnl
  · exact .of_other (by simp [Cluster.perform, hne]) hcalls

lemma voteMove_handleVote {k : ℕ} {vote : VoteCall Cmd} (hk : C.voteCalls[k]? = some vote)
    (hC' : C' = { C.setRf vote.dst ((C.servers vote.dst).rf.RequestVote vote.args).1 with
      voteCalls := C.voteCalls.set k
        { vote with reply := some ((C.servers vote.dst).rf.RequestVote vote.args).2 } }) :
    VoteMove C C' (.handleVote k) v := by
  have hmem : ∀ call ∈ C'.voteCalls, call ∈ C.voteCalls ∨
      call = { vote with reply := some ((C.servers vote.dst).rf.RequestVote vote.args).2 } :=
    fun call hc => List.mem_or_eq_of_mem_set (hC' ▸ hc)
  rcases eq_or_ne v vote.dst with rfl | hne
  · have hrf : (C'.servers vote.dst).rf = ((C.servers vote.dst).rf.RequestVote vote.args).1 := by
      simp [hC', Cluster.setRf]
    have hout := (C.servers vote.dst).rf.voteOutcome vote.args
    generalize (C.servers vote.dst).rf.RequestVote vote.args = r at hmem hrf hout
    -- a reply that does not grant the vote adds nothing
    have hdeny : r.2.voteGranted = false → ∀ call ∈ C'.voteCalls, call.dst = vote.dst →
        call.reply.any RequestVoteReply.voteGranted = true → call ∈ C.voteCalls := by
      intro hr call hc _ hg
      refine (hmem call hc).resolve_right ?_
      rintro rfl
      simp [hr] at hg
    -- one that does adds the vote for the candidate
    have hadd : (C'.servers vote.dst).rf.currentTerm = vote.args.term →
        ((C'.servers vote.dst).rf.state = .candidate → (C.servers vote.dst).rf.state = .candidate ∧
          (C.servers vote.dst).rf.currentTerm = (C'.servers vote.dst).rf.currentTerm) →
        ∀ T c, C'.Casts vote.dst T c → C.Casts vote.dst T c ∨
          T = (C'.servers vote.dst).rf.currentTerm ∧ c = vote.args.candidateId := by
      rintro hterm hstate T c (⟨call, hc, hdst, rfl, rfl, hg⟩ | ⟨hs, hT, hc⟩)
      · rcases hmem call hc with hold | rfl
        · exact .inl (.inl ⟨call, hold, hdst, rfl, rfl, hg⟩)
        · exact .inr ⟨hterm.symm, rfl⟩
      · obtain ⟨hs', hT'⟩ := hstate hs
        exact .inl (.inr ⟨hs', hT'.trans hT, hc⟩)
    cases hout with
    | refuse => exact .of_sameBallot (hrf ▸ ⟨rfl, rfl, rfl⟩) (hdeny rfl)
    | bump hterm =>
      refine .of_follower ?_ ?_ (hdeny rfl)
      · rw [hrf]
        simpa [Raft.becomeFollower] using hterm
      · rw [hrf]
        simp [Raft.becomeFollower]
    | grant hterm hvote hlog =>
      have hsame : (C'.servers vote.dst).rf.currentTerm = (C.servers vote.dst).rf.currentTerm := by
        rw [hrf]
        simp
      refine .grant rfl hk rfl hterm.symm hsame hvote (by rw [hrf]; simp) ?_
      refine hadd (hsame.trans hterm) fun hs => ⟨?_, hsame.symm⟩
      rw [hrf] at hs
      simpa using hs
    | bumpGrant hterm hlog =>
      have hterm' : (C'.servers vote.dst).rf.currentTerm = vote.args.term := by
        rw [hrf]
        simp [Raft.becomeFollower]
      refine .later (hterm'.symm ▸ hterm) fun T c hcast => ?_
      have hstate : (C'.servers vote.dst).rf.state ≠ .candidate := by
        rw [hrf]
        simp [Raft.becomeFollower]
      rcases hadd hterm' (fun hs => absurd hs hstate) T c hcast with hold | ⟨hT, hc⟩
      · exact .inl hold
      · refine .inr ⟨hT, ?_⟩
        rw [hrf, hc]
        simp
  · refine .of_other (by simp [hC', Cluster.setRf, hne]) fun call hc hdst _ => ?_
    refine (hmem call hc).resolve_right ?_
    rintro rfl
    exact hne hdst.symm

lemma Cluster.Moves.voteMove [Zero Cmd] (h : C.Moves cfg a C') (hw : C.Wired)
    (hme : ∀ s, (C.servers s).rf.me = s) (hd : ∀ s, (C.servers s).rf.Durable) (v : ℕ) :
    VoteMove C C' a v := by
  cases h with
  | @act s b eff hup hacts => exact voteMove_act hw (hme s) hacts
  | handleVote hk hup hnew => exact voteMove_handleVote hk rfl
  | @handleAppend k call hk hup hnew =>
    rcases eq_or_ne v call.dst with rfl | hne
    · have hlt := (List.getElem?_eq_some_iff.mp hk).1
      rcases (Raft.appendOutcome cfg (C.servers call.dst).rf call.args).followed with
        ⟨-, hr⟩ | ⟨hle, hf⟩
      · refine .of_sameBallot ?_ fun _ hc _ _ => hc
        simp only [Cluster.setRf, Function.update_self, hr]
        exact ⟨rfl, rfl, rfl⟩
      · rcases Nat.lt_or_eq_of_le hle with hterm | hterm
        · refine .of_follower ?_ ?_ fun _ hc _ _ => hc
          · simpa [Cluster.setRf, hf.currentTerm] using hterm
          · simp [Cluster.setRf, hf.state]
        · -- the vote is overwritten by the sender of the request
          refine .follow ?_ ⟨_, List.mem_set hlt _, rfl, ?_, rfl, ?_⟩ fun T c hcast =>
            hcast.of_calls ?_ fun hs => ?_
          · simp [Cluster.setRf, hf.currentTerm, hterm]
          · simp [Cluster.setRf, hf.currentTerm]
          · simp [Cluster.setRf, hf.votedFor]
          · exact fun _ hc _ _ => hc
          · simp [Cluster.setRf, hf.state] at hs
    · exact .of_other (by simp [Cluster.setRf, hne]) fun _ hc _ _ => hc
  | @crash s hup =>
    rcases eq_or_ne v s with rfl | hne
    · refine .of_sameBallot ?_ fun _ hc _ _ => hc
      simp only [Function.update_self]
      exact ⟨rfl, rfl, rfl⟩
    · exact .of_other (by simp [hne]) fun _ hc _ _ => hc
  | @restart s hs hdead =>
    rcases eq_or_ne v s with rfl | hne
    · obtain ⟨hterm, hvote, -⟩ := Raft.make_of_durable (hd v) v
      refine .same ?_ ?_ fun T c hcast => hcast.of_calls ?_ fun hs => ?_
      · simpa [Server.boot] using hterm
      · simpa [Server.boot] using hvote
      · exact fun _ hc _ _ => hc
      · simp [Server.boot, Raft.state_make] at hs
    · exact .of_other (by simp [hne]) fun _ hc _ _ => hc

end Moves

/-! ### Runs -/

/-- What the votes of peer `v` are backed by: a vote in the present term is in `votedFor` unless it
has been overwritten. -/
structure Backed (C : Cluster n Cmd) (v : ℕ) (votes : ℕ → ℕ → Prop) : Prop where
  term_le : ∀ T c, votes T c → T ≤ (C.servers v).rf.currentTerm
  vote : ∀ c, votes (C.servers v).rf.currentTerm c →
    (C.servers v).rf.votedFor = some c ∨ C.Overwritten v
  unique : ∀ T c c', votes T c → votes T c' → c = c'

section Backed

variable {C C' : Cluster cfg.peers Cmd} {a : Action Cmd} {v : ℕ} {votes votes' : ℕ → ℕ → Prop}

/-- An overwritten vote stays so as long as term and vote do not change. -/
lemma Cluster.Overwritten.mono (h : C.Overwritten v) (hg : Grows C.appendCalls C'.appendCalls)
    (hterm : (C'.servers v).rf.currentTerm = (C.servers v).rf.currentTerm)
    (hvote : (C'.servers v).rf.votedFor = (C.servers v).rf.votedFor) : C'.Overwritten v := by
  obtain ⟨call, hmem, hdst, hT, hreply, hv⟩ := h
  obtain ⟨k, hk⟩ := List.getElem?_of_mem hmem
  obtain ⟨r, hr, hsame⟩ := hg k call hk
  refine ⟨_, List.mem_of_getElem? hr, hdst, hT.trans hterm.symm, ?_, hvote.trans hv⟩
  rw [hsame hreply]
  exact hreply

/-- A vote in the present term is the one a new grant names. -/
lemma Backed.eq_of_grant (h : Backed C v votes) {k : ℕ} {vote : VoteCall Cmd}
    (hP : VotesFirst C (.handleVote k)) (hk : C.voteCalls[k]? = some vote) (hdst : vote.dst = v)
    (hargs : vote.args.term = (C.servers v).rf.currentTerm)
    (hfree : (C.servers v).rf.votedFor = none ∨
      (C.servers v).rf.votedFor = some vote.args.candidateId) {c : ℕ}
    (hc : votes (C.servers v).rf.currentTerm c) : c = vote.args.candidateId := by
  rcases h.vote c hc with hv | ⟨call, hmem, hcall, hT, hreply, hv⟩
  · rw [hv] at hfree
    rcases hfree with hfree | hfree <;> cases hfree
    rfl
  · -- the present vote is the sender of a request that has been answered
    rw [hv] at hfree
    rcases hfree with hfree | hfree
    · cases hfree
    · have hnone := hP vote hk call hmem (hcall.trans hdst.symm) (hT.trans hargs.symm)
        (Option.some.inj hfree)
      rw [hnone] at hreply
      cases hreply

lemma Backed.move (h : Backed C v votes) (hP : VotesFirst C a) (hm : VoteMove C C' a v)
    (hg : Grows C.appendCalls C'.appendCalls) (hold : ∀ T c, C.Casts v T c → votes T c)
    (hvotes : ∀ T c, votes' T c → votes T c ∨ C'.Casts v T c) : Backed C' v votes' := by
  cases hm with
  | same hterm hvote hcasts =>
    have hsub : ∀ T c, votes' T c → votes T c := fun T c hc =>
      (hvotes T c hc).elim id fun hc => hold T c (hcasts T c hc)
    refine ⟨fun T c hc => hterm ▸ h.term_le T c (hsub T c hc), fun c hc => ?_,
      fun T c c' hc hc' => h.unique T c c' (hsub T c hc) (hsub T c' hc')⟩
    rw [hterm] at hc
    rw [hvote]
    exact (h.vote c (hsub _ c hc)).imp_right fun ho => ho.mono hg hterm hvote
  | later hterm hcasts =>
    have hnew : ∀ T c, votes' T c → votes T c ∨
        T = (C'.servers v).rf.currentTerm ∧ (C'.servers v).rf.votedFor = some c := fun T c hc =>
      (hvotes T c hc).elim .inl fun hc => (hcasts T c hc).imp_left (hold T c)
    have hlt : ∀ T c, votes T c → T < (C'.servers v).rf.currentTerm := fun T c hc =>
      (h.term_le T c hc).trans_lt hterm
    refine ⟨fun T c hc => ?_, fun c hc => ?_, fun T c c' hc hc' => ?_⟩
    · rcases hnew T c hc with hc | ⟨hT, -⟩
      · exact (hlt T c hc).le
      · exact hT.le
    · rcases hnew _ c hc with hc | ⟨-, hv⟩
      · exact absurd (hlt _ c hc) (lt_irrefl _)
      · exact .inl hv
    · rcases hnew T c hc with hc | ⟨hT, hv⟩ <;> rcases hnew T c' hc' with hc' | ⟨hT', hv'⟩
      · exact h.unique T c c' hc hc'
      · exact absurd hT' (hlt T c hc).ne
      · exact absurd hT (hlt T c' hc').ne
      · exact Option.some.inj (hv.symm.trans hv')
  | @grant k vote ha hk hdst hargs hterm hfree hvote hcasts =>
    subst ha
    have hnew : ∀ T c, votes' T c → votes T c ∨
        T = (C'.servers v).rf.currentTerm ∧ c = vote.args.candidateId := fun T c hc =>
      (hvotes T c hc).elim .inl fun hc => (hcasts T c hc).imp_left (hold T c)
    have heq : ∀ c, votes (C'.servers v).rf.currentTerm c → c = vote.args.candidateId :=
      fun c hc => h.eq_of_grant hP hk hdst hargs hfree (hterm ▸ hc)
    refine ⟨fun T c hc => ?_, fun c hc => ?_, fun T c c' hc hc' => ?_⟩
    · rcases hnew T c hc with hc | ⟨hT, -⟩
      · exact hterm ▸ h.term_le T c hc
      · exact hT.le
    · left
      rcases hnew _ c hc with hc | ⟨-, rfl⟩
      · rw [heq c hc, hvote]
      · exact hvote
    · rcases hnew T c hc with hc | ⟨hT, rfl⟩ <;> rcases hnew T c' hc' with hc' | ⟨hT', rfl⟩
      · exact h.unique T c c' hc hc'
      · exact heq c (hT' ▸ hc)
      · exact (heq c' (hT ▸ hc')).symm
      · rfl
  | follow hterm hover hcasts =>
    have hsub : ∀ T c, votes' T c → votes T c := fun T c hc =>
      (hvotes T c hc).elim id fun hc => hold T c (hcasts T c hc)
    exact ⟨fun T c hc => hterm ▸ h.term_le T c (hsub T c hc), fun _ _ => .inr hover,
      fun T c c' hc hc' => h.unique T c c' (hsub T c hc) (hsub T c' hc')⟩

end Backed

section Run

variable [Zero Cmd] {C : Cluster cfg.peers Cmd} {past : List (Cluster cfg.peers Cmd)}

lemma raft_backed (h : (raft cfg).Run VotesFirst (C :: past)) (v : ℕ) :
    Backed C v (Voted (C :: past) v) := by
  have hrun : ∀ D ∈ (C :: past).head?, Backed D v (Voted (C :: past) v) := by
    refine h.history (I := fun l => ∀ D ∈ l.head?, Backed D v (Voted l v)) ?_ ?_
    · rintro D rfl _ ⟨⟩
      have hnone : ∀ T c, ¬Voted [(Cluster.initial cfg.peers : Cluster cfg.peers Cmd)] v T c := by
        rintro T c ⟨D, hD, hc⟩
        obtain rfl := List.mem_singleton.mp hD
        simp [Cluster.Casts, Cluster.initial, Server.boot, Raft.state_make] at hc
      exact ⟨fun T c hc => absurd hc (hnone T c), fun c hc => absurd hc (hnone _ c),
        fun T c c' hc => absurd hc (hnone T c)⟩
    · rintro D past a D' hr ih hP hnext _ ⟨⟩
      have hm := Cluster.moves_of_step hnext
      refine (ih D rfl).move hP (hm.voteMove (raft_wired hr D List.mem_cons_self) (raft_me hr)
        (raft_durable hr) v) hm.grows.2 (fun T c hc => ⟨D, List.mem_cons_self, hc⟩) ?_
      rintro T c ⟨E, hE, hc⟩
      rcases List.mem_cons.mp hE with rfl | hE
      · exact .inr hc
      · exact .inl ⟨E, hE, hc⟩
  exact hrun C rfl

/-- One vote per term: in every run in which no peer answers a vote request after an `AppendEntries`
request of the same sender and term, all the votes that a peer gives in a term, to itself as a
candidate or by its replies, are for the same peer. Crashes and restarts may come in between. -/
theorem one_vote_per_term (h : (raft cfg).Run VotesFirst (C :: past)) {v T c c' : ℕ}
    (hc : Voted (C :: past) v T c) (hc' : Voted (C :: past) v T c') : c = c' :=
  (raft_backed h v).unique T c c' hc hc'

/-- A check of `VotesFirst`. -/
def votesFirst (C : Cluster cfg.peers Cmd) : Action Cmd → Bool
  | .handleVote k => C.voteCalls[k]?.all fun vote => C.appendCalls.all fun call =>
      call.dst ≠ vote.dst ∨ call.args.term ≠ vote.args.term ∨
        call.args.leaderId ≠ vote.args.candidateId ∨ call.reply.isNone
  | _ => true

omit [Zero Cmd] in
lemma votesFirst_sound (C : Cluster cfg.peers Cmd) (a : Action Cmd) (h : votesFirst C a = true) :
    VotesFirst C a := by
  cases a with
  | handleVote k =>
    intro vote hk call hmem hdst hterm hcand
    simp only [votesFirst, hk, Option.all_some, List.all_eq_true, decide_eq_true_eq] at h
    simpa [hdst, hterm, hcand] using h call hmem
  | _ => trivial

/-- Peer 1 has voted for peer 0 in term 1, and for no other. -/
theorem one_vote_per_term_first :
    ∃ (C : Cluster (Config.doubling 3).peers ℕ) (past : List (Cluster (Config.doubling 3).peers ℕ)),
      (raft (.doubling 3)).Run VotesFirst (C :: past) ∧ C.Casts 1 1 0 ∧
      ∀ c, Voted (C :: past) 1 1 c → c = 0 := by
  obtain ⟨C, past, hr, hC⟩ : ∃ (C : Cluster (Config.doubling 3).peers ℕ)
      (past : List (Cluster (Config.doubling 3).peers ℕ)),
      (raft (.doubling 3)).Run VotesFirst (C :: past) ∧ C.Casts 1 1 0 :=
    Machine.exists_run_of_trace votesFirst votesFirst_sound (electing 0 0 1 0 ++ electing 1 0 2 1)
      (by decide +kernel)
  exact ⟨C, past, hr, hC, fun c hc => one_vote_per_term hr hc ⟨C, List.mem_cons_self, hC⟩⟩

/-- Of five peers, peers 0 and 1 stand for term 1. Peer 2 votes for peer 1, and peers 3 and 4 make
peer 0 leader. Its heartbeat reaches peer 2 before its vote request does. -/
def lateVoteRequest : List (Action ℕ) :=
  [.act 0 .tick, .act 0 .electionCheck, .act 0 .electionStart, .act 0 (.voteCall 0 2),
    .act 0 (.voteCall 0 3), .act 0 (.voteCall 0 4), .act 1 .tick, .act 1 .electionCheck,
    .act 1 .electionStart, .act 1 (.voteCall 0 2), .handleVote 3, .handleVote 1, .handleVote 2,
    .act 0 (.voteReturn 0 3), .act 0 (.voteRecv 0 3), .act 0 (.voteReturn 0 4),
    .act 0 (.voteRecv 0 4), .act 0 (.voteDecide 0), .act 0 .heartbeatStart,
    .act 0 (.heartbeatCall 0 2), .handleAppend 0, .handleVote 0]

/-- Peer 2 has granted its vote in term 1 to peer 1 and to peer 0. -/
theorem lateVoteRequest_two_votes :
    ∃ C : Cluster (Config.doubling 5).peers ℕ, (raft (.doubling 5)).Reachable C ∧
      C.Casts 2 1 1 ∧ C.Casts 2 1 0 := by
  obtain ⟨C, past, hr, hC⟩ : ∃ C past, (raft (.doubling 5)).Run Machine.Any (C :: past) ∧
      (C.Casts 2 1 1 ∧ C.Casts 2 1 0) :=
    Machine.exists_run_of_trace (fun _ _ => true) (fun _ _ _ => trivial) lateVoteRequest
      (by decide +kernel)
  exact ⟨C, ⟨past, hr⟩, hC⟩

end Run

end DistLabs
