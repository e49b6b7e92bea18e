import DistLabs.Raft.Leadership

/-!
# The range of `nextIndex`

`becomeLeader` sets `nextIndex` to the length of the log, and the replies set it to indices. The two
scales agree as long as the log has not been compacted when its owner becomes leader. Then
`nextIndex` stays between the end that the log had at the election and the end that it has now,
whatever is compacted afterwards.

What a step does to a peer is said once, by `TenureMove`, as far as its role, its log and
`nextIndex` are concerned.
-/

namespace DistLabs

variable {Cmd : Type*} {cfg : Config}

/-- The index behind the last entry. -/
def Raft.logEnd (rf : Raft Cmd) : ℕ := rf.X + rf.log.len

/-! ### One step of a peer -/

/-- What a step does to a peer with the goroutines `bs` of `appendEntries`. -/
inductive TenureMove {n : ℕ} (cfg : Config) (rf : Raft Cmd) (bs : List (Broadcast n)) :
    Raft Cmd → Prop
  | keep {rf' : Raft Cmd} (hstate : rf'.state = rf.state)
      (hterm : rf'.currentTerm = rf.currentTerm) (hX : rf'.X = rf.X) (hlog : rf'.log = rf.log)
      (hnext : rf'.nextIndex = rf.nextIndex) (hmatched : rf'.matchedIndex = rf.matchedIndex) :
      TenureMove cfg rf bs rf'
  | advance {b : Broadcast n} {p : ℕ} (hb : b ∈ bs) (hterm : rf.currentTerm = b.term) :
      TenureMove cfg rf bs (rf.advanceNext p b.end_)
  | follow {rf' : Raft Cmd} (hstate : rf'.state = .follower) : TenureMove cfg rf bs rf'
  | campaign : TenureMove cfg rf bs (rf.becomeCandidate (rf.currentTerm + 1))
  | win (hstate : rf.state = .candidate) : TenureMove cfg rf bs (rf.becomeLeader cfg)
  | start {command : Option Cmd} (hstate : rf.state = .leader) :
      TenureMove cfg rf bs (rf.Start cfg command).1
  | trim {c : Raft.SnapshotCall Cmd} {rf' : Raft Cmd} (h : rf.snapshotTrim cfg c = some rf') :
      TenureMove cfg rf bs rf'

lemma TenureMove.refl {n : ℕ} (rf : Raft Cmd) (bs : List (Broadcast n)) :
    TenureMove cfg rf bs rf :=
  .keep rfl rfl rfl rfl rfl rfl

lemma Server.Acts.tenureMove {n : ℕ} {srv : Server n Cmd} {votes : List (VoteCall Cmd)}
    {appends : List (AppendCall Cmd)} {a : LocalAction Cmd} {eff : Effect n Cmd}
    (h : srv.Acts cfg votes appends a eff) :
    TenureMove cfg srv.rf srv.broadcasts eff.server.rf := by
  cases h.change with
  | idle _ hrf => exact hrf ▸ .refl _ _
  | campaign _ hrf => exact hrf ▸ .campaign
  | win _ hstate _ hrf => exact hrf ▸ .win hstate
  | stepDown _ _ hrf => exact .follow (by simp [hrf, Raft.becomeFollower])
  | advance _ hb hterm hrf => exact hrf ▸ .advance hb hterm
  | @commit _ b _ _ hrf =>
    obtain ⟨c, hc⟩ := srv.rf.commit_eq b.term b.end_
    exact hrf ▸ hc ▸ .keep rfl rfl rfl rfl rfl rfl
  | start _ hstate hrf => exact hrf ▸ .start hstate
  | applyLog happly =>
    obtain ⟨-, hrf, -⟩ := Raft.applyLog_eq_some happly
    exact hrf ▸ .keep rfl rfl rfl rfl rfl rfl
  | read _ _ _ heff => exact heff ▸ .refl _ _
  | publish _ _ _ heff => exact heff ▸ .keep rfl rfl rfl rfl rfl rfl
  | trim _ _ _ hrf heff => exact heff ▸ .trim hrf

section Requests

variable {n : ℕ} (rf : Raft Cmd) (bs : List (Broadcast n))

lemma tenureMove_requestVote (args : RequestVoteArgs) :
    TenureMove cfg rf bs (rf.RequestVote args).1 := by
  generalize hr : rf.RequestVote args = r
  have hout := hr ▸ rf.voteOutcome args
  cases hout with
  | refuse => exact .refl _ _
  | bump | bumpGrant => exact .follow (by simp [Raft.becomeFollower])
  | grant => refine .keep ?_ ?_ ?_ ?_ ?_ ?_ <;> simp

lemma tenureMove_appendEntries (args : AppendEntriesArgs Cmd) :
    TenureMove cfg rf bs (rf.AppendEntries cfg args).1 := by
  rcases (Raft.appendOutcome cfg rf args).followed with ⟨-, hr⟩ | ⟨-, hf⟩
  · rw [hr]
    exact .refl _ _
  · exact .follow hf.state

end Requests

/-- Where the `appendEntries` of a peer are after a step: they have captured what they had, or one
has just captured the end of the log. -/
def KeepsEnds {n : ℕ} (rf rf' : Raft Cmd) (bs bs' : List (Broadcast n)) : Prop :=
  ∀ b' ∈ bs', (∃ b ∈ bs, b'.term = b.term ∧ b'.end_ = b.end_) ∨
    rf' = rf ∧ b'.end_ + 1 = rf.logEnd

lemma KeepsEnds.refl {n : ℕ} (rf rf' : Raft Cmd) (bs : List (Broadcast n)) :
    KeepsEnds rf rf' bs bs :=
  fun b hb => .inl ⟨b, hb, rfl, rfl⟩

lemma Cluster.MovesPeer.tenure [Zero Cmd] {C : Cluster cfg.peers Cmd} {s : ℕ} {a : Action Cmd}
    {srv : Server cfg.peers Cmd} (h : C.MovesPeer cfg s a srv)
    (hpos : 0 < (C.servers s).rf.log.len) :
    TenureMove cfg (C.servers s).rf (C.servers s).broadcasts srv.rf ∧
      KeepsEnds (C.servers s).rf srv.rf (C.servers s).broadcasts srv.broadcasts := by
  cases h with
  | other => exact ⟨.refl _ _, .refl _ _ _⟩
  | act _ hacts =>
    refine ⟨hacts.tenureMove, fun b hb => ?_⟩
    rcases hacts.mem_broadcasts hb with ⟨b₀, hb₀, hterm, -, hend⟩ | ⟨hrf, -, -, hend⟩
    · exact .inl ⟨b₀, hb₀, hterm, hend⟩
    · refine .inr ⟨hrf, ?_⟩
      rw [hend, Raft.sliceIndex2logIndex, Raft.logEnd]
      omega
  | handleVote => exact ⟨tenureMove_requestVote _ _ _, .refl _ _ _⟩
  | handleAppend => exact ⟨tenureMove_appendEntries _ _ _, .refl _ _ _⟩
  | crash => exact ⟨.keep rfl rfl rfl rfl rfl rfl, by simp [KeepsEnds, Server.boot]⟩
  | restart => exact ⟨.follow (Raft.state_make _ _), by simp [KeepsEnds, Server.boot]⟩

/-! ### The bounds from above -/

/-- The ends that the goroutines of a candidate or leader have captured lie in its log, and so does
what a leader knows of the other peers. -/
structure InRange {n : ℕ} (peers : ℕ) (rf : Raft Cmd) (bs : List (Broadcast n)) : Prop where
  ends : rf.state ≠ .follower → ∀ b ∈ bs, b.term = rf.currentTerm → b.end_ < rf.logEnd
  next : rf.state = .leader → ∀ i < peers, ∃ next m, rf.nextIndex[i]? = some next ∧
    rf.matchedIndex[i]? = some m ∧ m < next ∧ next ≤ rf.logEnd

section InRange

variable {n : ℕ} {rf rf' : Raft Cmd} {bs bs' : List (Broadcast n)}

lemma InRange.of_follower {peers : ℕ} (h : rf.state = .follower) : InRange peers rf bs :=
  ⟨by simp [h], by simp [h]⟩

lemma Raft.logEnd_start (hstate : rf.state = .leader) (command : Option Cmd) :
    (rf.Start cfg command).1.logEnd = rf.logEnd + 1 := by
  simp [Raft.start_of_leader hstate, Raft.logEnd, Slice.len_append, Nat.add_assoc]

/-- The other fields of a leader that appends an entry. -/
lemma Raft.start_fields (cfg : Config) (rf : Raft Cmd) (command : Option Cmd) :
    (rf.Start cfg command).1.state = rf.state ∧
      (rf.Start cfg command).1.currentTerm = rf.currentTerm ∧
      (rf.Start cfg command).1.nextIndex = rf.nextIndex ∧
      (rf.Start cfg command).1.matchedIndex = rf.matchedIndex := by
  by_cases hstate : rf.state = .leader
  · simp [Raft.start_of_leader hstate]
  · simp [Raft.Start, hstate]

/-- Storing the knowledge that peer `p` holds the log up to `end_`. -/
lemma Raft.advanceNext_next {peers p end_ : ℕ} (hend : end_ < rf.logEnd)
    (h : ∀ i < peers, ∃ next m, rf.nextIndex[i]? = some next ∧ rf.matchedIndex[i]? = some m ∧
      m < next ∧ next ≤ rf.logEnd) :
    ∀ i < peers, ∃ next m, (rf.advanceNext p end_).nextIndex[i]? = some next ∧
      (rf.advanceNext p end_).matchedIndex[i]? = some m ∧ m < next ∧ next ≤ rf.logEnd := by
  unfold Raft.advanceNext
  split_ifs with hgt
  · intro i hi
    obtain ⟨next, m, hnext, hm, hlt, hle⟩ := h i hi
    rcases eq_or_ne p i with rfl | hne
    · refine ⟨end_ + 1, end_, ?_, ?_, Nat.lt_succ_self _, hend⟩
      · exact List.getElem?_set_self (List.getElem?_eq_some_iff.mp hnext).1
      · exact List.getElem?_set_self (List.getElem?_eq_some_iff.mp hm).1
    · exact ⟨next, m, by simpa [hne] using hnext, by simpa [hne] using hm, hlt, hle⟩
  · exact h

/-- A peer that is candidate or leader after a step was so before it in the same term, or has just
become candidate in the next. -/
lemma TenureMove.term_cases (hm : TenureMove cfg rf bs rf') (hstate : rf'.state ≠ .follower) :
    rf.state ≠ .follower ∧ rf'.currentTerm = rf.currentTerm ∨
      rf'.currentTerm = rf.currentTerm + 1 := by
  cases hm with
  | keep hst hT => exact .inl ⟨fun hf => hstate (hst.trans hf), hT⟩
  | @advance b p =>
    obtain ⟨next, matched, heq⟩ := rf.advanceNext_eq p b.end_
    rw [heq] at hstate ⊢
    exact .inl ⟨hstate, rfl⟩
  | follow hst => exact absurd hst hstate
  | campaign => exact .inr (by simp [Raft.becomeCandidate])
  | win hst => exact .inl ⟨by simp [hst], rfl⟩
  | start hst => exact .inl ⟨by simp [hst], (rf.start_fields cfg _).2.1⟩
  | trim hrf =>
    obtain ⟨rest, -, rfl⟩ := Raft.snapshotTrim_eq_some hrf
    exact .inl ⟨hstate, rfl⟩

/-- The log of a candidate or leader does not get shorter. -/
lemma TenureMove.logEnd_le (hm : TenureMove cfg rf bs rf') (hstate : rf'.state ≠ .follower) :
    rf.logEnd ≤ rf'.logEnd := by
  cases hm with
  | keep _ _ hX hlog => rw [Raft.logEnd, Raft.logEnd, hX, hlog]
  | @advance b p =>
    obtain ⟨next, matched, heq⟩ := rf.advanceNext_eq p b.end_
    rw [heq]
    exact le_rfl
  | follow hst => exact absurd hst hstate
  | campaign => simp [Raft.becomeCandidate, Raft.logEnd]
  | win => exact le_rfl
  | start hst =>
    rw [Raft.logEnd_start hst]
    exact Nat.le_succ _
  | trim hrf => exact (Raft.len_snapshotTrim hrf).ge

lemma InRange.ends_move {peers : ℕ} (h : InRange peers rf bs) (hm : TenureMove cfg rf bs rf')
    (hbs : KeepsEnds rf rf' bs bs') (hterm : ∀ b ∈ bs, b.term ≤ rf.currentTerm)
    (hstate : rf'.state ≠ .follower) {b : Broadcast n} (hb : b ∈ bs')
    (hbT : b.term = rf'.currentTerm) : b.end_ < rf'.logEnd := by
  rcases hbs b hb with ⟨b₀, hb₀, hbt, hend⟩ | ⟨rfl, hend⟩
  · rcases hm.term_cases hstate with ⟨hst, hT⟩ | hT
    · rw [hend]
      exact (h.ends hst b₀ hb₀ (by rw [← hbt, hbT, hT])).trans_le (hm.logEnd_le hstate)
    · -- nobody has captured the new term
      have := hterm b₀ hb₀
      omega
  · omega

lemma InRange.move (h : InRange cfg.peers rf bs) (hm : TenureMove cfg rf bs rf')
    (hbs : KeepsEnds rf rf' bs bs') (hterm : ∀ b ∈ bs, b.term ≤ rf.currentTerm)
    (hpos : 0 < rf.log.len) : InRange cfg.peers rf' bs' := by
  refine ⟨fun hst b hb hbT => h.ends_move hm hbs hterm hst hb hbT, fun hst => ?_⟩
  cases hm with
  | keep hstate _ hX hlog hnext hmatched =>
    have hend : rf'.logEnd = rf.logEnd := by rw [Raft.logEnd, Raft.logEnd, hX, hlog]
    rw [hnext, hmatched, hend]
    exact h.next (hstate ▸ hst)
  | @advance b p hb hT =>
    obtain ⟨next, matched, heq⟩ := rf.advanceNext_eq p b.end_
    have hend : (rf.advanceNext p b.end_).logEnd = rf.logEnd := by rw [heq]; rfl
    have hst : rf.state = .leader := by rwa [heq] at hst
    rw [hend]
    exact Raft.advanceNext_next (h.ends (by simp [hst]) b hb hT.symm) (h.next hst)
  | follow hstate => cases hst.symm.trans hstate
  | campaign => simp [Raft.becomeCandidate] at hst
  | win =>
    refine fun i hi => ⟨rf.log.len, 0, ?_, ?_, hpos, Nat.le_add_left _ _⟩
    · simp [Raft.becomeLeader, hi]
    · simp [Raft.becomeLeader, hi]
  | @start command hstate =>
    obtain ⟨-, -, hnext, hmatched⟩ := rf.start_fields cfg command
    intro i hi
    obtain ⟨next, m, hn, hm, hlt, hle⟩ := h.next hstate i hi
    refine ⟨next, m, by rw [hnext, hn], by rw [hmatched, hm], hlt, ?_⟩
    rw [Raft.logEnd_start hstate]
    omega
  | trim hrf =>
    have hend : rf'.logEnd = rf.logEnd := Raft.len_snapshotTrim hrf
    obtain ⟨rest, -, hrf⟩ := Raft.snapshotTrim_eq_some hrf
    have hst : rf.state = .leader := by rwa [hrf] at hst
    have hnext := h.next hst
    rw [← hend] at hnext
    rw [hrf] at hnext ⊢
    exact hnext

/-- What a leader knows of the other peers does not fall. -/
def NextGrows (rf rf' : Raft Cmd) : Prop :=
  ∀ p next' : ℕ, rf'.nextIndex[p]? = some next' → ∃ next ≤ next', rf.nextIndex[p]? = some next

lemma NextGrows.of_eq (h : rf'.nextIndex = rf.nextIndex) : NextGrows rf rf' :=
  fun _ next hnext => ⟨next, le_rfl, h ▸ hnext⟩

lemma NextGrows.advanceNext (rf : Raft Cmd) (q end_ : ℕ) :
    NextGrows rf (rf.advanceNext q end_) := by
  unfold Raft.advanceNext
  split_ifs with hgt
  · intro p next' hnext'
    rcases eq_or_ne q p with rfl | hne
    · have hq : q < rf.nextIndex.length := by
        simpa using (List.getElem?_eq_some_iff.mp hnext').1
      obtain rfl : end_ + 1 = next' := by simpa [hq] using hnext'
      rw [List.getElem?_eq_getElem hq, Option.getD_some] at hgt
      exact ⟨_, hgt.le, List.getElem?_eq_getElem hq⟩
    · exact ⟨next', le_rfl, by simpa [hne] using hnext'⟩
  · exact .of_eq rfl

/-- A leader that stays one stays in its term, and its `nextIndex` does not fall. -/
lemma TenureMove.tenure_of_leader (hm : TenureMove cfg rf bs rf') (hstate : rf.state = .leader)
    (hleader : rf'.state = .leader) : rf'.currentTerm = rf.currentTerm ∧ NextGrows rf rf' := by
  cases hm with
  | keep _ hT _ _ hnext => exact ⟨hT, .of_eq hnext⟩
  | @advance b p =>
    obtain ⟨next, matched, heq⟩ := rf.advanceNext_eq p b.end_
    exact ⟨by rw [heq], .advanceNext rf p b.end_⟩
  | follow hst => cases hleader.symm.trans hst
  | campaign => simp [Raft.becomeCandidate] at hleader
  | win hst => cases hstate.symm.trans hst
  | @start command =>
    obtain ⟨-, hT, hnext, -⟩ := rf.start_fields cfg command
    exact ⟨hT, .of_eq hnext⟩
  | trim hrf =>
    obtain ⟨rest, -, rfl⟩ := Raft.snapshotTrim_eq_some hrf
    exact ⟨rfl, .of_eq rfl⟩

end InRange

/-! ### Runs -/

section Run

variable [Zero Cmd] {P : Cluster cfg.peers Cmd → Action Cmd → Prop} {C C' : Cluster cfg.peers Cmd}
  {past : List (Cluster cfg.peers Cmd)} {a : Action Cmd}

lemma raft_inRange {l : List (Cluster cfg.peers Cmd)} (h : (raft cfg).Run P l) :
    ∀ C ∈ l, ∀ s, InRange cfg.peers (C.servers s).rf (C.servers s).broadcasts := by
  refine h.invariant ?_ ?_
  · rintro C rfl s
    exact .of_follower (Raft.state_make _ _)
  · intro C past a C' hr _ hC hnext s
    obtain ⟨hmove, hends⟩ := ((Cluster.moves_of_step hnext).peer s).tenure (raft_log_pos hr s)
    have hok := (raft_wired hr C List.mem_cons_self).servers s
    exact (hC s).move hmove hends (fun b hb => (hok.broadcasts b hb).term_le) (raft_log_pos hr s)

/-- The condition on a step: a peer that becomes leader has not compacted its log. -/
def ElectsUncompacted (C : Cluster cfg.peers Cmd) : Action Cmd → Prop
  | .act s (.voteDecide e) =>
    ∀ el, (C.servers s).elections[e]? = some el → (C.servers s).rf.state = .candidate →
      (C.servers s).rf.currentTerm = el.term → (C.servers s).rf.X = 0
  | _ => True

/-- A peer that was not leader before a step and is afterwards has won an election. -/
lemma Cluster.MovesPeer.win {s : ℕ} {srv : Server cfg.peers Cmd} (h : C.MovesPeer cfg s a srv)
    (hP : ElectsUncompacted C a) (hstate : (C.servers s).rf.state ≠ .leader)
    (hleader : srv.rf.state = .leader) :
    srv.rf = (C.servers s).rf.becomeLeader cfg ∧ (C.servers s).rf.X = 0 := by
  cases h with
  | other => exact absurd hleader hstate
  | @act a eff _ hacts =>
    by_cases hnl : eff.leader = none
    · rcases hacts.ballot hnl with hs | hc | ⟨T, -, hf⟩
      · exact absurd (hs.state ▸ hleader) hstate
      · simp [hc, Raft.becomeCandidate] at hleader
      · simp [hf, Raft.becomeFollower] at hleader
    · cases hacts with
      | voteWin hel _ hcand hterm => exact ⟨rfl, hP _ hel hcand hterm⟩
      | _ => exact absurd rfl hnl
  | @handleVote k call =>
    generalize hr : (C.servers s).rf.RequestVote call.args = r at hleader ⊢
    have hout := hr ▸ (C.servers s).rf.voteOutcome call.args
    cases hout with
    | refuse => exact absurd hleader hstate
    | bump | bumpGrant => simp [Raft.becomeFollower] at hleader
    | grant =>
      rw [Raft.state_persistUnlessKilled] at hleader
      exact absurd hleader hstate
  | @handleAppend k call =>
    rcases (Raft.appendOutcome cfg (C.servers s).rf call.args).followed with ⟨-, hr⟩ | ⟨-, hf⟩
    · rw [hr] at hleader
      exact absurd hleader hstate
    · cases hleader.symm.trans hf.state
  | crash => exact absurd hleader hstate
  | restart => cases hleader.symm.trans (Raft.state_make _ _)

/-- Peer `s` became leader in the step to `D'`, and `nextIndex` has not fallen below the end that
its log had then. -/
structure Leading (s : ℕ) (C D D' : Cluster cfg.peers Cmd) : Prop where
  before : (D.servers s).rf.state ≠ .leader
  after : (D'.servers s).rf.state = .leader
  term : (D'.servers s).rf.currentTerm = (C.servers s).rf.currentTerm
  next : ∀ i ∈ (C.servers s).rf.nextIndex, (D'.servers s).rf.logEnd ≤ i

lemma raft_leading (h : (raft cfg).Run ElectsUncompacted (C :: past)) {s : ℕ}
    (hleader : (C.servers s).rf.state = .leader) :
    ∃ D D' rest, D' :: D :: rest <:+ C :: past ∧ Leading s C D D' := by
  have hrun : ∀ E ∈ (C :: past).head?, (E.servers s).rf.state = .leader →
      ∃ D D' rest, D' :: D :: rest <:+ C :: past ∧ Leading s E D D' := by
    refine h.history (I := fun l => ∀ E ∈ l.head?, (E.servers s).rf.state = .leader →
      ∃ D D' rest, D' :: D :: rest <:+ l ∧ Leading s E D D') ?_ ?_
    · rintro E rfl _ ⟨⟩ hE
      cases hE.symm.trans (Raft.state_make _ _)
    · rintro E past a E' hr ih hP hnext _ ⟨⟩ hE'
      have hm := (Cluster.moves_of_step hnext).peer s
      by_cases hE : (E.servers s).rf.state = .leader
      · -- the tenure goes on
        obtain ⟨D, D', rest, hsuf, hl⟩ := ih E rfl hE
        obtain ⟨hterm, hgrows⟩ := (hm.tenure (raft_log_pos hr s)).1.tenure_of_leader hE hE'
        refine ⟨D, D', rest, hsuf.trans (List.suffix_cons _ _), hl.before, hl.after,
          hl.term.trans hterm.symm, fun i hi => ?_⟩
        obtain ⟨p, hp⟩ := List.getElem?_of_mem hi
        obtain ⟨next, hle, hnext⟩ := hgrows p i hp
        exact (hl.next next (List.mem_of_getElem? hnext)).trans hle
      · -- the tenure begins, and the length of the log is its end
        obtain ⟨hrf, hX⟩ := hm.win hP hE hE'
        refine ⟨E, E', past, List.suffix_rfl, hE, hE', rfl, ?_⟩
        rw [hrf]
        intro i hi
        rw [List.eq_of_mem_replicate hi, Raft.logEnd, Raft.becomeLeader, hX, Nat.zero_add]
  exact hrun C rfl hleader

/-- `nextIndex` stays in range: in every run in which no peer becomes leader with a compacted log,
with any calls of `Snapshot` besides, there is for every leader the state `D'` in which it became
leader in this term, and for every peer `nextIndex` is neither below the end that the log had there
nor above the end that it has now, and `matchedIndex` is below `nextIndex`. So the previous entry
that `heartbeat` looks up is not behind the log, and `nextIndex` is above the offset that the log
had at the election. -/
theorem nextIndex_in_range (h : (raft cfg).Run ElectsUncompacted (C :: past)) {s : ℕ}
    (hleader : (C.servers s).rf.state = .leader) :
    ∃ D D' rest, D' :: D :: rest <:+ C :: past ∧ (D.servers s).rf.state ≠ .leader ∧
      (D'.servers s).rf.state = .leader ∧
      (D'.servers s).rf.currentTerm = (C.servers s).rf.currentTerm ∧
      ∀ i < cfg.peers, ∃ next m, (C.servers s).rf.nextIndex[i]? = some next ∧
        (C.servers s).rf.matchedIndex[i]? = some m ∧
        (D'.servers s).rf.X + (D'.servers s).rf.log.len ≤ next ∧
        next ≤ (C.servers s).rf.X + (C.servers s).rf.log.len ∧ m < next ∧
        (C.servers s).rf.logIndex2sliceIndex next - 1 < (C.servers s).rf.log.len ∧
        ¬next ≤ (D'.servers s).rf.X := by
  obtain ⟨D, D', rest, hsuf, hl⟩ := raft_leading h hleader
  refine ⟨D, D', rest, hsuf, hl.before, hl.after, hl.term, fun i hi => ?_⟩
  obtain ⟨next, m, hnext, hm, hlt, hle⟩ := (raft_inRange h C List.mem_cons_self s).next hleader i hi
  have hbase := hl.next next (List.mem_of_getElem? hnext)
  have hpos : 0 < (D'.servers s).rf.log.len := by
    obtain ⟨past', hr⟩ := peer_of_raft h D' (hsuf.subset List.mem_cons_self) s
    exact peer_log_pos hr _ List.mem_cons_self
  unfold Raft.logEnd at hbase hle
  refine ⟨next, m, hnext, hm, hbase, hle, hlt, ?_, by omega⟩
  unfold Raft.logIndex2sliceIndex
  omega

/-- A check of `ElectsUncompacted` that does not look at who wins. -/
def electsUncompacted (C : Cluster cfg.peers Cmd) : Action Cmd → Bool
  | .act s (.voteDecide _) => (C.servers s).rf.X == 0
  | _ => true

omit [Zero Cmd] in
lemma electsUncompacted_sound (C : Cluster cfg.peers Cmd) (a : Action Cmd)
    (h : electsUncompacted C a = true) : ElectsUncompacted C a := by
  unfold electsUncompacted at h
  unfold ElectsUncompacted
  split at h
  · exact fun _ _ _ _ => beq_iff_eq.mp h
  · trivial

/-- Peer 0 commits an entry as the first leader and compacts its log up to it. -/
def compactedOnce : List (Action ℕ) :=
  electing 0 0 1 0 ++ [.act 0 (.start (some 11))] ++ replicating 0 0 1 0 ++
    [.act 0 (.peerDecide 0), .act 0 .applyLog,
      .act 0 (.snapshot 1 [.int 1, .commands [some 11]]), .act 0 (.snapshotPublish 0),
      .act 0 (.snapshotTrim 0)]

/-- The first leader compacts its log after it has heard of peer 1. -/
theorem nextIndex_in_range_compacted :
    ∃ (C : Cluster (Config.doubling 2).peers ℕ) (past : List (Cluster (Config.doubling 2).peers ℕ)),
      (raft (.doubling 2)).Run ElectsUncompacted (C :: past) ∧
      ((C.servers 0).rf.state = .leader ∧ (C.servers 0).rf.X = 1 ∧
        (C.servers 0).rf.nextIndex = [1, 2]) ∧
      ∃ next m, (C.servers 0).rf.nextIndex[1]? = some next ∧
        (C.servers 0).rf.matchedIndex[1]? = some m ∧ m < next ∧
        next ≤ (C.servers 0).rf.X + (C.servers 0).rf.log.len := by
  obtain ⟨C, past, hr, hC⟩ : ∃ (C : Cluster (Config.doubling 2).peers ℕ)
      (past : List (Cluster (Config.doubling 2).peers ℕ)),
      (raft (.doubling 2)).Run ElectsUncompacted (C :: past) ∧
      ((C.servers 0).rf.state = .leader ∧ (C.servers 0).rf.X = 1 ∧
        (C.servers 0).rf.nextIndex = [1, 2]) :=
    Machine.exists_run_of_trace electsUncompacted electsUncompacted_sound compactedOnce
      (by decide +kernel)
  obtain ⟨D, D', rest, -, -, -, -, hrange⟩ := nextIndex_in_range hr hC.1
  obtain ⟨next, m, hnext, hm, -, hle, hlt, -⟩ := hrange 1 (by decide)
  exact ⟨C, past, hr, hC, next, m, hnext, hm, hlt, hle⟩

/-- Peer 0 loses the leadership after it has compacted its log, and is about to win it back. -/
def compactedCandidate : List (Action ℕ) :=
  compactedOnce ++
    [.act 1 .tick, .act 1 .electionCheck, .act 1 .electionStart, .act 1 (.voteCall 0 0),
      .handleVote 1] ++ (electing 0 1 1 2).dropLast

/-- Peer 0 becomes leader with the last index 1. Its `nextIndex` for peer 1 is 1 as well, which is
not behind the offset of its log: the goroutine that is to send the next entry gives up. -/
theorem compactedCandidate_skips :
    ∃ (C C' : Cluster (Config.doubling 2).peers ℕ), (raft (.doubling 2)).Reachable C ∧
      (raft (.doubling 2)).next C (.act 0 (.voteDecide 1)) C' ∧
      (C.servers 0).rf.state ≠ .leader ∧ (C'.servers 0).rf.state = .leader ∧
      (C'.servers 0).rf.X + (C'.servers 0).rf.log.len = 2 ∧
      (C'.servers 0).rf.nextIndex[1]? = some 1 ∧
      (((C'.servers 0).rf.Start (.doubling 2) (some 12)).1).givesUp 1 1 2 := by
  obtain ⟨C, C', past, hr, hstep, hp⟩ : ∃ (C C' : Cluster (Config.doubling 2).peers ℕ)
      (past : List (Cluster (Config.doubling 2).peers ℕ)),
      (raft (.doubling 2)).Run Machine.Any (C :: past) ∧
      (raft (.doubling 2)).next C (.act 0 (.voteDecide 1)) C' ∧
      ((C.servers 0).rf.state ≠ .leader ∧ (C'.servers 0).rf.state = .leader ∧
        (C'.servers 0).rf.X + (C'.servers 0).rf.log.len = 2 ∧
        (C'.servers 0).rf.nextIndex[1]? = some 1 ∧
        (((C'.servers 0).rf.Start (.doubling 2) (some 12)).1).givesUp 1 1 2) :=
    Machine.exists_step_of_trace (fun _ _ => true) (fun _ _ _ => trivial) compactedCandidate
      (by decide +kernel)
  exact ⟨C, C', ⟨past, hr⟩, hstep, hp⟩

end Run

end DistLabs
