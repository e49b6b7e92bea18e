import DistLabs.Lib.Machine
import DistLabs.Lib.Quorum
import Mathlib.Logic.Function.Basic
import Mathlib.Data.Set.Insert

/-!
# Elections with a vote that may be overwritten

Servers move through terms. In a term a server may stand for election, and then is *running* until
it wins or retires; it may grant its vote, and it may follow another server, which overwrites its
vote. It may only follow a server whose chances in that term are over (`State.Past`).

The vote of a term is therefore not written once, but the *first* vote is, and only the first votes
can make a server win that is still running: a second vote in the same term goes to a server that
is past that term. Two winners of one term would need two quorums of first votes.
-/

namespace DistLabs

namespace Ballot

variable {σ : Type*}

/-- `first v T` is the first vote of `v` in term `T`; `grants` and `winners` record the votes
granted (by whom, in which term, to whom) and the elections won (term and winner). -/
structure State (σ : Type*) where
  term : σ → ℕ
  vote : σ → Option σ
  running : σ → Prop
  first : σ → ℕ → Option σ
  grants : Set (σ × ℕ × σ)
  winners : Set (ℕ × σ)

/-- Server `c` can no longer win term `T`. -/
def State.Past (s : State σ) (c : σ) (T : ℕ) : Prop := T < s.term c ∨ T = s.term c ∧ ¬ s.running c

/-! ### Invariant -/

/-- What holds in every reachable state. -/
structure Inv (Q : QuorumSystem σ) (s : State σ) : Prop where
  first_le : ∀ v T c, s.first v T = some c → T ≤ s.term v
  vote_none : ∀ v, s.vote v = none → s.first v (s.term v) = none
  vote_some : ∀ v c, s.vote v = some c → s.first v (s.term v) = some c ∨ s.Past c (s.term v)
  running : ∀ c, s.running c → s.first c (s.term c) = some c
  grant : ∀ v T c, (v, T, c) ∈ s.grants → s.first v T = some c ∨ s.Past c T
  winner : ∀ T c, (T, c) ∈ s.winners →
    s.Past c T ∧ ∃ A, Q.IsQuorum A ∧ ∀ v ∈ A, s.first v T = some c

variable {Q : QuorumSystem σ} {s s' : State σ}

/-- First votes, lost chances and the records stay. -/
structure Extends (s s' : State σ) : Prop where
  first : ∀ v T c, s.first v T = some c → s'.first v T = some c
  past : ∀ c T, s.Past c T → s'.Past c T
  grants : s.grants ⊆ s'.grants
  winners : s.winners ⊆ s'.winners

lemma Extends.refl (s : State σ) : Extends s s :=
  ⟨fun _ _ _ h => h, fun _ _ h => h, subset_rfl, subset_rfl⟩

lemma Extends.trans {s'' : State σ} (h : Extends s s') (h' : Extends s' s'') : Extends s s'' :=
  ⟨fun v T c hf => h'.first v T c (h.first v T c hf), fun c T hp => h'.past c T (h.past c T hp),
    h.grants.trans h'.grants, h.winners.trans h'.winners⟩

lemma State.Past.of_le {c : σ} {T : ℕ} (h : s.Past c T) (hterm : s.term c ≤ s'.term c)
    (hrun : s'.term c = s.term c → s'.running c → s.running c) : s'.Past c T := by
  rcases h with hlt | ⟨rfl, hnr⟩
  · exact .inl (by omega)
  · rcases Nat.lt_or_eq_of_le hterm with hlt | heq
    · exact .inl hlt
    · exact .inr ⟨heq, fun hr => hnr (hrun heq.symm hr)⟩

/-- What was granted and won stays justified. -/
lemma Inv.records (h : Inv Q s) (he : Extends s s') :
    (∀ v T c, (v, T, c) ∈ s.grants → s'.first v T = some c ∨ s'.Past c T) ∧
      ∀ T c, (T, c) ∈ s.winners →
        s'.Past c T ∧ ∃ A, Q.IsQuorum A ∧ ∀ v ∈ A, s'.first v T = some c := by
  refine ⟨fun v T c hg => ?_, fun T c hw => ?_⟩
  · exact (h.grant v T c hg).imp (he.first v T c) (he.past c T)
  · obtain ⟨hp, A, hA, hf⟩ := h.winner T c hw
    exact ⟨he.past c T hp, A, hA, fun v hv => he.first v T c (hf v hv)⟩

/-- In a term not yet reached there is no first vote. -/
lemma Inv.first_eq_none (hi : Inv Q s) {v : σ} {T : ℕ} (hT : s.term v < T) :
    s.first v T = none := by
  by_contra hne
  obtain ⟨c, hc⟩ := Option.ne_none_iff_exists'.mp hne
  have := hi.first_le v T c hc
  omega

/-- The vote `v` casts for `c` is the first one, or `c` is past the term. -/
lemma Inv.first_of_grant (hi : Inv Q s) {v c : σ} (hv : s.vote v = none ∨ s.vote v = some c) :
    (s.first v (s.term v)).getD c = c ∨ s.Past c (s.term v) := by
  rcases hv with hv | hv
  · simp [hi.vote_none v hv]
  · exact (hi.vote_some v c hv).imp_left fun h => by simp [h]

lemma not_past_of_running {c : σ} (h : s.running c) : ¬ s.Past c (s.term c) := by
  rintro (hlt | ⟨-, hnr⟩)
  · exact lt_irrefl _ hlt
  · exact hnr h

/-- What the invariant says of server `v` alone. -/
structure Votes (s : State σ) (v : σ) : Prop where
  first_le : ∀ T c, s.first v T = some c → T ≤ s.term v
  vote_none : s.vote v = none → s.first v (s.term v) = none
  vote_some : ∀ c, s.vote v = some c → s.first v (s.term v) = some c ∨ s.Past c (s.term v)
  running : s.running v → s.first v (s.term v) = some v

/-- A server that has at most stopped running. -/
lemma Inv.votes (hi : Inv Q s) (he : Extends s s') {v : σ} (hterm : s'.term v = s.term v)
    (hvote : s'.vote v = s.vote v) (hfirst : s'.first v = s.first v)
    (hrun : s'.running v → s.running v) : Votes s' v := by
  constructor
  · intro T c h
    rw [hterm]
    exact hi.first_le v T c (hfirst ▸ h)
  · rw [hvote, hfirst, hterm]
    exact hi.vote_none v
  · intro c h
    rw [hfirst, hterm]
    exact (hi.vote_some v c (hvote ▸ h)).imp_right (he.past c _)
  · intro h
    rw [hfirst, hterm]
    exact hi.running v (hrun h)

/-- Only server `v` has changed. -/
lemma Inv.change (hi : Inv Q s) (he : Extends s s') {v : σ}
    (hother : ∀ w, w ≠ v → s'.term w = s.term w ∧ s'.vote w = s.vote w ∧
      s'.first w = s.first w ∧ (s'.running w → s.running w))
    (hv : Votes s' v)
    (hgrant : ∀ w T c, (w, T, c) ∈ s'.grants → s'.first w T = some c ∨ s'.Past c T)
    (hwinner : ∀ T c, (T, c) ∈ s'.winners →
      s'.Past c T ∧ ∃ A, Q.IsQuorum A ∧ ∀ w ∈ A, s'.first w T = some c) : Inv Q s' := by
  have hvotes : ∀ w, Votes s' w := by
    intro w
    rcases eq_or_ne w v with rfl | hne
    · exact hv
    · obtain ⟨hterm, hvote, hfirst, hrun⟩ := hother w hne
      exact hi.votes he hterm hvote hfirst hrun
  exact ⟨fun w => (hvotes w).first_le, fun w => (hvotes w).vote_none,
    fun w => (hvotes w).vote_some, fun w => (hvotes w).running, hgrant, hwinner⟩

/-! ### Steps -/

variable [DecidableEq σ]

/-- Write the first vote of `v` in term `T`, unless there is one. -/
def State.recordFirst (s : State σ) (v : σ) (T : ℕ) (c : σ) : σ → ℕ → Option σ :=
  fun w U => if w = v ∧ U = T then some ((s.first v T).getD c) else s.first w U

/-- The steps of an election protocol. -/
inductive Step (Q : QuorumSystem σ) (s : State σ) : State σ → Prop
  | stand (c : σ) :
      Step Q s
        { s with
          term := Function.update s.term c (s.term c + 1)
          vote := Function.update s.vote c (some c)
          running := Function.update s.running c True
          first := s.recordFirst c (s.term c + 1) c }
  | bump (v : σ) {T : ℕ} (hT : s.term v < T) :
      Step Q s
        { s with
          term := Function.update s.term v T
          vote := Function.update s.vote v none
          running := Function.update s.running v False }
  | retire (v : σ) : Step Q s { s with running := Function.update s.running v False }
  | grant (v c : σ) (hv : s.vote v = none ∨ s.vote v = some c) :
      Step Q s
        { s with
          vote := Function.update s.vote v (some c)
          first := s.recordFirst v (s.term v) c
          grants := insert (v, s.term v, c) s.grants }
  | follow (v c : σ) {T : ℕ} (hT : s.term v ≤ T) (hc : s.Past c T) :
      Step Q s
        { s with
          term := Function.update s.term v T
          vote := Function.update s.vote v (some c)
          running := Function.update s.running v False }
  | win (c : σ) {A : Finset σ} (hA : Q.IsQuorum A) (hc : s.running c)
      (hg : ∀ v ∈ A, v = c ∨ (v, s.term c, c) ∈ s.grants) :
      Step Q s
        { s with
          running := Function.update s.running c False
          winners := insert (s.term c, c) s.winners }

/-- No server has voted or stood. -/
def initial (σ : Type*) : State σ :=
  ⟨fun _ => 0, fun _ => none, fun _ => False, fun _ _ => none, ∅, ∅⟩

/-- The protocol as a transition system. -/
def machine (Q : QuorumSystem σ) : Machine (State σ) Unit where
  init s := s = initial σ
  next s _ s' := Step Q s s'

lemma first_recordFirst {v w c d : σ} {T U : ℕ} (h : s.first w U = some d) :
    s.recordFirst v T c w U = some d := by
  unfold State.recordFirst
  split_ifs with hw
  · obtain ⟨rfl, rfl⟩ := hw
    simp [h]
  · exact h

/-- A step of server `v` that does not lower its term, nor lets it run again in the same term. -/
lemma past_update {v : σ} {T : ℕ} {p : Prop} (hterm : s.term v ≤ T)
    (hrun : T = s.term v → p → s.running v) (ht : s'.term = Function.update s.term v T)
    (hr : s'.running = Function.update s.running v p) : ∀ c U, s.Past c U → s'.Past c U := by
  intro c U h
  rcases eq_or_ne c v with rfl | hc
  · exact h.of_le (by simpa [ht] using hterm) (by simpa [ht, hr] using hrun)
  · exact h.of_le (by simp [ht, hc]) (by simp [hr, hc])

lemma Step.extends (h : Step Q s s') : Extends s s' := by
  cases h with
  | stand c =>
    exact ⟨fun v T d h => first_recordFirst h, past_update (Nat.le_succ _) (by omega) rfl rfl,
      subset_rfl, subset_rfl⟩
  | bump v hT =>
    exact ⟨fun _ _ _ h => h, past_update hT.le (by simp) rfl rfl, subset_rfl, subset_rfl⟩
  | retire v =>
    exact ⟨fun _ _ _ h => h, past_update le_rfl (p := False) (by simp) (by simp) rfl,
      subset_rfl, subset_rfl⟩
  | grant v c hv =>
    exact ⟨fun _ _ _ h => first_recordFirst h, fun _ _ h => h, Set.subset_insert _ _, subset_rfl⟩
  | follow v c hT hc =>
    exact ⟨fun _ _ _ h => h, past_update hT (by simp) rfl rfl, subset_rfl, subset_rfl⟩
  | win c hA hc hg =>
    exact ⟨fun _ _ _ h => h, past_update le_rfl (p := False) (by simp) (by simp) rfl,
      subset_rfl, Set.subset_insert _ _⟩

lemma extends_of_steps (h : (machine Q).Steps s s') : Extends s s' := by
  induction h with
  | refl => exact .refl s
  | tail _ hn ih =>
    obtain ⟨_, hn⟩ := hn
    exact ih.trans (Step.extends hn)

/-! ### The invariant is kept -/

lemma recordFirst_self (v : σ) (T : ℕ) (c : σ) :
    s.recordFirst v T c v T = some ((s.first v T).getD c) := by
  simp [State.recordFirst]

lemma recordFirst_of_ne {v w : σ} (hw : w ≠ v) (T : ℕ) (c : σ) :
    s.recordFirst v T c w = s.first w := by
  funext U
  simp [State.recordFirst, hw]

lemma recordFirst_le {v w c d : σ} {T U : ℕ} (hi : Inv Q s) (hT : s.term v ≤ T)
    (h : s.recordFirst v T c w U = some d) : U ≤ Function.update s.term v T w := by
  rcases eq_or_ne w v with rfl | hw
  · rw [Function.update_self]
    unfold State.recordFirst at h
    split_ifs at h with hU
    · exact hU.2.le
    · exact (hi.first_le _ _ _ h).trans hT
  · rw [recordFirst_of_ne hw] at h
    rw [Function.update_of_ne hw]
    exact hi.first_le _ _ _ h

/-- No first vote is in a later term than the one its server moves to. -/
lemma Inv.first_le_of_le (hi : Inv Q s) {v : σ} {T : ℕ} (hT : s.term v ≤ T) (U : ℕ) (c : σ)
    (h : s.first v U = some c) : U ≤ Function.update s.term v T v := by
  rw [Function.update_self]
  exact (hi.first_le v U c h).trans hT

lemma Inv.step (hi : Inv Q s) (h : Step Q s s') : Inv Q s' := by
  have he := h.extends
  obtain ⟨hgr, hwin⟩ := hi.records he
  cases h with
  | stand c =>
    have hfirst : s.recordFirst c (s.term c + 1) c c (s.term c + 1) = some c := by
      rw [recordFirst_self, hi.first_eq_none (Nat.lt_succ_self _)]
      rfl
    refine hi.change (v := c) he (fun w hne => by simp [hne, recordFirst_of_ne]) ?_ hgr hwin
    constructor
    · exact fun T d h => recordFirst_le hi (Nat.le_succ _) h
    · simp
    · intro d hd
      obtain rfl : c = d := by simpa using hd
      exact .inl (by simpa using hfirst)
    · simpa using hfirst
  | @bump v T hT =>
    refine hi.change (v := v) he (fun w hne => by simp [hne]) ?_ hgr hwin
    constructor
    · exact hi.first_le_of_le hT.le
    · simpa using hi.first_eq_none hT
    · simp
    · simp
  | retire v =>
    refine hi.change (v := v) he (fun w hne => by simp [hne]) ?_ hgr hwin
    exact hi.votes he rfl rfl rfl (by simp)
  | grant v c hv =>
    have hfirst : s.recordFirst v (s.term v) c v (s.term v) = some c ∨ s.Past c (s.term v) := by
      rw [recordFirst_self]
      exact (hi.first_of_grant hv).imp_left fun h => by rw [h]
    refine hi.change (v := v) he (fun w hne => by simp [hne, recordFirst_of_ne]) ?_ ?_ hwin
    · constructor
      · intro T d h
        simpa using recordFirst_le hi le_rfl h
      · simp
      · intro d hd
        obtain rfl : c = d := by simpa using hd
        exact hfirst
      · exact fun hr => he.first v _ v (hi.running v hr)
    · intro w T d hg
      rcases Set.mem_insert_iff.mp hg with hnew | hold
      · cases hnew
        exact hfirst
      · exact hgr w T d hold
  | @follow v c T hT hc =>
    refine hi.change (v := v) he (fun w hne => by simp [hne]) ?_ hgr hwin
    constructor
    · exact hi.first_le_of_le hT
    · simp
    · intro d hd
      obtain rfl : c = d := by simpa using hd
      refine .inr ?_
      simp only [Function.update_self]
      exact he.past c T hc
    · simp
  | @win c A hA hc hg =>
    refine hi.change (v := c) he (fun w hne => by simp [hne]) ?_ hgr ?_
    · exact hi.votes he rfl rfl rfl (by simp)
    · intro T d hw
      rcases Set.mem_insert_iff.mp hw with hnew | hold
      · cases hnew
        refine ⟨.inr ⟨rfl, by simp⟩, A, hA, fun v hv => ?_⟩
        -- the candidate is still running, so that the votes it got are first votes
        rcases hg v hv with rfl | hgv
        · exact hi.running v hc
        · exact (hi.grant v _ c hgv).resolve_right (not_past_of_running hc)
      · exact hwin T d hold

lemma inv_of_reachable (h : (machine Q).Reachable s) : Inv Q s := by
  refine h.invariant ?_ fun s _ s' hi hs => hi.step hs
  rintro s rfl
  constructor <;> simp [initial]

/-- A term is won by one server at most. -/
lemma winner_unique (h : (machine Q).Reachable s) {T : ℕ} {c d : σ} (hc : (T, c) ∈ s.winners)
    (hd : (T, d) ∈ s.winners) : c = d := by
  have hi := inv_of_reachable h
  obtain ⟨-, A, hA, hfc⟩ := hi.winner T c hc
  obtain ⟨-, B, hB, hfd⟩ := hi.winner T d hd
  obtain ⟨v, hvA, hvB⟩ := Q.inter hA hB
  exact Option.some.inj ((hfc v hvA).symm.trans (hfd v hvB))

/-- A server that is running in a term has not won it. -/
lemma not_winner_of_running (h : (machine Q).Reachable s) {c : σ} (hc : s.running c) :
    (s.term c, c) ∉ s.winners := fun hw =>
  not_past_of_running hc ((inv_of_reachable h).winner _ c hw).1

end Ballot

end DistLabs
