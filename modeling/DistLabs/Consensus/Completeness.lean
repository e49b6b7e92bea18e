import DistLabs.Consensus.ReplicatedLog

/-!
# What a quorum has held is final

An entry that a quorum has held in its own term is, with everything before it, in the log of every
later leader. So the servers' commit indices only cover entries that are final, and entries applied
at the same position are equal.
-/

namespace DistLabs

open Chronicle

namespace ReplicatedLog

variable {V E : Type*} {P : Params V E} {t u : State V E} {i T c : ℕ}

/-! ### Records only grow -/

structure Extends (t u : State V E) : Prop where
  reign : Le t.reign u.reign
  ballot : ∀ c T B, t.ballot c T = some B → u.ballot c T = some B
  votes : t.votes ⊆ u.votes
  messages : t.messages ⊆ u.messages
  held : t.held ⊆ u.held
  seen : t.seen ⊆ u.seen
  applied : t.applied ⊆ u.applied

lemma Extends.refl (t : State V E) : Extends t t :=
  ⟨.refl _, fun _ _ _ h => h, subset_rfl, subset_rfl, subset_rfl, subset_rfl, subset_rfl⟩

lemma Extends.trans {w : State V E} (h : Extends t u) (h' : Extends u w) : Extends t w :=
  ⟨h.reign.trans h'.reign, fun c T B hB => h'.ballot c T B (h.ballot c T B hB),
    h.votes.trans h'.votes, h.messages.trans h'.messages, h.held.trans h'.held,
    h.seen.trans h'.seen, h.applied.trans h'.applied⟩

lemma extends_record (t : State V E) : Extends t (t.record P) :=
  { Extends.refl t with held := Set.subset_union_left, seen := Set.subset_union_left }

section Step

variable [DecidableEq V]

lemma Inv.extends_step (h : Inv P t) (hstep : Step P t u) : Extends t u := by
  have href := Extends.refl t
  cases hstep with
  | stand v => exact { href with ballot := fun c T B hB => h.stood_of_ballot v hB }
  | grant => exact { href with votes := Set.subset_insert _ _ }
  | win v _ hnew _ _ => exact { href with reign := le_elect hnew _ }
  | append v _ hr _ => exact { href with reign := le_append hr _ }
  | send => exact { href with messages := Set.subset_insert _ _ }
  | apply => exact { href with applied := Set.subset_insert _ _ }
  | _ => exact { href with }

/-- A step, followed by taking note. -/
lemma Step.steps (h : Step P t u) : (machine P).Steps t (u.record P) := .single () ⟨u, h, rfl⟩

lemma extends_of_steps (h : (machine P).Reachable t) (hs : (machine P).Steps t u) :
    Extends t u := by
  induction hs with
  | refl => exact .refl t
  | tail hsteps hnext ih =>
    obtain ⟨-, w, hw, rfl⟩ := hnext
    exact ih.trans (((inv_of_reachable (h.steps hsteps)).extends_step hw).trans
      (extends_record w))

/-- What the servers hold now, and their commit indices, have been taken note of. -/
lemma current_of_reachable (h : (machine P).Reachable t) (v : V) :
    (∀ i, Has P.term (t.server v).log i (t.server v).term →
        (v, i, (t.server v).term) ∈ t.held) ∧
      (v, (t.server v).term, (t.server v).commit) ∈ t.seen := by
  have hrec : ∃ u : State V E, t = u.record P := by
    obtain ⟨past, hr⟩ := h
    cases hr with
    | init hi => exact ⟨_, hi⟩
    | next _ _ hn =>
      obtain ⟨u, -, rfl⟩ := hn
      exact ⟨u, rfl⟩
  obtain ⟨u, rfl⟩ := hrec
  exact ⟨fun i hi => mem_held_record.mpr (.inr ⟨rfl, hi⟩),
    mem_seen_record.mpr (.inr ⟨rfl, rfl⟩)⟩

end Step

/-! ### Leader completeness -/

lemma Chosen.mono (h : Chosen P t.held i T) (he : Extends t u) : Chosen P u.held i T := by
  obtain ⟨A, hA, hheld⟩ := h
  exact ⟨A, hA, fun v hv => he.held (hheld v hv)⟩

lemma Inv.not_lacks (h : Inv P t) (hc : Chosen P t.held i T) : ¬ Lacks P.term t.reign i T := by
  intro hlacks
  obtain ⟨A, hA, hheld⟩ := hc
  obtain ⟨T', r, hlt, hr, hno⟩ := h.blocked i T hlacks
  obtain ⟨v, hvA, hv⟩ := P.quorums.inter hA (h.voters T' r hr (Nat.zero_lt_of_lt hlt)).1
  exact hno v hv (hheld v hvA)

lemma Inv.reign_of_chosen (h : Inv P t) (hc : Chosen P t.held i T) :
    ∃ r, t.reign T = some r ∧ Has P.term r.log i T := by
  obtain ⟨A, hA, hheld⟩ := hc
  obtain ⟨v, hv, -⟩ := P.quorums.inter hA hA
  exact (h.held v i T (hheld v hv)).2

/-- Leader completeness: a leader has, up to every entry that a quorum has held in its term, the log
of the leader of that term. -/
lemma Inv.complete (h : Inv P t) (hc : Chosen P t.held i T) {r r' : Reign E}
    (hr : t.reign T = some r) {T' : ℕ} (hle : T ≤ T') (hr' : t.reign T' = some r') :
    r.log.take (i + 1) <+: r'.log := by
  obtain ⟨r₀, hr₀, hi⟩ := h.reign_of_chosen hc
  obtain rfl : r = r₀ := Option.some.inj (hr.symm.trans hr₀)
  exact h.valid.complete hr hi (h.not_lacks hc) hle hr'

/-! ### Commit indices -/

/-- An index covered by what was chosen in term `T` or before. -/
def Decided (P : Params V E) (t : State V E) (c T : ℕ) : Prop :=
  c = 0 ∨ ∃ i T₀, Chosen P t.held i T₀ ∧ T₀ ≤ T ∧ c ≤ i

/-- A log that agrees, up to such an index, with the log of the leader of the term in which it was
chosen. -/
def Settled (P : Params V E) (t : State V E) (ℓ : List E) (c T : ℕ) : Prop :=
  c = 0 ∨ ∃ i T₀ r, Chosen P t.held i T₀ ∧ T₀ ≤ T ∧ c ≤ i ∧ t.reign T₀ = some r ∧
    Has P.term r.log i T₀ ∧ r.log.take (c + 1) <+: ℓ

lemma Settled.decided {ℓ : List E} (h : Settled P t ℓ c T) : Decided P t c T := by
  rcases h with rfl | ⟨i, T₀, r, hc, hT, hi, -⟩
  · exact .inl rfl
  · exact .inr ⟨i, T₀, hc, hT, hi⟩

lemma Decided.mono (h : Decided P t c T) (he : Extends t u) : Decided P u c T := by
  rcases h with rfl | ⟨i, T₀, hc, hT, hi⟩
  · exact .inl rfl
  · exact .inr ⟨i, T₀, hc.mono he, hT, hi⟩

lemma Settled.mono {ℓ ℓ' : List E} {T' : ℕ} (h : Settled P t ℓ c T) (he : Extends t u)
    (hT : T ≤ T') (hp : ℓ <+: ℓ') : Settled P u ℓ' c T' := by
  rcases h with rfl | ⟨i, T₀, r, hc, hT₀, hi, hr, hhas, hpre⟩
  · exact .inl rfl
  · obtain ⟨r', hr', -, hlog⟩ := he.reign T₀ r hr
    have hlen := hhas.lt
    refine .inr ⟨i, T₀, r', hc.mono he, hT₀.trans hT, hi, hr', hhas.mono hlog, ?_⟩
    rw [take_eq_of_isPrefix hlog (by omega)]
    exact hpre.trans hp

/-- A leader has what was settled in its term or before. -/
lemma Inv.settled_isPrefix (h : Inv P t) {ℓ : List E} (hs : Settled P t ℓ c T) (hc : c ≠ 0)
    {T' : ℕ} (hle : T ≤ T') {r' : Reign E} (hr' : t.reign T' = some r') :
    ℓ.take (c + 1) <+: r'.log := by
  obtain ⟨i, T₀, r, hchosen, hT, hi, hr, hhas, hpre⟩ := hs.resolve_left hc
  have hlen := hhas.lt
  have htake : r.log.take (c + 1) = ℓ.take (c + 1) := by
    have heq := List.prefix_iff_eq_take.mp hpre
    rwa [List.length_take, Nat.min_eq_left (by omega)] at heq
  rw [← htake]
  exact (List.take_prefix_take_left (by omega)).trans
    (h.complete hchosen hr (hT.trans hle) hr')

/-- An entry that was applied is the one chosen at its position. -/
def Final (P : Params V E) (t : State V E) (i : ℕ) (e : E) : Prop :=
  ∃ j T r, Chosen P t.held j T ∧ i ≤ j ∧ t.reign T = some r ∧ r.log[i]? = some e

lemma Final.mono {e : E} (h : Final P t i e) (he : Extends t u) : Final P u i e := by
  obtain ⟨j, T, r, hc, hi, hr, hlog⟩ := h
  obtain ⟨r', hr', -, hp⟩ := he.reign T r hr
  refine ⟨j, T, r', hc.mono he, hi, hr', ?_⟩
  rw [getElem?_of_isPrefix hp (List.getElem?_eq_some_iff.mp hlog).1, hlog]

/-- Entries chosen at one position are equal. -/
lemma Inv.final_unique (h : Inv P t) {e e' : E} (hf : Final P t i e) (hf' : Final P t i e') :
    e = e' := by
  obtain ⟨j, T, r, hc, hi, hr, hlog⟩ := hf
  obtain ⟨j', T', r', hc', hi', hr', hlog'⟩ := hf'
  have hagree : ∀ {j T T' : ℕ} {r r' : Reign E}, Chosen P t.held j T → i ≤ j →
      t.reign T = some r → T ≤ T' → t.reign T' = some r' → r'.log[i]? = r.log[i]? := by
    intro j T T' r r' hc hi hr hT hr'
    obtain ⟨r₀, hr₀, hhas⟩ := h.reign_of_chosen hc
    obtain rfl : r = r₀ := Option.some.inj (hr.symm.trans hr₀)
    have hlen := hhas.lt
    rw [getElem?_of_isPrefix (h.complete hc hr hT hr') (by simp; omega),
      List.getElem?_take_of_lt (by omega)]
  rcases Nat.le_total T T' with hT | hT
  · rw [hagree hc hi hr hT hr', hlog] at hlog'
    exact Option.some.inj hlog'
  · rw [hagree hc' hi' hr' hT hr, hlog'] at hlog
    exact (Option.some.inj hlog).symm

/-- What the commit indices cover is decided, wherever they have got to. -/
structure Safe (P : Params V E) (t : State V E) : Prop where
  commit : ∀ v, Settled P t (t.server v).log (t.server v).commit (t.server v).term
  seen : ∀ v T c, (v, T, c) ∈ t.seen → Decided P t c T
  message : ∀ m ∈ t.messages, Decided P t m.commit m.term
  applied : ∀ i e, (i, e) ∈ t.applied → Final P t i e

/-- What the sender of a message is leader of has everything chosen up to the term of the
message. -/
lemma Inv.take_isPrefix_of_message (h : Inv P t) {m : Message E} (hm : m ∈ t.messages) {T₀ : ℕ}
    {r : Reign E} (hc : Chosen P t.held i T₀) (hr : t.reign T₀ = some r) (hT : T₀ ≤ m.term) :
    ∃ ℓ, m.log <+: ℓ ∧ ∀ k ≤ i + 1, r.log.take k <+: ℓ := by
  obtain ⟨hoffice, r', hr', hp⟩ := h.message m hm
  refine ⟨r'.log, hp, fun k hk => ?_⟩
  exact (List.take_prefix_take_left hk).trans (h.complete hc hr (hT.trans hoffice) hr')

/-- A message does not make a server drop what its commit index covers. -/
lemma Inv.settled_of_merge (h : Inv P t) {ℓ ℓ' : List E} {m : Message E} (hm : m ∈ t.messages)
    (hT : T ≤ m.term) (hs : Settled P t ℓ c T) (hlog : Merge P.term ℓ m.log ℓ') :
    Settled P t ℓ' c m.term := by
  cases hlog with
  | keep => exact hs.mono (.refl t) hT List.prefix_rfl
  | extend hp => exact hs.mono (.refl t) hT hp
  | @replace j x y hx hy hne =>
    rcases hs with rfl | ⟨i, T₀, r, hc, hT₀, hi, hr, hhas, hpre⟩
    · exact .inl rfl
    obtain ⟨r', hp, hall⟩ := h.take_isPrefix_of_message hm hc hr (hT₀.trans hT)
    have hcov := hall (c + 1) (by omega)
    refine .inr ⟨i, T₀, r, hc, hT₀.trans hT, hi, hr, hhas, ?_⟩
    refine List.prefix_of_prefix_length_le hcov hp ?_
    -- a shorter message would agree with the log everywhere
    by_contra hshort
    have hpm : m.log <+: ℓ := (List.prefix_of_prefix_length_le hp hcov (by omega)).trans hpre
    rw [getElem?_of_isPrefix hpm (List.getElem?_eq_some_iff.mp hy).1, hy] at hx
    exact hne (by rw [Option.some.inj hx])

/-- A commit index taken over from a message. -/
lemma Inv.settled_of_message (h : Inv P t) {ℓ : List E} {m : Message E} (hm : m ∈ t.messages)
    (hd : Decided P t m.commit m.term) (hcm : c ≤ m.commit) (hlen : c < m.log.length)
    (htake : ℓ.take (c + 1) = m.log.take (c + 1)) : Settled P t ℓ c m.term := by
  rcases hd with h0 | ⟨i, T₀, hc, hT, hi⟩
  · exact .inl (by omega)
  obtain ⟨r, hr, hhas⟩ := h.reign_of_chosen hc
  obtain ⟨r', hp, hall⟩ := h.take_isPrefix_of_message hm hc hr hT
  have hrlen := hhas.lt
  have heq : r.log.take (c + 1) = m.log.take (c + 1) := by
    refine eq_of_isPrefix (hall (c + 1) (by omega)) ((List.take_prefix _ _).trans hp) ?_
    simp only [List.length_take]
    omega
  refine .inr ⟨i, T₀, r, hc, hT, by omega, hr, hhas, ?_⟩
  rw [heq, ← htake]
  exact List.take_prefix _ _

/-- What a server applies. -/
lemma Settled.final {ℓ : List E} {e : E} (hs : Settled P t ℓ c T)
    (hpos : 0 < i) (hi : i ≤ c) (he : ℓ[i]? = some e) : Final P t i e := by
  rcases hs with rfl | ⟨j, T₀, r, hc, -, hj, hr, hhas, hpre⟩
  · omega
  have hlen := hhas.lt
  refine ⟨j, T₀, r, hc, by omega, hr, ?_⟩
  rw [getElem?_of_isPrefix hpre (by simp; omega), List.getElem?_take_of_lt (by omega)] at he
  exact he

section Step

variable [DecidableEq V]

lemma Safe.commit_step (hs : Safe P t) (h : Inv P t) (hstep : Step P t u) (v : V) :
    Settled P u (u.server v).log (u.server v).commit (u.server v).term := by
  have he := h.extends_step hstep
  have hold := fun w => (hs.commit w).mono he le_rfl List.prefix_rfl
  have hset : ∀ {w : V} {x : Replica E}, u.server = Function.update t.server w x →
      Settled P u x.log x.commit x.term →
      Settled P u (u.server v).log (u.server v).commit (u.server v).term := by
    intro w x hu hx
    rw [hu]
    exact (Function.forall_update_iff t.server (p := fun _ x =>
      Settled P u x.log x.commit x.term)).mpr ⟨hx, fun w _ => hold w⟩ v
  cases hstep with
  | stand w =>
    exact hset rfl ((hs.commit w).mono he (Nat.le_succ _) List.prefix_rfl)
  | bump w hT => exact hset rfl ((hs.commit w).mono he hT.le List.prefix_rfl)
  | win w => exact hset rfl ((hs.commit w).mono he le_rfl List.prefix_rfl)
  | append w => exact hset rfl ((hs.commit w).mono he le_rfl (List.prefix_append _ _))
  | receive w hm hterm hlog hcommit =>
    refine hset rfl (Settled.mono ?_ he le_rfl List.prefix_rfl)
    rcases hcommit with rfl | ⟨hcm, hlen, htake⟩
    · exact h.settled_of_merge hm hterm (hs.commit w) hlog
    · exact h.settled_of_message hm (hs.message _ hm) hcm hlen htake
  | commit w hrole hi hchosen =>
    obtain ⟨-, r, hr, hrlog⟩ := (h.replica w).leader hrole
    refine hset rfl (.inr ⟨_, _, r, hchosen, le_rfl, le_rfl, hr, hrlog ▸ hi, ?_⟩)
    rw [hrlog]
    exact List.take_prefix _ _
  | restart w => exact hset rfl (.inl rfl)
  | grant | send | apply => exact hold v

lemma Safe.step (hs : Safe P t) (h : Inv P t) (hstep : Step P t u) : Safe P u := by
  have he := h.extends_step hstep
  have hseen := fun v T c hv => (hs.seen v T c hv).mono he
  have hmessage := fun m hm => (hs.message m hm).mono he
  have happlied := fun i e hi => (hs.applied i e hi).mono he
  have hcommit := hs.commit_step h hstep
  cases hstep with
  | send v _ _ _ hsn =>
    refine ⟨hcommit, hseen, ?_, happlied⟩
    rintro m (rfl | hm)
    · exact hseen v _ _ hsn
    · exact hmessage m hm
  | apply v hpos hi hlog =>
    refine ⟨hcommit, hseen, hmessage, ?_⟩
    rintro i e (hie | hie)
    · cases hie
      exact ((hs.commit v).final hpos hi hlog).mono he
    · exact happlied i e hie
  | _ => exact ⟨hcommit, hseen, hmessage, happlied⟩

omit [DecidableEq V] in
lemma Safe.record (hs : Safe P t) : Safe P (t.record P) := by
  have he := extends_record (P := P) t
  refine ⟨fun v => (hs.commit v).mono he le_rfl List.prefix_rfl, fun v T c hv => ?_,
    fun m hm => (hs.message m hm).mono he, fun i e hi => (hs.applied i e hi).mono he⟩
  rcases mem_seen_record.mp hv with hv | ⟨rfl, rfl⟩
  · exact (hs.seen v T c hv).mono he
  · exact (hs.commit v).decided.mono he

lemma safe_of_reachable (h : (machine P).Reachable t) : Safe P t := by
  obtain ⟨past, hr⟩ := h
  refine hr.invariant ?_ ?_ t List.mem_cons_self
  · rintro t rfl
    exact Safe.record ⟨fun v => .inl rfl, by simp [initial], by simp [initial], by simp [initial]⟩
  · rintro t past - _ hr - hs ⟨u, hu, rfl⟩
    exact (hs.step (inv_of_reachable ⟨past, hr⟩) hu).record

/-- State machine safety: entries applied at the same position are equal. -/
lemma applied_unique (h : (machine P).Reachable t) {e e' : E} (he : (i, e) ∈ t.applied)
    (he' : (i, e') ∈ t.applied) : e = e' :=
  (inv_of_reachable h).final_unique ((safe_of_reachable h).applied i e he)
    ((safe_of_reachable h).applied i e' he')

end Step

end ReplicatedLog

end DistLabs
