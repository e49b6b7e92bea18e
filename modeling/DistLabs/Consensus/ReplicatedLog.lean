import DistLabs.Consensus.Chronicle
import DistLabs.Lib.Machine
import DistLabs.Lib.Quorum
import Mathlib.Data.Set.Insert

/-!
# Replicating a log whose leaders may speak late

Servers elect leaders for numbered terms and follow the logs that leaders send them. A message
carries the term in which its sender took note of its commit index, but it is built later, by a
sender that is leader of the same or a later term, the *office*. The receiver only sees the former.
So a server may come to hold entries of terms it has not reached, and may be made to drop entries by
a leader that is ahead of it.

What is safe all the same: an entry that a quorum of servers has held in its own term is in the log
of every later leader. The first leader, in the order of time, to be elected without an entry was
elected by a quorum that has never held it.
-/

namespace DistLabs

namespace ReplicatedLog

open Chronicle

/-- What is fixed: the quorums, the terms of entries, and the entry all logs start with. -/
structure Params (V E : Type*) where
  quorums : QuorumSystem V
  term : E → ℕ
  root : E
  term_root : term root = 0

inductive Role where
  | follower
  | candidate
  | leader
  deriving DecidableEq

structure Replica (E : Type*) where
  term : ℕ
  role : Role
  log : List E
  commit : ℕ

structure Message (E : Type*) where
  term : ℕ
  office : ℕ
  log : List E
  commit : ℕ

/-- The servers and what has happened: the logs servers stood with, by server and term; the votes
(by whom, in which term, for whom); the leaders, who they were and who voted for them; the messages
sent; the entries held in their own term (by whom, where, in which term); the commit indices seen
(by whom, in which term); and the entries applied (where). -/
structure State (V E : Type*) where
  server : V → Replica E
  ballot : V → ℕ → Option (List E)
  votes : Set (V × ℕ × V)
  reign : Chronicle E
  chief : ℕ → Option V
  voters : ℕ → Finset V
  messages : Set (Message E)
  held : Set (V × ℕ × ℕ)
  seen : Set (V × ℕ × ℕ)
  applied : Set (ℕ × E)

variable {V E : Type*} {P : Params V E} {t u : State V E}

/-- A quorum has held the entry of term `T` at position `i` while in term `T`. -/
def Chosen (P : Params V E) (held : Set (V × ℕ × ℕ)) (i T : ℕ) : Prop :=
  ∃ A, P.quorums.IsQuorum A ∧ ∀ v ∈ A, (v, i, T) ∈ held

/-- What a log becomes when its server receives the log `m`. -/
inductive Merge (τ : E → ℕ) (ℓ m : List E) : List E → Prop
  | keep : Merge τ ℓ m ℓ
  | extend (h : ℓ <+: m) : Merge τ ℓ m m
  | replace {j : ℕ} {x y : E} (hx : ℓ[j]? = some x) (hy : m[j]? = some y) (hne : τ x ≠ τ y) :
      Merge τ ℓ m m

/-! ### Steps -/

section Step

variable [DecidableEq V]

/-- The ballots with the log of `v` for its next term. -/
def State.stood (t : State V E) (v : V) : V → ℕ → Option (List E) := fun c T =>
  if c = v ∧ T = (t.server v).term + 1 then some (t.server v).log else t.ballot c T

inductive Step (P : Params V E) (t : State V E) : State V E → Prop
  | stand (v : V) :
      Step P t
        { t with
          server := Function.update t.server v
            { t.server v with term := (t.server v).term + 1, role := .candidate }
          ballot := t.stood v }
  | bump (v : V) {T : ℕ} (hT : (t.server v).term < T) :
      Step P t
        { t with
          server := Function.update t.server v { t.server v with term := T, role := .follower } }
  | grant (v c : V) {B : List E} (hB : t.ballot c (t.server v).term = some B)
      (hup : UpToDate P.term (t.server v).log B) :
      Step P t { t with votes := insert (v, (t.server v).term, c) t.votes }
  | win (v : V) {A : Finset V} (hrole : (t.server v).role = .candidate)
      (hnew : t.reign (t.server v).term = none) (hA : P.quorums.IsQuorum A)
      (hvotes : ∀ w ∈ A, w = v ∨ (w, (t.server v).term, v) ∈ t.votes) :
      Step P t
        { t with
          server := Function.update t.server v { t.server v with role := .leader }
          reign := t.reign.elect (t.server v).term (t.server v).log
          chief := Function.update t.chief (t.server v).term (some v)
          voters := Function.update t.voters (t.server v).term A }
  | append (v : V) {e : E} {r : Reign E} (hrole : (t.server v).role = .leader)
      (hr : t.reign (t.server v).term = some r) (he : P.term e = (t.server v).term) :
      Step P t
        { t with
          server := Function.update t.server v { t.server v with log := (t.server v).log ++ [e] }
          reign := t.reign.append (t.server v).term r e }
  | send (v : V) {m : Message E} (hrole : (t.server v).role = .leader)
      (hoffice : m.office = (t.server v).term) (hlog : m.log <+: (t.server v).log)
      (hseen : (v, m.term, m.commit) ∈ t.seen) :
      Step P t { t with messages := insert m t.messages }
  | receive (v : V) {m : Message E} {ℓ : List E} {c : ℕ} (hm : m ∈ t.messages)
      (hterm : (t.server v).term ≤ m.term) (hlog : Merge P.term (t.server v).log m.log ℓ)
      (hcommit : c = (t.server v).commit ∨
        c ≤ m.commit ∧ c < m.log.length ∧ ℓ.take (c + 1) = m.log.take (c + 1)) :
      Step P t { t with server := Function.update t.server v ⟨m.term, .follower, ℓ, c⟩ }
  | commit (v : V) {i : ℕ} (hrole : (t.server v).role = .leader)
      (hi : Has P.term (t.server v).log i (t.server v).term)
      (hchosen : Chosen P t.held i (t.server v).term) :
      Step P t { t with server := Function.update t.server v { t.server v with commit := i } }
  | apply (v : V) {i : ℕ} {e : E} (hpos : 0 < i) (hi : i ≤ (t.server v).commit)
      (he : (t.server v).log[i]? = some e) :
      Step P t { t with applied := insert (i, e) t.applied }
  | restart (v : V) :
      Step P t
        { t with
          server := Function.update t.server v
            { t.server v with role := .follower, commit := 0 } }

end Step

/-- Take note of what the servers hold in their own terms and of their commit indices. -/
def State.record (P : Params V E) (t : State V E) : State V E :=
  { t with
    held := t.held ∪
      {x | (t.server x.1).term = x.2.2 ∧ Has P.term (t.server x.1).log x.2.1 x.2.2}
    seen := t.seen ∪ {x | (t.server x.1).term = x.2.1 ∧ (t.server x.1).commit = x.2.2} }

lemma mem_held_record {v : V} {i T : ℕ} :
    (v, i, T) ∈ (t.record P).held ↔
      (v, i, T) ∈ t.held ∨ (t.server v).term = T ∧ Has P.term (t.server v).log i T := Iff.rfl

lemma mem_seen_record {v : V} {T c : ℕ} :
    (v, T, c) ∈ (t.record P).seen ↔
      (v, T, c) ∈ t.seen ∨ (t.server v).term = T ∧ (t.server v).commit = c := Iff.rfl

/-- The root counts as the log of a leader of term 0. -/
def initial (P : Params V E) : State V E where
  server _ := ⟨0, .follower, [P.root], 0⟩
  ballot _ _ := none
  votes := ∅
  reign T := if T = 0 then some ⟨[], [P.root]⟩ else none
  chief _ := none
  voters _ := ∅
  messages := ∅
  held := ∅
  seen := ∅
  applied := ∅

def machine [DecidableEq V] (P : Params V E) : Machine (State V E) Unit where
  init t := t = (initial P).record P
  next t _ t' := ∃ u, Step P t u ∧ t' = u.record P

/-! ### Invariant -/

/-- What holds of one server. -/
structure Replica.Ok (τ : E → ℕ) (C : Chronicle E) (chief : ℕ → Option V)
    (ballot : V → ℕ → Option (List E)) (v : V) (x : Replica E) : Prop where
  grounded : Grounded τ C x.log
  leader : x.role = .leader → chief x.term = some v ∧ ∃ r, C x.term = some r ∧ r.log = x.log
  candidate : x.role = .candidate → ballot v x.term = some x.log

/-- What holds in every reachable state. The last three say that a server keeps what it has held,
that a candidate a server votes for has it, and that when a leader lacks it there is a leader none
of whose voters has held it; the first two unless some leader lacks it. -/
structure Inv (P : Params V E) (t : State V E) : Prop where
  valid : Valid P.term t.reign
  replica : ∀ v, (t.server v).Ok P.term t.reign t.chief t.ballot v
  ballot : ∀ c T B, t.ballot c T = some B →
    T ≤ (t.server c).term ∧ Grounded P.term t.reign B
  vote : ∀ v T c, (v, T, c) ∈ t.votes → T ≤ (t.server v).term ∧ ∃ B, t.ballot c T = some B
  voters : ∀ T r, t.reign T = some r → 0 < T →
    P.quorums.IsQuorum (t.voters T) ∧ ∀ v ∈ t.voters T, T ≤ (t.server v).term
  message : ∀ m ∈ t.messages, m.term ≤ m.office ∧ ∃ r, t.reign m.office = some r ∧ m.log <+: r.log
  seen : ∀ v T c, (v, T, c) ∈ t.seen → T ≤ (t.server v).term
  ahead : ∀ v T c B i T', (v, T, c) ∈ t.votes → t.ballot c T = some B → Has P.term B i T' →
    T < T' → v ∉ t.voters T'
  held : ∀ v i T, (v, i, T) ∈ t.held →
    T ≤ (t.server v).term ∧ ∃ r, t.reign T = some r ∧ Has P.term r.log i T
  kept : ∀ v i T, (v, i, T) ∈ t.held →
    Has P.term (t.server v).log i T ∨ Lacks P.term t.reign i T
  elected : ∀ v T c B i T₀, (v, T, c) ∈ t.votes → t.ballot c T = some B → (v, i, T₀) ∈ t.held →
    T₀ < T → Has P.term B i T₀ ∨ Lacks P.term t.reign i T₀
  blocked : ∀ i T, Lacks P.term t.reign i T →
    ∃ T' r, T < T' ∧ t.reign T' = some r ∧ ∀ v ∈ t.voters T', (v, i, T) ∉ t.held

/-! ### Initially -/

lemma valid_initial (P : Params V E) : Valid P.term (initial P).reign := by
  intro T r hr
  simp only [initial] at hr
  split_ifs at hr with hT
  subst hT
  cases hr
  refine ⟨List.nil_prefix, ?_, ?_, ?_⟩
  · rintro i T ⟨e, he, -⟩
    simp at he
  · rintro i T ⟨e, he, -⟩
    simp at he
  · rintro i T ⟨e, he, rfl⟩ -
    rw [List.mem_singleton.mp (List.mem_of_getElem? he), P.term_root]

lemma inv_initial (P : Params V E) : Inv P (initial P) := by
  have hreign : (initial P).reign 0 = some ⟨[], [P.root]⟩ := rfl
  refine ⟨valid_initial P, fun v => ⟨(valid_initial P).grounded_log hreign, ?_, ?_⟩,
    ?_, ?_, ?_, ?_, ?_, ?_, ?_, ?_, ?_, ?_⟩
  case refine_5 =>
    intro T r hr hT
    simp only [initial] at hr
    split_ifs at hr with h0
    omega
  case refine_12 =>
    rintro i T ⟨T', r, hlt, hr, -⟩
    simp only [initial] at hr
    split_ifs at hr with h0
    omega
  all_goals simp [initial]

/-! ### Changing servers and leaders -/

/-- Servers change and leaders are added or append, so that the servers keep what they have held
unless a leader lacks it. What is left to show concerns new leaders only. -/
lemma Inv.change (h : Inv P t) {server : V → Replica E} {reign : Chronicle E}
    {chief : ℕ → Option V} {voters : ℕ → Finset V} (hvalid : Valid P.term reign)
    (hle : Le t.reign reign) (hterm : ∀ w, (t.server w).term ≤ (server w).term)
    (hok : ∀ w, (server w).Ok P.term reign chief t.ballot w)
    (hkept : ∀ w i T, (w, i, T) ∈ t.held →
      Has P.term (server w).log i T ∨ Lacks P.term reign i T)
    (hvoters : ∀ T r, t.reign T = some r → voters T = t.voters T)
    (hquorum : ∀ T r, t.reign T = none → reign T = some r →
      P.quorums.IsQuorum (voters T) ∧ ∀ w ∈ voters T, T ≤ (server w).term)
    (hblocked : ∀ i T, Lacks P.term reign i T → ¬ Lacks P.term t.reign i T →
      ∃ T' r, T < T' ∧ reign T' = some r ∧ ∀ w ∈ voters T', (w, i, T) ∉ t.held) :
    Inv P { t with server := server, reign := reign, chief := chief, voters := voters } where
  valid := hvalid
  replica := hok
  ballot c T B hB := ⟨(h.ballot c T B hB).1.trans (hterm c), (h.ballot c T B hB).2.mono hle⟩
  vote w T c hw := ⟨(h.vote w T c hw).1.trans (hterm w), (h.vote w T c hw).2⟩
  voters := by
    intro T r hr hT
    cases hr₀ : t.reign T with
    | none => exact hquorum T r hr₀ hr
    | some r₀ =>
      obtain ⟨hQ, hv⟩ := h.voters T r₀ hr₀ hT
      simp only [hvoters T r₀ hr₀]
      exact ⟨hQ, fun w hw => (hv w hw).trans (hterm w)⟩
  message := by
    intro m hm
    obtain ⟨hmt, r, hr, hp⟩ := h.message m hm
    obtain ⟨r', hr', -, hp'⟩ := hle _ r hr
    exact ⟨hmt, r', hr', hp.trans hp'⟩
  seen w T c hw := (h.seen w T c hw).trans (hterm w)
  ahead := by
    intro w T c B i T' hw hB hi hlt
    obtain ⟨r, hr, -⟩ := (h.ballot c T B hB).2 i T' hi
    simp only [hvoters T' r hr]
    exact h.ahead w T c B i T' hw hB hi hlt
  held := by
    intro w i T hw
    obtain ⟨hT, r, hr, hi⟩ := h.held w i T hw
    obtain ⟨r', hr', -, hp'⟩ := hle _ r hr
    exact ⟨hT.trans (hterm w), r', hr', hi.mono hp'⟩
  kept := hkept
  elected w T c B i T₀ hw hB hheld hlt :=
    (h.elected w T c B i T₀ hw hB hheld hlt).imp_right (·.mono hle)
  blocked := by
    intro i T hlacks
    by_cases hold : Lacks P.term t.reign i T
    · obtain ⟨T', r, hlt, hr, hno⟩ := h.blocked i T hold
      obtain ⟨r', hr', -, -⟩ := hle _ r hr
      exact ⟨T', r', hlt, hr', by simpa only [hvoters T' r hr] using hno⟩
    · exact hblocked i T hlacks hold

variable [DecidableEq V]

lemma term_le_update {v : V} {x : Replica E} (h : (t.server v).term ≤ x.term) (w : V) :
    (t.server w).term ≤ (Function.update t.server v x w).term := by
  rcases eq_or_ne w v with rfl | hne
  · rwa [Function.update_self]
  · rw [Function.update_of_ne hne]

/-- One server changes, and no leader. -/
lemma Inv.move (h : Inv P t) {v : V} {x : Replica E} (hterm : (t.server v).term ≤ x.term)
    (hok : x.Ok P.term t.reign t.chief t.ballot v)
    (hkept : ∀ i T, (v, i, T) ∈ t.held → Has P.term x.log i T ∨ Lacks P.term t.reign i T) :
    Inv P { t with server := Function.update t.server v x } := by
  refine h.change h.valid (.refl _) (term_le_update hterm) ?_ ?_ (fun _ _ _ => rfl) ?_ ?_
  · exact (Function.forall_update_iff t.server
      (p := fun w x => x.Ok P.term t.reign t.chief t.ballot w)).mpr ⟨hok, fun w _ => h.replica w⟩
  · exact (Function.forall_update_iff t.server (p := fun w x => ∀ i T, (w, i, T) ∈ t.held →
      Has P.term x.log i T ∨ Lacks P.term t.reign i T)).mpr ⟨hkept, fun w _ => h.kept w⟩
  · intro T r hnone hr
    simp [hnone] at hr
  · exact fun i T hlacks hno => absurd hlacks hno

/-- A server changes its term, role or commit index and does not lead or stand. -/
lemma Inv.retire (h : Inv P t) {v : V} {x : Replica E} (hterm : (t.server v).term ≤ x.term)
    (hrole : x.role = .follower) (hlog : x.log = (t.server v).log) :
    Inv P { t with server := Function.update t.server v x } := by
  refine h.move hterm ⟨?_, by simp [hrole], by simp [hrole]⟩ ?_
  · rw [hlog]
    exact (h.replica v).grounded
  · rw [hlog]
    exact h.kept v

omit [DecidableEq V] in
/-- A message makes a server drop an entry it has held only if the sender was elected without the
entry. -/
lemma Inv.kept_of_merge (h : Inv P t) {v : V} {m : Message E} {ℓ : List E} (hm : m ∈ t.messages)
    (hterm : (t.server v).term ≤ m.term) (hlog : Merge P.term (t.server v).log m.log ℓ) {i T : ℕ}
    (hheld : (v, i, T) ∈ t.held) : Has P.term ℓ i T ∨ Lacks P.term t.reign i T := by
  refine (h.kept v i T hheld).elim (fun hhas => ?_) .inr
  cases hlog with
  | keep => exact .inl hhas
  | extend hp => exact .inl (hhas.mono hp)
  | @replace j x y hx hy hne =>
    by_cases hmi : Has P.term m.log i T
    · exact .inl hmi
    obtain ⟨hoffice, r, hr, hp⟩ := h.message m hm
    obtain ⟨hTv, r₀, hr₀, hi₀⟩ := h.held v i T hheld
    -- the sender does not have the entry either, or its log would agree with `ℓ` at `j`
    have hno : ¬ Has P.term r.log i T := by
      intro hri
      have hlen : m.log.length ≤ i := by
        by_contra hlt
        exact hmi (hri.of_isPrefix hp (by omega))
      have hj := (List.getElem?_eq_some_iff.mp hy).1
      have htake := (h.replica v).grounded.take_eq (h.valid.grounded_log hr) hhas hri
      have hjx : r.log[j]? = some x := by
        rw [← List.getElem?_take_of_lt (show j < i + 1 by omega), ← htake,
          List.getElem?_take_of_lt (by omega), hx]
      rw [getElem?_of_isPrefix hp hj, hy] at hjx
      exact hne (by rw [Option.some.inj hjx])
    refine .inr ⟨m.office, r, ?_, hr, fun hb => hno (hb.mono (h.valid _ r hr).isPrefix)⟩
    refine Nat.lt_of_le_of_ne (by omega) fun heq => hno ?_
    subst heq
    rwa [← Option.some.inj (hr₀.symm.trans hr)]

lemma Inv.receive (h : Inv P t) {v : V} {m : Message E} {ℓ : List E} (hm : m ∈ t.messages)
    (hterm : (t.server v).term ≤ m.term) (hlog : Merge P.term (t.server v).log m.log ℓ) (c : ℕ) :
    Inv P { t with server := Function.update t.server v ⟨m.term, .follower, ℓ, c⟩ } := by
  obtain ⟨-, r, hr, hp⟩ := h.message m hm
  have hgm : Grounded P.term t.reign m.log := (h.valid.grounded_log hr).of_isPrefix hp
  refine h.move hterm ⟨?_, by simp, by simp⟩ fun i T hheld => h.kept_of_merge hm hterm hlog hheld
  cases hlog with
  | keep => exact (h.replica v).grounded
  | extend => exact hgm
  | replace => exact hgm

/-! ### Elections -/

omit [DecidableEq V] in
lemma Inv.ballot_eq_none (h : Inv P t) {v : V} {T : ℕ} (hT : (t.server v).term < T) :
    t.ballot v T = none := by
  by_contra hne
  obtain ⟨B, hB⟩ := Option.ne_none_iff_exists'.mp hne
  have := (h.ballot v T B hB).1
  omega

omit [DecidableEq V] in
/-- A voter of a leader has reached the leader's term. -/
lemma Inv.not_mem_voters (h : Inv P t) {ℓ : List E} (hg : Grounded P.term t.reign ℓ) {v : V}
    {i T : ℕ} (hi : Has P.term ℓ i T) (hT : (t.server v).term < T) : v ∉ t.voters T := by
  intro hv
  obtain ⟨r, hr, -⟩ := hg i T hi
  have := (h.voters T r hr (Nat.zero_lt_of_lt hT)).2 v hv
  omega

lemma stood_eq_some {v c : V} {T : ℕ} {B : List E} (h : t.stood v c T = some B) :
    t.ballot c T = some B ∨ c = v ∧ T = (t.server v).term + 1 ∧ B = (t.server v).log := by
  unfold State.stood at h
  split_ifs at h with hc
  · exact .inr ⟨hc.1, hc.2, (Option.some.inj h).symm⟩
  · exact .inl h

lemma Inv.stood_of_ballot (h : Inv P t) (v : V) {c : V} {T : ℕ} {B : List E}
    (hB : t.ballot c T = some B) : t.stood v c T = some B := by
  unfold State.stood
  rw [if_neg, hB]
  rintro ⟨rfl, rfl⟩
  simp [h.ballot_eq_none (Nat.lt_succ_self (t.server c).term)] at hB

lemma Inv.stand (h : Inv P t) (v : V) :
    Inv P
      { t with
        server := Function.update t.server v
          { t.server v with term := (t.server v).term + 1, role := .candidate }
        ballot := t.stood v } := by
  have hle := term_le_update (t := t) (v := v)
    (x := { t.server v with term := (t.server v).term + 1, role := .candidate }) (Nat.le_succ _)
  -- nobody has voted for the new candidate
  have hvote : ∀ w T c B, (w, T, c) ∈ t.votes → t.stood v c T = some B →
      t.ballot c T = some B := by
    intro w T c B hw hB
    obtain ⟨B', hB'⟩ := (h.vote w T c hw).2
    rw [hB', ← h.stood_of_ballot v hB', hB]
  exact
    { valid := h.valid
      replica := (Function.forall_update_iff t.server
        (p := fun w x => x.Ok P.term t.reign t.chief (t.stood v) w)).mpr
        ⟨⟨(h.replica v).grounded, by simp, by simp [State.stood]⟩, fun w _ =>
          ⟨(h.replica w).grounded, (h.replica w).leader,
            fun hr => h.stood_of_ballot v ((h.replica w).candidate hr)⟩⟩
      ballot := by
        intro c T B hB
        rcases stood_eq_some hB with hB | ⟨rfl, rfl, rfl⟩
        · exact ⟨(h.ballot c T B hB).1.trans (hle c), (h.ballot c T B hB).2⟩
        · exact ⟨by simp, (h.replica c).grounded⟩
      vote := by
        intro w T c hw
        obtain ⟨hT, B, hB⟩ := h.vote w T c hw
        exact ⟨hT.trans (hle w), B, h.stood_of_ballot v hB⟩
      voters := fun T r hr hT => ⟨(h.voters T r hr hT).1,
        fun w hw => ((h.voters T r hr hT).2 w hw).trans (hle w)⟩
      message := h.message
      seen := fun w T c hw => (h.seen w T c hw).trans (hle w)
      ahead := fun w T c B i T' hw hB => h.ahead w T c B i T' hw (hvote w T c B hw hB)
      held := fun w i T hw => ⟨(h.held w i T hw).1.trans (hle w), (h.held w i T hw).2⟩
      kept := (Function.forall_update_iff t.server (p := fun w x => ∀ i T, (w, i, T) ∈ t.held →
        Has P.term x.log i T ∨ Lacks P.term t.reign i T)).mpr ⟨h.kept v, fun w _ => h.kept w⟩
      elected := fun w T c B i T₀ hw hB => h.elected w T c B i T₀ hw (hvote w T c B hw hB)
      blocked := h.blocked }

omit [DecidableEq V] in
lemma Inv.grant (h : Inv P t) {v c : V} {B : List E} (hB : t.ballot c (t.server v).term = some B)
    (hup : UpToDate P.term (t.server v).log B) :
    Inv P { t with votes := insert (v, (t.server v).term, c) t.votes } := by
  have hg := (h.ballot c _ B hB).2
  refine { h with vote := ?_, ahead := ?_, elected := ?_ }
  · rintro w T d (hw | hw)
    · cases hw
      exact ⟨le_rfl, B, hB⟩
    · exact h.vote w T d hw
  · rintro w T d B' i T' (hw | hw) hB' hi hlt
    · cases hw
      exact h.not_mem_voters (h.ballot c _ B' hB').2 hi hlt
    · exact h.ahead w T d B' i T' hw hB' hi hlt
  · rintro w T d B' i T₀ (hw | hw) hB' hheld hlt
    · cases hw
      obtain rfl : B = B' := Option.some.inj (hB.symm.trans hB')
      refine (h.kept v i T₀ hheld).elim (fun hi => ?_) .inr
      exact h.valid.has_of_upToDate (h.replica v).grounded hg hi hup
    · exact h.elected w T d B' i T₀ hw hB' hheld hlt

omit [DecidableEq V] in
/-- Those who elect `v` have not voted for a leader that an entry in the log of `v` comes from; so
the log has entries of earlier terms only. -/
lemma Inv.term_lt_of_votes (h : Inv P t) {v : V} {A : Finset V}
    (hrole : (t.server v).role = .candidate) (hnew : t.reign (t.server v).term = none)
    (hA : P.quorums.IsQuorum A)
    (hvotes : ∀ w ∈ A, w = v ∨ (w, (t.server v).term, v) ∈ t.votes) {i T : ℕ}
    (hi : Has P.term (t.server v).log i T) : T < (t.server v).term := by
  obtain ⟨r, hr, -⟩ := (h.replica v).grounded i T hi
  rcases lt_trichotomy T (t.server v).term with hlt | rfl | hgt
  · exact hlt
  · simp [hnew] at hr
  · obtain ⟨hQ, -⟩ := h.voters T r hr (Nat.zero_lt_of_lt hgt)
    obtain ⟨w, hwA, hw⟩ := P.quorums.inter hA hQ
    rcases hvotes w hwA with rfl | hv
    · exact absurd hw (h.not_mem_voters (h.replica w).grounded hi hgt)
    · exact absurd hw (h.ahead w _ v _ i T hv ((h.replica v).candidate hrole) hi hgt)

omit [DecidableEq V] in
/-- If the new leader lacks an entry, and it is the first to do so, none of its voters has held
it. -/
lemma Inv.blocked_of_votes (h : Inv P t) {v : V} {A : Finset V}
    (hrole : (t.server v).role = .candidate)
    (hvotes : ∀ w ∈ A, w = v ∨ (w, (t.server v).term, v) ∈ t.votes) {i T : ℕ}
    (hlt : T < (t.server v).term) (hno : ¬ Has P.term (t.server v).log i T)
    (hfirst : ¬ Lacks P.term t.reign i T) : ∀ w ∈ A, (w, i, T) ∉ t.held := by
  intro w hw hheld
  rcases hvotes w hw with rfl | hv
  · exact (h.kept w i T hheld).elim hno hfirst
  · exact (h.elected w _ v _ i T hv ((h.replica v).candidate hrole) hheld hlt).elim hno hfirst

lemma Inv.win (h : Inv P t) {v : V} {A : Finset V} (hrole : (t.server v).role = .candidate)
    (hnew : t.reign (t.server v).term = none) (hA : P.quorums.IsQuorum A)
    (hvotes : ∀ w ∈ A, w = v ∨ (w, (t.server v).term, v) ∈ t.votes) :
    Inv P
      { t with
        server := Function.update t.server v { t.server v with role := .leader }
        reign := t.reign.elect (t.server v).term (t.server v).log
        chief := Function.update t.chief (t.server v).term (some v)
        voters := Function.update t.voters (t.server v).term A } := by
  have hle := le_elect hnew (t.server v).log
  -- a term with a leader is another one
  have hne : ∀ T r, t.reign T = some r → T ≠ (t.server v).term := by
    rintro T r hr rfl
    simp [hnew] at hr
  have hself := term_le_update (t := t) (v := v) (x := { t.server v with role := .leader }) le_rfl
  refine h.change (h.valid.elect hnew (h.replica v).grounded
    fun i T hi => h.term_lt_of_votes hrole hnew hA hvotes hi) hle hself ?_ ?_ ?_ ?_ ?_
  · refine (Function.forall_update_iff t.server (p := fun w x => x.Ok P.term
      (t.reign.elect (t.server v).term (t.server v).log)
      (Function.update t.chief (t.server v).term (some v)) t.ballot w)).mpr ⟨?_, fun w hw => ?_⟩
    · exact ⟨(h.replica v).grounded.mono hle, fun _ => ⟨Function.update_self .., _,
        Function.update_self .., rfl⟩, by simp⟩
    · refine ⟨(h.replica w).grounded.mono hle, fun hr => ?_, (h.replica w).candidate⟩
      obtain ⟨hc, r, hr, hrlog⟩ := (h.replica w).leader hr
      have hT := hne _ r hr
      exact ⟨by rwa [Function.update_of_ne hT], r, by rwa [elect, Function.update_of_ne hT], hrlog⟩
  · refine (Function.forall_update_iff t.server (p := fun w x => ∀ i T, (w, i, T) ∈ t.held →
      Has P.term x.log i T ∨ Lacks P.term _ i T)).mpr ⟨?_, fun w _ => ?_⟩
    · exact fun i T hheld => (h.kept v i T hheld).imp_right (·.mono hle)
    · exact fun i T hheld => (h.kept w i T hheld).imp_right (·.mono hle)
  · exact fun T r hr => Function.update_of_ne (hne T r hr) ..
  · intro T r hnone hr
    rcases eq_or_ne T (t.server v).term with rfl | hT
    · rw [Function.update_self]
      refine ⟨hA, fun w hw => ?_⟩
      rcases hvotes w hw with rfl | hv
      · exact hself w
      · exact (h.vote w _ v hv).1.trans (hself w)
    · rw [elect, Function.update_of_ne hT, hnone] at hr
      cases hr
  · rintro i T ⟨T', r, hlt, hr, hno⟩ hfirst
    rcases eq_or_ne T' (t.server v).term with rfl | hT
    · refine ⟨_, r, hlt, hr, ?_⟩
      rw [elect, Function.update_self] at hr
      cases hr
      rw [Function.update_self]
      exact h.blocked_of_votes hrole hvotes hlt hno hfirst
    · rw [elect, Function.update_of_ne hT] at hr
      exact absurd ⟨T', r, hlt, hr, hno⟩ hfirst

/-! ### Entries and messages -/

lemma Inv.append (h : Inv P t) {v : V} {e : E} {r : Reign E}
    (hrole : (t.server v).role = .leader) (hr : t.reign (t.server v).term = some r)
    (he : P.term e = (t.server v).term) :
    Inv P
      { t with
        server := Function.update t.server v { t.server v with log := (t.server v).log ++ [e] }
        reign := t.reign.append (t.server v).term r e } := by
  have hle := le_append hr e
  have hvalid := h.valid.append hr he
  obtain ⟨hchief, r', hr', hlog⟩ := (h.replica v).leader hrole
  obtain rfl : r = r' := Option.some.inj (hr.symm.trans hr')
  have hself : t.reign.append (t.server v).term r e (t.server v).term =
      some ⟨r.base, (t.server v).log ++ [e]⟩ := by rw [Chronicle.append, Function.update_self, hlog]
  refine h.change hvalid hle (term_le_update le_rfl) ?_ ?_ (fun _ _ _ => rfl) ?_ ?_
  · refine (Function.forall_update_iff t.server (p := fun w x => x.Ok P.term
      (t.reign.append (t.server v).term r e) t.chief t.ballot w)).mpr ⟨?_, fun w hw => ?_⟩
    · exact ⟨hvalid.grounded_log hself, fun _ => ⟨hchief, _, hself, rfl⟩, by simp [hrole]⟩
    · refine ⟨(h.replica w).grounded.mono hle, fun hlead => ?_, (h.replica w).candidate⟩
      -- another leader is leader of another term
      obtain ⟨hc, r₁, hr₁, hlog₁⟩ := (h.replica w).leader hlead
      have hT : (t.server w).term ≠ (t.server v).term := by
        intro hT
        rw [hT, hchief] at hc
        exact hw (Option.some.inj hc).symm
      exact ⟨hc, r₁, by rwa [Chronicle.append, Function.update_of_ne hT], hlog₁⟩
  · refine (Function.forall_update_iff t.server (p := fun w x => ∀ i T, (w, i, T) ∈ t.held →
      Has P.term x.log i T ∨ Lacks P.term _ i T)).mpr ⟨?_, fun w _ => ?_⟩
    · exact fun i T hheld =>
        (h.kept v i T hheld).imp (·.mono (List.prefix_append _ _)) (·.mono hle)
    · exact fun i T hheld => (h.kept w i T hheld).imp_right (·.mono hle)
  · intro T r₁ hnone hr₁
    rcases eq_or_ne T (t.server v).term with rfl | hT
    · simp [hr] at hnone
    · rw [Chronicle.append, Function.update_of_ne hT, hnone] at hr₁
      cases hr₁
  · exact fun i T hlacks hno => absurd (hlacks.of_append hr) hno

omit [DecidableEq V] in
lemma Inv.send (h : Inv P t) {v : V} {m : Message E} (hrole : (t.server v).role = .leader)
    (hoffice : m.office = (t.server v).term) (hlog : m.log <+: (t.server v).log)
    (hseen : (v, m.term, m.commit) ∈ t.seen) :
    Inv P { t with messages := insert m t.messages } := by
  refine { h with message := ?_ }
  rintro m' (rfl | hm')
  · obtain ⟨-, r, hr, hrlog⟩ := (h.replica v).leader hrole
    exact ⟨hoffice ▸ h.seen v _ _ hseen, r, hoffice ▸ hr, hrlog ▸ hlog⟩
  · exact h.message m' hm'

/-! ### Reachable states -/

lemma Inv.step (h : Inv P t) (hstep : Step P t u) : Inv P u := by
  cases hstep with
  | stand v => exact h.stand v
  | bump v hT => exact h.retire (by exact hT.le) rfl rfl
  | grant v c hB hup => exact h.grant hB hup
  | win v hrole hnew hA hvotes => exact h.win hrole hnew hA hvotes
  | append v hrole hr he => exact h.append hrole hr he
  | send v hrole hoffice hlog hseen => exact h.send hrole hoffice hlog hseen
  | receive v hm hterm hlog _ => exact h.receive hm hterm hlog _
  | commit v hrole _ _ =>
    have hv := h.replica v
    exact h.move le_rfl ⟨hv.grounded, hv.leader, hv.candidate⟩ (h.kept v)
  | apply => exact { h with }
  | restart v => exact h.retire le_rfl rfl rfl

omit [DecidableEq V] in
lemma Inv.record (h : Inv P t) : Inv P (t.record P) := by
  refine { h with seen := ?_, held := ?_, kept := ?_, elected := ?_, blocked := ?_ }
  · intro v T c hv
    rcases mem_seen_record.mp hv with hv | ⟨rfl, -⟩
    · exact h.seen v T c hv
    · exact le_rfl
  · intro v i T hv
    rcases mem_held_record.mp hv with hv | ⟨rfl, hi⟩
    · exact h.held v i T hv
    · obtain ⟨r, hr, hp⟩ := (h.replica v).grounded i _ hi
      refine ⟨le_rfl, r, hr, Has.mono ?_ hp⟩
      exact hi.of_isPrefix (List.take_prefix _ _) (by have := hi.lt; simp; omega)
  · intro v i T hv
    rcases mem_held_record.mp hv with hv | ⟨-, hi⟩
    · exact h.kept v i T hv
    · exact .inl hi
  · intro v T c B i T₀ hw hB hv hlt
    rcases mem_held_record.mp hv with hv | ⟨rfl, -⟩
    · exact h.elected v T c B i T₀ hw hB hv hlt
    · have := (h.vote v T c hw).1
      omega
  · intro i T hlacks
    obtain ⟨T', r, hlt, hr, hno⟩ := h.blocked i T hlacks
    refine ⟨T', r, hlt, hr, fun v hv hheld => ?_⟩
    rcases mem_held_record.mp hheld with hheld | ⟨rfl, -⟩
    · exact hno v hv hheld
    · have := (h.voters T' r hr (Nat.zero_lt_of_lt hlt)).2 v hv
      omega

lemma inv_of_reachable (h : (machine P).Reachable t) : Inv P t := by
  refine h.invariant ?_ ?_
  · rintro t rfl
    exact (inv_initial P).record
  · rintro t - _ ht ⟨u, hu, rfl⟩
    exact (ht.step hu).record

end ReplicatedLog

end DistLabs
