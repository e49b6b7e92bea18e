import Mathlib.Data.List.Basic
import Mathlib.Data.List.Infix
import Mathlib.Logic.Function.Basic

/-!
# The logs of the leaders

A log is a list of entries, each with a term. In a replicated log every entry was first appended by
the leader of its term, to the log that leader was elected with. A chronicle keeps, for every term
that has had a leader, the log it was elected with and the log it has built up since.

A log is grounded in the chronicle when each of its entries, together with everything before it, is
found in the log of the leader of the entry's term. Logs that are grounded in the same chronicle
agree up to any entry they have in common.
-/

namespace DistLabs

/-- What is remembered of the leader of a term: its log when it was elected, and its last log. -/
structure Reign (E : Type*) where
  base : List E
  log : List E

/-- The leaders of the terms. -/
abbrev Chronicle (E : Type*) := ℕ → Option (Reign E)

variable {E : Type*} {τ : E → ℕ} {C C' : Chronicle E} {ℓ ℓ' : List E} {i T T' : ℕ}
  {r r' : Reign E}

/-! ### Terms of entries -/

/-- The log has an entry of term `T` at position `i`. -/
def Has (τ : E → ℕ) (ℓ : List E) (i T : ℕ) : Prop := ∃ e, ℓ[i]? = some e ∧ τ e = T

lemma Has.lt (h : Has τ ℓ i T) : i < ℓ.length := by
  obtain ⟨e, he, -⟩ := h
  exact (List.getElem?_eq_some_iff.mp he).1

lemma getElem?_of_isPrefix (h : ℓ <+: ℓ') (hi : i < ℓ.length) : ℓ'[i]? = ℓ[i]? := by
  obtain ⟨m, rfl⟩ := h
  exact List.getElem?_append_left hi

lemma take_eq_of_isPrefix {k : ℕ} (h : ℓ <+: ℓ') (hk : k ≤ ℓ.length) : ℓ'.take k = ℓ.take k := by
  obtain ⟨m, rfl⟩ := h
  exact List.take_append_of_le_length hk

lemma Has.mono (h : Has τ ℓ i T) (hp : ℓ <+: ℓ') : Has τ ℓ' i T := by
  obtain ⟨e, he, hT⟩ := h
  exact ⟨e, (getElem?_of_isPrefix hp (List.getElem?_eq_some_iff.mp he).1).trans he, hT⟩

lemma Has.of_isPrefix (h : Has τ ℓ' i T) (hp : ℓ <+: ℓ') (hi : i < ℓ.length) : Has τ ℓ i T := by
  obtain ⟨e, he, hT⟩ := h
  exact ⟨e, (getElem?_of_isPrefix hp hi).symm.trans he, hT⟩

/-- The term of the last entry. -/
def lastTerm (τ : E → ℕ) (ℓ : List E) : ℕ := (ℓ.getLast?.map τ).getD 0

lemma has_lastTerm (h : 0 < ℓ.length) : Has τ ℓ (ℓ.length - 1) (lastTerm τ ℓ) := by
  have hlast : ℓ[ℓ.length - 1]? = some ℓ[ℓ.length - 1] := List.getElem?_eq_getElem (by omega)
  exact ⟨_, hlast, by simp [lastTerm, List.getLast?_eq_getElem?, hlast]⟩

/-- The log `B` is at least as up to date as `ℓ`. -/
def UpToDate (τ : E → ℕ) (ℓ B : List E) : Prop :=
  lastTerm τ ℓ < lastTerm τ B ∨ lastTerm τ ℓ = lastTerm τ B ∧ ℓ.length ≤ B.length

/-- Prefixes of the same length of one list are equal. -/
lemma eq_of_isPrefix {a b c : List E} (ha : a <+: c) (hb : b <+: c) (h : a.length = b.length) :
    a = b :=
  (List.prefix_of_prefix_length_le ha hb h.le).eq_of_length h

/-! ### Grounded logs -/

namespace Chronicle

/-- Every entry is found, with all that comes before it, in the log of the leader of its term. -/
def Grounded (τ : E → ℕ) (C : Chronicle E) (ℓ : List E) : Prop :=
  ∀ i T, Has τ ℓ i T → ∃ r, C T = some r ∧ ℓ.take (i + 1) <+: r.log

/-- Leaders are added and append to their logs. -/
def Le (C C' : Chronicle E) : Prop :=
  ∀ T r, C T = some r → ∃ r', C' T = some r' ∧ r'.base = r.base ∧ r.log <+: r'.log

lemma Le.refl (C : Chronicle E) : Le C C := fun _ r hr => ⟨r, hr, rfl, List.prefix_rfl⟩

lemma Le.trans {C'' : Chronicle E} (h : Le C C') (h' : Le C' C'') : Le C C'' := by
  intro T r hr
  obtain ⟨r', hr', hbase, hlog⟩ := h T r hr
  obtain ⟨r'', hr'', hbase', hlog'⟩ := h' T r' hr'
  exact ⟨r'', hr'', hbase'.trans hbase, hlog.trans hlog'⟩

lemma Grounded.mono (h : Grounded τ C ℓ) (hle : Le C C') : Grounded τ C' ℓ := by
  intro i T hi
  obtain ⟨r, hr, hp⟩ := h i T hi
  obtain ⟨r', hr', -, hlog⟩ := hle T r hr
  exact ⟨r', hr', hp.trans hlog⟩

lemma Grounded.of_isPrefix (h : Grounded τ C ℓ') (hp : ℓ <+: ℓ') : Grounded τ C ℓ := by
  intro i T hi
  obtain ⟨r, hr, hr'⟩ := h i T (hi.mono hp)
  have htake : ℓ.take (i + 1) <+: ℓ'.take (i + 1) := hp.take (i + 1)
  exact ⟨r, hr, htake.trans hr'⟩

/-- Grounded logs agree up to an entry they have in common. -/
lemma Grounded.take_eq (h : Grounded τ C ℓ) (h' : Grounded τ C ℓ') (hi : Has τ ℓ i T)
    (hi' : Has τ ℓ' i T) : ℓ.take (i + 1) = ℓ'.take (i + 1) := by
  obtain ⟨r, hr, hp⟩ := h i T hi
  obtain ⟨r', hr', hp'⟩ := h' i T hi'
  obtain rfl : r = r' := Option.some.inj (hr.symm.trans hr')
  have := hi.lt
  have := hi'.lt
  refine eq_of_isPrefix hp hp' ?_
  simp only [List.length_take]
  omega

/-! ### The logs of the leaders themselves -/

/-- The leader of term `T` was elected with a grounded log of earlier terms, and has appended
entries of its own term. -/
structure ValidReign (τ : E → ℕ) (C : Chronicle E) (T : ℕ) (r : Reign E) : Prop where
  isPrefix : r.base <+: r.log
  grounded : Grounded τ C r.base
  base_lt : ∀ i T', Has τ r.base i T' → T' < T
  tail : ∀ i T', Has τ r.log i T' → r.base.length ≤ i → T' = T

def Valid (τ : E → ℕ) (C : Chronicle E) : Prop := ∀ T r, C T = some r → ValidReign τ C T r

/-- Some leader after term `T` was elected without the entry of term `T` at position `i`. -/
def Lacks (τ : E → ℕ) (C : Chronicle E) (i T : ℕ) : Prop :=
  ∃ T' r, T < T' ∧ C T' = some r ∧ ¬ Has τ r.base i T

lemma Lacks.mono (h : Lacks τ C i T) (hle : Le C C') : Lacks τ C' i T := by
  obtain ⟨T', r, hlt, hr, hno⟩ := h
  obtain ⟨r', hr', hbase, -⟩ := hle T' r hr
  exact ⟨T', r', hlt, hr', hbase ▸ hno⟩

lemma ValidReign.has_base (h : ValidReign τ C T r) (hi : Has τ r.log i T') (hne : T' ≠ T) :
    Has τ r.base i T' := by
  by_cases hlt : i < r.base.length
  · exact hi.of_isPrefix h.isPrefix hlt
  · exact absurd (h.tail i T' hi (by omega)) hne

lemma ValidReign.le (h : ValidReign τ C T r) (hi : Has τ r.log i T') : T' ≤ T := by
  by_contra hgt
  have := h.base_lt i T' (h.has_base hi (by omega))
  omega

/-- Entries of the leader's term lie behind the log it was elected with. -/
lemma ValidReign.base_length_le (h : ValidReign τ C T r) (hi : Has τ r.log i T) :
    r.base.length ≤ i := by
  by_contra hlt
  exact (h.base_lt i T (hi.of_isPrefix h.isPrefix (by omega))).false

lemma Valid.grounded_log (h : Valid τ C) (hr : C T = some r) : Grounded τ C r.log := by
  have hv := h T r hr
  intro i T' hi
  rcases eq_or_ne T' T with rfl | hne
  · exact ⟨r, hr, List.take_prefix _ _⟩
  · have hb := hv.has_base hi hne
    obtain ⟨r', hr', hp⟩ := hv.grounded i T' hb
    rw [List.prefix_iff_eq_take.mp hv.isPrefix, List.take_take,
      Nat.min_eq_left hb.lt] at hp
    exact ⟨r', hr', hp⟩

/-- The terms of a grounded log do not decrease. -/
lemma Valid.term_le (hC : Valid τ C) (h : Grounded τ C ℓ) {j : ℕ} (hi : Has τ ℓ i T)
    (hj : Has τ ℓ j T') (hij : i ≤ j) : T ≤ T' := by
  obtain ⟨r, hr, hp⟩ := h j T' hj
  have := hi.lt
  have hi' : Has τ (ℓ.take (j + 1)) i T := by
    refine hi.of_isPrefix (List.take_prefix _ _) ?_
    rw [List.length_take]
    omega
  exact (hC T' r hr).le (hi'.mono hp)

/-- The last entry has the greatest term, and the whole log is found in the log of its leader. -/
lemma Grounded.last (h : Grounded τ C ℓ) (hi : Has τ ℓ i T) :
    ∃ r, C (lastTerm τ ℓ) = some r ∧ ℓ <+: r.log ∧
      Has τ r.log (ℓ.length - 1) (lastTerm τ ℓ) := by
  have hpos : 0 < ℓ.length := Nat.zero_lt_of_lt hi.lt
  have hlast : Has τ ℓ (ℓ.length - 1) (lastTerm τ ℓ) := has_lastTerm hpos
  obtain ⟨r, hr, hp⟩ := h _ _ hlast
  rw [Nat.sub_add_cancel hpos, List.take_length] at hp
  exact ⟨r, hr, hp, hlast.mono hp⟩

/-- A log at least as up to date has the entry too, or some leader was elected without it. -/
lemma Valid.has_of_upToDate (hC : Valid τ C) (h : Grounded τ C ℓ) (h' : Grounded τ C ℓ')
    (hi : Has τ ℓ i T) (hup : UpToDate τ ℓ ℓ') : Has τ ℓ' i T ∨ Lacks τ C i T := by
  obtain ⟨r, hr, hp, -⟩ := h.last hi
  have hle : T ≤ lastTerm τ ℓ := (hC _ r hr).le (hi.mono hp)
  have hlen := hi.lt
  rcases hup with hlt | ⟨heq, hlen'⟩
  · -- `ℓ'` ends in a later term, whose leader was elected with a log that `ℓ'` contains
    have hpos : 0 < ℓ'.length := by
      by_contra h0
      simp [lastTerm, List.length_eq_zero_iff.mp (Nat.eq_zero_of_not_pos h0)] at hlt
    obtain ⟨r', hr', hp', hlast⟩ := h'.last (has_lastTerm hpos)
    have hbase := (hC _ r' hr').base_length_le hlast
    by_cases hb : Has τ r'.base i T
    · left
      have := hb.lt
      exact (hb.mono (hC _ r' hr').isPrefix).of_isPrefix hp' (by omega)
    · exact .inr ⟨_, r', by omega, hr', hb⟩
  · -- both logs are prefixes of the log of one leader
    left
    obtain ⟨r', hr', hp', -⟩ := h'.last (has_lastTerm (by omega))
    rw [← heq, hr] at hr'
    obtain rfl := Option.some.inj hr'
    exact (hi.mono hp).of_isPrefix hp' (by omega)

/-- When no leader lacks an entry, later leaders have everything up to it. -/
lemma Valid.complete (hC : Valid τ C) (hr : C T = some r) (hi : Has τ r.log i T)
    (hno : ¬ Lacks τ C i T) (hle : T ≤ T') (hr' : C T' = some r') :
    r.log.take (i + 1) <+: r'.log := by
  rcases Nat.lt_or_eq_of_le hle with hlt | rfl
  · have hb : Has τ r'.base i T := by
      by_contra hb
      exact hno ⟨T', r', hlt, hr', hb⟩
    rw [(hC.grounded_log hr).take_eq (hC.grounded_log hr') hi (hb.mono (hC T' r' hr').isPrefix)]
    exact List.take_prefix _ _
  · rw [Option.some.inj (hr.symm.trans hr')]
    exact List.take_prefix _ _

/-! ### Electing leaders and appending entries -/

/-- A leader of term `T` is elected with the log `ℓ`. -/
def elect (C : Chronicle E) (T : ℕ) (ℓ : List E) : Chronicle E :=
  Function.update C T (some ⟨ℓ, ℓ⟩)

lemma le_elect (h : C T = none) (ℓ : List E) : Le C (C.elect T ℓ) := by
  intro T' r hr
  have hne : T' ≠ T := by
    rintro rfl
    simp [h] at hr
  exact ⟨r, by rw [elect, Function.update_of_ne hne, hr], rfl, List.prefix_rfl⟩

lemma ValidReign.mono (h : ValidReign τ C T r) (hle : Le C C') : ValidReign τ C' T r :=
  ⟨h.isPrefix, h.grounded.mono hle, h.base_lt, h.tail⟩

lemma Valid.elect (hC : Valid τ C) (hnone : C T = none) (hg : Grounded τ C ℓ)
    (hlt : ∀ i T', Has τ ℓ i T' → T' < T) : Valid τ (C.elect T ℓ) := by
  have hle := le_elect hnone ℓ
  intro T' r hr
  rcases eq_or_ne T' T with rfl | hne
  · rw [Chronicle.elect, Function.update_self] at hr
    cases hr
    exact ⟨List.prefix_rfl, hg.mono hle, hlt, fun i T' hi hle => absurd hi.lt (by simpa using hle)⟩
  · rw [Chronicle.elect, Function.update_of_ne hne] at hr
    exact (hC T' r hr).mono hle

/-- The leader of term `T` appends an entry. -/
def append (C : Chronicle E) (T : ℕ) (r : Reign E) (e : E) : Chronicle E :=
  Function.update C T (some { r with log := r.log ++ [e] })

lemma le_append (h : C T = some r) (e : E) : Le C (C.append T r e) := by
  intro T' r' hr'
  rcases eq_or_ne T' T with rfl | hne
  · rw [h] at hr'
    cases hr'
    exact ⟨_, Function.update_self .., rfl, List.prefix_append _ _⟩
  · exact ⟨r', by rw [append, Function.update_of_ne hne, hr'], rfl, List.prefix_rfl⟩

lemma Lacks.of_append {e : E} (h : Lacks τ (C.append T' r e) i T) (hr : C T' = some r) :
    Lacks τ C i T := by
  obtain ⟨T₁, r₁, hlt, hr₁, hno⟩ := h
  rcases eq_or_ne T₁ T' with rfl | hne
  · rw [append, Function.update_self] at hr₁
    cases hr₁
    exact ⟨T₁, r, hlt, hr, hno⟩
  · rw [append, Function.update_of_ne hne] at hr₁
    exact ⟨T₁, r₁, hlt, hr₁, hno⟩

lemma Valid.append (hC : Valid τ C) (hr : C T = some r) {e : E} (he : τ e = T) :
    Valid τ (C.append T r e) := by
  have hle := le_append hr e
  intro T' r' hr'
  rcases eq_or_ne T' T with rfl | hne
  · rw [Chronicle.append, Function.update_self] at hr'
    cases hr'
    have hv := hC T' r hr
    refine ⟨hv.isPrefix.trans (List.prefix_append _ _), hv.grounded.mono hle, hv.base_lt, ?_⟩
    intro i T₀ hi hlen
    by_cases hlt : i < r.log.length
    · exact hv.tail i T₀ (hi.of_isPrefix (List.prefix_append _ _) hlt) hlen
    · obtain ⟨e', he', rfl⟩ := hi
      rw [List.getElem?_append_right (by omega)] at he'
      rw [List.mem_singleton.mp (List.mem_of_getElem? he'), he]
  · rw [Chronicle.append, Function.update_of_ne hne] at hr'
    exact (hC T' r' hr').mono hle

end Chronicle

end DistLabs
