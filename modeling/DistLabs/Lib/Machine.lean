import Mathlib.Logic.Relation
import Mathlib.Tactic.SplitIfs

/-!
# Transition systems and their runs

A `Machine` is a labelled transition system. A run is kept as the list of its states, newest
first, so that a property may speak of what happened earlier. Every step of a run may be asked
to meet a condition `P` on the state it leaves and on its label: runs of the unrestricted system
are the ones with the trivial condition.

`Run.invariant` and `Run.history` are the two induction rules, and `simulate` transports a run
to an abstract machine along a relation.
-/

namespace DistLabs

/-- A labelled transition system: where it may start and what one labelled step does. -/
structure Machine (σ α : Type*) where
  init : σ → Prop
  next : σ → α → σ → Prop

namespace Machine

variable {σ α τ β : Type*} {M : Machine σ α} {P Q : σ → α → Prop}

/-- The states of a run, newest first, all of whose steps meet `P`. -/
inductive Run (M : Machine σ α) (P : σ → α → Prop) : List σ → Prop
  | init {s : σ} (h : M.init s) : Run M P [s]
  | next {s s' : σ} {past : List σ} {a : α} (hr : Run M P (s :: past)) (hp : P s a)
      (h : M.next s a s') : Run M P (s' :: s :: past)

/-- No condition on the steps of a run. -/
def Any : σ → α → Prop := fun _ _ => True

/-- A state some unrestricted run ends in. -/
def Reachable (M : Machine σ α) (s : σ) : Prop := ∃ past, M.Run Any (s :: past)

/-- What the steps of a run are known to meet, given the run that leads to them. -/
lemma Run.mono (hPQ : ∀ s past a, M.Run P (s :: past) → P s a → Q s a) {l : List σ}
    (h : M.Run P l) : M.Run Q l := by
  induction h with
  | init h => exact .init h
  | next hr hp h ih => exact .next ih (hPQ _ _ _ hr hp) h

/-- An invariant that may look back at the whole run. -/
lemma Run.history {I : List σ → Prop} (h0 : ∀ s, M.init s → I [s])
    (hs : ∀ s past a s', M.Run P (s :: past) → I (s :: past) → P s a → M.next s a s' →
      I (s' :: s :: past))
    {l : List σ} (h : M.Run P l) : I l := by
  induction h with
  | init h => exact h0 _ h
  | next hr hp h ih => exact hs _ _ _ _ hr ih hp h

/-- An inductive invariant holds in every state of a run. A step may use what is already known of
the run that leads to it. -/
lemma Run.invariant {I : σ → Prop} (h0 : ∀ s, M.init s → I s)
    (hs : ∀ s past a s', M.Run P (s :: past) → P s a → I s → M.next s a s' → I s') {l : List σ}
    (h : M.Run P l) : ∀ s ∈ l, I s := by
  refine Run.history (I := fun l => ∀ s ∈ l, I s) ?_ ?_ h
  · intro s hi t ht
    obtain rfl := List.mem_singleton.mp ht
    exact h0 _ hi
  · intro s past a s' hr ih hp hn t ht
    rcases List.mem_cons.mp ht with rfl | ht
    · exact hs s past a _ hr hp (ih s List.mem_cons_self) hn
    · exact ih t ht

/-- A transitive relation between every state and the next holds between any two states of a
stretch of a run, if the states of the stretch have a property that the step may use. -/
lemma Run.pairwise_infix {R : σ → σ → Prop} {A : σ → Prop}
    (htrans : ∀ {a b c}, R a b → R b c → R a c)
    (hs : ∀ s past a s', M.Run P (s :: past) → P s a → M.next s a s' → A s → A s' → R s' s)
    {l : List σ} (h : M.Run P l) :
    ∀ seg, seg <:+: l → (∀ s ∈ seg, A s) → seg.Pairwise R := by
  refine Run.history (I := fun l => ∀ seg, seg <:+: l → (∀ s ∈ seg, A s) → seg.Pairwise R) ?_ ?_ h
  · intro s _ seg hseg _
    rcases List.infix_cons_iff.mp hseg with hp | hnil
    · rcases List.prefix_cons_iff.mp hp with rfl | ⟨t, rfl, ht⟩
      · exact List.Pairwise.nil
      · rw [List.prefix_nil.mp ht]
        exact List.pairwise_singleton R s
    · rw [List.infix_nil.mp hnil]
      exact List.Pairwise.nil
  · intro s past a s' hr ih hp hn seg hseg hA
    rcases List.infix_cons_iff.mp hseg with hpre | hin
    · rcases List.prefix_cons_iff.mp hpre with rfl | ⟨t, rfl, ht⟩
      · exact List.Pairwise.nil
      have hpair : t.Pairwise R := ih t ht.isInfix fun u hu => hA u (List.mem_cons_of_mem _ hu)
      refine List.pairwise_cons.mpr ⟨fun u hu => ?_, hpair⟩
      rcases List.prefix_cons_iff.mp ht with rfl | ⟨t', rfl, -⟩
      · cases hu
      have hstep : R s' s := hs s past a s' hr hp hn
        (hA s (List.mem_cons_of_mem _ List.mem_cons_self)) (hA s' List.mem_cons_self)
      rcases List.mem_cons.mp hu with rfl | hu
      · exact hstep
      · exact htrans hstep ((List.pairwise_cons.mp hpair).1 u hu)
    · exact ih seg hin hA

/-- A transitive relation between every state and the next holds between any two states of a
run. -/
lemma Run.pairwise {R : σ → σ → Prop} (htrans : ∀ {a b c}, R a b → R b c → R a c)
    (hs : ∀ s past a s', M.Run P (s :: past) → P s a → M.next s a s' → R s' s) {l : List σ}
    (h : M.Run P l) : l.Pairwise R :=
  h.pairwise_infix (R := R) (A := fun _ => True) htrans
    (fun s past a s' hr hp hn _ _ => hs s past a s' hr hp hn) l List.infix_rfl fun _ _ => trivial

/-! ### Simulation -/

/-- Any number of steps, whatever their labels. -/
def Steps (M : Machine σ α) : σ → σ → Prop := Relation.ReflTransGen fun s s' => ∃ a, M.next s a s'

lemma Steps.refl (s : σ) : M.Steps s s := Relation.ReflTransGen.refl

lemma Steps.single {s s' : σ} (a : α) (h : M.next s a s') : M.Steps s s' :=
  Relation.ReflTransGen.single ⟨a, h⟩

lemma Reachable.of_init {s : σ} (h : M.init s) : M.Reachable s := ⟨[], .init h⟩

lemma Reachable.steps {s s' : σ} (h : M.Reachable s) (hs : M.Steps s s') : M.Reachable s' := by
  induction hs with
  | refl => exact h
  | tail _ hn ih =>
    obtain ⟨past, hr⟩ := ih
    obtain ⟨a, ha⟩ := hn
    exact ⟨_, .next hr trivial ha⟩

lemma Reachable.invariant {I : σ → Prop} (h0 : ∀ s, M.init s → I s)
    (hs : ∀ s a s', I s → M.next s a s' → I s') {s : σ} (h : M.Reachable s) : I s := by
  obtain ⟨past, hr⟩ := h
  exact hr.invariant h0 (fun s _ a s' _ _ => hs s a s') s List.mem_cons_self

/-- Forward simulation: if every step of a run can be answered by steps of `N` that keep the
relation, the run ends related to a reachable state of `N`. The relation may look back at the whole
run. -/
lemma simulate_run {N : Machine τ β} {R : List σ → τ → Prop}
    (h0 : ∀ s, M.init s → ∃ t, N.init t ∧ R [s] t)
    (hs : ∀ s past a s' t, M.Run P (s :: past) → N.Reachable t → R (s :: past) t → P s a →
      M.next s a s' → ∃ t', N.Steps t t' ∧ R (s' :: s :: past) t')
    {l : List σ} (h : M.Run P l) : ∃ t, N.Reachable t ∧ R l t := by
  refine Run.history (I := fun l => ∃ t, N.Reachable t ∧ R l t) ?_ ?_ h
  · intro s hi
    obtain ⟨t, ht, hR⟩ := h0 s hi
    exact ⟨t, .of_init ht, hR⟩
  · rintro s past a s' hr ⟨t, ht, hR⟩ hp hn
    obtain ⟨t', hst, hR'⟩ := hs s past a s' t hr ht hR hp hn
    exact ⟨t', ht.steps hst, hR'⟩

/-- Forward simulation along a relation between states. -/
lemma simulate {N : Machine τ β} {R : σ → τ → Prop} (h0 : ∀ s, M.init s → ∃ t, N.init t ∧ R s t)
    (hs : ∀ s past a s' t, M.Run P (s :: past) → N.Reachable t → R s t → P s a →
      M.next s a s' → ∃ t', N.Steps t t' ∧ R s' t')
    {s : σ} {past : List σ} (h : M.Run P (s :: past)) : ∃ t, N.Reachable t ∧ R s t := by
  have hrun : ∃ t, N.Reachable t ∧ ∀ s' ∈ (s :: past).head?, R s' t := by
    refine simulate_run (R := fun l t => ∀ s ∈ l.head?, R s t) ?_ ?_ h
    · intro s hi
      obtain ⟨t, ht, hR⟩ := h0 s hi
      exact ⟨t, ht, by simpa using hR⟩
    · intro s past a s' t hr ht hR hp hn
      obtain ⟨t', hst, hR'⟩ := hs s past a s' t hr ht (hR s rfl) hp hn
      exact ⟨t', hst, by simpa using hR'⟩
  obtain ⟨t, ht, hR⟩ := hrun
  exact ⟨t, ht, hR s rfl⟩

/-- The machine that takes only the steps that meet `P`. -/
def guarded (M : Machine σ α) (P : σ → α → Prop) : Machine σ α where
  init := M.init
  next s a s' := P s a ∧ M.next s a s'

lemma Run.of_guarded {l : List σ} (h : (M.guarded P).Run Any l) : M.Run P l := by
  induction h with
  | init h => exact .init h
  | next _ _ h ih => exact .next ih h.1 h.2

/-! ### Executable machines -/

/-- The machine of an executable step function. -/
def ofStep (s₀ : σ) (step : σ → α → Option σ) : Machine σ α where
  init s := s = s₀
  next s a s' := step s a = some s'

/-- Run a list of labels, checking the condition of every step; the states come newest first. -/
def trace (step : σ → α → Option σ) (check : σ → α → Bool) : List σ → List α → Option (List σ)
  | l, [] => some l
  | [], _ :: _ => none
  | s :: past, a :: as =>
    if check s a then
      match step s a with
      | none => none
      | some s' => trace step check (s' :: s :: past) as
    else none

lemma Run.of_trace {s₀ : σ} {step : σ → α → Option σ} {check : σ → α → Bool}
    (hc : ∀ s a, check s a = true → P s a) {l l' : List σ} {as : List α}
    (hr : (ofStep s₀ step).Run P l) (h : trace step check l as = some l') :
    (ofStep s₀ step).Run P l' := by
  induction as generalizing l with
  | nil => cases l <;> (simp only [trace, Option.some.injEq] at h; exact h ▸ hr)
  | cons a as ih =>
    cases l with
    | nil => simp [trace] at h
    | cons s past =>
      simp only [trace] at h
      split_ifs at h with hcs
      split at h
      · cases h
      · rename_i s' hs
        exact ih (.next hr (hc _ _ hcs) hs) h

/-- Evaluating a list of labels from the initial state shows a run that ends in a state with a
given property. -/
lemma exists_run_of_trace {s₀ : σ} {step : σ → α → Option σ} (check : σ → α → Bool)
    (hc : ∀ s a, check s a = true → P s a) (as : List α) {p : σ → Prop} [DecidablePred p]
    (h : (trace step check [s₀] as).any (fun l => l.head?.any fun s => decide (p s)) = true) :
    ∃ s past, (ofStep s₀ step).Run P (s :: past) ∧ p s := by
  cases hl : trace step check [s₀] as with
  | none => simp [hl] at h
  | some l =>
    have hrun : (ofStep s₀ step).Run P l := .of_trace hc (.init rfl) hl
    cases l with
    | nil => simp [hl] at h
    | cons s past => exact ⟨s, past, hrun, by simpa [hl] using h⟩

/-- The same for a run and one more step. -/
lemma exists_step_of_trace {s₀ : σ} {step : σ → α → Option σ} (check : σ → α → Bool)
    (hc : ∀ s a, check s a = true → P s a) (as : List α) {a : α} {p : σ → σ → Prop}
    [∀ s s', Decidable (p s s')]
    (h : (trace step check [s₀] as).any (fun l => l.head?.any fun s =>
      (step s a).any fun s' => decide (p s s')) = true) :
    ∃ s s' past, (ofStep s₀ step).Run P (s :: past) ∧ (ofStep s₀ step).next s a s' ∧ p s s' := by
  obtain ⟨s, past, hr, hp⟩ := exists_run_of_trace
    (p := fun s => (step s a).any (fun s' => decide (p s s')) = true) check hc as (by simpa using h)
  cases hs : step s a with
  | none => simp [hs] at hp
  | some s' => exact ⟨s, s', past, hr, hs, by simpa [hs] using hp⟩

/-! ### Recording -/

end Machine

end DistLabs
