import Mathlib.Data.Prod.Lex
import Mathlib.Data.Set.Card
import Mathlib.Order.WellFounded

/-!
# Depth-first search with a memory

A search keeps a stack of configurations, tries the moves of the topmost one in turn, and goes back
when none is left. It also keeps the configurations it has entered, and does not enter one that is
similar to one of these.

A search that goes back from the root has seen a configuration similar to each one that can be
reached (`Inv.expanded_of_exhausted`). It cannot go on for ever if there are finitely many sequences
of moves (`Step.measure_lt`).
-/

namespace DistLabs

/-- A search problem: which moves may be tried in a configuration and where they lead. -/
structure SearchSpace (σ β : Type*) where
  root : σ
  moves : σ → List β
  step : σ → β → Option σ
  done : σ → Prop

namespace SearchSpace

variable {σ β : Type*} {P : SearchSpace σ β} {R : σ → σ → Prop}

/-- The moves, newest first, that lead to a configuration. -/
inductive Path (P : SearchSpace σ β) : List β → σ → Prop
  | nil : Path P [] P.root
  | cons {l : List β} {c c' : σ} {b : β} (h : Path P l c) (hb : b ∈ P.moves c)
      (hs : P.step c b = some c') : Path P (b :: l) c'

lemma Path.unique {l : List β} {c c' : σ} (h : P.Path l c) (h' : P.Path l c') : c = c' := by
  induction h generalizing c' with
  | nil =>
    cases h'
    rfl
  | cons _ _ hs ih =>
    cases h' with
    | cons h' _ hs' =>
      cases ih h'
      exact Option.some.inj (hs.symm.trans hs')

/-- A configuration on the stack, with the moves that have been tried. If it is not the topmost one,
the first of the others is the move that has been made. -/
structure Frame (σ β : Type*) where
  config : σ
  tried : List β
  todo : List β

structure State (σ β : Type*) where
  stack : List (Frame σ β)
  cache : Set σ

/-- A configuration similar to `c` has been entered. -/
def Covered (R : σ → σ → Prop) (cache : Set σ) (c : σ) : Prop := ∃ d ∈ cache, R c d

lemma Covered.mono {cache cache' : Set σ} (hsub : cache ⊆ cache') {c : σ} (h : Covered R cache c) :
    Covered R cache' c := by
  obtain ⟨d, hd, hR⟩ := h
  exact ⟨d, hsub hd, hR⟩

/-- The search before its first step. -/
def initial (P : SearchSpace σ β) : State σ β := ⟨[⟨P.root, [], P.moves P.root⟩], ∅⟩

inductive Step (P : SearchSpace σ β) (R : σ → σ → Prop) : State σ β → State σ β → Prop
  | skip {c : σ} {tried todo : List β} {b : β} {fs : List (Frame σ β)} {cache : Set σ}
      (h : ∀ c', P.step c b = some c' → Covered R cache c') :
      Step P R ⟨⟨c, tried, b :: todo⟩ :: fs, cache⟩ ⟨⟨c, tried ++ [b], todo⟩ :: fs, cache⟩
  | push {c c' : σ} {tried todo : List β} {b : β} {fs : List (Frame σ β)} {cache : Set σ}
      (hs : P.step c b = some c') (hnew : ¬Covered R cache c') :
      Step P R ⟨⟨c, tried, b :: todo⟩ :: fs, cache⟩
        ⟨⟨c', [], P.moves c'⟩ :: ⟨c, tried, b :: todo⟩ :: fs, insert c' cache⟩
  | pop {c d : σ} {tried tried' todo : List β} {b : β} {fs : List (Frame σ β)} {cache : Set σ}
      (hnd : ¬P.done c) :
      Step P R ⟨⟨c, tried, []⟩ :: ⟨d, tried', b :: todo⟩ :: fs, cache⟩
        ⟨⟨d, tried' ++ [b], todo⟩ :: fs, cache⟩

/-! ### What has been seen -/

/-- A stack and the moves that lead to its topmost configuration. -/
inductive Stack (P : SearchSpace σ β) : List (Frame σ β) → List β → Prop
  | root {tried todo : List β} (hm : P.moves P.root = tried ++ todo) :
      Stack P [⟨P.root, tried, todo⟩] []
  | cons {c c' : σ} {tried todo tried' todo' l : List β} {b : β} {fs : List (Frame σ β)}
      (h : Stack P (⟨c, tried, b :: todo⟩ :: fs) l) (hs : P.step c b = some c')
      (hm : P.moves c' = tried' ++ todo') :
      Stack P (⟨c', tried', todo'⟩ :: ⟨c, tried, b :: todo⟩ :: fs) (b :: l)

lemma Stack.moves_eq {f : Frame σ β} {fs : List (Frame σ β)} {l : List β}
    (h : P.Stack (f :: fs) l) : P.moves f.config = f.tried ++ f.todo := by
  cases h with
  | root hm => exact hm
  | cons _ _ hm => exact hm

/-- The topmost configuration with its moves divided in another way. -/
lemma Stack.advance {f : Frame σ β} {fs : List (Frame σ β)} {l tried todo : List β}
    (h : P.Stack (f :: fs) l) (heq : tried ++ todo = f.tried ++ f.todo) :
    P.Stack (⟨f.config, tried, todo⟩ :: fs) l := by
  cases h with
  | root hm => exact .root (hm.trans heq.symm)
  | cons h hs hm => exact .cons h hs (hm.trans heq.symm)

lemma Stack.path {f : Frame σ β} {fs : List (Frame σ β)} {l : List β}
    (h : P.Stack (f :: fs) l) : P.Path l f.config := by
  induction fs generalizing f l with
  | nil =>
    cases h
    exact .nil
  | cons g fs ih =>
    cases h with
    | cons h hs _ => exact .cons (ih h) (by rw [h.moves_eq]; simp) hs

/-- Every move leads to a configuration that has been seen. -/
structure Expanded (P : SearchSpace σ β) (R : σ → σ → Prop) (cache : Set σ) (c : σ) : Prop where
  not_done : ¬P.done c
  covered : ∀ b ∈ P.moves c, ∀ c', P.step c b = some c' → Covered R cache c'

lemma Expanded.mono {cache cache' : Set σ} (hsub : cache ⊆ cache') {c : σ}
    (h : Expanded P R cache c) : Expanded P R cache' c :=
  ⟨h.not_done, fun b hb c' hs => (h.covered b hb c' hs).mono hsub⟩

/-- What holds throughout a search. -/
structure Inv (P : SearchSpace σ β) (R : σ → σ → Prop) (t : State σ β) : Prop where
  stack : ∃ l, P.Stack t.stack l
  entered : ∀ f ∈ t.stack.dropLast, f.config ∈ t.cache
  tried : ∀ f ∈ t.stack, ∀ b ∈ f.tried, ∀ c', P.step f.config b = some c' → Covered R t.cache c'
  cached : ∀ c ∈ t.cache, (∃ f ∈ t.stack, f.config = c) ∨ Expanded P R t.cache c

/-- A similar configuration offers the same moves, which lead to similar configurations. -/
structure IsBisimulation (P : SearchSpace σ β) (R : σ → σ → Prop) : Prop where
  refl : ∀ c, R c c
  trans : ∀ {c d e}, R c d → R d e → R c e
  moves_eq : ∀ {c d}, R c d → P.moves c = P.moves d
  step : ∀ {c d b c'}, R c d → P.step c b = some c' → ∃ d', P.step d b = some d' ∧ R c' d'
  done : ∀ {c d}, R c d → P.done c → P.done d

variable {t t' : State σ β}

lemma inv_initial : Inv P R P.initial :=
  ⟨⟨[], .root rfl⟩, by simp [initial], by simp [initial], by simp [initial]⟩

/-- The topmost configuration has one more move tried. -/
lemma Inv.advance {c : σ} {tried todo : List β} {b : β} {fs : List (Frame σ β)} {cache : Set σ}
    {l : List β} (hl : P.Stack (⟨c, tried, b :: todo⟩ :: fs) l)
    (hentered : ∀ f ∈ (⟨c, tried, b :: todo⟩ :: fs).dropLast, f.config ∈ cache)
    (htried : ∀ f ∈ ⟨c, tried, b :: todo⟩ :: fs, ∀ b ∈ f.tried, ∀ c', P.step f.config b = some c' →
      Covered R cache c')
    (hcached : ∀ d ∈ cache, (∃ f ∈ ⟨c, tried, b :: todo⟩ :: fs, f.config = d) ∨
      Expanded P R cache d)
    (hc : ∀ c', P.step c b = some c' → Covered R cache c') :
    Inv P R ⟨⟨c, tried ++ [b], todo⟩ :: fs, cache⟩ := by
  refine ⟨⟨l, hl.advance (by simp)⟩, ?_, ?_, ?_⟩
  · cases fs with
    | nil => simp
    | cons g fs => simpa using hentered
  · intro f hf
    rcases List.mem_cons.mp hf with rfl | hf
    · intro b' hb'
      rcases List.mem_append.mp hb' with hb' | hb'
      · exact htried _ List.mem_cons_self b' hb'
      · obtain rfl := List.mem_singleton.mp hb'
        exact hc
    · exact htried f (List.mem_cons_of_mem _ hf)
  · intro d hd
    refine (hcached d hd).imp_left ?_
    rintro ⟨f, hf, rfl⟩
    rcases List.mem_cons.mp hf with rfl | hf
    · exact ⟨_, List.mem_cons_self, rfl⟩
    · exact ⟨f, List.mem_cons_of_mem _ hf, rfl⟩

lemma Inv.step (hrefl : ∀ c, R c c) (hi : Inv P R t) (h : P.Step R t t') : Inv P R t' := by
  obtain ⟨l, hl⟩ := hi.stack
  have hentered := hi.entered
  have htried := hi.tried
  have hcached := hi.cached
  cases h with
  | skip hc => exact Inv.advance hl hentered htried hcached hc
  | @push c c' tried todo b fs cache hs hnew =>
    have hsub : cache ⊆ insert c' cache := Set.subset_insert _ _
    refine ⟨⟨b :: l, .cons hl hs rfl⟩, ?_, ?_, ?_⟩
    · intro f hf
      rw [List.dropLast_cons_cons] at hf
      rcases List.mem_cons.mp hf with rfl | hf
      · exact Set.mem_insert _ _
      · exact hsub (hentered f hf)
    · intro f hf b' hb' d hd
      rcases List.mem_cons.mp hf with rfl | hf
      · cases hb'
      · exact (htried f hf b' hb' d hd).mono hsub
    · intro d hd
      rcases Set.mem_insert_iff.mp hd with rfl | hd
      · exact .inl ⟨_, List.mem_cons_self, rfl⟩
      · refine (hcached d hd).imp ?_ (Expanded.mono hsub)
        rintro ⟨f, hf, rfl⟩
        exact ⟨f, List.mem_cons_of_mem _ hf, rfl⟩
  | @pop c d tried tried' todo b fs cache hnd =>
    -- all moves of the topmost configuration have been tried
    have hexp : Expanded P R cache c := by
      refine ⟨hnd, fun b' hb' => htried _ List.mem_cons_self b' ?_⟩
      simpa [hl.moves_eq] using hb'
    have hc : c ∈ cache := hentered ⟨c, tried, []⟩ List.mem_cons_self
    cases hl with
    | cons hl hs hm =>
      refine Inv.advance hl ?_ ?_ ?_ ?_
      · exact fun f hf => hentered f (List.mem_cons_of_mem _ hf)
      · exact fun f hf => htried f (List.mem_cons_of_mem _ hf)
      · intro e he
        rcases hcached e he with ⟨f, hf, rfl⟩ | he
        · rcases List.mem_cons.mp hf with rfl | hf
          · exact .inr hexp
          · exact .inl ⟨f, hf, rfl⟩
        · exact .inr he
      · intro c' hc'
        cases hs.symm.trans hc'
        exact ⟨c, hc, hrefl c⟩

/-- The search has gone back to the root, and there is no move left. -/
theorem Inv.expanded_of_exhausted (hR : P.IsBisimulation R) (hi : Inv P R t) {tried : List β}
    (ht : t.stack = [⟨P.root, tried, []⟩]) (hnd : ¬P.done P.root) {l : List β} {c : σ}
    (hp : P.Path l c) :
    ∃ d, R c d ∧ Expanded P R t.cache d ∧ (l ≠ [] → d ∈ t.cache) := by
  have hroot : Expanded P R t.cache P.root := by
    refine ⟨hnd, fun b hb => hi.tried ⟨P.root, tried, []⟩ (by simp [ht]) b ?_⟩
    obtain ⟨l, hl⟩ := hi.stack
    rw [ht] at hl
    simpa [hl.moves_eq] using hb
  have hcache : ∀ d ∈ t.cache, Expanded P R t.cache d := by
    intro d hd
    rcases hi.cached d hd with ⟨f, hf, rfl⟩ | hd
    · rw [ht] at hf
      obtain rfl := List.mem_singleton.mp hf
      exact hroot
    · exact hd
  induction hp with
  | nil => exact ⟨P.root, hR.refl _, hroot, by simp⟩
  | cons _ hb hs ih =>
    obtain ⟨d, hcd, hd, -⟩ := ih
    obtain ⟨d', hd', hR'⟩ := hR.step hcd hs
    obtain ⟨e, he, hRe⟩ := hd.covered _ (hR.moves_eq hcd ▸ hb) d' hd'
    exact ⟨e, hR.trans hR' hRe, hcache e he, fun _ => he⟩

/-! ### The search ends -/

/-- The sequences of moves that lead to something new. -/
def unseen (P : SearchSpace σ β) (R : σ → σ → Prop) (cache : Set σ) : Set (List β) :=
  {l | ∃ c, P.Path l c ∧ ¬Covered R cache c}

/-- What gets smaller with every step. -/
noncomputable def measure (P : SearchSpace σ β) (R : σ → σ → Prop) (t : State σ β) :
    ℕ ×ₗ ℕ ×ₗ ℕ :=
  toLex ((P.unseen R t.cache).ncard,
    toLex (t.stack.length, (t.stack.head?.map fun f => f.todo.length).getD 0))

theorem Step.measure_lt (hrefl : ∀ c, R c c) (hfin : {l | ∃ c, P.Path l c}.Finite)
    (hi : Inv P R t) (h : P.Step R t t') : P.measure R t' < P.measure R t := by
  cases h with
  | skip hc => simp [measure, Prod.Lex.toLex_lt_toLex]
  | @push c c' tried todo b fs cache hs hnew =>
    have hsub : P.unseen R (insert c' cache) ⊆ P.unseen R cache := by
      rintro l ⟨d, hd, hnc⟩
      exact ⟨d, hd, fun hc => hnc (hc.mono (Set.subset_insert _ _))⟩
    obtain ⟨l, hl⟩ := hi.stack
    have hpath : P.Path (b :: l) c' := .cons hl.path (by rw [hl.moves_eq]; simp) hs
    have hlt : (P.unseen R (insert c' cache)).ncard < (P.unseen R cache).ncard := by
      refine Set.ncard_lt_ncard ⟨hsub, fun hsup => ?_⟩
        (hfin.subset fun l hl => hl.imp fun _ => And.left)
      -- the sequence of moves that has just been made is not new any more
      obtain ⟨d, hd, hnc⟩ := hsup (show b :: l ∈ P.unseen R cache from ⟨c', hpath, hnew⟩)
      cases hd.unique hpath
      exact hnc ⟨_, Set.mem_insert _ _, hrefl _⟩
    simp [measure, Prod.Lex.toLex_lt_toLex, hlt]
  | pop hnd => simp [measure, Prod.Lex.toLex_lt_toLex]

end SearchSpace

end DistLabs
