import DistLabs.Lib.Linearizability
import DistLabs.Lib.MemoSearch
import Mathlib.Data.Finset.Dedup
import Mathlib.Data.List.TakeWhile
import Mathlib.Data.Set.Finite.List

/-!
# Linearizability as a search

For a history in which every operation has returned, an order of its operations can be looked for
one operation at a time: an operation may come next if its call is not behind the return of one that
has not been taken yet. The sequences of such moves are the beginnings of linearizations
(`beginning_of_path`, `path_of_beginning`), and the history is linearizable if one of them takes all
operations (`linearizable_iff_path`).
-/

namespace DistLabs

open scoped List

variable {ι I O S : Type*} {M : Model I O S} {h : List (Event ι I O)}

def Event.isCall : Event ι I O → Bool
  | call _ _ => true
  | _ => false

@[simp]
lemma Event.id_call (n : ι) (i : I) : (call n i : Event ι I O).id = n := rfl

@[simp]
lemma Event.id_ret (n : ι) (o : O) : (ret n o : Event ι I O).id = n := rfl

namespace History

/-! ### Beginnings of a linearization -/

/-- A sequence of operations of a history with right outputs, in which none is missing that has
returned before another one of them was called. -/
structure Beginning (M : Model I O S) (h : List (Event ι I O)) (l : List (Operation ι I O)) :
    Prop where
  nodup : (l.map Operation.id).Nodup
  called : ∀ x ∈ l, .call x.id x.input ∈ h
  returned : ∀ x ∈ l, .ret x.id x.output ∈ h
  right : (M.run M.init l).isSome
  order : ∀ b ∈ l, ∀ n o, [.ret n o, .call b.id b.input] <+ h → ∃ i, [⟨n, i, o⟩, b] <+ l

lemma Beginning.dropLast {l : List (Operation ι I O)} {x : Operation ι I O}
    (hl : Beginning M h (l ++ [x])) : Beginning M h l where
  nodup := by
    have := hl.nodup
    rw [List.map_append] at this
    exact (List.nodup_append.mp this).1
  called y hy := hl.called y (List.mem_append_left _ hy)
  returned y hy := hl.returned y (List.mem_append_left _ hy)
  right := by
    have hr := hl.right
    rw [Model.run_append] at hr
    obtain ⟨s, hs⟩ := Option.isSome_iff_exists.mp hr
    obtain ⟨s', hs', -⟩ := Option.bind_eq_some_iff.mp hs
    simp [hs']
  order b hb n o hret := by
    obtain ⟨i, hi⟩ := hl.order b (List.mem_append_left _ hb) n o hret
    rcases pair_sublist_concat hi with hi | ⟨rfl, -⟩
    · exact ⟨i, hi⟩
    · have hnd := hl.nodup
      rw [List.map_append, List.nodup_append] at hnd
      exact absurd rfl (hnd.2.2 _ (List.mem_map_of_mem hb) _ (by simp))

/-- An operation comes first in a list up to which all elements have a property. -/
lemma mem_takeWhile_of_sublist {α : Type*} {p : α → Bool} {l : List α} {x : α} (hx : x ∈ l)
    (hp : p x = true) (h : ∀ y, [y, x] <+ l → p y = true) : x ∈ l.takeWhile p := by
  induction l with
  | nil => cases hx
  | cons z l ih =>
    rcases List.mem_cons.mp hx with rfl | hx
    · simp [hp]
    · have hz : p z = true := h z ((List.singleton_sublist.mpr hx).cons_cons z)
      rw [List.takeWhile_cons_of_pos hz]
      exact List.mem_cons_of_mem _ (ih hx fun y hy => h y (hy.cons z))

lemma of_mem_takeWhile_of_sublist {α : Type*} {p : α → Bool} {l : List α} {x y : α}
    (hnd : l.Nodup) (hx : x ∈ l.takeWhile p) (h : [y, x] <+ l) : p y = true := by
  induction l with
  | nil => cases hx
  | cons z l ih =>
    obtain ⟨hz, hnd⟩ := List.nodup_cons.mp hnd
    by_cases hpz : p z = true
    · rw [List.takeWhile_cons_of_pos hpz] at hx
      cases h with
      | cons _ h =>
        rcases List.mem_cons.mp hx with rfl | hx
        · exact absurd (h.subset (by simp)) hz
        · exact ih hnd hx h
      | cons_cons _ h => exact hpz
    · simp [hpz] at hx

/-! ### The search space -/

variable [DecidableEq ι]

/-- Every operation has been called once and has returned. -/
def Complete (h : List (Event ι I O)) : Prop :=
  ∀ e ∈ h, ∃ i o, (h.filter fun x => x.id = e.id) = [.call e.id i, .ret e.id o]

/-- The operation `n` of a history. -/
def operationOf (h : List (Event ι I O)) (n : ι) : Option (Operation ι I O) :=
  match h.filter fun x => x.id = n with
  | [.call _ i, .ret _ o] => some ⟨n, i, o⟩
  | _ => none

/-- The operations taken so far and the state they have led to. -/
structure Config (ι S : Type*) where
  linearized : Finset ι
  state : S

/-- What is left of a history. -/
def rest (h : List (Event ι I O)) (L : Finset ι) : List (Event ι I O) :=
  h.filter fun e => e.id ∉ L

def space (M : Model I O S) (h : List (Event ι I O)) : SearchSpace (Config ι S) ι where
  root := ⟨∅, M.init⟩
  moves c := ((rest h c.linearized).takeWhile Event.isCall).map Event.id
  step c n :=
    match operationOf h n with
    | none => none
    | some x =>
      if (M.step c.state x.input x.output).1 then
        some ⟨insert n c.linearized, (M.step c.state x.input x.output).2⟩
      else none
  done c := rest h c.linearized = []

variable {n : ι} {x : Operation ι I O} {L : Finset ι}

lemma mem_rest {e : Event ι I O} : e ∈ rest h L ↔ e ∈ h ∧ e.id ∉ L := by
  simp [rest]

lemma operationOf_eq_some :
    operationOf h n = some x ↔
      x.id = n ∧ (h.filter fun e => e.id = n) = [.call n x.input, .ret n x.output] := by
  have hid : ∀ e ∈ h.filter (fun e => decide (e.id = n)), e.id = n := by simp
  unfold operationOf
  split
  · rename_i m i k o hf
    rw [hf] at hid ⊢
    obtain rfl : m = n := hid (.call m i) (by simp)
    obtain rfl : k = m := hid (.ret k o) (by simp)
    obtain ⟨id, input, output⟩ := x
    simp only [Option.some.injEq, Operation.mk.injEq, List.cons.injEq, Event.call.injEq,
      Event.ret.injEq, true_and, and_true]
    tauto
  · rename_i hne
    simp only [reduceCtorEq, false_iff]
    rintro ⟨rfl, hf⟩
    exact hne _ _ _ _ hf

/-- The events of an operation. -/
lemma mem_iff_of_operationOf (hx : operationOf h n = some x) (e : Event ι I O) :
    e ∈ h ∧ e.id = n ↔ e = .call n x.input ∨ e = .ret n x.output := by
  obtain ⟨-, hf⟩ := operationOf_eq_some.mp hx
  have : e ∈ h ∧ e.id = n ↔ e ∈ h.filter fun e => e.id = n := by simp
  rw [this, hf]
  simp

lemma call_mem_iff (hx : operationOf h n = some x) {i : I} : .call n i ∈ h ↔ i = x.input := by
  simpa using mem_iff_of_operationOf hx (.call n i)

lemma ret_mem_iff (hx : operationOf h n = some x) {o : O} : .ret n o ∈ h ↔ o = x.output := by
  simpa using mem_iff_of_operationOf hx (.ret n o)

lemma Complete.exists_operationOf (hc : Complete h) {e : Event ι I O} (he : e ∈ h) :
    ∃ x, operationOf h e.id = some x := by
  obtain ⟨i, o, hio⟩ := hc e he
  exact ⟨⟨e.id, i, o⟩, operationOf_eq_some.mpr ⟨rfl, hio⟩⟩

lemma Complete.operationOf_eq (hc : Complete h) (hcall : .call x.id x.input ∈ h)
    (hret : .ret x.id x.output ∈ h) : operationOf h x.id = some x := by
  obtain ⟨y, hy⟩ := hc.exists_operationOf hcall
  rw [Event.id_call] at hy
  have hid := (operationOf_eq_some.mp hy).1
  have hin := (call_mem_iff hy).mp hcall
  have hout := (ret_mem_iff hy).mp hret
  rw [hy]
  obtain ⟨id, input, output⟩ := x
  obtain ⟨id', input', output'⟩ := y
  simp only at hid hin hout
  rw [hid, hin, hout]

lemma Complete.isCall_or_isRet (hc : Complete h) {e : Event ι I O} (he : e ∈ h) :
    e.isCall = true ∨ ∃ n o, e = .ret n o := by
  obtain ⟨x, hx⟩ := hc.exists_operationOf he
  rcases (mem_iff_of_operationOf hx e).mp ⟨he, rfl⟩ with heq | heq
  · exact .inl (by rw [heq]; rfl)
  · exact .inr ⟨_, _, heq⟩

lemma Complete.nodup (hc : Complete h) : h.Nodup := by
  rw [List.nodup_iff_sublist]
  intro e he
  obtain ⟨i, o, hio⟩ := hc e (he.subset (by simp))
  have hsub := he.filter fun x => decide (x.id = e.id)
  rw [hio] at hsub
  have heq : [e, e] = [.call e.id i, .ret e.id o] := by
    simpa using hsub.eq_of_length (by simp)
  simp only [List.cons.injEq, and_true] at heq
  cases heq.1.symm.trans heq.2

lemma mem_moves {c : Config ι S} :
    n ∈ (space M h).moves c ↔
      ∃ i, .call n i ∈ (rest h c.linearized).takeWhile Event.isCall := by
  simp only [space, List.mem_map]
  constructor
  · rintro ⟨e, he, rfl⟩
    have hcall := List.mem_takeWhile_imp he
    cases e with
    | call m i => exact ⟨i, he⟩
    | effect => cases hcall
    | ret => cases hcall
  · rintro ⟨i, hi⟩
    exact ⟨_, hi, rfl⟩

lemma step_eq_some {c c' : Config ι S} :
    (space M h).step c n = some c' ↔ ∃ x, operationOf h n = some x ∧
      (M.step c.state x.input x.output).1 = true ∧
      c' = ⟨insert n c.linearized, (M.step c.state x.input x.output).2⟩ := by
  simp only [space]
  cases hx : operationOf h n with
  | none => simp
  | some x =>
    simp only [Option.ite_none_right_eq_some, Option.some.injEq, exists_eq_left']
    exact and_congr_right fun _ => eq_comm

/-- The sequences of moves are beginnings of linearizations. -/
lemma beginning_of_path (hc : Complete h) {l : List ι} {c : Config ι S}
    (hp : (space M h).Path l c) :
    ∃ ops, ops.map Operation.id = l.reverse ∧ Beginning M h ops ∧
      M.run M.init ops = some c.state ∧ c.linearized = l.toFinset := by
  induction hp with
  | nil => exact ⟨[], rfl, ⟨by simp, by simp, by simp, rfl, by simp⟩, rfl, rfl⟩
  | @cons l c c' n _ hn hs ih =>
    obtain ⟨ops, hids, hops, hrun, hlin⟩ := ih
    obtain ⟨i, hi⟩ := mem_moves.mp hn
    obtain ⟨hcall, hnotin⟩ := mem_rest.mp (List.takeWhile_subset _ hi)
    obtain ⟨x, hx, hok, rfl⟩ := step_eq_some.mp hs
    obtain ⟨rfl, hf⟩ := operationOf_eq_some.mp hx
    obtain rfl : i = x.input := (call_mem_iff hx).mp hcall
    have hret : .ret x.id x.output ∈ h := (ret_mem_iff hx).mpr rfl
    refine ⟨ops ++ [x], by simp [hids], ⟨?_, ?_, ?_, ?_, ?_⟩, M.run_concat hrun hok, by simp [hlin]⟩
    · have hnew : x.id ∉ l := by simpa [hlin] using hnotin
      have hnd := hops.nodup
      rw [hids] at hnd
      rw [List.map_append, hids, List.nodup_append]
      refine ⟨hnd, by simp, ?_⟩
      rintro m hm _ hx rfl
      exact hnew (by simpa [List.mem_singleton.mp hx] using hm)
    · intro y hy
      rcases List.mem_append.mp hy with hy | hy
      · exact hops.called y hy
      · obtain rfl := List.mem_singleton.mp hy
        exact hcall
    · intro y hy
      rcases List.mem_append.mp hy with hy | hy
      · exact hops.returned y hy
      · obtain rfl := List.mem_singleton.mp hy
        exact hret
    · simp [M.run_concat hrun hok]
    · intro b hb m o hbefore
      rcases List.mem_append.mp hb with hb | hb
      · obtain ⟨i, hi⟩ := hops.order b hb m o hbefore
        exact ⟨i, hi.trans (List.sublist_append_left _ _)⟩
      · obtain rfl := List.mem_singleton.mp hb
        -- what has returned before the call has been taken
        have hm : m ∈ c.linearized := by
          by_contra hm
          have hsub := hbefore.filter fun e => decide (e.id ∉ c.linearized)
          have hkeep : ([.ret m o, .call b.id b.input] : List (Event ι I O)).filter
              (fun e => decide (e.id ∉ c.linearized)) = [.ret m o, .call b.id b.input] := by
            simpa [hm] using hnotin
          rw [hkeep] at hsub
          cases of_mem_takeWhile_of_sublist (hc.nodup.filter _) hi hsub
        rw [hlin, List.mem_toFinset, ← List.mem_reverse, ← hids] at hm
        obtain ⟨y, hy, rfl⟩ := List.mem_map.mp hm
        have hyo : o = y.output :=
          (ret_mem_iff (hc.operationOf_eq (hops.called y hy) (hops.returned y hy))).mp
            (hbefore.subset (by simp))
        exact ⟨y.input, hyo ▸ (List.singleton_sublist.mpr hy).append (List.Sublist.refl [b])⟩

/-- Every beginning of a linearization is a sequence of moves. -/
lemma path_of_beginning (hc : Complete h) {ops : List (Operation ι I O)}
    (hops : Beginning M h ops) :
    ∃ c, (space M h).Path (ops.map Operation.id).reverse c ∧
      M.run M.init ops = some c.state ∧ c.linearized = (ops.map Operation.id).toFinset := by
  induction ops using List.reverseRecOn with
  | nil => exact ⟨⟨∅, M.init⟩, .nil, rfl, rfl⟩
  | append_singleton ops x ih =>
    obtain ⟨c, hpath, hrun, hlin⟩ := ih hops.dropLast
    have hx : x ∈ ops ++ [x] := by simp
    have hcall := hops.called x hx
    have hret := hops.returned x hx
    have hnew : x.id ∉ c.linearized := by
      have hnd := hops.nodup
      rw [List.map_append, List.nodup_append] at hnd
      rw [hlin, List.mem_toFinset]
      exact fun hmem => hnd.2.2 _ hmem _ (by simp) rfl
    have hok : (M.step c.state x.input x.output).1 = true := by
      have hr := hops.right
      rw [Model.run_append, hrun, Option.bind_some, Model.run] at hr
      by_contra hno
      simp [hno] at hr
    have hmove : x.id ∈ (space M h).moves c := by
      refine mem_moves.mpr ⟨x.input, mem_takeWhile_of_sublist ?_ rfl ?_⟩
      · exact mem_rest.mpr ⟨hcall, hnew⟩
      · intro e he
        obtain ⟨hemem, henot⟩ := mem_rest.mp (he.subset List.mem_cons_self)
        rcases hc.isCall_or_isRet hemem with hcall | ⟨m, o, rfl⟩
        · exact hcall
        · -- an operation that has returned before the call of `x` comes before `x`
          obtain ⟨i, hi⟩ := hops.order x hx m o (he.trans List.filter_sublist)
          have hmem : ⟨m, i, o⟩ ∈ ops := by
            rcases pair_sublist_concat hi with hi | ⟨-, hi⟩
            · exact hi.subset List.mem_cons_self
            · exact hi
          refine absurd ?_ henot
          rw [hlin, List.mem_toFinset]
          exact List.mem_map_of_mem hmem
    refine ⟨⟨insert x.id c.linearized, (M.step c.state x.input x.output).2⟩, ?_, ?_, ?_⟩
    · rw [List.map_append, List.reverse_append]
      exact .cons hpath hmove (step_eq_some.mpr ⟨x, hc.operationOf_eq hcall hret, hok, rfl⟩)
    · exact M.run_concat hrun hok
    · ext m
      simp [hlin]

lemma rest_eq_nil_iff : rest h L = [] ↔ ∀ e ∈ h, e.id ∈ L := by
  simp [rest, List.filter_eq_nil_iff]

lemma Beginning.linearization {ops : List (Operation ι I O)} (hops : Beginning M h ops)
    (hc : Complete h) (hall : ∀ e ∈ h, e.id ∈ ops.map Operation.id) : Linearization M h ops where
  nodup := hops.nodup
  called := hops.called
  right := hops.right
  complete n o hret := by
    obtain ⟨x, hx, rfl⟩ := List.mem_map.mp (hall _ hret)
    have hout : o = x.output :=
      (ret_mem_iff (hc.operationOf_eq (hops.called x hx) (hops.returned x hx))).mp hret
    exact ⟨x.input, hout ▸ hx⟩
  order a ha b hb hab := by
    obtain ⟨i, hi⟩ := hops.order b hb _ _ hab
    -- an operation of the sequence is determined by its id
    have heq : ⟨a.id, i, a.output⟩ = a :=
      List.inj_on_of_nodup_map hops.nodup (hi.subset List.mem_cons_self) ha rfl
    exact heq ▸ hi

lemma beginning_of_linearization {ops : List (Operation ι I O)} (hl : Linearization M h ops)
    (hc : Complete h) : Beginning M h ops ∧ ∀ e ∈ h, e.id ∈ ops.map Operation.id := by
  refine ⟨⟨hl.nodup, hl.called, fun x hx => ?_, hl.right, fun b hb n o hbefore => ?_⟩, ?_⟩
  · obtain ⟨y, hy⟩ := hc.exists_operationOf (hl.called x hx)
    have hret : .ret x.id y.output ∈ h := (ret_mem_iff hy).mpr rfl
    obtain ⟨i, hi⟩ := hl.complete _ _ hret
    have heq : ⟨x.id, i, y.output⟩ = x := List.inj_on_of_nodup_map hl.nodup hi hx rfl
    exact congrArg Operation.output heq ▸ hret
  · obtain ⟨i, hi⟩ := hl.complete n o (hbefore.subset List.mem_cons_self)
    exact ⟨i, hl.order _ hi b hb hbefore⟩
  · intro e he
    obtain ⟨x, hx⟩ := hc.exists_operationOf he
    obtain ⟨i, hi⟩ := hl.complete e.id x.output ((ret_mem_iff hx).mpr rfl)
    exact List.mem_map_of_mem hi

/-- A history is linearizable if some sequence of moves takes all of its operations. -/
theorem linearizable_iff_path (hc : Complete h) :
    Linearizable M h ↔ ∃ l c, (space M h).Path l c ∧ (space M h).done c := by
  constructor
  · rintro ⟨ops, hops⟩
    obtain ⟨hb, hall⟩ := beginning_of_linearization hops hc
    obtain ⟨c, hp, -, hlin⟩ := path_of_beginning hc hb
    refine ⟨_, c, hp, rest_eq_nil_iff.mpr fun e he => ?_⟩
    rw [hlin, List.mem_toFinset]
    exact hall e he
  · rintro ⟨l, c, hp, hdone⟩
    obtain ⟨ops, hids, hops, -, hlin⟩ := beginning_of_path hc hp
    refine ⟨ops, hops.linearization hc fun e he => ?_⟩
    have hmem := rest_eq_nil_iff.mp hdone e he
    rw [hlin, List.mem_toFinset] at hmem
    simpa [hids] using hmem

/-! ### Similar configurations -/

/-- A relation between states from which the same outputs are right. -/
structure Congruence (M : Model I O S) (E : S → S → Prop) : Prop where
  refl : ∀ s, E s s
  trans : ∀ {s t u}, E s t → E t u → E s u
  ok : ∀ {s t} i o, E s t → (M.step s i o).1 = (M.step t i o).1
  next : ∀ {s t} i o, E s t → (M.step s i o).1 = true → E (M.step s i o).2 (M.step t i o).2

def Similar (E : S → S → Prop) (c d : Config ι S) : Prop :=
  c.linearized = d.linearized ∧ E c.state d.state

lemma Congruence.isBisimulation {E : S → S → Prop} (hE : Congruence M E) :
    (space M h).IsBisimulation (Similar E) where
  refl c := ⟨rfl, hE.refl _⟩
  trans hcd hde := ⟨hcd.1.trans hde.1, hE.trans hcd.2 hde.2⟩
  moves_eq hcd := by simp [space, hcd.1]
  step := by
    intro c d n c' hcd hs
    obtain ⟨x, hx, hok, rfl⟩ := step_eq_some.mp hs
    refine ⟨_, step_eq_some.mpr ⟨x, hx, hE.ok _ _ hcd.2 ▸ hok, rfl⟩, ?_, ?_⟩
    · simp [hcd.1]
    · exact hE.next _ _ hcd.2 hok
  done hcd hdone := by simpa [space, ← hcd.1] using hdone

lemma finite_nodup_subset (s : Finset ι) : {l : List ι | l.Nodup ∧ ∀ n ∈ l, n ∈ s}.Finite := by
  refine ((List.finite_length_le s s.card).image fun l => l.map Subtype.val).subset ?_
  rintro l ⟨hnd, hl⟩
  refine ⟨l.attachWith (· ∈ s) hl, ?_, by simp⟩
  have hcard : l.toFinset.card ≤ s.card := Finset.card_le_card fun n hn => hl n (by simpa using hn)
  simpa [List.toFinset_card_of_nodup hnd] using hcard

lemma finite_paths (hc : Complete h) : {l | ∃ c, (space M h).Path l c}.Finite := by
  refine (finite_nodup_subset (h.map Event.id).toFinset).subset ?_
  rintro l ⟨c, hp⟩
  obtain ⟨ops, hl, hops, -⟩ := beginning_of_path hc hp
  refine ⟨List.nodup_reverse.mp (hl ▸ hops.nodup), fun n hn => ?_⟩
  obtain ⟨x, hx, rfl⟩ := List.mem_map.mp (hl ▸ List.mem_reverse.mpr hn)
  exact List.mem_toFinset.mpr (List.mem_map.mpr ⟨_, hops.called x hx, rfl⟩)

end History

/-! ### Other ids -/

section Rename

variable {κ : Type*} {f : ι → κ}

def Event.rename (f : ι → κ) : Event ι I O → Event κ I O
  | call n i => .call (f n) i
  | effect n i o => .effect (f n) i o
  | ret n o => .ret (f n) o

def Operation.rename (f : ι → κ) (x : Operation ι I O) : Operation κ I O :=
  ⟨f x.id, x.input, x.output⟩

lemma Event.id_rename (e : Event ι I O) : (e.rename f).id = f e.id := by
  cases e <;> rfl

lemma Event.rename_eq_call {e : Event ι I O} {m : κ} {i : I} (he : e.rename f = .call m i) :
    ∃ n, e = .call n i ∧ f n = m := by
  cases e with
  | call n i =>
    cases he
    exact ⟨n, rfl, rfl⟩
  | _ => cases he

lemma Event.rename_eq_ret {e : Event ι I O} {m : κ} {o : O} (he : e.rename f = .ret m o) :
    ∃ n, e = .ret n o ∧ f n = m := by
  cases e with
  | ret n o =>
    cases he
    exact ⟨n, rfl, rfl⟩
  | _ => cases he

lemma Model.run_rename (s : S) (l : List (Operation ι I O)) :
    M.run s (l.map (Operation.rename f)) = M.run s l := by
  induction l generalizing s with
  | nil => rfl
  | cons x l ih => simp only [List.map_cons, Model.run, Operation.rename, ih]

lemma Linearizable.rename (hf : ∀ e ∈ h, ∀ e' ∈ h, f e.id = f e'.id → e.id = e'.id)
    (hl : Linearizable M h) : Linearizable M (h.map (Event.rename f)) := by
  obtain ⟨l, hl⟩ := hl
  refine ⟨l.map (Operation.rename f), ?_, fun x hx => ?_, fun m o hret => ?_, ?_,
    fun a ha b hb hsub => ?_⟩
  · have hids : (l.map (Operation.rename f)).map Operation.id = (l.map Operation.id).map f := by
      simp [Operation.rename]
    rw [hids]
    refine hl.nodup.map_on fun n hn m hm heq => ?_
    obtain ⟨x, hx, rfl⟩ := List.mem_map.mp hn
    obtain ⟨y, hy, rfl⟩ := List.mem_map.mp hm
    exact hf _ (hl.called x hx) _ (hl.called y hy) heq
  · obtain ⟨y, hy, rfl⟩ := List.mem_map.mp hx
    exact List.mem_map.mpr ⟨_, hl.called y hy, rfl⟩
  · obtain ⟨e, he, heq⟩ := List.mem_map.mp hret
    obtain ⟨n, rfl, rfl⟩ := Event.rename_eq_ret heq
    obtain ⟨i, hi⟩ := hl.complete n o he
    exact ⟨i, List.mem_map.mpr ⟨_, hi, rfl⟩⟩
  · rw [Model.run_rename]
    exact hl.right
  · obtain ⟨x, hx, rfl⟩ := List.mem_map.mp ha
    obtain ⟨y, hy, rfl⟩ := List.mem_map.mp hb
    obtain ⟨l', hl', heq⟩ := List.sublist_map_iff.mp hsub
    obtain ⟨e, l', rfl, hret, heq⟩ := List.map_eq_cons_iff.mp heq.symm
    obtain ⟨e', l', rfl, hcall, heq⟩ := List.map_eq_cons_iff.mp heq
    obtain rfl := List.map_eq_nil_iff.mp heq
    obtain ⟨n, rfl, hn⟩ := Event.rename_eq_ret hret
    obtain ⟨m, rfl, hm⟩ := Event.rename_eq_call hcall
    obtain rfl : n = x.id := hf _ (hl'.subset List.mem_cons_self) _ (hl.called x hx) hn
    obtain rfl : m = y.id :=
      hf _ (hl'.subset (List.mem_cons_of_mem _ List.mem_cons_self)) _ (hl.called y hy) hm
    exact (hl.order x hx y hy hl').map (Operation.rename f)

/-- The ids do not matter as long as they are told apart. -/
lemma linearizable_rename_iff {g : κ → ι} (hg : ∀ e ∈ h, g (f e.id) = e.id) :
    Linearizable M (h.map (Event.rename f)) ↔ Linearizable M h := by
  constructor
  · intro hl
    have hback : (h.map (Event.rename f)).map (Event.rename g) = h := by
      rw [List.map_map]
      conv_rhs => rw [← List.map_id h]
      refine List.map_congr_left fun e he => ?_
      have := hg e he
      cases e <;> simp_all [Event.rename, Event.id]
    rw [← hback]
    refine hl.rename fun e he e' he' heq => ?_
    obtain ⟨x, hx, rfl⟩ := List.mem_map.mp he
    obtain ⟨y, hy, rfl⟩ := List.mem_map.mp he'
    rw [Event.id_rename, Event.id_rename, hg x hx, hg y hy] at heq
    rw [Event.id_rename, Event.id_rename, heq]
  · refine Linearizable.rename fun e he e' he' heq => ?_
    rw [← hg e he, ← hg e' he', heq]

lemma History.Complete.rename [DecidableEq ι] [DecidableEq κ] {g : κ → ι}
    (hg : ∀ e ∈ h, g (f e.id) = e.id) (hc : History.Complete h) :
    History.Complete (h.map (Event.rename f)) := by
  intro e he
  obtain ⟨e, he', rfl⟩ := List.mem_map.mp he
  obtain ⟨i, o, hio⟩ := hc e he'
  have hfilter : (h.filter ((fun x => decide (x.id = f e.id)) ∘ Event.rename f)) =
      h.filter fun x => decide (x.id = e.id) := by
    refine List.filter_congr fun x hx => ?_
    rw [Function.comp_apply, Event.id_rename, decide_eq_decide]
    exact ⟨fun heq => by rw [← hg x hx, ← hg e he', heq], fun heq => by rw [heq]⟩
  refine ⟨i, o, ?_⟩
  rw [Event.id_rename, List.filter_map, hfilter, hio]
  rfl

end Rename

end DistLabs
