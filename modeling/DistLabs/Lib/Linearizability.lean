import DistLabs.Lib.Machine
import Mathlib.Data.List.Nodup
import Mathlib.Logic.Function.Basic

/-!
# Linearizability

A history of concurrent operations is linearizable if they can be put in an order that respects the
one in which they were called and returned, and in which a sequential object gives their outputs.

The atomic object takes every operation in one step somewhere between its call and its return. Its
histories are linearizable, so a system that behaves like it is.
-/

namespace DistLabs

open scoped List

/-- A pair in a list with a new last element. -/
lemma pair_sublist_concat {α : Type*} {l : List α} {x y z : α} (h : [x, y] <+ l ++ [z]) :
    [x, y] <+ l ∨ y = z ∧ x ∈ l := by
  have hr : [y, x] <+ z :: l.reverse := by simpa using h.reverse
  cases hr with
  | cons _ hr => exact .inl (by simpa using hr.reverse)
  | cons_cons _ hr => exact .inr ⟨rfl, by simpa using hr⟩

/-- A sequential object. `step` says whether an output is right and what the next state is. -/
structure Model (I O S : Type*) where
  init : S
  step : S → I → O → Bool × S

structure Operation (ι I O : Type*) where
  id : ι
  input : I
  output : O
  deriving DecidableEq

/-- What is recorded of an operation: its call, the moment at which it is taken, its return. -/
inductive Event (ι I O : Type*) where
  | call (n : ι) (i : I)
  | effect (n : ι) (i : I) (o : O)
  | ret (n : ι) (o : O)
  deriving DecidableEq

variable {ι I O S : Type*} {M : Model I O S}

namespace Event

def id : Event ι I O → ι
  | call n _ => n
  | effect n _ _ => n
  | ret n _ => n

def operation? : Event ι I O → Option (Operation ι I O)
  | effect n i o => some ⟨n, i, o⟩
  | _ => none

end Event

/-- The operations of a history in the order in which they were taken. -/
def effects (h : List (Event ι I O)) : List (Operation ι I O) := h.filterMap Event.operation?

lemma mem_effects {h : List (Event ι I O)} {x : Operation ι I O} :
    x ∈ effects h ↔ .effect x.id x.input x.output ∈ h := by
  simp only [effects, List.mem_filterMap]
  constructor
  · rintro ⟨e, he, hx⟩
    cases e with
    | effect n i o =>
      cases hx
      exact he
    | _ => cases hx
  · exact fun hx => ⟨_, hx, rfl⟩

/-- The state after a sequence of operations, if their outputs are right. -/
def Model.run (M : Model I O S) : S → List (Operation ι I O) → Option S
  | s, [] => some s
  | s, x :: l =>
    if (M.step s x.input x.output).1 then M.run (M.step s x.input x.output).2 l else none

lemma Model.run_append (s : S) (l l' : List (Operation ι I O)) :
    M.run s (l ++ l') = (M.run s l).bind fun s' => M.run s' l' := by
  induction l generalizing s with
  | nil => rfl
  | cons x l ih =>
    simp only [Model.run, List.cons_append]
    split_ifs
    · exact ih _
    · rfl

lemma Model.run_concat {s s' : S} {l : List (Operation ι I O)} {x : Operation ι I O}
    (h : M.run s l = some s') (hx : (M.step s' x.input x.output).1 = true) :
    M.run s (l ++ [x]) = some (M.step s' x.input x.output).2 := by
  rw [Model.run_append, h]
  simp [Model.run, hx]

/-- An order of the operations of a history: all that have returned and some that have not. -/
structure Linearization (M : Model I O S) (h : List (Event ι I O)) (l : List (Operation ι I O)) :
    Prop where
  nodup : (l.map Operation.id).Nodup
  called : ∀ x ∈ l, .call x.id x.input ∈ h
  complete : ∀ n o, .ret n o ∈ h → ∃ i, ⟨n, i, o⟩ ∈ l
  right : (M.run M.init l).isSome
  order : ∀ a ∈ l, ∀ b ∈ l, [.ret a.id a.output, .call b.id b.input] <+ h → [a, b] <+ l

def Linearizable (M : Model I O S) (h : List (Event ι I O)) : Prop := ∃ l, Linearization M h l

/-! ### The atomic object -/

namespace Atomic

/-- How far an operation has got. -/
inductive Stage (I O : Type*) where
  | unused
  | called (i : I)
  | taken (i : I) (o : O)
  | returned (i : I) (o : O)

/-- The events of an operation that has got so far. -/
def Stage.trail (n : ι) : Stage I O → List (Event ι I O)
  | unused => []
  | called i => [.call n i]
  | taken i o => [.call n i, .effect n i o]
  | returned i o => [.call n i, .effect n i o, .ret n o]

structure State (ι I O S : Type*) where
  object : S
  stage : ι → Stage I O
  history : List (Event ι I O)

variable [DecidableEq ι] {t t' : State ι I O S}

inductive Step (M : Model I O S) (t : State ι I O S) : State ι I O S → Prop
  | call {n : ι} (i : I) (h : t.stage n = .unused) :
      Step M t
        { t with
          stage := Function.update t.stage n (.called i)
          history := t.history ++ [.call n i] }
  | effect {n : ι} {i : I} {o : O} (h : t.stage n = .called i)
      (hok : (M.step t.object i o).1 = true) :
      Step M t
        { object := (M.step t.object i o).2
          stage := Function.update t.stage n (.taken i o)
          history := t.history ++ [.effect n i o] }
  | ret {n : ι} {i : I} {o : O} (h : t.stage n = .taken i o) :
      Step M t
        { t with
          stage := Function.update t.stage n (.returned i o)
          history := t.history ++ [.ret n o] }

/-- The atomic object of a model. -/
def machine (M : Model I O S) : Machine (State ι I O S) Unit where
  init t := t = ⟨M.init, fun _ => .unused, []⟩
  next t _ t' := Step M t t'

/-- What holds in every reachable state: the operations taken lead to the state of the object, the
events of an operation are those of its stage, and an operation called after another has returned
is taken after it. -/
structure Inv (M : Model I O S) (t : State ι I O S) : Prop where
  run : M.run M.init (effects t.history) = some t.object
  trail : ∀ n, (t.history.filter fun e => e.id = n) = (t.stage n).trail n
  nodup : ((effects t.history).map Operation.id).Nodup
  order : ∀ a ∈ effects t.history, ∀ b ∈ effects t.history,
    [.ret a.id a.output, .call b.id b.input] <+ t.history → [a, b] <+ effects t.history

lemma Inv.mem_history (h : Inv M t) {e : Event ι I O} :
    e ∈ t.history ↔ e ∈ (t.stage e.id).trail e.id := by
  rw [← h.trail, List.mem_filter]
  simp

lemma Inv.stage_eq_unused (h : Inv M t) {n : ι} (hn : ∀ i, .call n i ∉ t.history) :
    t.stage n = .unused := by
  cases hst : t.stage n with
  | unused => rfl
  | called i | taken i o | returned i o =>
    refine absurd (h.mem_history.mpr ?_) (hn i)
    simp [Event.id, hst, Stage.trail]

omit [DecidableEq ι] in
lemma Stage.effect_mem_trail {n : ι} {i : I} {o : O} {st : Stage I O}
    (h : .effect n i o ∈ st.trail n) : st = .taken i o ∨ st = .returned i o := by
  cases st <;> simp_all [Stage.trail]

omit [DecidableEq ι] in
lemma Stage.ret_mem_trail {n : ι} {o : O} {st : Stage I O} (h : .ret n o ∈ st.trail n) :
    ∃ i, st = .returned i o := by
  cases st <;> simp_all [Stage.trail]

/-- The events of the operations, when operation `n` gets one more. -/
lemma Inv.trail_concat (h : Inv M t) {e : Event ι I O} {st : Stage I O}
    (hst : st.trail e.id = (t.stage e.id).trail e.id ++ [e]) (n : ι) :
    ((t.history ++ [e]).filter fun e => e.id = n) =
      (Function.update t.stage e.id st n).trail n := by
  rw [List.filter_append, h.trail]
  rcases eq_or_ne e.id n with rfl | hne
  · simp [hst]
  · simp [hne, Function.update_of_ne hne.symm]

lemma Inv.step (h : Inv M t) (hstep : Step M t t') : Inv M t' := by
  cases hstep with
  | @call n i hn =>
    have heff : effects (t.history ++ [.call n i]) = effects t.history := by
      simp [effects, Event.operation?]
    refine ⟨heff ▸ h.run, h.trail_concat (e := .call n i) (by simp [Event.id, hn, Stage.trail]),
      heff ▸ h.nodup, ?_⟩
    simp only [heff]
    intro a ha b hb hab
    rcases pair_sublist_concat hab with hab | ⟨heq, -⟩
    · exact h.order a ha b hb hab
    · -- the new call is not taken yet
      cases heq
      have := h.mem_history.mp (mem_effects.mp hb)
      simp [Event.id, hn, Stage.trail] at this
  | @effect n i o hn hok =>
    have heff : effects (t.history ++ [.effect n i o]) = effects t.history ++ [⟨n, i, o⟩] := by
      simp [effects, Event.operation?]
    have hnew : ∀ x ∈ effects t.history, x.id ≠ n := by
      rintro x hx rfl
      have := h.mem_history.mp (mem_effects.mp hx)
      simp [Event.id, hn, Stage.trail] at this
    refine ⟨?_, h.trail_concat (e := .effect n i o) (by simp [Event.id, hn, Stage.trail]), ?_, ?_⟩
    · rw [heff]
      exact Model.run_concat h.run hok
    · rw [heff, List.map_append, List.map_singleton, ← List.concat_eq_append, List.nodup_concat]
      refine ⟨fun hmem => ?_, h.nodup⟩
      obtain ⟨x, hx, hid⟩ := List.mem_map.mp hmem
      exact hnew x hx hid
    · simp only [heff]
      intro a ha b hb hab
      replace hab := (pair_sublist_concat hab).resolve_right fun hc => by cases hc.1
      rcases List.mem_append.mp ha with ha | ha
      · rcases List.mem_append.mp hb with hb | hb
        · exact (h.order a ha b hb hab).trans (List.sublist_append_left _ _)
        · obtain rfl := List.mem_singleton.mp hb
          exact (List.singleton_sublist.mpr ha).append (List.Sublist.refl [_])
      · -- the operation has not returned
        obtain rfl := List.mem_singleton.mp ha
        have := h.mem_history.mp (hab.subset List.mem_cons_self)
        simp [Event.id, hn, Stage.trail] at this
  | @ret n i o hn =>
    have heff : effects (t.history ++ [.ret n o]) = effects t.history := by
      simp [effects, Event.operation?]
    refine ⟨heff ▸ h.run, h.trail_concat (e := .ret n o) (by simp [Event.id, hn, Stage.trail]),
      heff ▸ h.nodup, ?_⟩
    simp only [heff]
    intro a ha b hb hab
    rcases pair_sublist_concat hab with hab | ⟨heq, -⟩
    · exact h.order a ha b hb hab
    · cases heq

lemma inv_of_reachable (h : (machine M).Reachable t) : Inv M t := by
  refine Machine.Reachable.invariant ?_ (fun _ _ _ hi hstep => hi.step hstep) h
  rintro t rfl
  exact ⟨rfl, fun n => rfl, List.nodup_nil, by simp [effects]⟩

/-- The operations of the atomic object, in the order in which it takes them. -/
theorem linearization_of_reachable (h : (machine M).Reachable t) :
    Linearization M t.history (effects t.history) := by
  have hinv := inv_of_reachable h
  refine ⟨hinv.nodup, fun x hx => ?_, fun n o hret => ?_, by simp [hinv.run], hinv.order⟩
  · have hst := Stage.effect_mem_trail (hinv.mem_history.mp (mem_effects.mp hx))
    refine hinv.mem_history.mpr ?_
    simp only [Event.id] at hst ⊢
    rcases hst with hst | hst <;> simp [hst, Stage.trail]
  · obtain ⟨i, hst⟩ := Stage.ret_mem_trail (hinv.mem_history.mp hret)
    refine ⟨i, mem_effects.mpr (hinv.mem_history.mpr ?_)⟩
    simp only [Event.id] at hst ⊢
    simp [hst, Stage.trail]

lemma linearizable_of_reachable (h : (machine M).Reachable t) : Linearizable M t.history :=
  ⟨_, linearization_of_reachable h⟩

end Atomic

end DistLabs
