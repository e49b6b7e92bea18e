import DistLabs.KvSrv.Clerk
import DistLabs.Porcupine.Parallel
import Mathlib.Data.List.Sort
import Mathlib.Data.String.Basic

/-!
# Checking a key/value store

`checkOperations` checks the partitions a model gives. `KvModel` divides a history by keys, and its
state is the value of one key. The verdict is that for the store with all keys.
-/

namespace DistLabs

namespace Porcupine

open scoped List

variable {I O S : Type} [DecidableEq S]

/-- `checkOperations` may return `r`. -/
def ChecksOperations (model : Model I O S) (history : List (Operation I O))
    (verbose hasTimeout : Bool) (r : CheckResult) : Prop :=
  ∃ l c, List.Forall₂ MakesEntries ((fillDefault model).partition history) l ∧
    (checkParallel (fillDefault model) l verbose hasTimeout).Reachable c ∧ c.phase = .done r

lemma exists_left {α β : Type*} {R : α → β → Prop} {l : List α} {l' : List β}
    (h : List.Forall₂ R l l') {b : β} (hb : b ∈ l') : ∃ a ∈ l, R a b :=
  exists_right h.flip hb

/-- The result is right for the partitions. -/
lemma ChecksOperations.partitions {model : Model I O S} {history : List (Operation I O)}
    {verbose hasTimeout : Bool} {r : CheckResult} (hE : (fillDefault model).Lawful)
    (ht : ∀ p ∈ (fillDefault model).partition history, Timely p)
    (h : ChecksOperations model history verbose hasTimeout r) :
    (r = .ok → ∀ p ∈ (fillDefault model).partition history, LinearizableOps model.toModel p) ∧
      (r = .illegal →
        ∃ p ∈ (fillDefault model).partition history, ¬LinearizableOps model.toModel p) ∧
      (r = .unknown → hasTimeout = true) := by
  obtain ⟨l, c, hl, hc, hd⟩ := h
  have hw : ∀ e ∈ l, WellFormed e := by
    intro e he
    obtain ⟨p, hp, hm⟩ := exists_left hl he
    exact hm.wellFormed (ht p hp)
  have hinv := Parallel.inv_of_reachable hE hw hc
  obtain ⟨hok, hill, hunk⟩ := hinv.verdict hd
  refine ⟨fun hr p hp => ?_, fun hr => ?_, fun hr => Parallel.timedOut_of_reachable hc (hunk hr)⟩
  · obtain ⟨e, he, hm⟩ := exists_right hl hp
    exact (hm.linearizable_iff (ht p hp) _).mp (hok hr e he)
  · obtain ⟨e, he, hnot⟩ := hill hr
    obtain ⟨p, hp, hm⟩ := exists_left hl he
    exact ⟨p, hp, fun hlin => hnot ((hm.linearizable_iff (ht p hp) _).mpr hlin)⟩

end Porcupine

namespace KvModel

open Porcupine

variable {history : List (Porcupine.Operation KvInput KvOutput)}

/-- The loop that collects the operations on each key. -/
def collect (history : List (Porcupine.Operation KvInput KvOutput)) :
    String → List (Porcupine.Operation KvInput KvOutput) :=
  history.foldl (fun m v => Function.update m v.input.key (m v.input.key ++ [v])) fun _ => []

/-- The operations on each key; the keys are sorted. -/
def partition (history : List (Porcupine.Operation KvInput KvOutput)) :
    List (List (Porcupine.Operation KvInput KvOutput)) :=
  ((history.map fun v => v.input.key).dedup.insertionSort (· ≤ ·)).map (collect history)

/-- The model of one key with its partitions. -/
def model : Porcupine.Model KvInput KvOutput String where
  init := ""
  step := KvModel.step
  partition := some partition

lemma collect_eq (k : String) : collect history k = onKey Operation.op KvInput.key history k := by
  have hfold : ∀ m : String → List (Porcupine.Operation KvInput KvOutput),
      history.foldl (fun m v => Function.update m v.input.key (m v.input.key ++ [v])) m k =
        m k ++ onKey Operation.op KvInput.key history k := by
    induction history with
    | nil => simp [onKey]
    | cons v history ih =>
      intro m
      rw [List.foldl_cons, ih]
      rcases eq_or_ne k v.input.key with rfl | hne
      · simp [onKey, Operation.op]
      · simp [onKey, Operation.op, hne, hne.symm]
  exact hfold _

lemma mem_partition {p : List (Porcupine.Operation KvInput KvOutput)} :
    p ∈ partition history ↔
      ∃ v ∈ history, p = onKey Operation.op KvInput.key history v.input.key := by
  simp only [partition, List.mem_map, List.mem_insertionSort, List.mem_dedup, collect_eq]
  constructor
  · rintro ⟨_, ⟨v, hv, rfl⟩, rfl⟩
    exact ⟨v, hv, rfl⟩
  · rintro ⟨v, hv, rfl⟩
    exact ⟨_, ⟨v, hv, rfl⟩, rfl⟩

/-- A history is linearizable if its partitions are. -/
lemma linearizableOps_iff_partition (ht : Timely history) :
    LinearizableOps kvModel history ↔ ∀ p ∈ partition history, LinearizableOps model.toModel p := by
  have hkv : kvModel = model.toModel.product KvInput.key := rfl
  rw [LinearizableOps, hkv, linearizable_product_iff ht]
  constructor
  · intro h p hp
    obtain ⟨v, -, rfl⟩ := mem_partition.mp hp
    exact h _
  · intro h k
    by_cases hk : ∃ v ∈ history, v.input.key = k
    · obtain ⟨v, hv, rfl⟩ := hk
      exact h _ (mem_partition.mpr ⟨v, hv, rfl⟩)
    · have hnil : onKey Operation.op KvInput.key history k = [] :=
        List.filter_eq_nil_iff.mpr fun v hv heq => hk ⟨v, hv, of_decide_eq_true heq⟩
      rw [hnil]
      exact ⟨[], .refl _, rfl, .nil⟩

lemma timely_partition (ht : Timely history) :
    ∀ p ∈ (fillDefault model).partition history, Timely p := by
  intro p hp
  obtain ⟨v, -, rfl⟩ := mem_partition.mp hp
  exact fun x hx => ht x (mem_onKey.mp hx).1

/-- The verdict of `checkOperations` with `KvModel` is that for the store with all keys: the history
is linearizable if it returns `Ok` and is not if it returns `Illegal`. -/
theorem verdict_of_checksOperations (ht : Timely history) {verbose hasTimeout : Bool}
    {r : CheckResult} (h : ChecksOperations model history verbose hasTimeout r) :
    (r = .ok → LinearizableOps kvModel history) ∧
      (r = .illegal → ¬LinearizableOps kvModel history) ∧ (r = .unknown → hasTimeout = true) := by
  obtain ⟨hok, hill, hunk⟩ := h.partitions (lawful_shallowEqual rfl) (timely_partition ht)
  rw [linearizableOps_iff_partition ht]
  refine ⟨hok, fun hr hall => ?_, hunk⟩
  obtain ⟨p, hp, hnot⟩ := hill hr
  exact hnot (hall p hp)

/-- Operations on two keys, two of them at the same time. -/
def twoKeys : List (Porcupine.Operation KvInput KvOutput) :=
  [⟨⟨1, "x", "1"⟩, 0, ⟨""⟩, 1⟩, ⟨⟨3, "y", "b"⟩, 2, ⟨""⟩, 5⟩, ⟨⟨0, "x", ""⟩, 3, ⟨"1"⟩, 4⟩]

/-- The entries of the operations, which are in order. -/
def twoKeysEntries : List (List (Entry KvInput KvOutput)) := (partition twoKeys).map unsortedEntries

def twoKeysStart : Parallel KvInput KvOutput String :=
  (Parallel.start (fillDefault model) twoKeysEntries).get (by decide +kernel)

lemma checksOperations_twoKeys : ChecksOperations model twoKeys false false .ok := by
  obtain ⟨c, past, hrun, hdone⟩ : ∃ c past,
      (Machine.ofStep twoKeysStart (Parallel.step (fillDefault model) false false)).Run
        Machine.Any (c :: past) ∧ c.phase = .done .ok :=
    Machine.exists_run_of_trace (fun _ _ => true) (fun _ _ _ => trivial)
      [.iterate 0, .iterate 1, .iterate 0, .iterate 0, .iterate 1, .send 0, .send 1, .receive,
        .receive] (by decide +kernel)
  have hsorted : ∀ p ∈ partition twoKeys,
      (unsortedEntries p).Pairwise fun a b => b.less a = false := by decide +kernel
  exact ⟨twoKeysEntries, c,
    List.forall₂_map_right_iff.mpr (List.forall₂_same.mpr fun p hp => ⟨.refl _, hsorted p hp⟩),
    ⟨past, run_of_ofStep (Option.some_get _).symm hrun⟩, hdone⟩

/-- The operations on both keys are linearizable together. -/
theorem linearizableOps_twoKeys : LinearizableOps kvModel twoKeys := by
  have ht : Timely twoKeys := by simp [Timely, twoKeys]
  exact (verdict_of_checksOperations ht checksOperations_twoKeys).1 rfl

end KvModel

end DistLabs
