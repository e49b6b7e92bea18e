import Mathlib.Data.List.Perm.Basic
import Mathlib.Data.List.Nodup
import Mathlib.Order.Lattice
import Mathlib.Order.Defs.LinearOrder

/-!
# Reducing a list of pairs by key

`IsReduction f l r` says that `r` has one entry for every key of `l`, with what `f` makes of the
key and its values. If `f` does not care about the order of the values, the reduction of a list is
unique up to order and depends on the list only up to order, and it can be made class by class.

`reduceRuns` reduces every run of equal keys. On a list that is sorted by key this is a reduction.
-/

namespace DistLabs

variable {κ ν ρ : Type*}

/-- `f` does not depend on the order of the values. -/
def OrderFree (f : κ → List ν → ρ) : Prop := ∀ k vs vs', vs.Perm vs' → f k vs = f k vs'

lemma mem_keys_map_mk {k k' : κ} {vs : List ν} (hvs : vs ≠ []) :
    k' ∈ (vs.map (k, ·)).map Prod.fst ↔ k' = k := by
  simp [Function.comp_def, List.mem_replicate, hvs]

section

variable [DecidableEq κ]

/-- The values of a key, in order. -/
def valuesOf (k : κ) (l : List (κ × ν)) : List ν := (l.filter fun p => p.1 = k).map Prod.snd

lemma valuesOf_append (k : κ) (l l' : List (κ × ν)) :
    valuesOf k (l ++ l') = valuesOf k l ++ valuesOf k l' := by
  simp [valuesOf]

lemma valuesOf_eq_nil {k : κ} {l : List (κ × ν)} (h : k ∉ l.map Prod.fst) : valuesOf k l = [] := by
  simp only [valuesOf, List.map_eq_nil_iff, List.filter_eq_nil_iff, decide_eq_true_eq]
  rintro p hp rfl
  exact h (List.mem_map_of_mem hp)

lemma valuesOf_map_mk (k : κ) (vs : List ν) : valuesOf k (vs.map (k, ·)) = vs := by
  simp [valuesOf, List.filter_map, Function.comp_def]

lemma valuesOf_filter {k : κ} {c : κ → ℕ} {i : ℕ} (hk : c k = i) (l : List (κ × ν)) :
    valuesOf k (l.filter fun p => c p.1 = i) = valuesOf k l := by
  simp only [valuesOf, List.filter_filter]
  congr 1
  refine List.filter_congr fun p _ => ?_
  by_cases hp : p.1 = k <;> simp [hp, hk]

/-- `r` has one entry for every key of `l`. -/
structure IsReduction (f : κ → List ν → ρ) (l : List (κ × ν)) (r : List (κ × ρ)) : Prop where
  nodup : (r.map Prod.fst).Nodup
  mem_iff : ∀ k, k ∈ r.map Prod.fst ↔ k ∈ l.map Prod.fst
  eq : ∀ p ∈ r, p.2 = f p.1 (valuesOf p.1 l)

namespace IsReduction

variable {f : κ → List ν → ρ} {l l' : List (κ × ν)} {r r' : List (κ × ρ)}

lemma perm_left (h : IsReduction f l r) (hf : OrderFree f) (hl : l.Perm l') :
    IsReduction f l' r where
  nodup := h.nodup
  mem_iff k := (h.mem_iff k).trans (hl.map _).mem_iff
  eq p hp := (h.eq p hp).trans (hf _ _ _ ((hl.filter _).map _))

lemma mem_of_mem (h : IsReduction f l r) (h' : IsReduction f l r') {p : κ × ρ} (hp : p ∈ r) :
    p ∈ r' := by
  have hkey : p.1 ∈ r'.map Prod.fst :=
    (h'.mem_iff p.1).mpr ((h.mem_iff p.1).mp (List.mem_map_of_mem hp))
  obtain ⟨q, hq, hqp⟩ := List.mem_map.mp hkey
  have heq : q = p := Prod.ext hqp (by rw [h'.eq q hq, h.eq p hp, hqp])
  exact heq ▸ hq

/-- A reduction is unique up to order. -/
lemma unique (h : IsReduction f l r) (h' : IsReduction f l r') : r.Perm r' := by
  refine (List.perm_ext_iff_of_nodup h.nodup.of_map h'.nodup.of_map).mpr fun p => ?_
  exact ⟨h.mem_of_mem h', h'.mem_of_mem h⟩

/-- The key of an entry is in the class that has been reduced. -/
lemma class_eq {c : κ → ℕ} {i : ℕ} (h : IsReduction f (l.filter fun p => c p.1 = i) r) {k : κ}
    (hk : k ∈ r.map Prod.fst) : c k = i := by
  obtain ⟨p, hp, rfl⟩ := List.mem_map.mp ((h.mem_iff k).mp hk)
  exact of_decide_eq_true (List.mem_filter.mp hp).2

/-- A list can be reduced class by class. -/
lemma flatMap {c : κ → ℕ} {n : ℕ} (hc : ∀ p ∈ l, c p.1 < n) {r : ℕ → List (κ × ρ)}
    (h : ∀ i < n, IsReduction f (l.filter fun p => c p.1 = i) (r i)) :
    IsReduction f l ((List.range n).flatMap r) where
  nodup := by
    rw [List.map_flatMap]
    refine List.nodup_flatMap.mpr ⟨fun i hi => (h i (List.mem_range.mp hi)).nodup, ?_⟩
    refine List.nodup_range.imp_of_mem fun {i j} hi hj hne k hki hkj => hne ?_
    exact ((h i (List.mem_range.mp hi)).class_eq hki).symm.trans
      ((h j (List.mem_range.mp hj)).class_eq hkj)
  mem_iff k := by
    rw [List.map_flatMap, List.mem_flatMap]
    constructor
    · rintro ⟨i, hi, hk⟩
      obtain ⟨p, hp, rfl⟩ := List.mem_map.mp (((h i (List.mem_range.mp hi)).mem_iff k).mp hk)
      exact List.mem_map_of_mem (List.mem_filter.mp hp).1
    · intro hk
      obtain ⟨p, hp, rfl⟩ := List.mem_map.mp hk
      refine ⟨c p.1, List.mem_range.mpr (hc p hp), ((h _ (hc p hp)).mem_iff p.1).mpr ?_⟩
      exact List.mem_map_of_mem (List.mem_filter.mpr ⟨hp, decide_eq_true rfl⟩)
  eq p hp := by
    obtain ⟨i, hi, hp⟩ := List.mem_flatMap.mp hp
    have hi := List.mem_range.mp hi
    rw [(h i hi).eq p hp, valuesOf_filter ((h i hi).class_eq (List.mem_map_of_mem hp))]

end IsReduction

/-! ### Runs -/

/-- Reduce the runs of a list behind the values `vs` of the key `k`. -/
def reduceRun (f : κ → List ν → ρ) (k : κ) (vs : List ν) : List (κ × ν) → List (κ × ρ)
  | [] => [(k, f k vs)]
  | p :: l =>
    if p.1 = k then reduceRun f k (vs ++ [p.2]) l else (k, f k vs) :: reduceRun f p.1 [p.2] l

/-- Reduce every run of equal keys. -/
def reduceRuns (f : κ → List ν → ρ) : List (κ × ν) → List (κ × ρ)
  | [] => []
  | p :: l => reduceRun f p.1 [p.2] l

end

section Sorted

variable [LinearOrder κ] {f : κ → List ν → ρ}

lemma isReduction_reduceRun {k : κ} {vs : List ν} {l : List (κ × ν)} (hvs : vs ≠ [])
    (hk : ∀ p ∈ l, k ≤ p.1) (hl : l.Pairwise fun p q => p.1 ≤ q.1) :
    IsReduction f (vs.map (k, ·) ++ l) (reduceRun f k vs l) := by
  induction l generalizing k vs with
  | nil =>
    refine ⟨List.nodup_singleton k, fun k' => ?_, fun p hp => ?_⟩
    · rw [List.append_nil, mem_keys_map_mk hvs]
      exact List.mem_singleton
    · rw [List.mem_singleton.mp hp, List.append_nil, valuesOf_map_mk]
  | cons p l ih =>
    obtain ⟨hpl, hl⟩ := List.pairwise_cons.mp hl
    rw [reduceRun]
    split_ifs with hp
    · -- the run goes on
      have heq : vs.map (k, ·) ++ p :: l = (vs ++ [p.2]).map (k, ·) ++ l := by
        simp [← hp]
      rw [heq]
      exact ih (by simp) (fun q hq => hk q (List.mem_cons_of_mem _ hq)) hl
    · -- a new run begins, and `k` does not come again
      have hlt : k < p.1 := lt_of_le_of_ne (hk p List.mem_cons_self) (Ne.symm hp)
      have hrest : IsReduction f ([p.2].map (p.1, ·) ++ l) (reduceRun f p.1 [p.2] l) :=
        ih (List.cons_ne_nil _ _) hpl hl
      change IsReduction f (p :: l) _ at hrest
      have hnot : k ∉ (p :: l).map Prod.fst := by
        intro hmem
        obtain ⟨q, hq, rfl⟩ := List.mem_map.mp hmem
        rcases List.mem_cons.mp hq with rfl | hq
        · exact hp rfl
        · exact absurd (hpl q hq) (not_le.mpr hlt)
      have hnot' : k ∉ (reduceRun f p.1 [p.2] l).map Prod.fst :=
        fun hmem => hnot ((hrest.mem_iff k).mp hmem)
      refine ⟨List.nodup_cons.mpr ⟨hnot', hrest.nodup⟩, fun k' => ?_, fun q hq => ?_⟩
      · rw [List.map_cons, List.mem_cons, hrest.mem_iff, List.map_append, List.mem_append,
          mem_keys_map_mk hvs]
      · rw [valuesOf_append]
        rcases List.mem_cons.mp hq with rfl | hq
        · rw [valuesOf_map_mk, valuesOf_eq_nil hnot, List.append_nil]
        · have hne : q.1 ∉ (vs.map (k, ·)).map Prod.fst := by
            rw [mem_keys_map_mk hvs]
            exact fun hqk => hnot' (hqk ▸ List.mem_map_of_mem hq)
          rw [valuesOf_eq_nil hne, List.nil_append, hrest.eq q hq]

lemma isReduction_reduceRuns {l : List (κ × ν)} (hl : l.Pairwise fun p q => p.1 ≤ q.1) :
    IsReduction f l (reduceRuns f l) := by
  cases l with
  | nil => exact ⟨List.nodup_nil, fun k => Iff.rfl, nofun⟩
  | cons p l =>
    obtain ⟨hpl, hl⟩ := List.pairwise_cons.mp hl
    have hrun : IsReduction f ([p.2].map (p.1, ·) ++ l) (reduceRun f p.1 [p.2] l) :=
      isReduction_reduceRun (List.cons_ne_nil _ _) hpl hl
    exact hrun

end Sorted

end DistLabs
