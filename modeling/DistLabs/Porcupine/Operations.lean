import DistLabs.Lib.Locality
import DistLabs.Porcupine.Verdict
import Mathlib.Data.List.Permutation

/-!
# Histories of operations

`makeEntries` turns operations with times into the entries of a history: whatever order `sort.Sort`
gives to entries with the same time, the history is linearizable if the operations are.
-/

namespace DistLabs

namespace Porcupine

open scoped List

variable {I O S : Type} {ops : List (Operation I O)} {entries : List (Entry I O)} {n m : ℕ}
  {x y : Operation I O}

def Operation.op (x : Operation I O) : DistLabs.Operation Unit I O := ⟨(), x.input, x.output⟩

/-- The operations can be put in an order that respects their times and in which their outputs are
right. -/
def LinearizableOps (M : DistLabs.Model I O S) (ops : List (Operation I O)) : Prop :=
  TimedLinearizable M Operation.op Operation.call Operation.return_ ops

/-- No operation has returned before it was called. -/
def Timely (ops : List (Operation I O)) : Prop := ∀ x ∈ ops, x.call ≤ x.return_

def callEntry (x : Operation I O) (n : ℕ) : Entry I O := ⟨.inl x.input, n, x.call⟩

def returnEntry (x : Operation I O) (n : ℕ) : Entry I O := ⟨.inr x.output, n, x.return_⟩

/-! ### The entries of an operation -/

lemma mem_unsortedEntries {e : Entry I O} :
    e ∈ unsortedEntries ops ↔
      ∃ x n, ops[n]? = some x ∧ (e = callEntry x n ∨ e = returnEntry x n) := by
  simp only [unsortedEntries, List.mem_flatMap, Prod.exists, List.mem_zipIdx_iff_getElem?,
    List.mem_cons, List.not_mem_nil, or_false, callEntry, returnEntry]

lemma length_unsortedEntries : (unsortedEntries ops).length = 2 * ops.length := by
  simp [unsortedEntries, List.length_flatMap, mul_comm]

/-- The entries of operations that are numbered from `k` on. -/
def entriesFrom (ops : List (Operation I O)) (k : ℕ) : List (Entry I O) :=
  (ops.zipIdx k).flatMap fun p => [callEntry p.1 p.2, returnEntry p.1 p.2]

lemma le_of_mem_entriesFrom {k : ℕ} {e : Entry I O} (he : e ∈ entriesFrom ops k) : k ≤ e.id := by
  obtain ⟨⟨x, n⟩, hp, he⟩ := List.mem_flatMap.mp he
  have hn := (List.mem_zipIdx hp).1
  rcases List.mem_pair.mp he with rfl | rfl
  · exact hn
  · exact hn

lemma filter_entriesFrom (k : ℕ) (hx : ops[n]? = some x) :
    ((entriesFrom ops k).filter fun e => e.id = k + n) =
      [callEntry x (k + n), returnEntry x (k + n)] := by
  induction ops generalizing k n with
  | nil => cases hx
  | cons z ops ih =>
    have hcons : entriesFrom (z :: ops) k =
        [callEntry z k, returnEntry z k] ++ entriesFrom ops (k + 1) := rfl
    rw [hcons, List.filter_append]
    cases n with
    | zero =>
      cases hx
      have hnil : ((entriesFrom ops (k + 1)).filter fun e => decide (e.id = k + 0)) = [] := by
        refine List.filter_eq_nil_iff.mpr fun e he => ?_
        have := le_of_mem_entriesFrom he
        simp only [decide_eq_true_eq]
        omega
      rw [hnil]
      simp [callEntry, returnEntry]
    | succ n =>
      have hn : k + (n + 1) = k + 1 + n := by omega
      rw [hn, ih (k + 1) hx]
      simp [callEntry, returnEntry]
      omega

lemma filter_unsortedEntries (hx : ops[n]? = some x) :
    ((unsortedEntries ops).filter fun e => e.id = n) = [callEntry x n, returnEntry x n] := by
  have := filter_entriesFrom 0 hx
  rwa [Nat.zero_add] at this

/-! ### Sorting -/

lemma less_callEntry_returnEntry (hxy : x.call ≤ y.return_) :
    (callEntry x n).less (returnEntry y m) = true := by
  unfold Entry.less
  split_ifs with hne
  · exact decide_eq_true (lt_of_le_of_ne hxy hne)
  · rfl

lemma less_returnEntry_callEntry :
    (returnEntry x n).less (callEntry y m) = true ↔ x.return_ < y.call := by
  unfold Entry.less
  split_ifs with hne
  · exact decide_eq_true_iff
  · simp only [returnEntry, callEntry, ne_eq, not_not] at hne
    simp [Entry.isReturn, returnEntry, hne]

lemma MakesEntries.mem_iff (hm : MakesEntries ops entries) {e : Entry I O} :
    e ∈ entries ↔ ∃ x n, ops[n]? = some x ∧ (e = callEntry x n ∨ e = returnEntry x n) :=
  hm.perm.mem_iff.trans mem_unsortedEntries

/-- The call of an operation comes before its return. -/
lemma MakesEntries.filter_eq (hm : MakesEntries ops entries) (ht : Timely ops)
    (hx : ops[n]? = some x) :
    (entries.filter fun e => e.id = n) = [callEntry x n, returnEntry x n] := by
  have hperm := hm.perm.filter fun e => decide (e.id = n)
  rw [filter_unsortedEntries hx] at hperm
  rcases List.perm_pair.mp hperm with heq | heq
  · exact heq
  · have hsorted := hm.sorted.filter fun e => decide (e.id = n)
    rw [heq] at hsorted
    have hless := less_callEntry_returnEntry (n := n) (m := n) (ht x (List.mem_of_getElem? hx))
    simp [hless] at hsorted

lemma MakesEntries.wellFormed (hm : MakesEntries ops entries) (ht : Timely ops) :
    WellFormed entries where
  complete e he := by
    obtain ⟨e, hmem, rfl⟩ := List.mem_map.mp he
    obtain ⟨x, n, hx, hcase⟩ := hm.mem_iff.mp hmem
    have hid : e.event.id = n := by
      rw [e.id_event]
      rcases hcase with rfl | rfl <;> rfl
    have hfilter : (entries.filter ((fun z => decide (z.id = n)) ∘ Entry.event)) =
        entries.filter fun z => decide (z.id = n) :=
      List.filter_congr fun z _ => by simp [z.id_event]
    refine ⟨x.input, x.output, ?_⟩
    rw [hid, List.filter_map, hfilter, hm.filter_eq ht hx]
    rfl
  lt e he := by
    obtain ⟨x, n, hx, hcase⟩ := hm.mem_iff.mp he
    have hn := (List.getElem?_eq_some_iff.mp hx).1
    have hlen := hm.perm.length_eq
    rw [length_unsortedEntries] at hlen
    rcases hcase with rfl | rfl
    all_goals
      simp only [callEntry, returnEntry]
      omega

lemma MakesEntries.eq_callEntry (hm : MakesEntries ops entries) {e : Entry I O} (he : e ∈ entries)
    {i : I} (hev : e.event = .call n i) :
    ∃ x, ops[n]? = some x ∧ x.input = i ∧ e = callEntry x n := by
  obtain ⟨x, m, hx, rfl | rfl⟩ := hm.mem_iff.mp he
  · cases hev
    exact ⟨x, hx, rfl, rfl⟩
  · cases hev

lemma MakesEntries.eq_returnEntry (hm : MakesEntries ops entries) {e : Entry I O}
    (he : e ∈ entries) {o : O} (hev : e.event = .ret n o) :
    ∃ x, ops[n]? = some x ∧ x.output = o ∧ e = returnEntry x n := by
  obtain ⟨x, m, hx, rfl | rfl⟩ := hm.mem_iff.mp he
  · cases hev
  · cases hev
    exact ⟨x, hx, rfl, rfl⟩

/-- One operation has returned before another was called if the times say so. -/
lemma MakesEntries.precedes_iff (hm : MakesEntries ops entries) (hx : ops[n]? = some x)
    (hy : ops[m]? = some y) :
    [.ret n x.output, .call m y.input] <+ entries.map Entry.event ↔ x.return_ < y.call := by
  have hsorted : ∀ {e e' : Entry I O}, [e, e'] <+ entries → e'.less e = false :=
    List.pairwise_iff_forall_sublist.mp hm.sorted
  constructor
  · intro hsub
    obtain ⟨l, hl, heq⟩ := List.sublist_map_iff.mp hsub
    obtain ⟨e, l, rfl, hret, heq⟩ := List.map_eq_cons_iff.mp heq.symm
    obtain ⟨e', l, rfl, hcall, heq⟩ := List.map_eq_cons_iff.mp heq
    obtain rfl := List.map_eq_nil_iff.mp heq
    obtain ⟨x', hx', -, rfl⟩ := hm.eq_returnEntry (hl.subset (by simp)) hret
    obtain ⟨y', hy', -, rfl⟩ := hm.eq_callEntry (hl.subset (by simp)) hcall
    cases hx.symm.trans hx'
    cases hy.symm.trans hy'
    by_contra hnot
    cases (hsorted hl).symm.trans (less_callEntry_returnEntry (not_lt.mp hnot))
  · intro hlt
    have hless := (less_returnEntry_callEntry (n := n) (m := m)).mpr hlt
    have hret : returnEntry x n ∈ entries := hm.mem_iff.mpr ⟨x, n, hx, .inr rfl⟩
    have hcall : callEntry y m ∈ entries := hm.mem_iff.mpr ⟨y, m, hy, .inl rfl⟩
    rcases sublist_or_sublist hret hcall (by simp [returnEntry, callEntry]) with hsub | hsub
    · exact hsub.map Entry.event
    · cases (hsorted hsub).symm.trans hless

/-! ### Linearizations -/

/-- An operation with its number. -/
def tag (p : Operation I O × ℕ) : DistLabs.Operation ℕ I O := ⟨p.2, p.1.input, p.1.output⟩

lemma nodup_zipIdx (ops : List (Operation I O)) : (ops.zipIdx.map Prod.snd).Nodup := by
  rw [List.zipIdx_map_snd]
  exact List.nodup_range'

/-- The history that `makeEntries` gives is linearizable if the operations are. -/
theorem MakesEntries.linearizable_iff (hm : MakesEntries ops entries) (ht : Timely ops)
    (M : DistLabs.Model I O S) :
    Linearizable M (entries.map Entry.event) ↔ LinearizableOps M ops := by
  have hcomplete := (hm.wellFormed ht).complete
  have hmem : ∀ {x : Operation I O} {n : ℕ}, (x, n) ∈ ops.zipIdx ↔ ops[n]? = some x :=
    List.mem_zipIdx_iff_getElem?
  have htagged : LinearizableOps M ops ↔ TimedLinearizable M tag (fun p => p.1.call)
      (fun p => p.1.return_) ops.zipIdx := by
    conv_lhs => rw [LinearizableOps, ← ops.zipIdx_map_fst 0, timedLinearizable_map_iff]
    refine timedLinearizable_congr (T := ℤ) ?_
    exact fun p => ⟨rfl, rfl⟩
  rw [htagged]
  constructor
  · rintro ⟨l, hl⟩
    obtain ⟨hb, hall⟩ := History.beginning_of_linearization hl hcomplete
    refine hl.timed ?_ (fun z => ⟨fun hz => ?_, ?_⟩) ?_
    · exact nodup_zipIdx ops
    · obtain ⟨e, he, hev⟩ := List.mem_map.mp (hb.called z hz)
      obtain ⟨x, hx, hin, -⟩ := hm.eq_callEntry he hev
      obtain ⟨e', he', hev'⟩ := List.mem_map.mp (hb.returned z hz)
      obtain ⟨x', hx', hout, -⟩ := hm.eq_returnEntry he' hev'
      cases hx.symm.trans hx'
      exact ⟨(x, z.id), hmem.mpr hx, by simp [tag, hin, hout]⟩
    · rintro ⟨⟨x, n⟩, hx, rfl⟩
      have hret : .ret n x.output ∈ entries.map Entry.event :=
        List.mem_map.mpr ⟨_, hm.mem_iff.mpr ⟨x, n, hmem.mp hx, .inr rfl⟩, rfl⟩
      obtain ⟨i, hi⟩ := hl.complete _ _ hret
      obtain ⟨e, he, hev⟩ := List.mem_map.mp (hb.called _ hi)
      obtain ⟨x', hx', rfl, -⟩ := hm.eq_callEntry he hev
      cases (hmem.mp hx).symm.trans hx'
      exact hi
    · rintro ⟨x, n⟩ hx ⟨y, m⟩ hy hlt
      exact (hm.precedes_iff (hmem.mp hx) (hmem.mp hy)).mpr hlt
  · rintro ⟨l, hperm, hright, horder⟩
    have hmem' : ∀ {x : Operation I O} {n : ℕ}, (x, n) ∈ l ↔ ops[n]? = some x :=
      hperm.mem_iff.trans hmem
    refine ⟨l.map tag, ?_, ?_, ?_, hright, ?_⟩
    · rw [List.map_map]
      exact (hperm.map Prod.snd).nodup_iff.mpr (nodup_zipIdx ops)
    · intro z hz
      obtain ⟨⟨x, n⟩, hp, rfl⟩ := List.mem_map.mp hz
      exact List.mem_map.mpr ⟨_, hm.mem_iff.mpr ⟨x, n, hmem'.mp hp, .inl rfl⟩, rfl⟩
    · intro n o hret
      obtain ⟨e, he, hev⟩ := List.mem_map.mp hret
      obtain ⟨x, hx, rfl, -⟩ := hm.eq_returnEntry he hev
      exact ⟨x.input, List.mem_map.mpr ⟨(x, n), hmem'.mpr hx, rfl⟩⟩
    · intro z hz z' hz' hbefore
      obtain ⟨⟨x, n⟩, hp, rfl⟩ := List.mem_map.mp hz
      obtain ⟨⟨y, m⟩, hp', rfl⟩ := List.mem_map.mp hz'
      have hlt := (hm.precedes_iff (hmem'.mp hp) (hmem'.mp hp')).mp hbefore
      have hne : (x, n) ≠ (y, m) := by
        rintro ⟨⟩
        have := ht x (List.mem_of_getElem? (hmem'.mp hp))
        omega
      rcases sublist_or_sublist hp hp' hne with hsub | hsub
      · exact hsub.map tag
      · exact absurd hlt (List.pairwise_iff_forall_sublist.mp horder hsub)

end Porcupine

end DistLabs
