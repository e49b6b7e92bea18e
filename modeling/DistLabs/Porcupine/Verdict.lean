import DistLabs.Porcupine.Search

/-!
# The result of the checker

On a history in which every operation has returned, `checkSingle` ends, and it returns true if the
history is linearizable. The sequences it returns are beginnings of linearizations, and none is
longer that has the same operation.
-/

namespace DistLabs

namespace Porcupine

open scoped List

variable {I O S : Type} {model : FilledModel I O S} {h : List (DistLabs.Event ℕ I O)}
  {heap : Heap I O} {head bits : ℕ} {addrs : List ℕ} {computePartial : Bool}

/-- Every operation of a history has been called and has returned, and is numbered. -/
structure WellFormed (history : List (Entry I O)) : Prop where
  complete : History.Complete (history.map Entry.event)
  lt : ∀ e ∈ history, e.id < history.length / 2

/-- `Equal` identifies only states from which the same outputs are right. -/
abbrev FilledModel.Lawful (model : FilledModel I O S) : Prop :=
  History.Congruence model.toModel fun s s' => model.equal s s' = true

/-! ### The start -/

lemma length_eq_of_linked {links : Links ℕ} {a : ℕ} {l : List ℕ} (hl : links.Linked a l)
    {fuel : ℕ} (hfuel : l.length < fuel) : length links fuel (some a) = some (l.length + 1) := by
  induction l generalizing a fuel with
  | nil =>
    cases fuel with
    | zero => omega
    | succ fuel => rw [length, hl.next_eq, List.head?_nil, length]; rfl
  | cons b l ih =>
    cases fuel with
    | zero => omega
    | succ fuel =>
      rw [List.length_cons] at hfuel
      rw [length, hl.1, ih hl.2.2 (by omega)]
      rfl

lemma length_makeLinkedEntries (history : List (Entry I O)) :
    length (makeLinkedEntries history).heap.links (history.length + 1)
      (makeLinkedEntries history).root = some history.length := by
  have hch := chained_makeLinkedEntries history
  rw [hch.root]
  cases hn : history.length with
  | zero => rfl
  | succ k =>
    rw [descending_succ, List.head?_cons,
      length_eq_of_linked (hch.linked k hn).1 (by simp), length_descending]

/-- There are two events of every operation. -/
lemma two_mul_card_ids (hc : History.Complete h) :
    2 * (h.map DistLabs.Event.id).toFinset.card = h.length := by
  have hcount : ∀ n ∈ (h.map DistLabs.Event.id).toFinset,
      (h.map DistLabs.Event.id).count n = 2 := by
    intro n hn
    obtain ⟨e, he, rfl⟩ := List.mem_map.mp (List.mem_toFinset.mp hn)
    obtain ⟨i, o, hio⟩ := hc e he
    have hfilter : (h.filter ((fun x => x == e.id) ∘ DistLabs.Event.id)) =
        h.filter fun x => decide (x.id = e.id) := List.filter_congr fun x _ => beq_eq_decide _ _
    rw [List.count, List.countP_map, List.countP_eq_length_filter, hfilter, hio]
    rfl
  have hsum := List.sum_toFinset_count_eq_length (h.map DistLabs.Event.id)
  rw [Finset.sum_congr rfl hcount] at hsum
  simpa [mul_comm] using hsum

/-- As many numbers are used as there are operations. -/
lemma exists_event_of_lt (hc : History.Complete h) (hlt : ∀ e ∈ h, e.id < h.length / 2) {i : ℕ}
    (hi : i < h.length / 2) : ∃ e ∈ h, e.id = i := by
  have hcard := two_mul_card_ids hc
  have hsub : (h.map DistLabs.Event.id).toFinset ⊆ Finset.range (h.length / 2) := by
    intro n hn
    obtain ⟨e, he, rfl⟩ := List.mem_map.mp (List.mem_toFinset.mp hn)
    exact Finset.mem_range.mpr (hlt e he)
  have heq := Finset.eq_of_subset_of_card_le hsub (by rw [Finset.card_range]; omega)
  have hmem : i ∈ (h.map DistLabs.Event.id).toFinset := heq ▸ Finset.mem_range.mpr hi
  exact List.mem_map.mp (List.mem_toFinset.mp hmem)

/-- The list of all entries, behind the head. -/
lemma setting_makeLinkedEntries {history : List (Entry I O)} (hw : WellFormed history) :
    Setting (history.map Entry.event)
      ((makeLinkedEntries history).add ⟨none, none, -1⟩).heap history.length
      (descending history.length) (history.length / 2) := by
  have hlayout := layout_makeLinkedEntries hw.complete [⟨none, none, -1⟩]
  have hadd := (chained_makeLinkedEntries history).add ⟨none, none, -1⟩
  have hlt : ∀ x ∈ history.map Entry.event, x.id < history.length / 2 := by
    intro x hx
    obtain ⟨e, hmem, rfl⟩ := List.mem_map.mp hx
    rw [e.id_event]
    exact hw.lt e hmem
  refine ⟨hlayout, List.nodup_cons.mpr ⟨by simp, nodup_descending _⟩, (hadd.linked _ rfl).1,
    fun i => ⟨fun hi => ?_, ?_⟩⟩
  · exact exists_event_of_lt hw.complete (by simpa using hlt) (by simpa using hi)
  · rintro ⟨e, he, rfl⟩
    exact hlt e he

/-- The search of the code starts as the search for a linearization does. -/
lemma exists_start (model : FilledModel I O S) {history : List (Entry I O)}
    (hw : WellFormed history) (computePartial : Bool) :
    ∃ s heap head addrs, Search.start model history = some s ∧
      Setting (history.map Entry.event) heap head addrs (history.length / 2) ∧
      Related model (history.map Entry.event) heap head addrs (history.length / 2) computePartial s
        (model.space (history.map Entry.event)).initial := by
  have hset := setting_makeLinkedEntries hw
  have hch := chained_makeLinkedEntries history
  have hstart : Search.start model history = some
      { heap := ((makeLinkedEntries history).add ⟨none, none, -1⟩).heap
        headEntry := history.length
        entry := (makeLinkedEntries history).root
        state := model.init
        linearized := Bitset.newBitset (history.length / 2)
        cache := fun _ => []
        calls := []
        longest := List.replicate (history.length / 2) none } := by
    simp only [Search.start, hch.length, length_makeLinkedEntries, Option.bind_eq_bind,
      Option.bind_some]
  refine ⟨_, _, _, _, hstart, hset, ⟨⟨∅, model.init⟩, [], descending history.length, [], ?_, ?_⟩,
    caches_empty, fun _ => ⟨fun i m hm => ?_, by simp [SearchSpace.initial]⟩⟩
  · exact
      { nodes := rfl
        head := rfl
        stacked := .nil
        left_eq := by simp [left]
        calls := by simp
        entry := hch.root
        state := rfl
        linearized := Bitset.holds_newBitset _
        length := by simp }
  · rw [topFrame, SearchSpace.initial, hset.layout.moves_eq]
    simp [History.space, left]
  · obtain ⟨hi, heq⟩ := List.getElem?_eq_some_iff.mp hm
    simp at heq

/-! ### The loop -/

/-- What the loop returns. -/
structure Decides (model : FilledModel I O S) (h : List (DistLabs.Event ℕ I O)) (bits : ℕ)
    (computePartial : Bool) (r : Bool × Longest) : Prop where
  ok : r.1 = true ↔ Linearizable model.toModel h
  length : r.2.length = bits
  sound : computePartial = true → ∀ (i : ℕ) (m : List ℤ), r.2[i]? = some (some m) →
    ∃ l c, (model.space h).Path l c ∧ m = l.reverse.map Nat.cast ∧ i ∈ l
  maximal : computePartial = true → ∀ l c, (model.space h).Path l c → ∀ i ∈ l, Keeps r.2 i l.length

section Loop

variable {s : Search I O S} {t : SearchSpace.State (History.Config ℕ S) ℕ}

lemma Related.length (hr : Related model h heap head addrs bits computePartial s t) :
    s.longest.length = bits := by
  obtain ⟨c, pre, post, fs, hpos, -⟩ := hr.position
  exact hpos.length

/-- The operations of a path are in the history, and none is there twice. -/
lemma nodup_of_path (hc : History.Complete h) {l : List ℕ} {c : History.Config ℕ S}
    (hp : (model.space h).Path l c) :
    l.Nodup ∧ c.linearized = l.toFinset ∧ ∀ n ∈ l, ∃ e ∈ h, e.id = n := by
  obtain ⟨ops, hids, hops, -, hlin⟩ := History.beginning_of_path hc hp
  refine ⟨List.nodup_reverse.mp (hids ▸ hops.nodup), hlin, fun n hn => ?_⟩
  rw [← List.mem_reverse, ← hids] at hn
  obtain ⟨x, hx, rfl⟩ := List.mem_map.mp hn
  exact ⟨_, hops.called x hx, rfl⟩

/-- All operations have been taken. -/
lemma decides_of_found (hset : Setting h heap head addrs bits) (hc : History.Complete h)
    (hr : Related model h heap head addrs bits computePartial s t) {l : List ℕ}
    {c : History.Config ℕ S} (hp : (model.space h).Path l c) (hd : (model.space h).done c) :
    Decides model h bits computePartial
      (true, s.longest.map fun _ => some (l.reverse.map Nat.cast)) := by
  have hget : ∀ (i : ℕ) (m : List ℤ), (s.longest.map fun _ => some (l.reverse.map Nat.cast))[i]? =
      some (some m) ↔ i < bits ∧ l.reverse.map Nat.cast = m := by
    intro i m
    rw [List.getElem?_map, Option.map_eq_some_iff]
    simp [List.getElem?_eq_some_iff, hr.length]
  obtain ⟨hlnd, hlin, -⟩ := nodup_of_path hc hp
  have hall : ∀ e ∈ h, e.id ∈ l := by
    intro e he
    have := History.rest_eq_nil_iff.mp hd e he
    rwa [hlin, List.mem_toFinset] at this
  refine ⟨by simpa using (History.linearizable_iff_path hc).mpr ⟨l, c, hp, hd⟩, by simp [hr.length],
    fun _ i m hm => ?_, fun _ l' c' hp' i hi => ?_⟩
  · obtain ⟨hi, rfl⟩ := (hget i m).mp hm
    obtain ⟨e, he, rfl⟩ := (hset.lt_iff i).mp hi
    exact ⟨l, c, hp, rfl, hall e he⟩
  · obtain ⟨hnd', -, hmem'⟩ := nodup_of_path hc hp'
    have hsub : l' ⊆ l := by
      intro n hn
      obtain ⟨e, he, rfl⟩ := hmem' n hn
      exact hall e he
    refine ⟨_, (hget i _).mpr ⟨(hset.lt_iff i).mpr (hmem' i hi), rfl⟩, ?_⟩
    simpa using (hnd'.subperm hsub).length_le

/-- There is nothing left to try. -/
lemma decides_of_exhausted (hc : History.Complete h) (hE : model.Lawful)
    (hr : Related model h heap head addrs bits computePartial s t)
    (hi : SearchSpace.Inv (model.space h) model.Similar t) {tried : List ℕ}
    (ht : t.stack = [⟨(model.space h).root, tried, []⟩])
    (hnd : ¬(model.space h).done (model.space h).root) :
    Decides model h bits computePartial (false, s.longest) := by
  have hbis := hE.isBisimulation (h := h)
  refine ⟨?_, hr.length, fun hp => (hr.records hp).sound, fun hp l c hpath i hil => ?_⟩
  · rw [History.linearizable_iff_path hc]
    simp only [Bool.false_eq_true, false_iff]
    rintro ⟨l, c, hpath, hd⟩
    obtain ⟨d, hcd, hexp, -⟩ := hi.expanded_of_exhausted hbis ht hnd hpath
    exact hexp.not_done (hbis.done hcd hd)
  · obtain ⟨d, hcd, -, hmem⟩ := hi.expanded_of_exhausted hbis ht hnd hpath
    obtain ⟨hlnd, hlin, -⟩ := nodup_of_path hc hpath
    have hdl : d.linearized = l.toFinset := hcd.1.symm.trans hlin
    rcases (hr.records hp).keeps d (hmem (List.ne_nil_of_mem hil)) with ⟨f, hf, hfd⟩ | hkeeps
    · -- no operation has been taken in the configuration that is still there
      rw [ht] at hf
      obtain rfl := List.mem_singleton.mp hf
      have hempty : d.linearized = ∅ := by rw [← hfd]; rfl
      have : i ∈ d.linearized := by rw [hdl]; exact List.mem_toFinset.mpr hil
      simp [hempty] at this
    · have := hkeeps i (by rw [hdl]; exact List.mem_toFinset.mpr hil)
      rwa [hdl, List.toFinset_card_of_nodup hlnd] at this

/-- The loop ends, and its result is right. -/
theorem Related.loop (hset : Setting h heap head addrs bits) (hc : History.Complete h)
    (hE : model.Lawful) (hr : Related model h heap head addrs bits computePartial s t)
    (hi : SearchSpace.Inv (model.space h) model.Similar t) :
    ∃ N r, (∀ fuel ≥ N, s.loop model computePartial fuel = some r) ∧
      Decides model h bits computePartial r := by
  have hbis := hE.isBisimulation (h := h)
  induction hm : (model.space h).measure model.Similar t using WellFoundedLT.induction
    generalizing s t with
  | ind m ih =>
    subst hm
    obtain ⟨r, hcode, hr'⟩ := hr.iterate hset hc false
    cases hr' with
    | @found l c hp hd =>
      refine ⟨1, _, fun fuel hfuel => ?_, decides_of_found hset hc hr hp hd⟩
      obtain ⟨fuel, rfl⟩ : ∃ k, fuel = k + 1 := ⟨fuel - 1, by omega⟩
      rw [Search.loop, hcode]
    | killed hk => cases hk
    | exhausted ht hnd =>
      refine ⟨1, _, fun fuel hfuel => ?_, decides_of_exhausted hc hE hr hi ht hnd⟩
      obtain ⟨fuel, rfl⟩ : ∃ k, fuel = k + 1 := ⟨fuel - 1, by omega⟩
      rw [Search.loop, hcode]
    | @goesOn s' t' ht hrel =>
      obtain ⟨N, r, hloop, hdec⟩ := ih _ (ht.measure_lt hbis.refl (History.finite_paths hc) hi) hrel
        (hi.step hbis.refl ht) rfl
      refine ⟨N + 1, r, fun fuel hfuel => ?_, hdec⟩
      obtain ⟨fuel, rfl⟩ : ∃ k, fuel = k + 1 := ⟨fuel - 1, by omega⟩
      rw [Search.loop, hcode]
      exact hloop fuel (by omega)

end Loop

/-! ### The result -/

lemma exists_checkSingle (hE : model.Lawful) {history : List (Entry I O)} (hw : WellFormed history)
    (computePartial : Bool) :
    ∃ N r, (∀ fuel ≥ N, checkSingle model history computePartial fuel = some r) ∧
      Decides model (history.map Entry.event) (history.length / 2) computePartial r := by
  obtain ⟨s, heap, head, addrs, hstart, hset, hr⟩ := exists_start model hw computePartial
  obtain ⟨N, r, hloop, hdec⟩ := hr.loop hset hw.complete hE SearchSpace.inv_initial
  refine ⟨N, r, fun fuel hfuel => ?_, hdec⟩
  rw [checkSingle, hstart]
  exact hloop fuel hfuel

/-- `checkSingle` does not panic and ends, and it returns true exactly for a linearizable history,
if every operation of the history has returned and `Equal` identifies only states from which the
same outputs are right. -/
theorem checkSingle_iff_linearizable (hE : model.Lawful) {history : List (Entry I O)}
    (hw : WellFormed history) (computePartial : Bool) :
    ∃ N ok longest,
      (∀ fuel ≥ N, checkSingle model history computePartial fuel = some (ok, longest)) ∧
      (ok = true ↔ Linearizable model.toModel (history.map Entry.event)) := by
  obtain ⟨N, ⟨ok, longest⟩, hloop, hdec⟩ := exists_checkSingle hE hw computePartial
  exact ⟨N, ok, longest, hloop, hdec.ok⟩

lemma lawful_shallowEqual [DecidableEq S] {model : Model I O S} (hm : model.equal = none) :
    (fillDefault model).Lawful := by
  have heq : ∀ s s', (fillDefault model).equal s s' = true ↔ s = s' := by
    simp [fillDefault, hm, shallowEqual]
  refine ⟨fun s => by simp [heq], ?_, ?_, ?_⟩
  · simp only [heq]
    exact Eq.trans
  · simp only [heq]
    rintro s _ i o rfl
    rfl
  · simp only [heq]
    rintro s _ i o rfl _
    rfl

/-- A counter that returns the value it had before. -/
def counterModel : Model ℕ ℕ ℕ where
  init := 0
  step s i o := (o == s, s + i)

/-- Two concurrent additions, the second of which comes first. -/
def overlapping : List (Entry ℕ ℕ) :=
  [⟨.inl 1, 0, 0⟩, ⟨.inl 2, 1, 1⟩, ⟨.inr 2, 0, 2⟩, ⟨.inr 0, 1, 3⟩]

lemma wellFormed_overlapping : WellFormed overlapping := by
  refine ⟨fun e he => ?_, by decide⟩
  simp only [overlapping, Entry.event, List.map_cons, List.map_nil, List.mem_cons,
    List.not_mem_nil, or_false] at he
  rcases he with rfl | rfl | rfl | rfl
  all_goals exact ⟨_, _, rfl⟩

theorem checkSingle_overlapping :
    ∃ N ok longest,
      (∀ fuel ≥ N, checkSingle (fillDefault counterModel) overlapping false fuel =
        some (ok, longest)) ∧
      (ok = true ↔ Linearizable counterModel.toModel (overlapping.map Entry.event)) :=
  checkSingle_iff_linearizable (lawful_shallowEqual rfl) wellFormed_overlapping false

example : (checkSingle (fillDefault counterModel) overlapping true 5) =
    some (true, [some [1, 0], some [1, 0]]) := by decide

/-- The sequence `checkSingle` returns for an operation, if asked, is the beginning of a
linearization that has the operation, none that has it is longer, and there is a sequence if there
is such a beginning. -/
theorem longest_isLongest (hE : model.Lawful) {history : List (Entry I O)}
    (hw : WellFormed history) :
    ∃ N ok longest, (∀ fuel ≥ N, checkSingle model history true fuel = some (ok, longest)) ∧
      longest.length = history.length / 2 ∧
      (∀ (i : ℕ) (m : List ℤ), longest[i]? = some (some m) →
        ∃ ops, History.Beginning model.toModel (history.map Entry.event) ops ∧
          m = ops.map (fun x => (x.id : ℤ)) ∧ i ∈ ops.map DistLabs.Operation.id) ∧
      ∀ ops, History.Beginning model.toModel (history.map Entry.event) ops →
        ∀ i ∈ ops.map DistLabs.Operation.id,
          ∃ m, longest[i]? = some (some m) ∧ ops.length ≤ m.length := by
  obtain ⟨N, ⟨ok, longest⟩, hloop, hdec⟩ := exists_checkSingle hE hw true
  refine ⟨N, ok, longest, hloop, hdec.length, fun i m hm => ?_, fun ops hops i hi => ?_⟩
  · obtain ⟨l, c, hp, rfl, hil⟩ := hdec.sound rfl i m hm
    obtain ⟨ops, hids, hops, -⟩ := History.beginning_of_path hw.complete hp
    refine ⟨ops, hops, ?_, ?_⟩
    · rw [← hids, List.map_map]
      rfl
    · rw [hids]
      exact List.mem_reverse.mpr hil
  · obtain ⟨c, hp, -⟩ := History.path_of_beginning hw.complete hops
    obtain ⟨m, hm, hle⟩ := hdec.maximal rfl _ c hp i (List.mem_reverse.mpr hi)
    exact ⟨m, hm, by simpa using hle⟩

/-- The second addition comes after the first one and does not see it. -/
def stale : List (Entry ℕ ℕ) :=
  [⟨.inl 1, 0, 0⟩, ⟨.inr 0, 0, 1⟩, ⟨.inl 2, 1, 2⟩, ⟨.inr 0, 1, 3⟩]

lemma wellFormed_stale : WellFormed stale := by
  refine ⟨fun e he => ?_, by decide⟩
  simp only [stale, Entry.event, List.map_cons, List.map_nil, List.mem_cons, List.not_mem_nil,
    or_false] at he
  rcases he with rfl | rfl | rfl | rfl
  all_goals exact ⟨_, _, rfl⟩

theorem longest_stale :
    ∃ N ok longest,
      (∀ fuel ≥ N, checkSingle (fillDefault counterModel) stale true fuel = some (ok, longest)) ∧
      longest.length = 2 := by
  obtain ⟨N, ok, longest, hcode, hlen, -⟩ :=
    longest_isLongest (show (fillDefault counterModel).Lawful from lawful_shallowEqual rfl)
      wellFormed_stale
  exact ⟨N, ok, longest, hcode, hlen⟩

example : checkSingle (fillDefault counterModel) stale true 5 = some (false, [some [0], none]) := by
  decide

end Porcupine

end DistLabs
