import DistLabs.Porcupine.Parallel
import Mathlib.Data.Set.Function

/-!
# Histories of events

`checkEvents` takes the events of a history in the order in which they happened. The ids are any
numbers: `renumber` gives the operations the numbers from 0 on that the checker needs, in the order
in which they appear. The verdict is that for the history with its own ids.
-/

namespace DistLabs

namespace Porcupine

variable {ι I O S : Type} {events : List (Event ℤ I O)} {m : ℤ → Option ℕ} {k : ℕ}

def Event.event (e : Event ι I O) : DistLabs.Event ι I O :=
  match e.value with
  | .inl i => .call e.id i
  | .inr o => .ret e.id o

lemma Event.id_event (e : Event ι I O) : e.event.id = e.id := by
  unfold Event.event
  split <;> rfl

/-- `checkEvents` may return `r`. -/
def ChecksEvents [DecidableEq S] (model : Model I O S) (history : List (Event ℤ I O))
    (verbose hasTimeout : Bool) (r : CheckResult) : Prop :=
  ∃ c, (checkParallel (fillDefault model)
      (((fillDefault model).partitionEvent history).map fun p => convertEntries (renumber p))
      verbose hasTimeout).Reachable c ∧ c.phase = .done r

/-! ### Numbers -/

/-- The numbers below `k` have been given, each of them once. -/
structure Numbering (m : ℤ → Option ℕ) (k : ℕ) : Prop where
  inj : ∀ a b r, m a = some r → m b = some r → a = b
  lt : ∀ a r, m a = some r → r < k

lemma Numbering.update (hm : Numbering m k) {a : ℤ} (ha : m a = none) :
    Numbering (Function.update m a (some k)) (k + 1) where
  inj b c r hb hc := by
    rcases eq_or_ne b a with rfl | hba
    · rcases eq_or_ne c b with rfl | hca
      · rfl
      · rw [Function.update_self, Option.some.injEq] at hb
        rw [Function.update_of_ne hca] at hc
        exact absurd (hm.lt c r hc) (by omega)
    · rw [Function.update_of_ne hba] at hb
      rcases eq_or_ne c a with rfl | hca
      · rw [Function.update_self, Option.some.injEq] at hc
        exact absurd (hm.lt b r hb) (by omega)
      · rw [Function.update_of_ne hca] at hc
        exact hm.inj b c r hb hc
  lt b r hb := by
    rcases eq_or_ne b a with rfl | hba
    · rw [Function.update_self, Option.some.injEq] at hb
      omega
    · rw [Function.update_of_ne hba] at hb
      exact (hm.lt b r hb).trans (Nat.lt_succ_self k)

/-- The map with which the loop ends has the numbers of all events, and no number is left out. -/
lemma Numbering.loop (hm : Numbering m k) (events : List (Event ℤ I O)) :
    ∃ m' k', Numbering m' k' ∧ (∀ a r, m a = some r → m' a = some r) ∧
      (∀ v ∈ events, (m' v.id).isSome) ∧
      (∀ r < k', r < k ∨ ∃ v ∈ events, m' v.id = some r) ∧
      renumberFrom m k events = events.map fun v => ⟨v.value, (m' v.id).getD 0⟩ := by
  induction events generalizing m k with
  | nil => exact ⟨m, k, hm, fun _ _ h => h, by simp, fun r hr => .inl hr, rfl⟩
  | cons v events ih =>
    cases hv : m v.id with
    | some r =>
      obtain ⟨m', k', hm', hext, hall, hused, heq⟩ := ih hm
      have hv' := hext _ _ hv
      refine ⟨m', k', hm', hext, by simpa [hv'] using hall, fun s hs => ?_, ?_⟩
      · exact (hused s hs).imp_right fun ⟨w, hw, hs⟩ => ⟨w, List.mem_cons_of_mem _ hw, hs⟩
      · simp only [renumberFrom, hv, List.map_cons, hv', Option.getD_some, heq]
    | none =>
      obtain ⟨m', k', hm', hext, hall, hused, heq⟩ := ih (hm.update hv)
      have hv' : m' v.id = some k := hext _ _ (Function.update_self _ _ _)
      refine ⟨m', k', hm', fun a r ha => ?_, by simpa [hv'] using hall, fun s hs => ?_, ?_⟩
      · refine hext a r ?_
        rwa [Function.update_of_ne]
        rintro rfl
        cases hv.symm.trans ha
      · rcases hused s hs with hlt | ⟨w, hw, hs⟩
        · rcases Nat.lt_succ_iff_lt_or_eq.mp hlt with hlt | rfl
          · exact .inl hlt
          · exact .inr ⟨v, List.mem_cons_self, hv'⟩
        · exact .inr ⟨w, List.mem_cons_of_mem _ hw, hs⟩
      · simp only [renumberFrom, hv, List.map_cons, hv', Option.getD_some, heq]

/-- Renumbering gives every id its own number, and uses the numbers in order. -/
lemma exists_renaming (events : List (Event ℤ I O)) :
    ∃ (f : ℤ → ℕ) (g : ℕ → ℤ), (∀ v ∈ events, g (f v.id) = v.id) ∧
      (∀ v ∈ events, ∀ r < f v.id, ∃ w ∈ events, f w.id = r) ∧
      renumber events = events.map fun v => ⟨v.value, f v.id⟩ := by
  obtain ⟨m, k, hm, -, hall, hused, heq⟩ :=
    Numbering.loop (m := fun _ => none) (k := 0) ⟨by simp, by simp⟩ events
  have hnum : ∀ v ∈ events, m v.id = some ((m v.id).getD 0) := fun v hv => by
    obtain ⟨r, hr⟩ := Option.isSome_iff_exists.mp (hall v hv)
    simp [hr]
  have hinj : Set.InjOn (fun n => (m n).getD 0) {n | ∃ v ∈ events, v.id = n} := by
    rintro _ ⟨v, hv, rfl⟩ _ ⟨w, hw, rfl⟩ hvw
    have hvw : (m v.id).getD 0 = (m w.id).getD 0 := hvw
    exact hm.inj _ _ _ (hnum v hv) (hvw ▸ hnum w hw)
  refine ⟨fun n => (m n).getD 0, Function.invFunOn (fun n => (m n).getD 0)
    {n | ∃ v ∈ events, v.id = n}, fun v hv => ?_, fun v hv r hr => ?_, heq⟩
  · exact hinj.leftInvOn_invFunOn ⟨v, hv, rfl⟩
  · have hlt := hm.lt _ _ (hnum v hv)
    rcases hused r (hr.trans hlt) with hr | ⟨w, hw, hr⟩
    · exact absurd hr (Nat.not_lt_zero r)
    · exact ⟨w, hw, by simp [hr]⟩

/-! ### The entries -/

lemma event_convertEntries (events : List (Event ℕ I O)) :
    (convertEntries events).map Entry.event = events.map Event.event := by
  have hfst : events.map Event.event = (events.zipIdx.map Prod.fst).map Event.event := by
    rw [List.zipIdx_map_fst]
  rw [hfst, convertEntries, List.map_map, List.map_map]
  exact List.map_congr_left fun p _ => rfl

/-- The entries are the events with other ids. -/
lemma exists_rename_eq (events : List (Event ℤ I O)) :
    ∃ (f : ℤ → ℕ) (g : ℕ → ℤ), (∀ e ∈ events.map Event.event, g (f e.id) = e.id) ∧
      (∀ v ∈ events, ∀ r < f v.id, ∃ w ∈ events, f w.id = r) ∧
      (convertEntries (renumber events)).map Entry.event =
        (events.map Event.event).map (DistLabs.Event.rename f) := by
  obtain ⟨f, g, hg, hused, heq⟩ := exists_renaming events
  refine ⟨f, g, fun e he => ?_, hused, ?_⟩
  · obtain ⟨v, hv, rfl⟩ := List.mem_map.mp he
    rw [v.id_event, hg v hv]
  · rw [event_convertEntries, heq, List.map_map, List.map_map]
    refine List.map_congr_left fun v _ => ?_
    rcases v with ⟨i | o, n⟩ <;> rfl

lemma linearizable_convertEntries (M : DistLabs.Model I O S) (events : List (Event ℤ I O)) :
    Linearizable M ((convertEntries (renumber events)).map Entry.event) ↔
      Linearizable M (events.map Event.event) := by
  obtain ⟨f, g, hg, -, heq⟩ := exists_rename_eq events
  rw [heq, linearizable_rename_iff hg]

lemma wellFormed_convertEntries (hc : History.Complete (events.map Event.event)) :
    WellFormed (convertEntries (renumber events)) := by
  obtain ⟨f, g, hg, hused, heq⟩ := exists_rename_eq events
  have hcomplete : History.Complete ((convertEntries (renumber events)).map Entry.event) :=
    heq ▸ hc.rename hg
  refine ⟨hcomplete, fun e he => ?_⟩
  -- the numbers up to that of the event are used, each of them twice
  have hmem : ∀ r ≤ e.id, r ∈ (((convertEntries (renumber events)).map Entry.event).map
      DistLabs.Event.id).toFinset := by
    rw [heq]
    have hid : e.id ∈ ((convertEntries (renumber events)).map Entry.event).map
        DistLabs.Event.id := by
      rw [List.map_map]
      exact List.mem_map.mpr ⟨e, he, e.id_event⟩
    rw [heq] at hid
    simp only [List.map_map, List.mem_toFinset, List.mem_map, Function.comp_apply,
      DistLabs.Event.id_rename, Event.id_event] at hid ⊢
    obtain ⟨v, hv, hve⟩ := hid
    intro r hr
    rcases Nat.lt_or_eq_of_le hr with hlt | rfl
    · exact hused v hv r (hve ▸ hlt)
    · exact ⟨v, hv, hve⟩
  have hcard := two_mul_card_ids hcomplete
  have hle := Finset.card_le_card (s := Finset.range (e.id + 1)) fun r hr =>
    hmem r (Nat.lt_succ_iff.mp (Finset.mem_range.mp hr))
  rw [Finset.card_range] at hle
  rw [List.length_map] at hcard
  omega

/-- If every operation of a partition has returned, then the verdict of `checkEvents` is right for
the partitions, whatever ids the events have. -/
theorem verdict_of_checksEvents [DecidableEq S] {model : Model I O S} {history : List (Event ℤ I O)}
    {verbose hasTimeout : Bool} {r : CheckResult} (hE : (fillDefault model).Lawful)
    (hc : ∀ p ∈ (fillDefault model).partitionEvent history,
      History.Complete (p.map Event.event))
    (h : ChecksEvents model history verbose hasTimeout r) :
    (r = .ok → ∀ p ∈ (fillDefault model).partitionEvent history,
        Linearizable model.toModel (p.map Event.event)) ∧
      (r = .illegal → ∃ p ∈ (fillDefault model).partitionEvent history,
        ¬Linearizable model.toModel (p.map Event.event)) ∧
      (r = .unknown → hasTimeout = true) := by
  obtain ⟨c, hreach, hd⟩ := h
  have hw : ∀ e ∈ ((fillDefault model).partitionEvent history).map
      fun p => convertEntries (renumber p), WellFormed e := by
    intro e he
    obtain ⟨p, hp, rfl⟩ := List.mem_map.mp he
    exact wellFormed_convertEntries (hc p hp)
  obtain ⟨hok, hill, hunk⟩ := (Parallel.inv_of_reachable hE hw hreach).verdict hd
  refine ⟨fun hr p hp => ?_, fun hr => ?_,
    fun hr => Parallel.timedOut_of_reachable hreach (hunk hr)⟩
  · exact (linearizable_convertEntries _ p).mp (hok hr _ (List.mem_map_of_mem hp))
  · obtain ⟨e, he, hnot⟩ := hill hr
    obtain ⟨p, hp, rfl⟩ := List.mem_map.mp he
    exact ⟨p, hp, fun hlin => hnot ((linearizable_convertEntries _ p).mpr hlin)⟩

/-- Two concurrent additions, with the ids 7 and -2. -/
def additions : List (Event ℤ ℕ ℕ) := [⟨.inl 1, 7⟩, ⟨.inl 2, -2⟩, ⟨.inr 2, 7⟩, ⟨.inr 0, -2⟩]

def additionsStart : Parallel ℕ ℕ ℕ :=
  (Parallel.start (fillDefault counterModel) [convertEntries (renumber additions)]).get
    (by decide)

/-- The additions are linearizable, as `checkEvents` finds. -/
theorem linearizable_additions :
    Linearizable counterModel.toModel (additions.map Event.event) := by
  obtain ⟨c, past, hrun, hdone⟩ : ∃ c past,
      (Machine.ofStep additionsStart (Parallel.step (fillDefault counterModel) false false)).Run
        Machine.Any (c :: past) ∧ c.phase = .done .ok :=
    Machine.exists_run_of_trace (fun _ _ => true) (fun _ _ _ => trivial)
      [.iterate 0, .iterate 0, .iterate 0, .iterate 0, .send 0, .receive] (by decide +kernel)
  have hcomplete : ∀ p ∈ (fillDefault counterModel).partitionEvent additions,
      History.Complete (p.map Event.event) := by
    intro p hp
    obtain rfl := List.mem_singleton.mp hp
    simp [History.Complete, additions, Event.event]
  have hverdict := verdict_of_checksEvents (lawful_shallowEqual rfl) hcomplete
    ⟨c, ⟨past, run_of_ofStep (Option.some_get _).symm hrun⟩, hdone⟩
  exact hverdict.1 rfl additions (List.mem_singleton.mpr rfl)

end Porcupine

end DistLabs
