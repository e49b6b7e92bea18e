import DistLabs.KvSrv.Atomicity
import DistLabs.Porcupine.KeyValue

/-!
# The test of the server

The clients of the test read the clock, call a method of their clerk, read the clock again, and log
the operation with both times. When all of them are done, the logged operations are linearizable, so
that the check at the end of the test does not fail.
-/

namespace DistLabs

namespace KvSrv

open scoped List

/-- An operation of the log. -/
abbrev LoggedOp := Porcupine.Operation KvInput KvOutput

/-- A client of the test: it has read the clock, its clerk is at request `id`, the clerk has
returned, the clock has been read again. -/
inductive Client where
  | idle
  | started (inv : Invocation) (start : ℤ)
  | running (inv : Invocation) (start : ℤ) (id : ℕ)
  | returned (inv : Invocation) (start : ℤ) (id : ℕ) (output : KvOutput)
  | ended (id : ℕ) (op : LoggedOp)

/-- The system with its clients and a clock; the operations of the log are kept with the ids of
their requests. -/
structure Test where
  system : System
  now : ℤ
  clients : ℕ → Client
  log : List (ℕ × LoggedOp)

inductive TestAction where
  | tick (d : ℕ)
  | start (c : ℕ) (inv : Invocation)
  | invoke (c id : ℕ)
  | internal (a : SystemAction)
  | complete (c : ℕ)
  | stop (c : ℕ)
  | append (c : ℕ)

namespace Test

def initial : Test where
  system := .initial
  now := 0
  clients _ := .idle
  log := []

/-- `opLog.Read` -/
def opLog (T : Test) : List LoggedOp := T.log.map Prod.snd

def setClient (T : Test) (c : ℕ) (x : Client) : Test :=
  { T with clients := Function.update T.clients c x }

/-- A step; `internal` ones are those of clerks and server. -/
def step (T : Test) : TestAction → Option Test
  | .tick d => some { T with now := T.now + d }
  | .start c inv =>
    match T.clients c with
    | .idle => some (T.setClient c (.started inv T.now))
    | _ => none
  | .invoke c id =>
    match T.clients c with
    | .started inv start =>
      (T.system.step (.invoke c inv id)).map fun C =>
        { T.setClient c (.running inv start id) with system := C }
    | _ => none
  | .internal a =>
    match a with
    | .invoke _ _ _ => none
    | .complete _ => none
    | a => (T.system.step a).map fun C => { T with system := C }
  | .complete c =>
    match T.clients c, T.system.clerks c with
    | .running inv start id, .finishing req v _ =>
      (T.system.step (.complete c)).map fun C =>
        { T.setClient c (.returned inv start id (req.output v)) with system := C }
    | _, _ => none
  | .stop c =>
    match T.clients c with
    | .returned inv start id output =>
      some (T.setClient c (.ended id ⟨(inv.request id).input, start, output, T.now⟩))
    | _ => none
  | .append c =>
    match T.clients c with
    | .ended id op => some { T.setClient c .idle with log := T.log ++ [(id, op)] }
    | _ => none

/-- What a step can do. -/
inductive Moves (T : Test) : TestAction → Test → Prop
  | tick (d : ℕ) : Moves T (.tick d) { T with now := T.now + d }
  | start {c : ℕ} {inv : Invocation} (hc : T.clients c = .idle) :
      Moves T (.start c inv) (T.setClient c (.started inv T.now))
  | invoke {c id : ℕ} {inv : Invocation} {start : ℤ} {C : System}
      (hc : T.clients c = .started inv start) (hC : T.system.step (.invoke c inv id) = some C) :
      Moves T (.invoke c id) { T.setClient c (.running inv start id) with system := C }
  | internal {a : SystemAction} {C : System} (hi : ∀ c inv id, a ≠ .invoke c inv id)
      (hr : ∀ c, a ≠ .complete c) (hC : T.system.step a = some C) :
      Moves T (.internal a) { T with system := C }
  | complete {c id : ℕ} {inv : Invocation} {start : ℤ} {req : Request} {v : String} {C : System}
      (hc : T.clients c = .running inv start id) (hk : T.system.clerks c = .finishing req v true)
      (hC : T.system.step (.complete c) = some C) :
      Moves T (.complete c)
        { T.setClient c (.returned inv start id (req.output v)) with system := C }
  | stop {c id : ℕ} {inv : Invocation} {start : ℤ} {output : KvOutput}
      (hc : T.clients c = .returned inv start id output) :
      Moves T (.stop c) (T.setClient c (.ended id ⟨(inv.request id).input, start, output, T.now⟩))
  | append {c id : ℕ} {op : LoggedOp} (hc : T.clients c = .ended id op) :
      Moves T (.append c) { T.setClient c .idle with log := T.log ++ [(id, op)] }

lemma moves_of_step {T T' : Test} {a : TestAction} (h : T.step a = some T') : T.Moves a T' := by
  cases a with
  | tick d =>
    cases h
    exact .tick d
  | start | stop | append =>
    simp only [step] at h
    split at h <;> cases h
    constructor
    assumption
  | invoke c id =>
    simp only [step] at h
    split at h
    · rename_i inv start hc
      obtain ⟨C, hC, rfl⟩ := Option.map_eq_some_iff.mp h
      exact .invoke hc hC
    · cases h
  | internal a =>
    simp only [step] at h
    split at h
    · cases h
    · cases h
    · rename_i hi hr
      obtain ⟨C, hC, rfl⟩ := Option.map_eq_some_iff.mp h
      exact .internal hi hr hC
  | complete c =>
    simp only [step] at h
    split at h
    · rename_i inv start id req v ran hc hk
      obtain ⟨C, hC, rfl⟩ := Option.map_eq_some_iff.mp h
      cases System.moves_of_step hC with
      | complete hk' =>
        cases hk.symm.trans hk'
        exact .complete hc hk' hC
    · cases h

end Test

/-- The test. -/
def tester : Machine Test TestAction := .ofStep .initial Test.step

/-- The condition on the steps is that of the system. -/
def TestSettles (T : Test) : TestAction → Prop
  | .invoke _ id => ∀ i, .call id i ∉ T.system.history
  | .internal a => Settles T.system a
  | _ => True

/-- A run of the test is one of the system. -/
lemma Test.exists_run {T : Test} {past : List Test} (h : tester.Run TestSettles (T :: past)) :
    ∃ past, kvsrv.Run Settles (T.system :: past) := by
  have hlast : ∀ U ∈ (T :: past).head?, ∃ past, kvsrv.Run Settles (U.system :: past) := by
    refine Machine.Run.history
      (I := fun l => ∀ T ∈ l.head?, ∃ past, kvsrv.Run Settles (T.system :: past)) ?_ ?_ h
    · rintro T rfl _ ⟨⟩
      exact ⟨[], .init rfl⟩
    · rintro T past a T' - ih hP hnext _ ⟨⟩
      obtain ⟨past', hr⟩ := ih T rfl
      cases moves_of_step hnext with
      | @invoke c id inv _ _ _ hC => exact ⟨_, .next (a := .invoke c inv id) hr hP hC⟩
      | internal _ _ hC => exact ⟨_, .next hr hP hC⟩
      | @complete c => exact ⟨_, .next (a := .complete c) hr trivial ‹_›⟩
      | _ => exact ⟨past', hr⟩
  exact hlast T rfl

/-! ### Times and events -/

/-- The request of a client that is in a method of its clerk. -/
def Client.request? : Client → Option Request
  | .running inv _ id => some (inv.request id)
  | _ => none

/-- The client has called its clerk, with this input and after this time. -/
@[simp]
def Client.At : Client → ℕ → KvInput → ℤ → Prop
  | .running inv start id, n, i, s => n = id ∧ i = (inv.request id).input ∧ s = start
  | .returned inv start id _, n, i, s => n = id ∧ i = (inv.request id).input ∧ s = start
  | .ended id op, n, i, s => n = id ∧ i = op.input ∧ s = op.call
  | _, _, _, _ => False

/-- An operation that has been called. -/
def Test.Invoked (T : Test) (n : ℕ) (i : KvInput) (s : ℤ) : Prop :=
  (∃ c, (T.clients c).At n i s) ∨ ∃ op, (n, op) ∈ T.log ∧ op.input = i ∧ op.call = s

/-- An operation whose times are known. -/
def Test.Finished (T : Test) (n : ℕ) (op : LoggedOp) : Prop :=
  (∃ c, T.clients c = .ended n op) ∨ (n, op) ∈ T.log

/-- The times of operations agree with a history: what has returned before an operation was called
according to the times has also done so in the history. -/
structure Timed (A : ℕ → KvInput → ℤ → Prop) (F : ℕ → LoggedOp → Prop) (now : ℤ)
    (h : List (Event ℕ KvInput KvOutput)) : Prop where
  invoked : ∀ n i s, A n i s → s ≤ now ∧ .call n i ∈ h
  called : ∀ n i, .call n i ∈ h → ∃ s, A n i s
  finished : ∀ n op, F n op →
    op.call ≤ op.return_ ∧ op.return_ ≤ now ∧ .ret n op.output ∈ h
  order : ∀ m op n i s, F m op → A n i s → op.return_ < s →
    [.ret m op.output, .call n i] <+ h

section Timed

variable {A A' : ℕ → KvInput → ℤ → Prop} {F F' : ℕ → LoggedOp → Prop}
  {now now' : ℤ} {h h' : List (Event ℕ KvInput KvOutput)}

/-- Time passes, and something happens that is not a call. -/
lemma Timed.mono (ht : Timed A F now h) (hnow : now ≤ now') (hsub : h <+ h')
    (hcall : ∀ n i, .call n i ∈ h' → .call n i ∈ h) : Timed A F now' h' where
  invoked n i s hi := ⟨(ht.invoked n i s hi).1.trans hnow, hsub.subset (ht.invoked n i s hi).2⟩
  called n i hi := ht.called n i (hcall n i hi)
  finished n op hf :=
    let ⟨hle, hnow', hret⟩ := ht.finished n op hf
    ⟨hle, hnow'.trans hnow, hsub.subset hret⟩
  order m op n i s hf hi hlt := (ht.order m op n i s hf hi hlt).trans hsub

/-- An operation is called. -/
lemma Timed.invoke (ht : Timed A F now h) {id : ℕ} {input : KvInput} {start : ℤ}
    (hstart : start ≤ now)
    (hinv : ∀ n i s, A' n i s ↔ A n i s ∨ n = id ∧ i = input ∧ s = start) :
    Timed A' F now (h ++ [.call id input]) where
  invoked n i s hi := by
    rcases (hinv n i s).mp hi with hi | ⟨rfl, rfl, rfl⟩
    · exact ⟨(ht.invoked n i s hi).1, List.mem_append_left _ (ht.invoked n i s hi).2⟩
    · exact ⟨hstart, by simp⟩
  called n i hi := by
    rcases List.mem_append.mp hi with hi | hi
    · obtain ⟨s, hs⟩ := ht.called n i hi
      exact ⟨s, (hinv n i s).mpr (.inl hs)⟩
    · cases List.mem_singleton.mp hi
      exact ⟨start, (hinv _ _ _).mpr (.inr ⟨rfl, rfl, rfl⟩)⟩
  finished n op hf :=
    let ⟨hle, hnow, hret⟩ := ht.finished n op hf
    ⟨hle, hnow, List.mem_append_left _ hret⟩
  order m op n i s hf hi hlt := by
    rcases (hinv n i s).mp hi with hi | ⟨rfl, rfl, rfl⟩
    · exact (ht.order m op n i s hf hi hlt).trans (List.sublist_append_left _ _)
    · -- what has been logged has returned
      exact (List.singleton_sublist.mpr (ht.finished m op hf).2.2).append (List.Sublist.refl [_])

/-- The clock is read after an operation. -/
lemma Timed.finish (ht : Timed A F now h) {id : ℕ} (op : LoggedOp)
    (hop : op.call ≤ now) (hnow : op.return_ = now) (hret : .ret id op.output ∈ h)
    (hfin : ∀ n x, F' n x ↔ F n x ∨ n = id ∧ x = op) :
    Timed A F' now h where
  invoked := ht.invoked
  called := ht.called
  finished n x hx := by
    rcases (hfin n x).mp hx with hx | ⟨rfl, rfl⟩
    · exact ht.finished n x hx
    · exact ⟨hnow ▸ hop, hnow.le, hret⟩
  order m x n i s hx hi hlt := by
    rcases (hfin m x).mp hx with hx | ⟨rfl, rfl⟩
    · exact ht.order m x n i s hx hi hlt
    · -- every call was made before
      exact absurd (ht.invoked n i s hi).1 (not_le.mpr (hnow ▸ hlt))

lemma Timed.congr (ht : Timed A F now h) (hinv : ∀ n i s, A' n i s ↔ A n i s)
    (hfin : ∀ n x, F' n x ↔ F n x) : Timed A' F' now h where
  invoked n i s hi := ht.invoked n i s ((hinv n i s).mp hi)
  called n i hi := (ht.called n i hi).imp fun s => (hinv n i s).mpr
  finished n x hx := ht.finished n x ((hfin n x).mp hx)
  order m x n i s hx hi := ht.order m x n i s ((hfin m x).mp hx) ((hinv n i s).mp hi)

end Timed

/-- What holds throughout a test. -/
structure Test.Inv (T : Test) : Prop where
  timed : Timed T.Invoked T.Finished T.now T.system.history
  clerk : ∀ c, (T.system.clerks c).request? = (T.clients c).request?
  started : ∀ c inv s, T.clients c = .started inv s → s ≤ T.now
  returned : ∀ c inv s n o, T.clients c = .returned inv s n o → .ret n o ∈ T.system.history
  distinct : ∀ c c' n i s i' s', (T.clients c).At n i s → (T.clients c').At n i' s' → c = c'
  fresh : ∀ c n i s, (T.clients c).At n i s → n ∉ T.log.map Prod.fst
  nodup : (T.log.map Prod.fst).Nodup

section Invariant

variable {T T' : Test} {f : ℕ → Client} {c : ℕ} {y : Client}

/-- A client that stays at its operation, or at none. -/
lemma at_update_iff (h : ∀ n i s, y.At n i s ↔ (f c).At n i s) (c' n : ℕ) (i : KvInput) (s : ℤ) :
    (Function.update f c y c').At n i s ↔ (f c').At n i s := by
  rcases eq_or_ne c' c with rfl | hne
  · rw [Function.update_self]
    exact h n i s
  · rw [Function.update_of_ne hne]

/-- The steps of clerks and server other than calls and returns. -/
lemma System.Moves.of_internal {C C' : System} {a : SystemAction} (hm : C.Moves a C')
    (hi : ∀ c inv id, a ≠ .invoke c inv id) (hr : ∀ c, a ≠ .complete c) :
    (∀ c, (C'.clerks c).request? = (C.clerks c).request?) ∧ C.history <+ C'.history ∧
      ∀ n i, .call n i ∈ C'.history → .call n i ∈ C.history := by
  have hset : ∀ {c : ℕ} {x : Clerk}, x.request? = (C.clerks c).request? →
      ∀ c', (Function.update C.clerks c x c').request? = (C.clerks c').request? := by
    intro c x hx c'
    rcases eq_or_ne c' c with rfl | hne
    · rw [Function.update_self, hx]
    · rw [Function.update_of_ne hne]
  cases hm with
  | invoke => exact absurd rfl (hi _ _ _)
  | complete => exact absurd rfl (hr _)
  | load => exact ⟨fun _ => rfl, .refl _, fun _ _ h => h⟩
  | modify => exact ⟨fun _ => rfl, List.sublist_append_left _ _, fun _ _ h => by simpa using h⟩
  | send hc | fail hc | succeed hc _ | sendDone hc | failDone hc =>
    exact ⟨hset (by simp [hc, Clerk.request?]), .refl _, fun _ _ h => h⟩

lemma Test.Inv.tick (hT : T.Inv) (d : ℕ) : Test.Inv { T with now := T.now + d } where
  __ := hT
  timed := hT.timed.mono (Int.le_add_of_nonneg_right (Int.natCast_nonneg d)) (.refl _)
    fun _ _ h => h
  started c inv s hc :=
    (hT.started c inv s hc).trans (Int.le_add_of_nonneg_right (Int.natCast_nonneg d))

lemma Test.Inv.internal (hT : T.Inv) {a : SystemAction} {C : System}
    (hi : ∀ c inv id, a ≠ .invoke c inv id) (hr : ∀ c, a ≠ .complete c) (hC : T.system.Moves a C) :
    Test.Inv { T with system := C } := by
  obtain ⟨hreq, hsub, hcall⟩ := hC.of_internal hi hr
  exact
    { hT with
      timed := hT.timed.mono le_rfl hsub hcall
      clerk := fun c => (hreq c).trans (hT.clerk c)
      returned := fun c inv s n o hc => hsub.subset (hT.returned c inv s n o hc) }

/-- A client moves and stays at its operation, or at none. -/
lemma Test.Inv.stay (hT : T.Inv) (hclients : T'.clients = Function.update T.clients c y)
    (hlog : T'.log = T.log) (hnow : T'.now = T.now)
    (hat : ∀ n i s, y.At n i s ↔ (T.clients c).At n i s)
    (htimed : Timed T.Invoked T'.Finished T.now T'.system.history)
    (hclerk : ∀ c', (T'.system.clerks c').request? = (T'.clients c').request?)
    (hstarted : ∀ inv s, y = .started inv s → s ≤ T.now)
    (hreturned : ∀ inv s n o, y = .returned inv s n o → .ret n o ∈ T'.system.history)
    (hsub : T.system.history <+ T'.system.history) : T'.Inv := by
  have hat' : ∀ c' n i s, (T'.clients c').At n i s ↔ (T.clients c').At n i s := by
    rw [hclients]
    exact at_update_iff hat
  have hother : ∀ c', c' ≠ c → T'.clients c' = T.clients c' := fun c' hne => by
    rw [hclients, Function.update_of_ne hne]
  have hself : T'.clients c = y := by rw [hclients, Function.update_self]
  refine ⟨?_, hclerk, fun c' inv s hc' => ?_, fun c' inv s n o hc' => ?_, ?_, ?_, hlog ▸ hT.nodup⟩
  · rw [hnow]
    exact htimed.congr (fun n i s => by simp only [Invoked, hat', hlog]) fun _ _ => Iff.rfl
  · rw [hnow]
    rcases eq_or_ne c' c with rfl | hne
    · exact hstarted inv s (hself ▸ hc')
    · exact hT.started c' inv s (hother c' hne ▸ hc')
  · rcases eq_or_ne c' c with rfl | hne
    · exact hreturned inv s n o (hself ▸ hc')
    · exact hsub.subset (hT.returned c' inv s n o (hother c' hne ▸ hc'))
  · simp only [hat']
    exact hT.distinct
  · simp only [hat', hlog]
    exact hT.fresh

lemma exists_update_iff {P : Client → Prop} :
    (∃ c', P (Function.update f c y c')) ↔ P y ∨ ∃ c', c' ≠ c ∧ P (f c') := by
  constructor
  · rintro ⟨c', h⟩
    rcases eq_or_ne c' c with rfl | hne
    · rw [Function.update_self] at h
      exact .inl h
    · rw [Function.update_of_ne hne] at h
      exact .inr ⟨c', hne, h⟩
  · rintro (h | ⟨c', hne, h⟩)
    · exact ⟨c, by rwa [Function.update_self]⟩
    · exact ⟨c', by rwa [Function.update_of_ne hne]⟩

/-- The operations that have been called, by clients other than `c`, by `c`, or logged. -/
lemma invoked_iff (hclients : T'.clients = Function.update T.clients c y) {n : ℕ} {i : KvInput}
    {s : ℤ} :
    T'.Invoked n i s ↔ (y.At n i s ∨ ∃ c', c' ≠ c ∧ (T.clients c').At n i s) ∨
      ∃ op, (n, op) ∈ T'.log ∧ op.input = i ∧ op.call = s := by
  rw [Test.Invoked, hclients]
  exact or_congr_left (exists_update_iff (P := fun x => x.At n i s))

lemma finished_iff (hclients : T'.clients = Function.update T.clients c y) {n : ℕ}
    {op : LoggedOp} :
    T'.Finished n op ↔ (y = .ended n op ∨ ∃ c', c' ≠ c ∧ T.clients c' = .ended n op) ∨
      (n, op) ∈ T'.log := by
  rw [Test.Finished, hclients]
  exact or_congr_left (exists_update_iff (P := fun x => x = .ended n op))

/-- No operation ends when a client moves. -/
lemma finished_iff_of_ne (hclients : T'.clients = Function.update T.clients c y)
    (hlog : T'.log = T.log) (hy : ∀ n op, y ≠ .ended n op)
    (hc : ∀ n op, T.clients c ≠ .ended n op) (n : ℕ) (op : LoggedOp) :
    T'.Finished n op ↔ T.Finished n op := by
  rw [finished_iff hclients, finished_iff (Function.update_eq_self c T.clients).symm, hlog]
  simp only [hy, hc]

lemma Test.Inv.start (hT : T.Inv) {inv : Invocation} (hc : T.clients c = .idle) :
    (T.setClient c (.started inv T.now)).Inv := by
  refine hT.stay rfl rfl rfl ?_ (hT.timed.congr (fun _ _ _ => Iff.rfl) ?_) ?_ ?_ ?_ (.refl _)
  · simp [hc]
  · exact finished_iff_of_ne rfl rfl (by simp) (by simp [hc])
  · intro c'
    rcases eq_or_ne c' c with rfl | hne
    · simp [setClient, hT.clerk, hc, Client.request?]
    · simp [setClient, hT.clerk, hne]
  · rintro _ _ ⟨⟩
    exact le_rfl
  · simp

lemma Test.Inv.complete (hT : T.Inv) {inv : Invocation} {start : ℤ} {id : ℕ} {req : Request}
    {v : String} {C : System} (hc : T.clients c = .running inv start id)
    (hk : T.system.clerks c = .finishing req v true) (hC : T.system.Moves (.complete c) C) :
    Test.Inv { T.setClient c (.returned inv start id (req.output v)) with system := C } := by
  have hreq : req = inv.request id := by
    have := hT.clerk c
    rw [hk, hc] at this
    exact Option.some.inj this
  cases hC with
  | complete hk' =>
    cases hk.symm.trans hk'
    have hid : req.id = id := by rw [hreq, inv.request_id]
    refine hT.stay rfl rfl rfl ?_ ((hT.timed.congr (fun _ _ _ => Iff.rfl) ?_).mono le_rfl ?_ ?_) ?_
      ?_ ?_ (List.sublist_append_left _ _)
    · simp [hc]
    · exact finished_iff_of_ne rfl rfl (by simp) (by simp [hc])
    · exact List.sublist_append_left _ _
    · intro n i hi
      simpa using hi
    · intro c'
      rcases eq_or_ne c' c with rfl | hne
      · simp [System.setClerk, setClient, Client.request?, Clerk.request?]
      · simp [System.setClerk, setClient, hT.clerk, hne]
    · simp
    · rintro _ _ _ _ ⟨⟩
      simp [hid]

lemma Test.Inv.stop (hT : T.Inv) {inv : Invocation} {start : ℤ} {id : ℕ} {output : KvOutput}
    (hc : T.clients c = .returned inv start id output) :
    (T.setClient c (.ended id ⟨(inv.request id).input, start, output, T.now⟩)).Inv := by
  have hstart : start ≤ T.now :=
    (hT.timed.invoked id (inv.request id).input start (.inl ⟨c, by simp [hc]⟩)).1
  have hret := hT.returned c inv start id output hc
  refine hT.stay rfl rfl rfl ?_ (hT.timed.finish
    ⟨(inv.request id).input, start, output, T.now⟩ hstart rfl hret ?_) ?_ ?_ ?_ (.refl _)
  · simp [hc]
  · intro n x
    rw [finished_iff rfl, finished_iff (Function.update_eq_self c T.clients).symm, hc]
    simp only [Client.ended.injEq, reduceCtorEq, false_or]
    have hcomm : (id = n ∧ ⟨(inv.request id).input, start, output, T.now⟩ = x) ↔
        n = id ∧ x = ⟨(inv.request id).input, start, output, T.now⟩ := by
      rw [eq_comm, eq_comm (b := x)]
    rw [hcomm]
    exact or_assoc.trans or_comm
  · intro c'
    rcases eq_or_ne c' c with rfl | hne
    · simp [setClient, hT.clerk, hc, Client.request?]
    · simp [setClient, hT.clerk, hne]
  · simp
  · simp

lemma Test.Inv.invoke (hT : T.Inv) {inv : Invocation} {start : ℤ} {id : ℕ} {C : System}
    (hid : ∀ i, .call id i ∉ T.system.history) (hc : T.clients c = .started inv start)
    (hC : T.system.Moves (.invoke c inv id) C) :
    Test.Inv { T.setClient c (.running inv start id) with system := C } := by
  have hnew : ∀ c' n i s, (Function.update T.clients c (.running inv start id) c').At n i s ↔
      (T.clients c').At n i s ∨ c' = c ∧ n = id ∧ i = (inv.request id).input ∧ s = start := by
    intro c' n i s
    rcases eq_or_ne c' c with rfl | hne
    · simp [hc]
    · simp [hne]
  have hunused : ∀ i s, ¬T.Invoked id i s := fun i s h => hid i (hT.timed.invoked id i s h).2
  cases hC with
  | invoke hk =>
    refine ⟨?_, fun c' => ?_, fun c' inv' s hc' => ?_, fun c' inv' s n o hc' => ?_, ?_, ?_,
      hT.nodup⟩
    · refine (hT.timed.invoke (hT.started c inv start hc) fun n i s => ?_).congr
        (fun _ _ _ => Iff.rfl) (finished_iff_of_ne rfl rfl (by simp) (by simp [hc]))
      rw [invoked_iff rfl, invoked_iff (Function.update_eq_self c T.clients).symm, hc]
      simp only [Client.At, false_or]
      exact (or_assoc.trans or_comm)
    · rcases eq_or_ne c' c with rfl | hne
      · simp [System.setClerk, setClient, Client.request?, Clerk.request?]
      · simp [System.setClerk, setClient, hT.clerk, hne]
    · rcases eq_or_ne c' c with rfl | hne
      · simp [setClient] at hc'
      · exact hT.started c' inv' s (by simpa [setClient, hne] using hc')
    · rcases eq_or_ne c' c with rfl | hne
      · simp [setClient] at hc'
      · exact List.mem_append_left _
          (hT.returned c' inv' s n o (by simpa [setClient, hne] using hc'))
    · intro c₁ c₂ n i s i' s' hc₁ hc₂
      rcases (hnew c₁ n i s).mp hc₁ with h₁ | ⟨rfl, rfl, -⟩
      · rcases (hnew c₂ n i' s').mp hc₂ with h₂ | ⟨rfl, rfl, -⟩
        · exact hT.distinct c₁ c₂ n i s i' s' h₁ h₂
        · exact absurd (.inl ⟨c₁, h₁⟩) (hunused i s)
      · rcases (hnew c₂ n i' s').mp hc₂ with h₂ | ⟨rfl, -⟩
        · exact absurd (.inl ⟨c₂, h₂⟩) (hunused i' s')
        · rfl
    · intro c' n i s hc'
      rcases (hnew c' n i s).mp hc' with h | ⟨rfl, rfl, -⟩
      · exact hT.fresh c' n i s h
      · intro hmem
        obtain ⟨⟨n, op⟩, hop, rfl⟩ := List.mem_map.mp hmem
        exact hunused _ _ (.inr ⟨op, hop, rfl, rfl⟩)

lemma Test.Inv.append (hT : T.Inv) {id : ℕ} {op : LoggedOp} (hc : T.clients c = .ended id op) :
    Test.Inv { T.setClient c .idle with log := T.log ++ [(id, op)] } := by
  have hother : ∀ c' n i s, (Function.update T.clients c .idle c').At n i s ↔
      c' ≠ c ∧ (T.clients c').At n i s := by
    intro c' n i s
    rcases eq_or_ne c' c with rfl | hne
    · simp
    · simp [hne]
  have hat : (T.clients c).At id op.input op.call := by simp [hc]
  refine ⟨hT.timed.congr (fun n i s => ?_) fun n x => ?_, fun c' => ?_, fun c' inv s hc' => ?_,
    fun c' inv s n o hc' => ?_, ?_, ?_, ?_⟩
  · rw [invoked_iff rfl, invoked_iff (Function.update_eq_self c T.clients).symm, hc]
    simp only [Client.At, false_or, List.mem_append, List.mem_singleton, Prod.mk.injEq]
    constructor
    · rintro (h | ⟨x, hx | ⟨rfl, rfl⟩, rfl, rfl⟩)
      · exact .inl (.inr h)
      · exact .inr ⟨x, hx, rfl, rfl⟩
      · exact .inl (.inl ⟨rfl, rfl, rfl⟩)
    · rintro ((⟨rfl, rfl, rfl⟩ | h) | ⟨x, hx, rfl, rfl⟩)
      · exact .inr ⟨op, .inr ⟨rfl, rfl⟩, rfl, rfl⟩
      · exact .inl h
      · exact .inr ⟨x, .inl hx, rfl, rfl⟩
  · rw [finished_iff rfl, finished_iff (Function.update_eq_self c T.clients).symm, hc]
    simp only [reduceCtorEq, false_or, Client.ended.injEq, List.mem_append, List.mem_singleton,
      Prod.mk.injEq]
    rw [eq_comm (a := n), eq_comm (a := x)]
    exact (or_assoc.symm.trans or_comm).trans or_assoc.symm
  · rcases eq_or_ne c' c with rfl | hne
    · simp [setClient, hT.clerk, hc, Client.request?]
    · simp [setClient, hT.clerk, hne]
  · rcases eq_or_ne c' c with rfl | hne
    · simp [setClient] at hc'
    · exact hT.started c' inv s (by simpa [setClient, hne] using hc')
  · rcases eq_or_ne c' c with rfl | hne
    · simp [setClient] at hc'
    · exact hT.returned c' inv s n o (by simpa [setClient, hne] using hc')
  · intro c₁ c₂ n i s i' s' h₁ h₂
    exact hT.distinct c₁ c₂ n i s i' s' ((hother _ _ _ _).mp h₁).2 ((hother _ _ _ _).mp h₂).2
  · intro c' n i s hc' hmem
    obtain ⟨hne, hat'⟩ := (hother _ _ _ _).mp hc'
    rw [List.map_append, List.mem_append] at hmem
    rcases hmem with hmem | hmem
    · exact hT.fresh c' n i s hat' hmem
    · obtain rfl : n = id := by simpa using hmem
      exact hne (hT.distinct c' c n i s _ _ hat' hat)
  · rw [List.map_append, List.map_singleton, ← List.concat_eq_append, List.nodup_concat]
    exact ⟨hT.fresh c id _ _ hat, hT.nodup⟩

lemma Test.Inv.moves (hT : T.Inv) {a : TestAction} (hP : TestSettles T a) (hm : T.Moves a T') :
    T'.Inv := by
  cases hm with
  | tick d => exact hT.tick d
  | start hc => exact hT.start hc
  | invoke hc hC => exact hT.invoke hP hc (System.moves_of_step hC)
  | internal hi hr hC => exact hT.internal hi hr (System.moves_of_step hC)
  | complete hc hk hC => exact hT.complete hc hk (System.moves_of_step hC)
  | stop hc => exact hT.stop hc
  | append hc => exact hT.append hc

lemma Test.inv_of_run {past : List Test} (h : tester.Run TestSettles (T :: past)) : T.Inv := by
  refine h.invariant (I := Test.Inv) ?_ ?_ T List.mem_cons_self
  · rintro _ rfl
    refine ⟨⟨?_, ?_, ?_, ?_⟩, ?_, ?_, ?_, ?_, ?_, ?_⟩
    all_goals simp [initial, Invoked, Finished, System.initial, Client.request?, Clerk.request?]
  · exact fun T _ a T' _ hP hT hn => hT.moves hP (moves_of_step hn)

/-! ### The check -/

/-- The clients are done: every operation that was called has been logged. -/
def Test.Done (T : Test) : Prop := ∀ e ∈ T.system.history, e.id ∈ T.log.map Prod.fst

instance : DecidablePred Test.Done :=
  fun T => inferInstanceAs (Decidable (∀ e ∈ T.system.history, e.id ∈ T.log.map Prod.fst))

/-- The operation of an entry of the log. -/
def logged (p : ℕ × LoggedOp) : Operation ℕ KvInput KvOutput := ⟨p.1, p.2.input, p.2.output⟩

/-- Every call is one of a logged operation. -/
lemma Test.Inv.exists_logged (hT : T.Inv) (hd : T.Done) {n : ℕ} {i : KvInput}
    (h : .call n i ∈ T.system.history) : ∃ op, (n, op) ∈ T.log ∧ op.input = i := by
  obtain ⟨s, ⟨c, hat⟩ | ⟨op, hop, hi, -⟩⟩ := hT.timed.called n i h
  · exact absurd (hd _ h) (hT.fresh c n i s hat)
  · exact ⟨op, hop, hi⟩

/-- A linearization of the history is an order of the logged operations. -/
lemma Test.Inv.mem_iff (hT : T.Inv) (hd : T.Done) {l : List (Operation ℕ KvInput KvOutput)}
    (hl : Linearization kvModel T.system.history l) (x : Operation ℕ KvInput KvOutput) :
    x ∈ l ↔ ∃ p ∈ T.log, logged p = x := by
  have hret : ∀ p ∈ T.log, ∃ i, ⟨p.1, i, p.2.output⟩ ∈ l := fun p hp =>
    hl.complete _ _ (hT.timed.finished p.1 p.2 (.inr hp)).2.2
  have hlogged : ∀ x ∈ l, ∃ p ∈ T.log, logged p = x := by
    rintro ⟨n, _, o⟩ hx
    obtain ⟨op, hop, rfl⟩ := hT.exists_logged hd (hl.called _ hx)
    obtain ⟨i, hi⟩ := hret _ hop
    obtain rfl : op.output = o :=
      congrArg Operation.output (List.inj_on_of_nodup_map hl.nodup hi hx rfl)
    exact ⟨_, hop, rfl⟩
  refine ⟨hlogged x, ?_⟩
  rintro ⟨p, hp, rfl⟩
  obtain ⟨i, hi⟩ := hret p hp
  obtain ⟨q, hq, heq⟩ := hlogged _ hi
  obtain rfl := List.inj_on_of_nodup_map hT.nodup hq hp (congrArg Operation.id heq)
  exact heq ▸ hi

lemma Test.Inv.timely (hT : T.Inv) : Porcupine.Timely T.opLog := by
  intro op hop
  obtain ⟨p, hp, rfl⟩ := List.mem_map.mp hop
  exact (hT.timed.finished p.1 p.2 (.inr hp)).1

lemma Test.Inv.linearizableOps (hT : T.Inv) (hd : T.Done)
    (h : Linearizable kvModel T.system.history) : Porcupine.LinearizableOps kvModel T.opLog := by
  obtain ⟨l, hl⟩ := h
  rw [Porcupine.LinearizableOps, opLog, timedLinearizable_map_iff]
  have htimed : TimedLinearizable kvModel logged (fun p => p.2.call) (fun p => p.2.return_)
      T.log := by
    refine hl.timed hT.nodup (hT.mem_iff hd hl) fun p hp q hq hlt => ?_
    exact hT.timed.order p.1 p.2 q.1 _ _ (.inr hp) (.inr ⟨q.2, hq, rfl, rfl⟩) hlt
  refine (timedLinearizable_congr ?_).mp htimed
  exact fun p => ⟨rfl, rfl⟩

/-- The check at the end of the test does not fail: once the clients are done the logged operations
are linearizable, and `checkOperations` does not return `Illegal`. -/
theorem check_does_not_fail {past : List Test} (h : tester.Run TestSettles (T :: past))
    (hd : T.Done) :
    Porcupine.LinearizableOps kvModel T.opLog ∧
      ∀ verbose hasTimeout r,
        Porcupine.ChecksOperations KvModel.model T.opLog verbose hasTimeout r → r ≠ .illegal := by
  have hT := Test.inv_of_run h
  obtain ⟨past', hrun⟩ := Test.exists_run h
  obtain ⟨t, hreach, hC⟩ := kvsrv_serves hrun
  have hlin := hT.linearizableOps hd (hC.history ▸ Atomic.linearizable_of_reachable hreach)
  refine ⟨hlin, fun verbose hasTimeout r hr hill => ?_⟩
  obtain ⟨-, hbad, -⟩ :=
    hr.partitions (Porcupine.lawful_shallowEqual rfl) (KvModel.timely_partition hT.timely)
  obtain ⟨p, hp, hnot⟩ := hbad hill
  exact hnot ((KvModel.linearizableOps_iff_partition hT.timely).mp hlin p hp)

end Invariant

/-- A check of `TestSettles`. -/
def testSettles (T : Test) : TestAction → Bool
  | .invoke _ id => T.system.history.all fun e => e.id ≠ id
  | .internal a => settles T.system a
  | _ => true

lemma testSettles_sound (T : Test) (a : TestAction) (h : testSettles T a = true) :
    TestSettles T a := by
  cases a with
  | invoke c id =>
    intro i hi
    simp only [testSettles, List.all_eq_true] at h
    simpa [Event.id] using h _ hi
  | internal a => exact settles_sound T.system a h
  | _ => trivial

/-- Client 0 appends while client 1 gets; the first reply to client 0 is lost. -/
def overlappingClients : List TestAction :=
  [.start 0 (.Append "k" "x"), .invoke 0 7, .internal (.send 0), .tick 1, .start 1 (.Get "k"),
    .invoke 1 8, .internal (.load 0), .internal (.modify 0), .internal (.fail 0),
    .internal (.send 1), .internal (.load 1), .internal (.modify 1), .tick 2,
    .internal (.succeed 1), .internal (.sendDone 1), .complete 1, .stop 1, .append 1,
    .internal (.send 0), .internal (.load 2), .internal (.succeed 0), .internal (.sendDone 0),
    .tick 1, .complete 0, .stop 0, .append 0]

/-- The operations that test logs. -/
theorem check_overlappingClients :
    ∃ T past, tester.Run TestSettles (T :: past) ∧
      T.opLog = [⟨⟨0, "k", ""⟩, 1, ⟨"x"⟩, 3⟩, ⟨⟨3, "k", "x"⟩, 0, ⟨""⟩, 4⟩] ∧
      Porcupine.LinearizableOps kvModel T.opLog := by
  obtain ⟨T, past, hr, hd, hlog⟩ : ∃ T past, tester.Run TestSettles (T :: past) ∧ T.Done ∧
      T.opLog = [⟨⟨0, "k", ""⟩, 1, ⟨"x"⟩, 3⟩, ⟨⟨3, "k", "x"⟩, 0, ⟨""⟩, 4⟩] :=
    Machine.exists_run_of_trace testSettles testSettles_sound overlappingClients
      (by decide +kernel)
  exact ⟨T, past, hr, hlog, (check_does_not_fail hr hd).1⟩

end KvSrv

end DistLabs
