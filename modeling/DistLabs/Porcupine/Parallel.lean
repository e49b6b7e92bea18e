import DistLabs.Lib.Machine
import DistLabs.Porcupine.Operations

/-!
# Checking the partitions in parallel

`checkParallel` starts a goroutine for each partition of a history and waits for their results.
When one is false it may tell the others to stop by setting `kill`, and a goroutine that stops also
sends false. Whatever the order in which the goroutines run, such a result is not counted.
-/

namespace DistLabs

namespace Porcupine

open scoped List

variable {I O S : Type}

inductive CheckResult where
  | unknown
  | ok
  | illegal
  deriving DecidableEq

/-- A goroutine is in the loop of `checkSingle`, has returned from it, or has sent the result. -/
inductive Goroutine (I O S : Type) where
  | searching (s : Search I O S)
  | returned (ok : Bool) (longest : Longest)
  | sent (ok : Bool) (longest : Longest)

/-- What the caller is doing: it is in the `select` loop, waits for the remaining goroutines, or has
returned. -/
inductive Phase where
  | selecting
  | draining
  | done (result : CheckResult)
  deriving DecidableEq

/-- The variables of `checkParallel`. The longest sequences are those of the goroutines. -/
structure Parallel (I O S : Type) where
  goroutines : List (Goroutine I O S)
  kill : Bool
  results : List Bool
  count : ℕ
  ok : Bool
  timedOut : Bool
  phase : Phase

inductive ParallelAction where
  | iterate (i : ℕ)
  | send (i : ℕ)
  | receive
  | timeout
  | drain
  | finish
  deriving DecidableEq

namespace Parallel

def start (model : FilledModel I O S) (history : List (List (Entry I O))) :
    Option (Parallel I O S) :=
  (history.mapM (Search.start model)).map fun searches =>
    { goroutines := searches.map .searching
      kill := false
      results := []
      count := 0
      ok := true
      timedOut := false
      phase := .selecting }

def result (c : Parallel I O S) : CheckResult :=
  if !c.ok then .illegal else if c.timedOut then .unknown else .ok

/-- The `select` loop is left. -/
def leave (computeInfo : Bool) (c : Parallel I O S) : Parallel I O S :=
  { c with phase := if computeInfo then .draining else .done c.result }

/-- One step; `hasTimeout` says whether there is a timeout. -/
def step (model : FilledModel I O S) (computeInfo hasTimeout : Bool) (c : Parallel I O S) :
    ParallelAction → Option (Parallel I O S)
  | .iterate i =>
    match c.goroutines[i]? with
    | some (.searching s) =>
      match s.iterate model computeInfo c.kill with
      | none => none
      | some (.goesOn s') => some { c with goroutines := c.goroutines.set i (.searching s') }
      | some (.returns ok longest) =>
        some { c with goroutines := c.goroutines.set i (.returned ok longest) }
    | _ => none
  | .send i =>
    match c.goroutines[i]? with
    | some (.returned ok longest) =>
      some
        { c with
          goroutines := c.goroutines.set i (.sent ok longest)
          results := c.results ++ [ok] }
    | _ => none
  | .receive =>
    match c.phase, c.results with
    | .selecting, result :: results =>
      let c := { c with results := results, count := c.count + 1, ok := c.ok && result }
      if !c.ok && !computeInfo then some (leave computeInfo { c with kill := true })
      else if c.count ≥ c.goroutines.length then some (leave computeInfo c)
      else some c
    | _, _ => none
  | .timeout =>
    if c.phase = .selecting ∧ hasTimeout = true then
      some (leave computeInfo { c with timedOut := true, kill := true })
    else none
  | .drain =>
    match c.phase, c.results with
    | .draining, _ :: results =>
      if c.count < c.goroutines.length then
        some { c with results := results, count := c.count + 1 }
      else none
    | _, _ => none
  | .finish =>
    if c.phase = .draining ∧ c.count ≥ c.goroutines.length then
      some { c with phase := .done c.result }
    else none

end Parallel

/-- `checkParallel` on the entries of the partitions. -/
def checkParallel (model : FilledModel I O S) (history : List (List (Entry I O)))
    (computeInfo hasTimeout : Bool) : Machine (Parallel I O S) ParallelAction where
  init c := Parallel.start model history = some c
  next c a c' := c.step model computeInfo hasTimeout a = some c'

/-! ### What a step does -/

variable {model : FilledModel I O S} {history : List (List (Entry I O))}
  {computeInfo hasTimeout : Bool} {c c' : Parallel I O S}

/-- What one step does. -/
inductive Parallel.Moves (model : FilledModel I O S) (computeInfo hasTimeout : Bool)
    (c : Parallel I O S) : Parallel I O S → Prop
  | goesOn {i : ℕ} {s s' : Search I O S} (hi : c.goroutines[i]? = some (.searching s))
      (h : s.iterate model computeInfo c.kill = some (.goesOn s')) :
      Moves model computeInfo hasTimeout c
        { c with goroutines := c.goroutines.set i (.searching s') }
  | returns {i : ℕ} {s : Search I O S} {ok : Bool} {longest : Longest}
      (hi : c.goroutines[i]? = some (.searching s))
      (h : s.iterate model computeInfo c.kill = some (.returns ok longest)) :
      Moves model computeInfo hasTimeout c
        { c with goroutines := c.goroutines.set i (.returned ok longest) }
  | send {i : ℕ} {ok : Bool} {longest : Longest}
      (hi : c.goroutines[i]? = some (.returned ok longest)) :
      Moves model computeInfo hasTimeout c
        { c with
          goroutines := c.goroutines.set i (.sent ok longest)
          results := c.results ++ [ok] }
  /-- A result is received, and the loop goes on. -/
  | receive {result : Bool} {results : List Bool} (hp : c.phase = .selecting)
      (hr : c.results = result :: results) (hgo : (c.ok && result) = true ∨ computeInfo = true)
      (hlt : c.count + 1 < c.goroutines.length) :
      Moves model computeInfo hasTimeout c
        { c with results := results, count := c.count + 1, ok := c.ok && result }
  /-- The last result is received. -/
  | last {result : Bool} {results : List Bool} (hp : c.phase = .selecting)
      (hr : c.results = result :: results) (hgo : (c.ok && result) = true ∨ computeInfo = true)
      (hle : c.goroutines.length ≤ c.count + 1) :
      Moves model computeInfo hasTimeout c
        (leave computeInfo
          { c with results := results, count := c.count + 1, ok := c.ok && result })
  /-- A result is false, and the other goroutines are stopped. -/
  | stop {result : Bool} {results : List Bool} (hp : c.phase = .selecting)
      (hr : c.results = result :: results) (hno : (c.ok && result) = false)
      (hci : computeInfo = false) :
      Moves model computeInfo hasTimeout c
        (leave computeInfo
          { c with results := results, count := c.count + 1, ok := c.ok && result, kill := true })
  | timeout (hp : c.phase = .selecting) (ht : hasTimeout = true) :
      Moves model computeInfo hasTimeout c
        (leave computeInfo { c with timedOut := true, kill := true })
  | drain {result : Bool} {results : List Bool} (hp : c.phase = .draining)
      (hr : c.results = result :: results) (hlt : c.count < c.goroutines.length) :
      Moves model computeInfo hasTimeout c { c with results := results, count := c.count + 1 }
  | finish (hp : c.phase = .draining) (hle : c.goroutines.length ≤ c.count) :
      Moves model computeInfo hasTimeout c { c with phase := .done c.result }

lemma Parallel.moves_of_step {a : ParallelAction}
    (h : c.step model computeInfo hasTimeout a = some c') :
    c.Moves model computeInfo hasTimeout c' := by
  cases a with
  | iterate i =>
    simp only [step] at h
    split at h
    · rename_i s hi
      split at h
      · cases h
      · rename_i s' hs
        cases h
        exact .goesOn hi hs
      · rename_i ok longest hs
        cases h
        exact .returns hi hs
    · cases h
  | send i =>
    simp only [step] at h
    split at h
    · rename_i ok longest hi
      cases h
      exact .send hi
    · cases h
  | receive =>
    simp only [step] at h
    split at h
    · rename_i result results hp hr
      split_ifs at h with hstop hle
      · cases h
        simp only [Bool.and_eq_true, Bool.not_eq_true'] at hstop
        exact .stop hp hr hstop.1 hstop.2
      · cases h
        refine .last hp hr ?_ hle
        simpa [or_iff_not_imp_left] using hstop
      · cases h
        refine .receive hp hr ?_ (by omega)
        simpa [or_iff_not_imp_left] using hstop
    · cases h
  | timeout =>
    simp only [step] at h
    split_ifs at h with hp
    cases h
    exact .timeout hp.1 hp.2
  | drain =>
    simp only [step] at h
    split at h
    · rename_i result results hp hr
      split_ifs at h with hlt
      cases h
      exact .drain hp hr hlt
    · cases h
  | finish =>
    simp only [step] at h
    split_ifs at h with hp
    cases h
    exact .finish hp.1 hp.2

/-! ### The results -/

/-- The history of a partition is linearizable. -/
abbrev FilledModel.Linearizes (model : FilledModel I O S) (history : List (Entry I O)) : Prop :=
  Linearizable model.toModel (history.map Entry.event)

/-- A result for a partition. It says nothing if it is false and the goroutine may have been
stopped. -/
structure Answers (model : FilledModel I O S) (kill : Bool) (history : List (Entry I O))
    (ok : Bool) : Prop where
  linearizes : ok = true → model.Linearizes history
  fails : ok = false → kill = false → ¬model.Linearizes history

/-- What is known of a goroutine. -/
inductive Goroutine.Valid (model : FilledModel I O S) (computeInfo kill : Bool)
    (history : List (Entry I O)) : Goroutine I O S → Prop
  | searching {s : Search I O S} {heap : Heap I O} {head : ℕ} {addrs : List ℕ}
      {t : SearchSpace.State (History.Config ℕ S) ℕ}
      (hset : Setting (history.map Entry.event) heap head addrs (history.length / 2))
      (hr : Related model (history.map Entry.event) heap head addrs (history.length / 2)
        computeInfo s t)
      (hi : SearchSpace.Inv (model.space (history.map Entry.event)) model.Similar t) :
      Valid model computeInfo kill history (.searching s)
  | returned {ok : Bool} {longest : Longest} (h : Answers model kill history ok) :
      Valid model computeInfo kill history (.returned ok longest)
  | sent {ok : Bool} {longest : Longest} (h : Answers model kill history ok) :
      Valid model computeInfo kill history (.sent ok longest)

/-- The result a goroutine has sent. -/
def Goroutine.sent? : Goroutine I O S → Option Bool
  | .sent ok _ => some ok
  | _ => none

/-- What holds in every state of `checkParallel`. -/
structure Parallel.Inv (model : FilledModel I O S) (computeInfo : Bool)
    (history : List (List (Entry I O))) (c : Parallel I O S) : Prop where
  valid : List.Forall₂ (Goroutine.Valid model computeInfo c.kill) history c.goroutines
  received : ∃ received : List Bool, received.length = c.count ∧
    received ++ c.results ~ c.goroutines.filterMap Goroutine.sent? ∧
    (c.phase = .selecting → c.ok = received.all id)
  selecting : c.phase = .selecting → c.kill = false ∧ c.timedOut = false ∧
    (c.count < c.goroutines.length ∨ c.goroutines = [])
  illegal : c.ok = false → ∃ h ∈ history, ¬model.Linearizes h
  legal : c.phase ≠ .selecting → c.ok = true → c.timedOut = false →
    ∀ h ∈ history, model.Linearizes h
  done : ∀ r, c.phase = .done r → r = c.result ∧
    (computeInfo = true → c.goroutines.length ≤ c.count)

section Lists

variable {α β : Type*} {R : α → β → Prop} {l : List α} {l' : List β} {i : ℕ} {x : β}

/-- One element of the second list is replaced. -/
lemma forall₂_set (h : List.Forall₂ R l l') (hi : l'[i]? = some x) :
    ∃ a ∈ l, R a x ∧ ∀ y, R a y → List.Forall₂ R l (l'.set i y) := by
  induction h generalizing i with
  | nil => cases hi
  | @cons a b l l' hab h ih =>
    cases i with
    | zero =>
      cases hi
      exact ⟨a, List.mem_cons_self, hab, fun y hy => .cons hy h⟩
    | succ i =>
      obtain ⟨a', ha', hx, hset⟩ := ih hi
      exact ⟨a', List.mem_cons_of_mem _ ha', hx, fun y hy => .cons hab (hset y hy)⟩

lemma exists_right (h : List.Forall₂ R l l') {a : α} (ha : a ∈ l) : ∃ b ∈ l', R a b := by
  induction h with
  | nil => cases ha
  | @cons a' b l l' hab _ ih =>
    rcases List.mem_cons.mp ha with rfl | ha
    · exact ⟨b, List.mem_cons_self, hab⟩
    · obtain ⟨b', hb', hab'⟩ := ih ha
      exact ⟨b', List.mem_cons_of_mem _ hb', hab'⟩

lemma exists_split_set (hi : l'[i]? = some x) :
    ∃ l₁ l₂, l' = l₁ ++ x :: l₂ ∧ ∀ y, l'.set i y = l₁ ++ y :: l₂ := by
  obtain ⟨hlt, rfl⟩ := List.getElem?_eq_some_iff.mp hi
  refine ⟨l'.take i, l'.drop (i + 1), by simp, fun y => ?_⟩
  rw [List.set_eq_take_append_cons_drop, if_pos hlt]

end Lists

lemma Answers.mono {kill : Bool} {h : List (Entry I O)} {ok : Bool}
    (ha : Answers model kill h ok) : Answers model true h ok :=
  ⟨ha.linearizes, by simp⟩

lemma Goroutine.Valid.mono {kill : Bool} {h : List (Entry I O)} {g : Goroutine I O S}
    (hg : g.Valid model computeInfo kill h) : g.Valid model computeInfo true h := by
  cases hg with
  | searching hset hr hi => exact .searching hset hr hi
  | returned h => exact .returned h.mono
  | sent h => exact .sent h.mono

/-- An iteration of a goroutine. -/
lemma Goroutine.Valid.iterate (hE : model.Lawful) {kill : Bool} {h : List (Entry I O)}
    (hw : WellFormed h) {s : Search I O S}
    (hg : (Goroutine.searching s).Valid model computeInfo kill h) :
    ∃ r, s.iterate model computeInfo kill = some r ∧
      (∀ s', r = .goesOn s' → (Goroutine.searching s').Valid model computeInfo kill h) ∧
      ∀ ok longest, r = .returns ok longest → Answers model kill h ok := by
  cases hg with
  | searching hset hr hi =>
    obtain ⟨r, hcode, hit⟩ := hr.iterate hset hw.complete kill
    refine ⟨r, hcode, ?_, ?_⟩
    · rintro s' rfl
      cases hit with
      | goesOn ht hr' => exact .searching hset hr' (hi.step (fun c => ⟨rfl, hE.refl c.state⟩) ht)
    · rintro ok longest rfl
      cases hit with
      | found hp hd =>
        have hdec := decides_of_found hset hw.complete hr hp hd
        exact ⟨fun _ => hdec.ok.mp rfl, by simp⟩
      | killed hk => exact ⟨by simp, by simp [hk]⟩
      | exhausted ht hnd =>
        have hdec := decides_of_exhausted hw.complete hE hr hi ht hnd
        exact ⟨by simp, fun _ _ hl => by simpa using hdec.ok.mpr hl⟩

section Invariant

/-- A goroutine takes a step without sending. -/
lemma Parallel.Inv.setGoroutine (hinv : c.Inv model computeInfo history) {i : ℕ}
    {g g' : Goroutine I O S} (hi : c.goroutines[i]? = some g) (hg : g.sent? = none)
    (hg' : g'.sent? = none)
    (hvalid : ∀ h ∈ history, g.Valid model computeInfo c.kill h →
      g'.Valid model computeInfo c.kill h) :
    Parallel.Inv model computeInfo history { c with goroutines := c.goroutines.set i g' } := by
  obtain ⟨h, hh, hv, hset⟩ := forall₂_set hinv.valid hi
  have hfilter : (c.goroutines.set i g').filterMap Goroutine.sent? =
      c.goroutines.filterMap Goroutine.sent? := by
    obtain ⟨l₁, l₂, heq, hset'⟩ := exists_split_set hi
    rw [hset', heq, List.filterMap_append, List.filterMap_append, List.filterMap_cons_none hg',
      List.filterMap_cons_none hg]
  refine ⟨hset _ (hvalid h hh hv), ?_, ?_, hinv.illegal, hinv.legal, ?_⟩
  · obtain ⟨received, hlen, hperm, hok⟩ := hinv.received
    exact ⟨received, hlen, by rwa [hfilter], hok⟩
  · intro hp
    obtain ⟨hk, ht, hlt⟩ := hinv.selecting hp
    exact ⟨hk, ht, by simpa using hlt⟩
  · intro r hr
    exact ⟨(hinv.done r hr).1, fun hci => by simpa using (hinv.done r hr).2 hci⟩

lemma Parallel.Inv.send (hinv : c.Inv model computeInfo history) {i : ℕ} {ok : Bool}
    {longest : Longest} (hi : c.goroutines[i]? = some (.returned ok longest)) :
    Parallel.Inv model computeInfo history
      { c with
        goroutines := c.goroutines.set i (.sent ok longest)
        results := c.results ++ [ok] } := by
  obtain ⟨h, hh, hv, hset⟩ := forall₂_set hinv.valid hi
  have hperm' : (c.goroutines.set i (.sent ok longest)).filterMap Goroutine.sent? ~
      c.goroutines.filterMap Goroutine.sent? ++ [ok] := by
    obtain ⟨l₁, l₂, heq, hset'⟩ := exists_split_set hi
    have hsent : (Goroutine.sent ok longest : Goroutine I O S).sent? = some ok := rfl
    rw [hset', heq, List.filterMap_append, List.filterMap_append, List.filterMap_cons_some hsent,
      List.filterMap_cons_none rfl]
    exact List.perm_middle.trans (List.perm_append_singleton ok _).symm
  refine ⟨hset _ ?_, ?_, ?_, hinv.illegal, hinv.legal, ?_⟩
  · cases hv with
    | returned h => exact .sent h
  · obtain ⟨received, hlen, hperm, hok⟩ := hinv.received
    refine ⟨received, hlen, ?_, hok⟩
    rw [← List.append_assoc]
    exact (hperm.append_right [ok]).trans hperm'.symm
  · intro hp
    obtain ⟨hk, ht, hlt⟩ := hinv.selecting hp
    exact ⟨hk, ht, by simpa using hlt⟩
  · intro r hr
    exact ⟨(hinv.done r hr).1, fun hci => by simpa using (hinv.done r hr).2 hci⟩

/-- A result that has been sent is that of a partition. -/
lemma Parallel.Inv.exists_answers (hinv : c.Inv model computeInfo history) {ok : Bool}
    (hok : ok ∈ c.goroutines.filterMap Goroutine.sent?) :
    ∃ h ∈ history, Answers model c.kill h ok := by
  obtain ⟨g, hg, hsent⟩ := List.mem_filterMap.mp hok
  obtain ⟨i, hi⟩ := List.mem_iff_getElem?.mp hg
  obtain ⟨h, hh, hv, -⟩ := forall₂_set hinv.valid hi
  cases hv with
  | sent ha =>
    cases hsent
    exact ⟨h, hh, ha⟩
  | _ => cases hsent

/-- A result is received. -/
lemma Parallel.Inv.receive (hinv : c.Inv model computeInfo history) {r : Bool} {rs : List Bool}
    (hp : c.phase = .selecting) (hr : c.results = r :: rs) :
    (∃ received : List Bool, received.length = c.count + 1 ∧
      received ++ rs ~ c.goroutines.filterMap Goroutine.sent? ∧
      (c.ok && r) = received.all id) ∧
      ((c.ok && r) = false → ∃ h ∈ history, ¬model.Linearizes h) ∧
      (c.goroutines.length ≤ c.count + 1 → (c.ok && r) = true →
        ∀ h ∈ history, model.Linearizes h) := by
  obtain ⟨received, hlen, hperm, hok⟩ := hinv.received
  have hok := hok hp
  have hkill := (hinv.selecting hp).1
  rw [hr] at hperm
  have hperm' : (received ++ [r]) ++ rs ~ c.goroutines.filterMap Goroutine.sent? := by
    simpa using hperm
  have hall : (c.ok && r) = (received ++ [r]).all id := by simp [hok]
  refine ⟨⟨received ++ [r], by simp [hlen], hperm', hall⟩, fun hf => ?_, fun hle htrue => ?_⟩
  · cases hc : c.ok with
    | false => exact hinv.illegal hc
    | true =>
      obtain rfl : r = false := by simpa [hc] using hf
      have hmem : false ∈ c.goroutines.filterMap Goroutine.sent? := hperm.subset (by simp)
      obtain ⟨h, hh, ha⟩ := hinv.exists_answers hmem
      exact ⟨h, hh, ha.fails rfl hkill⟩
  · -- all goroutines have sent, and nothing but true
    intro h hh
    have hlen' := hperm'.length_eq
    have hsub := List.length_filterMap_le Goroutine.sent? c.goroutines
    simp only [List.length_append, List.length_singleton, hlen] at hlen'
    obtain rfl : rs = [] := List.length_eq_zero_iff.mp (by omega)
    have hsent := List.filterMap_length_eq_length.mp (show
      (c.goroutines.filterMap Goroutine.sent?).length = c.goroutines.length by omega)
    obtain ⟨g, hg, hv⟩ := exists_right hinv.valid hh
    obtain ⟨ok, hok'⟩ := Option.isSome_iff_exists.mp (hsent g hg)
    have hmem : ok ∈ received ++ [r] := by
      simpa using hperm'.symm.subset (List.mem_filterMap.mpr ⟨g, hg, hok'⟩)
    have htrue' : ok = true := by
      rw [hall, List.all_eq_true] at htrue
      exact htrue ok hmem
    cases hv with
    | sent ha =>
      cases hok'
      exact ha.linearizes htrue'
    | _ => cases hok'

/-- The caller leaves the `select` loop. -/
lemma Parallel.Inv.leave {received : List Bool}
    (hvalid : List.Forall₂ (Goroutine.Valid model computeInfo c.kill) history c.goroutines)
    (hlen : received.length = c.count)
    (hperm : received ++ c.results ~ c.goroutines.filterMap Goroutine.sent?)
    (hill : c.ok = false → ∃ h ∈ history, ¬model.Linearizes h)
    (hleg : c.ok = true → c.timedOut = false → ∀ h ∈ history, model.Linearizes h) :
    Parallel.Inv model computeInfo history (c.leave computeInfo) := by
  have hne : (c.leave computeInfo).phase ≠ .selecting := by
    cases computeInfo <;> simp [Parallel.leave]
  refine ⟨hvalid, ⟨received, hlen, hperm, fun hp => absurd hp hne⟩, fun hp => absurd hp hne, hill,
    fun _ => hleg, fun r hr => ?_⟩
  cases computeInfo with
  | false => exact ⟨by cases hr; rfl, by simp⟩
  | true => cases hr

lemma Parallel.Inv.moves (hE : model.Lawful) (hw : ∀ h ∈ history, WellFormed h)
    (hinv : c.Inv model computeInfo history) (hm : c.Moves model computeInfo hasTimeout c') :
    c'.Inv model computeInfo history := by
  cases hm with
  | goesOn hi h =>
    refine hinv.setGoroutine hi rfl rfl fun hist hh hv => ?_
    obtain ⟨r, hcode, hgo, -⟩ := hv.iterate hE (hw hist hh)
    cases h.symm.trans hcode
    exact hgo _ rfl
  | returns hi h =>
    refine hinv.setGoroutine hi rfl rfl fun hist hh hv => ?_
    obtain ⟨r, hcode, -, hret⟩ := hv.iterate hE (hw hist hh)
    cases h.symm.trans hcode
    exact .returned (hret _ _ rfl)
  | send hi => exact hinv.send hi
  | receive hp hr hgo hlt =>
    obtain ⟨⟨received, hlen, hperm, hok⟩, hill, -⟩ := hinv.receive hp hr
    obtain ⟨hk, ht, -⟩ := hinv.selecting hp
    exact ⟨hinv.valid, ⟨received, hlen, hperm, fun _ => hok⟩, fun _ => ⟨hk, ht, .inl hlt⟩, hill,
      fun hne => absurd hp hne, fun r hr => by cases hp.symm.trans hr⟩
  | last hp hr hgo hle =>
    obtain ⟨⟨received, hlen, hperm, -⟩, hill, hleg⟩ := hinv.receive hp hr
    exact .leave hinv.valid hlen hperm hill fun htrue _ => hleg hle htrue
  | stop hp hr hno hci =>
    obtain ⟨⟨received, hlen, hperm, -⟩, hill, -⟩ := hinv.receive hp hr
    refine .leave (hinv.valid.imp fun _ _ => Goroutine.Valid.mono) hlen hperm hill fun htrue => ?_
    cases hno.symm.trans htrue
  | timeout hp ht =>
    obtain ⟨received, hlen, hperm, -⟩ := hinv.received
    exact .leave (hinv.valid.imp fun _ _ => Goroutine.Valid.mono) hlen hperm hinv.illegal
      (by simp)
  | drain hp hr hlt =>
    obtain ⟨received, hlen, hperm, -⟩ := hinv.received
    rw [hr] at hperm
    refine ⟨hinv.valid, ⟨received ++ [_], by simp [hlen], by simpa using hperm, ?_⟩, ?_,
      hinv.illegal, hinv.legal, ?_⟩
    · intro hs
      cases hp.symm.trans hs
    · intro hs
      cases hp.symm.trans hs
    · intro r hd
      cases hp.symm.trans hd
  | finish hp hle =>
    obtain ⟨received, hlen, hperm, -⟩ := hinv.received
    refine ⟨hinv.valid, ⟨received, hlen, hperm, by simp⟩, by simp, hinv.illegal,
      fun _ => hinv.legal (by simp [hp]), fun r hr => ?_⟩
    cases hr
    exact ⟨rfl, fun _ => hle⟩

end Invariant

/-! ### The verdict -/

lemma forall₂_of_mapM_eq_some {α β : Type} {f : α → Option β} {l : List α} {l' : List β}
    (h : l.mapM f = some l') : List.Forall₂ (fun a b => f a = some b) l l' := by
  induction l generalizing l' with
  | nil =>
    cases h
    exact .nil
  | cons a l ih =>
    rw [List.mapM_cons] at h
    obtain ⟨b, hb, h⟩ := Option.bind_eq_some_iff.mp h
    obtain ⟨l'', hl, h⟩ := Option.bind_eq_some_iff.mp h
    cases h
    exact .cons hb (ih hl)

lemma Parallel.inv_start (hw : ∀ h ∈ history, WellFormed h)
    (h : Parallel.start model history = some c) : c.Inv model computeInfo history := by
  obtain ⟨searches, hs, rfl⟩ := Option.map_eq_some_iff.mp h
  have hvalid : List.Forall₂ (Goroutine.Valid model computeInfo false) history
      (searches.map .searching) := by
    refine List.forall₂_map_right_iff.mpr ?_
    have hstart := forall₂_of_mapM_eq_some hs
    clear h hs
    induction hstart with
    | nil => exact .nil
    | @cons h s history searches hhs _ ih =>
      refine .cons ?_ (ih fun h hh => hw h (List.mem_cons_of_mem _ hh))
      obtain ⟨s', heap, head, addrs, hs', hset, hr⟩ :=
        exists_start model (hw h List.mem_cons_self) computeInfo
      cases hhs.symm.trans hs'
      exact .searching hset hr SearchSpace.inv_initial
  have hnone : (searches.map Goroutine.searching).filterMap Goroutine.sent? = [] := by
    simp [List.filterMap_map, Goroutine.sent?, Function.comp_def]
  refine ⟨hvalid, ⟨[], rfl, by simp [hnone], by simp⟩, fun _ => ⟨rfl, rfl, ?_⟩, by simp, by simp,
    by simp⟩
  cases searches with
  | nil => exact .inr rfl
  | cons s searches => exact .inl (by simp)

lemma Parallel.inv_of_reachable (hE : model.Lawful) (hw : ∀ h ∈ history, WellFormed h)
    (h : (checkParallel model history computeInfo hasTimeout).Reachable c) :
    c.Inv model computeInfo history := by
  refine Machine.Reachable.invariant (I := fun c => c.Inv model computeInfo history) ?_ ?_ h
  · exact fun c hc => inv_start hw hc
  · exact fun c a c' hc hn => hc.moves hE hw (moves_of_step hn)

lemma Parallel.timedOut_of_reachable
    (h : (checkParallel model history computeInfo hasTimeout).Reachable c) :
    c.timedOut = true → hasTimeout = true := by
  refine Machine.Reachable.invariant (I := fun c => c.timedOut = true → hasTimeout = true) ?_ ?_ h
  · intro c hc
    obtain ⟨searches, -, rfl⟩ := Option.map_eq_some_iff.mp hc
    simp
  · intro c a c' hc hn
    cases moves_of_step hn with
    | timeout _ ht => exact fun _ => ht
    | _ => exact hc

/-- The result when `checkParallel` has returned. -/
lemma Parallel.Inv.verdict (hinv : c.Inv model computeInfo history) {r : CheckResult}
    (hd : c.phase = .done r) :
    (r = .ok → ∀ h ∈ history, model.Linearizes h) ∧
      (r = .illegal → ∃ h ∈ history, ¬model.Linearizes h) ∧
      (r = .unknown → c.timedOut = true) := by
  obtain ⟨rfl, -⟩ := hinv.done r hd
  have hres : (c.result = .illegal ↔ c.ok = false) ∧
      (c.result = .ok ↔ c.ok = true ∧ c.timedOut = false) ∧
      (c.result = .unknown ↔ c.ok = true ∧ c.timedOut = true) := by
    unfold Parallel.result
    cases c.ok <;> cases c.timedOut <;> decide
  obtain ⟨hill, hok, hunk⟩ := hres
  refine ⟨fun hr => ?_, fun hr => hinv.illegal (hill.mp hr), fun hr => (hunk.mp hr).2⟩
  exact hinv.legal (by simp [hd]) (hok.mp hr).1 (hok.mp hr).2

/-- If all results have been received, every goroutine has sent its own. -/
lemma Parallel.Inv.exists_sent (hinv : c.Inv model computeInfo history)
    (hle : c.goroutines.length ≤ c.count) {g : Goroutine I O S} (hg : g ∈ c.goroutines) :
    ∃ ok longest, g = .sent ok longest := by
  obtain ⟨received, hlen, hperm, -⟩ := hinv.received
  have hlen' := hperm.length_eq
  have hsub := List.length_filterMap_le Goroutine.sent? c.goroutines
  rw [List.length_append] at hlen'
  have hsent := List.filterMap_length_eq_length.mp (show
    (c.goroutines.filterMap Goroutine.sent?).length = c.goroutines.length by omega) g hg
  cases g with
  | sent ok longest => exact ⟨ok, longest, rfl⟩
  | _ => cases hsent

/-- Whatever the order in which the goroutines run, `checkParallel` returns `Ok` only if all
partitions are linearizable, `Illegal` only if some partition is not, and `Unknown` only if there is
a timeout. If it returns the longest sequences, then all goroutines have written theirs. -/
theorem checkParallel_verdict (hE : model.Lawful) (hw : ∀ h ∈ history, WellFormed h)
    (h : (checkParallel model history computeInfo hasTimeout).Reachable c) {r : CheckResult}
    (hd : c.phase = .done r) :
    (r = .ok → ∀ h ∈ history, Linearizable model.toModel (h.map Entry.event)) ∧
      (r = .illegal → ∃ h ∈ history, ¬Linearizable model.toModel (h.map Entry.event)) ∧
      (r = .unknown → hasTimeout = true) ∧
      (computeInfo = true → ∀ g ∈ c.goroutines, ∃ ok longest, g = .sent ok longest) := by
  have hinv := Parallel.inv_of_reachable hE hw h
  obtain ⟨hok, hill, hunk⟩ := hinv.verdict hd
  exact ⟨hok, hill, fun hr => Parallel.timedOut_of_reachable h (hunk hr),
    fun hci _ hg => hinv.exists_sent ((hinv.done r hd).2 hci) hg⟩

lemma run_of_ofStep {c₀ : Parallel I O S} (hstart : Parallel.start model history = some c₀)
    {l : List (Parallel I O S)}
    (h : (Machine.ofStep c₀ (Parallel.step model computeInfo hasTimeout)).Run Machine.Any l) :
    (checkParallel model history computeInfo hasTimeout).Run Machine.Any l := by
  induction h with
  | init h => exact .init (h ▸ hstart)
  | next _ hp h ih => exact .next ih hp h

/-- The start of the check of two partitions, one of which is not linearizable. -/
def staleStart : Parallel ℕ ℕ ℕ :=
  (Parallel.start (fillDefault counterModel) [overlapping, stale]).get (by decide)

lemma wellFormed_pair : ∀ h ∈ [overlapping, stale], WellFormed h := by
  simpa using ⟨wellFormed_overlapping, wellFormed_stale⟩

/-- The second partition is found not to be linearizable before the first one has been looked
at. -/
theorem checkParallel_stale :
    ∃ c, (checkParallel (fillDefault counterModel) [overlapping, stale] false false).Reachable c ∧
      c.phase = .done .illegal ∧
      ∃ h ∈ [overlapping, stale], ¬Linearizable counterModel.toModel (h.map Entry.event) := by
  obtain ⟨c, past, hrun, hdone⟩ : ∃ c past,
      (Machine.ofStep staleStart (Parallel.step (fillDefault counterModel) false false)).Run
        Machine.Any (c :: past) ∧ c.phase = .done .illegal :=
    Machine.exists_run_of_trace (fun _ _ => true) (fun _ _ _ => trivial)
      [.iterate 1, .iterate 1, .iterate 1, .iterate 1, .send 1, .receive] (by decide +kernel)
  have hreach : (checkParallel (fillDefault counterModel) [overlapping, stale] false
      false).Reachable c := ⟨past, run_of_ofStep (Option.some_get _).symm hrun⟩
  exact ⟨c, hreach, hdone,
    (checkParallel_verdict (lawful_shallowEqual rfl) wellFormed_pair hreach hdone).2.1 rfl⟩

/-! ### The end -/

/-- A number of steps after which a goroutine has certainly sent its result. -/
inductive Goroutine.Rank (model : FilledModel I O S) (computeInfo : Bool) :
    Goroutine I O S → ℕ → Prop
  | searching {s : Search I O S} {k : ℕ} (h : (s.loop model computeInfo k).isSome) :
      Rank model computeInfo (.searching s) (k + 3)
  | returned {ok : Bool} {longest : Longest} : Rank model computeInfo (.returned ok longest) 2
  | sent {ok : Bool} {longest : Longest} : Rank model computeInfo (.sent ok longest) 0

def Phase.rank : Phase → ℕ
  | .selecting => 2
  | .draining => 1
  | .done _ => 0

/-- A number of steps after which nothing more can happen. -/
def Parallel.Rank (model : FilledModel I O S) (computeInfo : Bool) (c : Parallel I O S) (n : ℕ) :
    Prop :=
  ∃ ns, List.Forall₂ (Goroutine.Rank model computeInfo) c.goroutines ns ∧
    n = ns.sum + c.results.length + c.phase.rank

/-- A goroutine that is told to stop does not go on. -/
lemma Search.iterate_goesOn {s s' : Search I O S} {kill : Bool}
    (h : s.iterate model computeInfo kill = some (.goesOn s')) :
    s.iterate model computeInfo false = some (.goesOn s') := by
  cases kill with
  | false => exact h
  | true =>
    unfold Search.iterate at h
    split_ifs at h
    · obtain ⟨_, _, hs⟩ := Option.bind_eq_some_iff.mp h
      cases hs
    · cases h
    · contradiction

lemma Goroutine.Rank.goesOn {s s' : Search I O S} {kill : Bool} {n : ℕ}
    (hr : (Goroutine.searching s).Rank model computeInfo n)
    (h : s.iterate model computeInfo kill = some (.goesOn s')) :
    ∃ n' < n, (Goroutine.searching s').Rank model computeInfo n' := by
  cases hr with
  | @searching _ k hk =>
    cases k with
    | zero => cases hk
    | succ k =>
      rw [Search.loop, Search.iterate_goesOn h] at hk
      exact ⟨k + 3, by omega, .searching hk⟩

/-- A goroutine takes a step. -/
lemma forall₂_rank_set {gs : List (Goroutine I O S)} {ns : List ℕ} {i : ℕ} {g : Goroutine I O S}
    (g' : Goroutine I O S) (h : List.Forall₂ (Goroutine.Rank model computeInfo) gs ns)
    (hi : gs[i]? = some g)
    (hg : ∀ n, g.Rank model computeInfo n → ∃ n', g'.Rank model computeInfo n' ∧ n' < n) :
    ∃ n n', g.Rank model computeInfo n ∧ g'.Rank model computeInfo n' ∧ n' < n ∧
      ∃ ns', List.Forall₂ (Goroutine.Rank model computeInfo) (gs.set i g') ns' ∧
        ns'.sum + n = ns.sum + n' := by
  induction h generalizing i with
  | nil => cases hi
  | @cons g₁ n₁ gs ns h₁ h ih =>
    cases i with
    | zero =>
      cases hi
      obtain ⟨n', hn', hlt⟩ := hg n₁ h₁
      refine ⟨n₁, n', h₁, hn', hlt, n' :: ns, .cons hn' h, ?_⟩
      simp only [List.sum_cons]
      omega
    | succ i =>
      obtain ⟨n, n', hn, hn', hlt, ns', hns', hsum⟩ := ih hi
      refine ⟨n, n', hn, hn', hlt, n₁ :: ns', .cons h₁ hns', ?_⟩
      simp only [List.sum_cons]
      omega

lemma Parallel.rank_leave {n : ℕ} {ns : List ℕ}
    (hns : List.Forall₂ (Goroutine.Rank model computeInfo) c'.goroutines ns)
    (hlt : ns.sum + c'.results.length + 1 < n) :
    ∃ n' < n, (c'.leave computeInfo).Rank model computeInfo n' := by
  refine ⟨_, ?_, ns, hns, rfl⟩
  cases computeInfo <;> simp only [Parallel.leave, Phase.rank] <;> simp <;> omega

lemma Parallel.Moves.rank (hm : c.Moves model computeInfo hasTimeout c') {n : ℕ}
    (hr : c.Rank model computeInfo n) : ∃ n' < n, c'.Rank model computeInfo n' := by
  obtain ⟨ns, hns, rfl⟩ := hr
  cases hm with
  | @goesOn i s s' hi h =>
    obtain ⟨n, n', -, -, hlt, ns', hns', hsum⟩ :=
      forall₂_rank_set (.searching s') hns hi fun n hn => (hn.goesOn h).imp fun _ => And.symm
    exact ⟨_, by simp only; omega, ns', hns', rfl⟩
  | @returns i s ok longest hi h =>
    obtain ⟨n, n', -, -, hlt, ns', hns', hsum⟩ :=
      forall₂_rank_set (.returned ok longest) hns hi fun n hn => by
        cases hn
        exact ⟨2, .returned, by omega⟩
    exact ⟨_, by simp only; omega, ns', hns', rfl⟩
  | @send i ok longest hi =>
    obtain ⟨n, n', hn, hn', hlt, ns', hns', hsum⟩ :=
      forall₂_rank_set (.sent ok longest) hns hi fun n hn => by
        cases hn
        exact ⟨0, .sent, by omega⟩
    cases hn
    cases hn'
    exact ⟨_, by simp only [List.length_append, List.length_singleton]; omega, ns', hns', rfl⟩
  | receive hp hr _ _ => exact ⟨_, by simp only [hr, List.length_cons]; omega, ns, hns, rfl⟩
  | last hp hr _ _ =>
    exact rank_leave hns (by simp only [hr, hp, List.length_cons, Phase.rank]; omega)
  | stop hp hr _ _ =>
    exact rank_leave hns (by simp only [hr, hp, List.length_cons, Phase.rank]; omega)
  | timeout hp _ => exact rank_leave hns (by simp only [hp, Phase.rank]; omega)
  | drain hp hr _ => exact ⟨_, by simp only [hr, List.length_cons]; omega, ns, hns, rfl⟩
  | finish hp _ => exact ⟨_, by simp only [hp, Phase.rank]; omega, ns, hns, rfl⟩

lemma Parallel.exists_start (hE : model.Lawful) (hw : ∀ h ∈ history, WellFormed h)
    (computeInfo : Bool) :
    ∃ c n, Parallel.start model history = some c ∧ c.Rank model computeInfo n := by
  have hall : ∀ h ∈ history, ∃ s k, Search.start model h = some s ∧
      (s.loop model computeInfo k).isSome := by
    intro h hh
    obtain ⟨s, heap, head, addrs, hs, hset, hr⟩ :=
      Porcupine.exists_start model (hw h hh) computeInfo
    obtain ⟨N, r, hloop, -⟩ := hr.loop hset (hw h hh).complete hE SearchSpace.inv_initial
    exact ⟨s, N, hs, by simp [hloop N le_rfl]⟩
  have hsearches : ∃ searches ks, history.mapM (Search.start model) = some searches ∧
      List.Forall₂ (Goroutine.Rank model computeInfo) (searches.map .searching) ks := by
    clear hw
    induction history with
    | nil => exact ⟨[], [], rfl, .nil⟩
    | cons h history ih =>
      obtain ⟨s, k, hs, hk⟩ := hall h List.mem_cons_self
      obtain ⟨searches, ks, hm, hks⟩ := ih fun h hh => hall h (List.mem_cons_of_mem _ hh)
      refine ⟨s :: searches, (k + 3) :: ks, ?_, .cons (.searching hk) hks⟩
      rw [List.mapM_cons, hs, hm]
      rfl
  obtain ⟨searches, ks, hm, hks⟩ := hsearches
  exact ⟨_, _, by rw [Parallel.start, hm, Option.map_some], ks, hks, rfl⟩

/-- A goroutine that has not sent its result can take a step. -/
lemma Parallel.Inv.exists_step (hE : model.Lawful) (hw : ∀ h ∈ history, WellFormed h)
    (hinv : c.Inv model computeInfo history) {g : Goroutine I O S} (hg : g ∈ c.goroutines)
    (hsent : g.sent? = none) : ∃ a, (c.step model computeInfo hasTimeout a).isSome := by
  obtain ⟨i, hi⟩ := List.mem_iff_getElem?.mp hg
  cases g with
  | searching s =>
    obtain ⟨h, hh, hv, -⟩ := forall₂_set hinv.valid hi
    obtain ⟨r, hcode, -⟩ := hv.iterate hE (hw h hh)
    exact ⟨.iterate i, by cases r <;> simp [step, hi, hcode]⟩
  | returned ok longest => exact ⟨.send i, by simp [step, hi]⟩
  | sent => cases hsent

/-- When all goroutines have sent their results, those not received are in the channel. -/
lemma Parallel.Inv.exists_result (hinv : c.Inv model computeInfo history)
    (hsent : ∀ g ∈ c.goroutines, g.sent? ≠ none) (hlt : c.count < c.goroutines.length) :
    ∃ r rs, c.results = r :: rs := by
  obtain ⟨received, hlen, hperm, -⟩ := hinv.received
  have hall : (c.goroutines.filterMap Goroutine.sent?).length = c.goroutines.length :=
    List.filterMap_length_eq_length.mpr fun g hg => Option.isSome_iff_ne_none.mpr (hsent g hg)
  have hlen' := hperm.length_eq
  rw [List.length_append] at hlen'
  cases hr : c.results with
  | nil =>
    rw [hr, List.length_nil] at hlen'
    omega
  | cons r rs => exact ⟨r, rs, rfl⟩

/-- A step is possible, unless there are no goroutines to wait for. -/
lemma Parallel.Inv.exists_step_iff (hE : model.Lawful) (hw : ∀ h ∈ history, WellFormed h)
    (hinv : c.Inv model computeInfo history) :
    (c.phase = .selecting → ((∃ a, (c.step model computeInfo hasTimeout a).isSome) ↔
      history ≠ [] ∨ hasTimeout = true)) ∧
      (c.phase = .draining → ∃ a, (c.step model computeInfo hasTimeout a).isSome) := by
  have hlen := hinv.valid.length_eq
  by_cases hsent : ∀ g ∈ c.goroutines, g.sent? ≠ none
  · refine ⟨fun hp => ?_, fun hp => ?_⟩
    · constructor
      · rintro ⟨a, ha⟩
        obtain ⟨c', hc'⟩ := Option.isSome_iff_exists.mp ha
        rw [or_iff_not_imp_left, not_not]
        rintro rfl
        have hnil : c.goroutines = [] := List.length_eq_zero_iff.mp hlen.symm
        have hres : c.results = [] := by
          obtain ⟨received, -, hperm, -⟩ := hinv.received
          rw [hnil, List.filterMap_nil, List.perm_nil, List.append_eq_nil_iff] at hperm
          exact hperm.2
        cases moves_of_step hc' with
        | timeout _ ht => exact ht
        | goesOn hi _ => simp [hnil] at hi
        | returns hi _ => simp [hnil] at hi
        | send hi => simp [hnil] at hi
        | receive _ hr _ _ => cases hres.symm.trans hr
        | last _ hr _ _ => cases hres.symm.trans hr
        | stop _ hr _ _ => cases hres.symm.trans hr
        | drain hd _ _ => cases hp.symm.trans hd
        | finish hd _ => cases hp.symm.trans hd
      · rintro (hne | ht)
        · have hlt := (hinv.selecting hp).2.2.resolve_right fun hnil => hne (by
            rw [hnil] at hlen
            exact List.length_eq_zero_iff.mp hlen)
          obtain ⟨r, rs, hr⟩ := hinv.exists_result hsent hlt
          refine ⟨.receive, ?_⟩
          simp only [step, hp, hr]
          split_ifs <;> rfl
        · exact ⟨.timeout, by simp [step, hp, ht]⟩
    · by_cases hlt : c.count < c.goroutines.length
      · obtain ⟨r, rs, hr⟩ := hinv.exists_result hsent hlt
        exact ⟨.drain, by simp [step, hp, hr, hlt]⟩
      · exact ⟨.finish, by simp [step, hp, not_lt.mp hlt]⟩
  · push Not at hsent
    obtain ⟨g, hg, hnone⟩ := hsent
    have hne : history ≠ [] := by
      rintro rfl
      simp [List.length_eq_zero_iff.mp hlen.symm] at hg
    have hstep : ∃ a, (c.step model computeInfo hasTimeout a).isSome :=
      hinv.exists_step hE hw hg hnone
    exact ⟨fun _ => iff_of_true hstep (.inl hne), fun _ => hstep⟩

lemma exists_next_iff :
    (∃ a c', (checkParallel model history computeInfo hasTimeout).next c a c') ↔
      ∃ a, (c.step model computeInfo hasTimeout a).isSome := by
  simp only [checkParallel, Option.isSome_iff_exists]

/-- `checkParallel` ends: it starts, the number of steps is bounded whatever their order, and until
it has returned a step is possible. The one exception is that there are no partitions: then it waits
for the timeout, and for ever if there is none. -/
theorem checkParallel_ends (hE : model.Lawful) (hw : ∀ h ∈ history, WellFormed h)
    (computeInfo hasTimeout : Bool) :
    (∃ c, (checkParallel model history computeInfo hasTimeout).init c) ∧
      (∃ B, ∀ l, (checkParallel model history computeInfo hasTimeout).Run Machine.Any l →
        l.length ≤ B) ∧
      ∀ c, (checkParallel model history computeInfo hasTimeout).Reachable c →
        (c.phase = .selecting →
          ((∃ a c', (checkParallel model history computeInfo hasTimeout).next c a c') ↔
            history ≠ [] ∨ hasTimeout = true)) ∧
        (c.phase = .draining →
          ∃ a c', (checkParallel model history computeInfo hasTimeout).next c a c') := by
  obtain ⟨c₀, n₀, hstart, hrank⟩ := Parallel.exists_start hE hw computeInfo
  refine ⟨⟨c₀, hstart⟩, ⟨n₀ + 1, fun l hl => ?_⟩, fun c hc => ?_⟩
  · have hbound : ∃ c past n, l = c :: past ∧ c.Rank model computeInfo n ∧
        n + l.length ≤ n₀ + 1 := by
      refine Machine.Run.history (I := fun l => ∃ c past n, l = c :: past ∧
        c.Rank model computeInfo n ∧ n + l.length ≤ n₀ + 1) ?_ ?_ hl
      · intro c hc
        cases hstart.symm.trans hc
        exact ⟨c₀, [], n₀, rfl, hrank, le_rfl⟩
      · rintro c past a c' - ⟨_, _, n, ⟨⟩, hn, hle⟩ - hnext
        obtain ⟨n', hlt, hn'⟩ := (Parallel.moves_of_step hnext).rank hn
        exact ⟨c', c :: past, n', rfl, hn', by simp only [List.length_cons] at hle ⊢; omega⟩
    obtain ⟨-, -, n, -, -, hle⟩ := hbound
    omega
  · simp only [exists_next_iff]
    exact (Parallel.inv_of_reachable hE hw hc).exists_step_iff hE hw

/-- The check of the two partitions takes a bounded number of steps. -/
theorem checkParallel_pair_ends :
    ∃ B, ∀ l, (checkParallel (fillDefault counterModel) [overlapping, stale] true true).Run
      Machine.Any l → l.length ≤ B :=
  (checkParallel_ends (lawful_shallowEqual rfl) wellFormed_pair true true).2.1

end Porcupine

end DistLabs
