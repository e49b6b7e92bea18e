import DistLabs.KvSrv.Server
import DistLabs.Lib.Linearizability

/-!
# Clerks

Any number of clerks that call the server over a network that loses requests and replies. As long
as ids are distinct and `Call` does not return false while its handler is running, the service
refines the atomic object of the register model: an operation is taken when its update runs, which
happens once, since every later delivery finds the reply in the cache until the clerk has it.
-/

namespace DistLabs

/-! ### The register model -/

structure KvInput where
  op : UInt8
  key : String
  value : String := ""
  deriving DecidableEq

structure KvOutput where
  value : String := ""
  deriving DecidableEq

/-- The model of one key: 0 is get, 1 is put, 2 is append, and the rest append and return the old
value. -/
def KvModel.step (st : String) (inp : KvInput) (out : KvOutput) : Bool × String :=
  if inp.op = 0 then (out.value == st, st)
  else if inp.op = 1 then (true, inp.value)
  else if inp.op = 2 then (true, st ++ inp.value)
  else (out.value == st, st ++ inp.value)

/-- The model of all keys. -/
def kvModel : Model KvInput KvOutput (String → String) where
  init _ := ""
  step st inp out :=
    let (ok, v) := KvModel.step (st inp.key) inp out
    (ok, Function.update st inp.key v)

namespace KvSrv

/-- The input of the model for a request, as the tests record it. -/
def Request.input (req : Request) : KvInput :=
  match req.op with
  | .get => { op := 0, key := req.key }
  | .put => { op := 1, key := req.key, value := req.value }
  | .append => { op := 3, key := req.key, value := req.value }

/-- What the clerk returns when the reply is `v`; `Put` returns nothing. -/
def Request.output (req : Request) (v : String) : KvOutput :=
  match req.op with
  | .put => {}
  | _ => ⟨v⟩

/-- An update does what the model says. -/
lemma KVServer.step_modifyFunc (kv : KVServer) (req : Request) :
    kvModel.step kv.kvPair req.input (req.output (kv.modifyFunc req).2) =
      (true, (kv.modifyFunc req).1.kvPair) := by
  obtain ⟨op, id, key, value⟩ := req
  cases op <;> simp [kvModel, KvModel.step, Request.input, Request.output, modifyFunc, getFunc,
    putFunc, appendFunc, store]

/-! ### The system -/

/-- The methods of a clerk. -/
inductive Invocation where
  | Get (key : String)
  | Put (key value : String)
  | Append (key value : String)

/-- The arguments that are sent, with the id that `nrand` gives. -/
def Invocation.request (id : ℕ) : Invocation → Request
  | Get key => ⟨.get, id, key, ""⟩
  | Put key value => ⟨.put, id, key, value⟩
  | Append key value => ⟨.append, id, key, value⟩

/-- A clerk is in the loop that calls the handler, with the number of the delivery if the request
of its present `Call` has arrived, or in the loop that calls `Done`, having got `v`; `ran` says that
the handler of its present `Call` has run. -/
inductive Clerk where
  | idle
  | calling (req : Request) (k : Option ℕ)
  | finishing (req : Request) (v : String) (ran : Bool)

/-- The system; `history` records calls, updates and returns. -/
structure System where
  service : Service
  clerks : ℕ → Clerk
  history : List (Event ℕ KvInput KvOutput)

inductive SystemAction where
  | invoke (c : ℕ) (inv : Invocation) (id : ℕ)
  | send (c : ℕ)
  | fail (c : ℕ)
  | succeed (c : ℕ)
  | load (k : ℕ)
  | modify (k : ℕ)
  | sendDone (c : ℕ)
  | failDone (c : ℕ)
  | complete (c : ℕ)

namespace System

def initial : System where
  service := { kv := StartKVServer }
  clerks _ := .idle
  history := []

def setClerk (C : System) (c : ℕ) (x : Clerk) : System :=
  { C with clerks := Function.update C.clerks c x }

def step (C : System) : SystemAction → Option System
  | .invoke c inv id =>
    match C.clerks c with
    | .idle =>
      let req := inv.request id
      some
        { C.setClerk c (.calling req none) with history := C.history ++ [.call id req.input] }
    | _ => none
  -- the request arrives
  | .send c =>
    match C.clerks c with
    | .calling req none =>
      some
        { C.setClerk c (.calling req (some C.service.deliveries.length)) with
          service := C.service.deliver req }
    | _ => none
  -- `Call` returns false
  | .fail c =>
    match C.clerks c with
    | .calling req _ => some (C.setClerk c (.calling req none))
    | _ => none
  -- `Call` returns true
  | .succeed c =>
    match C.clerks c with
    | .calling req (some k) =>
      match C.service.deliveries[k]? with
      | some ⟨_, .replied v⟩ => some (C.setClerk c (.finishing req v false))
      | _ => none
    | _ => none
  | .load k =>
    match C.service.load k with
    | some S => some { C with service := S }
    | none => none
  | .modify k =>
    match C.service.deliveries[k]?, C.service.modify k with
    | some ⟨req, _⟩, some S =>
      some
        { C with
          service := S
          history := C.history ++
            [.effect req.id req.input (req.output (C.service.kv.modifyFunc req).2)] }
    | _, _ => none
  | .sendDone c =>
    match C.clerks c with
    | .finishing req v false =>
      some { C.setClerk c (.finishing req v true) with service := C.service.done req.id }
    | _ => none
  | .failDone c =>
    match C.clerks c with
    | .finishing req v _ => some (C.setClerk c (.finishing req v false))
    | _ => none
  -- the last `Call` returns true, and the clerk returns
  | .complete c =>
    match C.clerks c with
    | .finishing req v true =>
      some { C.setClerk c .idle with history := C.history ++ [.ret req.id (req.output v)] }
    | _ => none

/-- What a step can do. -/
inductive Moves (C : System) : SystemAction → System → Prop
  | invoke {c id : ℕ} {inv : Invocation} (hc : C.clerks c = .idle) :
      Moves C (.invoke c inv id)
        { C.setClerk c (.calling (inv.request id) none) with
          history := C.history ++ [.call id (inv.request id).input] }
  | send {c : ℕ} {req : Request} (hc : C.clerks c = .calling req none) :
      Moves C (.send c)
        { C.setClerk c (.calling req (some C.service.deliveries.length)) with
          service := C.service.deliver req }
  | fail {c : ℕ} {req : Request} {k : Option ℕ} (hc : C.clerks c = .calling req k) :
      Moves C (.fail c) (C.setClerk c (.calling req none))
  | succeed {c k : ℕ} {req req' : Request} {v : String}
      (hc : C.clerks c = .calling req (some k))
      (hk : C.service.deliveries[k]? = some ⟨req', .replied v⟩) :
      Moves C (.succeed c) (C.setClerk c (.finishing req v false))
  | load {k : ℕ} {S : Service} (hS : C.service.Moves (.load k) S) :
      Moves C (.load k) { C with service := S }
  | modify {k : ℕ} {req : Request} (hk : C.service.deliveries[k]? = some ⟨req, .missed⟩) :
      Moves C (.modify k)
        { C with
          service :=
            { C.service with
              kv := (C.service.kv.modifyFunc req).1
              deliveries := C.service.deliveries.set k
                ⟨req, .replied (C.service.kv.modifyFunc req).2⟩
              updates := C.service.updates ++ [req] }
          history := C.history ++
            [.effect req.id req.input (req.output (C.service.kv.modifyFunc req).2)] }
  | sendDone {c : ℕ} {req : Request} {v : String} (hc : C.clerks c = .finishing req v false) :
      Moves C (.sendDone c)
        { C.setClerk c (.finishing req v true) with service := C.service.done req.id }
  | failDone {c : ℕ} {req : Request} {v : String} {ran : Bool}
      (hc : C.clerks c = .finishing req v ran) :
      Moves C (.failDone c) (C.setClerk c (.finishing req v false))
  | complete {c : ℕ} {req : Request} {v : String} (hc : C.clerks c = .finishing req v true) :
      Moves C (.complete c)
        { C.setClerk c .idle with history := C.history ++ [.ret req.id (req.output v)] }

lemma moves_of_step {C C' : System} {a : SystemAction} (h : C.step a = some C') :
    C.Moves a C' := by
  cases a with
  | load k =>
    simp only [step] at h
    split at h <;> cases h
    rename_i S hS
    exact .load (Service.moves_of_step hS)
  | modify k =>
    simp only [step] at h
    split at h
    · rename_i req pc S hk hS
      cases h
      cases Service.moves_of_step (a := .modify k) hS with
      | modify hk' =>
        cases hk.symm.trans hk'
        exact .modify hk'
    · cases h
  | succeed c =>
    simp only [step] at h
    split at h
    · rename_i req k hc
      split at h <;> cases h
      rename_i hk
      exact .succeed hc hk
    · cases h
  | invoke | send | fail | sendDone | failDone | complete =>
    simp only [step] at h
    split at h <;> cases h
    constructor
    assumption

end System

/-- Clerks and server. -/
def kvsrv : Machine System SystemAction := .ofStep .initial System.step

/-- The condition on a step: a new id has not been used, and when `Call` returns false its handler
has not run or has run to completion. -/
def Settles (C : System) : SystemAction → Prop
  | .invoke _ _ id => ∀ i, .call id i ∉ C.history
  | .fail c => ∀ req k d, C.clerks c = .calling req (some k) → C.service.deliveries[k]? = some d →
      ∃ v, d.pc = .replied v
  | _ => True

end KvSrv

end DistLabs
