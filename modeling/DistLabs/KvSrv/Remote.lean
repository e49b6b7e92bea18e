import DistLabs.KvSrv.Atomicity
import DistLabs.LabRpc.Delivery

/-!
# The server over the network

The clerks of the tests call the server over `labrpc`. Their ends stay enabled and the server is not
deleted as long as they use it, so that a call that returns false has not started its handler or the
handler has ended, and the system behaves like the one of clerks and server alone.
-/

namespace DistLabs

namespace KvSrv

open LabRpc (Network Server Call CallAction)

/-! ### Clerks, network and server -/

/-- `GetArgs`, `PutAppendArgs` and `DoneArgs`. -/
inductive Args where
  | op (req : Request)
  | done (id : ℕ)

def Op.method : Op → String
  | .get => "Get"
  | .put => "Put"
  | .append => "Append"

def Args.svcMeth : Args → String
  | .op req => "KVServer." ++ req.op.method
  | .done _ => "KVServer.Done"

/-- The server with the service of `KVServer`. -/
def kvService : Server :=
  Server.AddService {} "KVServer" fun method => ["Get", "Done", "Put", "Append"].contains method

/-- A clerk with the number of its present `Call`. -/
inductive RemoteClerk where
  | absent
  | idle
  | calling (req : Request) (call : Option ℕ)
  | finishing (req : Request) (v : String) (call : Option ℕ)

/-- The system; `slots` has the delivery that a call has become, and `cleared` says whether the
handler of a call of `Done` has run. -/
structure Remote where
  net : Network ℕ ℕ Args String
  service : Service
  slots : ℕ → Option ℕ
  cleared : ℕ → Bool
  clerks : ℕ → RemoteClerk
  history : List (Event ℕ KvInput KvOutput)

inductive RemoteAction where
  | Reliable (yes : Bool)
  | makeClient (c : ℕ)
  | deleteClient (c : ℕ)
  | invoke (c : ℕ) (inv : Invocation) (id : ℕ)
  | Call (c : ℕ)
  | act (k : ℕ) (a : CallAction String)
  | dispatch (k : ℕ)
  | load (j : ℕ)
  | modify (j : ℕ)
  | done (k : ℕ)
  | return_ (k : ℕ)
  | resume (c : ℕ)

/-- The network of `make_config`, with the server. -/
def makeConfig : Network ℕ ℕ Args String :=
  { Network.MakeNetwork with
    objects := [kvService]
    servers := Function.update (fun _ => none) 0 (some 0) }

namespace Remote

def initial : Remote where
  net := makeConfig
  service := { kv := StartKVServer }
  slots _ := none
  cleared _ := false
  clerks _ := .absent
  history := []

def setClerk (D : Remote) (c : ℕ) (x : RemoteClerk) : Remote :=
  { D with clerks := Function.update D.clerks c x }

/-- What the present `Call` of a clerk has returned. -/
def result? (D : Remote) (k : ℕ) : Option (Option String) :=
  match D.net.calls[k]? with
  | some x => x.result
  | none => none

/-- The request of the next `Call` of a clerk. -/
def sendArgs (D : Remote) (c : ℕ) (args : Args) : Option (Network ℕ ℕ Args String) :=
  D.net.step (.Call ⟨c, args.svcMeth, args⟩)

def step (D : Remote) : RemoteAction → Option Remote
  | .Reliable yes => (D.net.step (.Reliable yes)).map fun net => { D with net := net }
  | .makeClient c =>
    match D.clerks c with
    | .absent =>
      match D.net.step (.MakeEnd c) with
      | some net =>
        match net.step (.Connect c 0) with
        | some net =>
          (net.step (.Enable c true)).map fun net => { D.setClerk c .idle with net := net }
        | none => none
      | none => none
    | _ => none
  | .deleteClient c =>
    match D.clerks c with
    | .idle => (D.net.step (.DeleteEnd c)).map fun net => { D.setClerk c .absent with net := net }
    | _ => none
  | .invoke c inv id =>
    match D.clerks c with
    | .idle =>
      let req := inv.request id
      some { D.setClerk c (.calling req none) with history := D.history ++ [.call id req.input] }
    | _ => none
  | .Call c =>
    match D.clerks c with
    | .calling req none =>
      (D.sendArgs c (.op req)).map fun net =>
        { D.setClerk c (.calling req (some D.net.calls.length)) with net := net }
    | .finishing req v none =>
      (D.sendArgs c (.done req.id)).map fun net =>
        { D.setClerk c (.finishing req v (some D.net.calls.length)) with net := net }
    | _ => none
  -- the goroutines of the network
  | .act k a =>
    match a with
    | .dispatch => none
    | .return_ _ => none
    | a => (D.net.step (.act k a)).map fun net => { D with net := net }
  | .dispatch k =>
    match D.net.calls[k]? with
    | some x =>
      (D.net.step (.act k .dispatch)).map fun net =>
        match x.req.args with
        | .op req =>
          { D with
            net := net
            service := D.service.deliver req
            slots := Function.update D.slots k (some D.service.deliveries.length) }
        | .done _ => { D with net := net }
    | none => none
  | .load j => (D.service.load j).map fun S => { D with service := S }
  | .modify j =>
    match D.service.deliveries[j]?, D.service.modify j with
    | some ⟨req, _⟩, some S =>
      some
        { D with
          service := S
          history := D.history ++
            [.effect req.id req.input (req.output (D.service.kv.modifyFunc req).2)] }
    | _, _ => none
  | .done k =>
    match D.net.calls[k]?, D.cleared k with
    | some ⟨⟨_, _, .done id⟩, _, _, .running, _⟩, false =>
      some
        { D with
          service := D.service.done id
          cleared := Function.update D.cleared k true }
    | _, _ => none
  | .return_ k =>
    match D.slots k, D.cleared k with
    | some j, _ =>
      match D.service.deliveries[j]? with
      | some ⟨_, .replied v⟩ =>
        (D.net.step (.act k (.return_ v))).map fun net => { D with net := net }
      | _ => none
    | none, true => (D.net.step (.act k (.return_ ""))).map fun net => { D with net := net }
    | none, false => none
  -- `Call` has returned
  | .resume c =>
    match D.clerks c with
    | .calling req (some k) =>
      match D.result? k with
      | some (some v) => some (D.setClerk c (.finishing req v none))
      | some none => some (D.setClerk c (.calling req none))
      | none => none
    | .finishing req v (some k) =>
      match D.result? k with
      | some (some _) =>
        some { D.setClerk c .idle with history := D.history ++ [.ret req.id (req.output v)] }
      | some none => some (D.setClerk c (.finishing req v none))
      | none => none
    | _ => none

/-- What a step can do. -/
inductive Moves (D : Remote) : RemoteAction → Remote → Prop
  | Reliable {yes : Bool} {net : Network ℕ ℕ Args String}
      (hn : D.net.step (.Reliable yes) = some net) : Moves D (.Reliable yes) { D with net := net }
  | makeClient {c : ℕ} {net₁ net₂ net : Network ℕ ℕ Args String} (hc : D.clerks c = .absent)
      (hmake : D.net.step (.MakeEnd c) = some net₁)
      (hconnect : net₁.step (.Connect c 0) = some net₂)
      (henable : net₂.step (.Enable c true) = some net) :
      Moves D (.makeClient c) { D.setClerk c .idle with net := net }
  | deleteClient {c : ℕ} {net : Network ℕ ℕ Args String} (hc : D.clerks c = .idle)
      (hn : D.net.step (.DeleteEnd c) = some net) :
      Moves D (.deleteClient c) { D.setClerk c .absent with net := net }
  | invoke {c id : ℕ} {inv : Invocation} (hc : D.clerks c = .idle) :
      Moves D (.invoke c inv id)
        { D.setClerk c (.calling (inv.request id) none) with
          history := D.history ++ [.call id (inv.request id).input] }
  | call {c : ℕ} {req : Request} {net : Network ℕ ℕ Args String}
      (hc : D.clerks c = .calling req none) (hn : D.sendArgs c (.op req) = some net) :
      Moves D (.Call c) { D.setClerk c (.calling req (some D.net.calls.length)) with net := net }
  | callDone {c : ℕ} {req : Request} {v : String} {net : Network ℕ ℕ Args String}
      (hc : D.clerks c = .finishing req v none) (hn : D.sendArgs c (.done req.id) = some net) :
      Moves D (.Call c)
        { D.setClerk c (.finishing req v (some D.net.calls.length)) with net := net }
  | act {k : ℕ} {a : CallAction String} {net : Network ℕ ℕ Args String} (hd : a ≠ .dispatch)
      (hr : ∀ r, a ≠ .return_ r) (hn : D.net.step (.act k a) = some net) :
      Moves D (.act k a) { D with net := net }
  | dispatch {k : ℕ} {x : Call ℕ ℕ Args String} {req : Request} {net : Network ℕ ℕ Args String}
      (hk : D.net.calls[k]? = some x) (hreq : x.req.args = .op req)
      (hn : D.net.step (.act k .dispatch) = some net) :
      Moves D (.dispatch k)
        { D with
          net := net
          service := D.service.deliver req
          slots := Function.update D.slots k (some D.service.deliveries.length) }
  | dispatchDone {k id : ℕ} {x : Call ℕ ℕ Args String} {net : Network ℕ ℕ Args String}
      (hk : D.net.calls[k]? = some x) (hreq : x.req.args = .done id)
      (hn : D.net.step (.act k .dispatch) = some net) : Moves D (.dispatch k) { D with net := net }
  | load {j : ℕ} {S : Service} (hS : D.service.load j = some S) :
      Moves D (.load j) { D with service := S }
  | modify {j : ℕ} {req : Request} {pc : Pc} {S : Service}
      (hj : D.service.deliveries[j]? = some ⟨req, pc⟩) (hS : D.service.modify j = some S) :
      Moves D (.modify j)
        { D with
          service := S
          history := D.history ++
            [.effect req.id req.input (req.output (D.service.kv.modifyFunc req).2)] }
  | done {k id : ℕ} {x : Call ℕ ℕ Args String} (hk : D.net.calls[k]? = some x)
      (hreq : x.req.args = .done id) (ht : x.thread = .running) (hc : D.cleared k = false) :
      Moves D (.done k)
        { D with
          service := D.service.done id
          cleared := Function.update D.cleared k true }
  | return_ {k j : ℕ} {req : Request} {v : String} {net : Network ℕ ℕ Args String}
      (hk : D.slots k = some j) (hj : D.service.deliveries[j]? = some ⟨req, .replied v⟩)
      (hn : D.net.step (.act k (.return_ v)) = some net) :
      Moves D (.return_ k) { D with net := net }
  | returnDone {k : ℕ} {net : Network ℕ ℕ Args String} (hk : D.slots k = none)
      (hc : D.cleared k = true) (hn : D.net.step (.act k (.return_ "")) = some net) :
      Moves D (.return_ k) { D with net := net }
  | succeed {c k : ℕ} {req : Request} {v : String} (hc : D.clerks c = .calling req (some k))
      (hr : D.result? k = some (some v)) :
      Moves D (.resume c) (D.setClerk c (.finishing req v none))
  | fail {c k : ℕ} {req : Request} (hc : D.clerks c = .calling req (some k))
      (hr : D.result? k = some none) : Moves D (.resume c) (D.setClerk c (.calling req none))
  | complete {c k : ℕ} {req : Request} {v w : String}
      (hc : D.clerks c = .finishing req v (some k)) (hr : D.result? k = some (some w)) :
      Moves D (.resume c)
        { D.setClerk c .idle with history := D.history ++ [.ret req.id (req.output v)] }
  | failDone {c k : ℕ} {req : Request} {v : String} (hc : D.clerks c = .finishing req v (some k))
      (hr : D.result? k = some none) : Moves D (.resume c) (D.setClerk c (.finishing req v none))

lemma moves_of_step {D D' : Remote} {a : RemoteAction} (h : D.step a = some D') :
    D.Moves a D' := by
  cases a with
  | Reliable yes =>
    obtain ⟨net, hn, rfl⟩ := Option.map_eq_some_iff.mp h
    exact .Reliable hn
  | makeClient c =>
    simp only [step] at h
    split at h
    · split at h
      · split at h
        · obtain ⟨net, hn, rfl⟩ := Option.map_eq_some_iff.mp h
          exact .makeClient ‹_› ‹_› ‹_› hn
        · cases h
      · cases h
    · cases h
  | deleteClient c =>
    simp only [step] at h
    split at h
    · obtain ⟨net, hn, rfl⟩ := Option.map_eq_some_iff.mp h
      exact .deleteClient ‹_› hn
    · cases h
  | invoke c inv id =>
    simp only [step] at h
    split at h <;> cases h
    exact .invoke ‹_›
  | Call c =>
    simp only [step] at h
    split at h
    · obtain ⟨net, hn, rfl⟩ := Option.map_eq_some_iff.mp h
      exact .call ‹_› hn
    · obtain ⟨net, hn, rfl⟩ := Option.map_eq_some_iff.mp h
      exact .callDone ‹_› hn
    · cases h
  | act k a =>
    simp only [step] at h
    split at h
    · cases h
    · cases h
    · rename_i hd hr
      obtain ⟨net, hn, rfl⟩ := Option.map_eq_some_iff.mp h
      exact .act hd hr hn
  | dispatch k =>
    simp only [step] at h
    split at h
    · obtain ⟨net, hn, rfl⟩ := Option.map_eq_some_iff.mp h
      split
      · exact .dispatch ‹_› ‹_› hn
      · exact .dispatchDone ‹_› ‹_› hn
    · cases h
  | load j =>
    obtain ⟨S, hS, rfl⟩ := Option.map_eq_some_iff.mp h
    exact .load hS
  | modify j =>
    simp only [step] at h
    split at h <;> cases h
    exact .modify ‹_› ‹_›
  | done k =>
    simp only [step] at h
    split at h <;> cases h
    rename_i hk hc
    exact .done hk rfl rfl hc
  | return_ k =>
    simp only [step] at h
    split at h
    · split at h
      · obtain ⟨net, hn, rfl⟩ := Option.map_eq_some_iff.mp h
        exact .return_ ‹_› ‹_› hn
      · cases h
    · obtain ⟨net, hn, rfl⟩ := Option.map_eq_some_iff.mp h
      exact .returnDone ‹_› ‹_› hn
    · cases h
  | resume c =>
    simp only [step] at h
    split at h
    · split at h <;> cases h
      · exact .succeed ‹_› ‹_›
      · exact .fail ‹_› ‹_›
    · split at h <;> cases h
      · exact .complete ‹_› ‹_›
      · exact .failDone ‹_› ‹_›
    · cases h

end Remote

/-- Clerks and server over the network. -/
def remote : Machine Remote RemoteAction := .ofStep .initial Remote.step

end KvSrv

end DistLabs
