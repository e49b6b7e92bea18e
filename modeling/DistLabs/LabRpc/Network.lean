import DistLabs.Lib.Machine
import Mathlib.Data.Nat.Notation
import Mathlib.Logic.Function.Basic
import Mathlib.Order.Basic

/-!
# The simulated network

`labrpc` carries requests from client ends to servers. Every `Call` has a goroutine that looks up
where its end is connected to, starts the handler in another goroutine, and waits for it as long as
the server is the registered one and the end is enabled. The network may lose the request or the
reply, and the tester changes its tables at any time.

Names of ends and servers, arguments and replies are of any type. The times a message is held up for
are not modelled: steps may come in any order. What a handler does is left to the server; it is only
said when it has returned and what.
-/

namespace DistLabs

namespace LabRpc

/-! ### Servers -/

/-- The methods of the services, by name, and the number of incoming calls. -/
structure Server where
  services : String → Option (String → Bool) := fun _ => none
  count : BitVec 64 := 0

def Server.AddService (rs : Server) (name : String) (methods : String → Bool) : Server :=
  { rs with services := Function.update rs.services name (some methods) }

/-- Service and method of a name such as `Raft.AppendEntries`, split at the last dot. -/
def splitMeth (svcMeth : String) : Option (String × String) :=
  match svcMeth.toList.reverse.dropWhile (· ≠ '.') with
  | _ :: service =>
    some (.ofList service.reverse, .ofList (svcMeth.toList.reverse.takeWhile (· ≠ '.')).reverse)
  | [] => none

/-- Whether `dispatch` finds a handler; if not, it ends the program. -/
def Server.handles (rs : Server) (svcMeth : String) : Bool :=
  match splitMeth svcMeth with
  | some (serviceName, methodName) =>
    match rs.services serviceName with
    | some methods => methods methodName
    | none => false
  | none => false

/-! ### Calls -/

structure ReqMsg (E A : Type) where
  endname : E
  svcMeth : String
  args : A

/-- What `processReq` has read about an end that is enabled and connected to a server. -/
structure Route (N : Type) where
  servername : N
  server : ℕ
  reliable : Bool

/-- How far a request has got: it is in the `select` of `Call`, `processReq` has it, the network may
still drop it, the handler is waited for, the handler has answered, the server has been found dead,
the reply (nothing is `false`) is being sent, the reply has been received. -/
inductive Stage (R : Type) where
  | unsent
  | received
  | accepted
  | polling
  | answered (reply : R)
  | dead
  | replying (rep : Option R)
  | finished

/-- The goroutine that calls `dispatch` and gives the reply to `processReq`. -/
inductive Thread (R : Type) where
  | none
  | starting
  | running
  | returned (reply : R)
  | ended (reply : R)

/-- A `Call` with its goroutines; `result` is what it has returned. -/
structure Call (E N A R : Type) where
  req : ReqMsg E A
  route : Option (Route N) := none
  stage : Stage R := .unsent
  thread : Thread R := .none
  result : Option (Option R) := none

/-- A server is the number of its allocation, and `none` is `nil`. -/
structure Network (E N A R : Type) where
  reliable : Bool
  ends : E → Bool
  enabled : E → Bool
  servers : N → Option ℕ
  connections : E → Option N
  listening : Bool
  done : Bool
  count : BitVec 32
  objects : List Server
  calls : List (Call E N A R)
  crashed : Bool

/-- A step of one of the goroutines of a call. -/
inductive CallAction (R : Type) where
  | abort
  | receive
  | read
  | drop
  | spawn
  | dispatch
  | return_ (reply : R)
  | answer
  | poll
  | drain
  | conclude (lost : Bool)
  | reply

inductive Action (E N A R : Type) where
  | Reliable (yes : Bool)
  | MakeEnd (e : E)
  | DeleteEnd (e : E)
  | Connect (e : E) (n : N)
  | Enable (e : E) (enabled : Bool)
  | MakeServer (rs : Server)
  | AddServer (n : N) (rs : ℕ)
  | DeleteServer (n : N)
  | Cleanup
  | stop
  | Call (req : ReqMsg E A)
  | act (k : ℕ) (a : CallAction R)

namespace Network

variable {E N A R : Type}

def MakeNetwork : Network E N A R where
  reliable := true
  ends _ := false
  enabled _ := false
  servers _ := none
  connections _ := none
  listening := true
  done := false
  count := 0
  objects := []
  calls := []
  crashed := false

/-- `readEndnameInfo`, if the end is enabled and connected to a server. -/
def readEndnameInfo (rn : Network E N A R) (endname : E) : Option (Route N) :=
  if rn.enabled endname then
    match rn.connections endname with
    | some servername =>
      match rn.servers servername with
      | some server => some ⟨servername, server, rn.reliable⟩
      | none => none
    | none => none
  else none

def isServerDead [DecidableEq N] (rn : Network E N A R) (endname : E) (servername : N)
    (server : ℕ) : Bool :=
  !rn.enabled endname || rn.servers servername ≠ some server

/-- Whether the server of a call is dead. -/
def isDeadFor [DecidableEq N] (rn : Network E N A R) (x : Call E N A R) : Bool :=
  match x.route with
  | some route => rn.isServerDead x.req.endname route.servername route.server
  | none => true

/-- What a step does to its call. -/
def callStep [DecidableEq N] (rn : Network E N A R) (x : Call E N A R) :
    CallAction R → Option (Call E N A R)
  -- the network has been cleaned up
  | .abort =>
    match x.stage, x.result with
    | .unsent, none => if rn.done then some { x with result := some none } else none
    | _, _ => none
  | .receive =>
    match x.stage, x.result with
    | .unsent, none => if rn.listening then some { x with stage := .received } else none
    | _, _ => none
  | .read =>
    match x.stage with
    | .received =>
      match rn.readEndnameInfo x.req.endname with
      | some route => some { x with route := some route, stage := .accepted }
      | none => some { x with stage := .replying none }
    | _ => none
  -- an unreliable network drops the request
  | .drop =>
    match x.stage with
    | .accepted =>
      if x.route.all fun route => !route.reliable then some { x with stage := .replying none }
      else none
    | _ => none
  | .spawn =>
    match x.stage with
    | .accepted => some { x with stage := .polling, thread := .starting }
    | _ => none
  | .dispatch =>
    match x.thread with
    | .starting => some { x with thread := .running }
    | _ => none
  -- the handler returns
  | .return_ reply =>
    match x.thread with
    | .running => some { x with thread := .returned reply }
    | _ => none
  | .answer =>
    match x.stage, x.thread with
    | .polling, .returned reply => some { x with stage := .answered reply, thread := .ended reply }
    | _, _ => none
  -- the timer of the loop
  | .poll =>
    match x.stage with
    | .polling => if rn.isDeadFor x then some { x with stage := .dead } else some x
    | _ => none
  -- nobody waits for the reply any more
  | .drain =>
    match x.stage, x.thread with
    | .polling, _ => none
    | _, .returned reply => some { x with thread := .ended reply }
    | _, _ => none
  -- behind the loop; an unreliable network drops the reply
  | .conclude lost =>
    match x.stage with
    | .dead => some { x with stage := .replying none }
    | .answered reply =>
      if rn.isDeadFor x then some { x with stage := .replying none }
      else if lost then
        if x.route.all fun route => !route.reliable then some { x with stage := .replying none }
        else none
      else some { x with stage := .replying (some reply) }
    | _ => none
  | .reply =>
    match x.stage with
    | .replying rep => some { x with stage := .finished, result := some rep }
    | _ => none

/-- What a step of a call does to the rest of the network. -/
def callEffect (rn : Network E N A R) (x : Call E N A R) : CallAction R → Network E N A R
  | .receive => { rn with count := rn.count + 1 }
  | .dispatch =>
    match x.route with
    | some route =>
      match rn.objects[route.server]? with
      | some rs =>
        { rn with
          objects := rn.objects.set route.server { rs with count := rs.count + 1 }
          crashed := !rs.handles x.req.svcMeth }
      | none => rn
    | none => rn
  | _ => rn

def setCall (rn : Network E N A R) (k : ℕ) (x : Call E N A R) : Network E N A R :=
  { rn with calls := rn.calls.set k x }

section Effect

variable (rn : Network E N A R) (x : Call E N A R) (a : CallAction R)

/-- A step of a call leaves the tables of the network and the other calls alone. -/
lemma callEffect_eq :
    ∃ count objects crashed, objects.length = rn.objects.length ∧
      rn.callEffect x a = { rn with count := count, objects := objects, crashed := crashed } := by
  unfold callEffect
  repeat' split
  all_goals exact ⟨_, _, _, by simp, rfl⟩

@[simp]
lemma calls_callEffect : (rn.callEffect x a).calls = rn.calls := by
  obtain ⟨_, _, _, -, h⟩ := rn.callEffect_eq x a
  rw [h]

@[simp]
lemma ends_callEffect : (rn.callEffect x a).ends = rn.ends := by
  obtain ⟨_, _, _, -, h⟩ := rn.callEffect_eq x a
  rw [h]

@[simp]
lemma enabled_callEffect : (rn.callEffect x a).enabled = rn.enabled := by
  obtain ⟨_, _, _, -, h⟩ := rn.callEffect_eq x a
  rw [h]

@[simp]
lemma servers_callEffect : (rn.callEffect x a).servers = rn.servers := by
  obtain ⟨_, _, _, -, h⟩ := rn.callEffect_eq x a
  rw [h]

@[simp]
lemma length_objects_callEffect : (rn.callEffect x a).objects.length = rn.objects.length := by
  obtain ⟨_, _, _, hlen, h⟩ := rn.callEffect_eq x a
  rw [h, hlen]

end Effect

variable [DecidableEq E] [DecidableEq N]

/-- A step; after a fatal error there is none. -/
def step (rn : Network E N A R) (a : Action E N A R) : Option (Network E N A R) :=
  if rn.crashed then none
  else match a with
    | .Reliable yes => some { rn with reliable := yes }
    | .MakeEnd e =>
      if rn.ends e then some { rn with crashed := true }
      else
        some
          { rn with
            ends := Function.update rn.ends e true
            enabled := Function.update rn.enabled e false
            connections := Function.update rn.connections e none }
    | .DeleteEnd e =>
      if rn.ends e then
        some
          { rn with
            ends := Function.update rn.ends e false
            enabled := Function.update rn.enabled e false
            connections := Function.update rn.connections e none }
      else some { rn with crashed := true }
    | .Connect e n => some { rn with connections := Function.update rn.connections e (some n) }
    | .Enable e enabled => some { rn with enabled := Function.update rn.enabled e enabled }
    | .MakeServer rs => some { rn with objects := rn.objects ++ [{ rs with count := 0 }] }
    | .AddServer n rs =>
      if rs < rn.objects.length then
        some { rn with servers := Function.update rn.servers n (some rs) }
      else none
    | .DeleteServer n => some { rn with servers := Function.update rn.servers n none }
    | .Cleanup => some { rn with done := true, crashed := rn.done }
    | .stop => if rn.listening && rn.done then some { rn with listening := false } else none
    | .Call req => some { rn with calls := rn.calls ++ [{ req := req }] }
    | .act k a =>
      match rn.calls[k]? with
      | some x =>
        (rn.callStep x a).map fun x' => (rn.callEffect x a).setCall k x'
      | none => none

def GetCount (rn : Network E N A R) (servername : N) : Option (BitVec 64) :=
  match rn.servers servername with
  | some server => rn.objects[server]?.map Server.count
  | none => none

def GetTotalCount (rn : Network E N A R) : BitVec 32 := rn.count

/-! ### What a step does -/

/-- What a step of a call does to it. -/
inductive CallMoves (rn : Network E N A R) (x : Call E N A R) :
    CallAction R → Call E N A R → Prop
  | abort (hx : x.stage = .unsent) (hr : x.result = none) (hd : rn.done = true) :
      CallMoves rn x .abort { x with result := some none }
  | receive (hx : x.stage = .unsent) (hr : x.result = none) (hl : rn.listening = true) :
      CallMoves rn x .receive { x with stage := .received }
  | accept {route : Route N} (hx : x.stage = .received)
      (hr : rn.readEndnameInfo x.req.endname = some route) :
      CallMoves rn x .read { x with route := some route, stage := .accepted }
  | refuse (hx : x.stage = .received) (hr : rn.readEndnameInfo x.req.endname = none) :
      CallMoves rn x .read { x with stage := .replying none }
  | drop (hx : x.stage = .accepted) (hr : ∀ route ∈ x.route, route.reliable = false) :
      CallMoves rn x .drop { x with stage := .replying none }
  | spawn (hx : x.stage = .accepted) :
      CallMoves rn x .spawn { x with stage := .polling, thread := .starting }
  | dispatch (hx : x.thread = .starting) : CallMoves rn x .dispatch { x with thread := .running }
  | return_ {reply : R} (hx : x.thread = .running) :
      CallMoves rn x (.return_ reply) { x with thread := .returned reply }
  | answer {reply : R} (hx : x.stage = .polling) (ht : x.thread = .returned reply) :
      CallMoves rn x .answer { x with stage := .answered reply, thread := .ended reply }
  | wait (hx : x.stage = .polling) (hd : rn.isDeadFor x = false) : CallMoves rn x .poll x
  | giveUp (hx : x.stage = .polling) (hd : rn.isDeadFor x = true) :
      CallMoves rn x .poll { x with stage := .dead }
  | drain {reply : R} (hx : x.stage ≠ .polling) (ht : x.thread = .returned reply) :
      CallMoves rn x .drain { x with thread := .ended reply }
  | fail {lost : Bool} (hx : x.stage = .dead) :
      CallMoves rn x (.conclude lost) { x with stage := .replying none }
  | discard {lost : Bool} {reply : R} (hx : x.stage = .answered reply)
      (hd : rn.isDeadFor x = true) :
      CallMoves rn x (.conclude lost) { x with stage := .replying none }
  | lose {reply : R} (hx : x.stage = .answered reply)
      (hr : ∀ route ∈ x.route, route.reliable = false) :
      CallMoves rn x (.conclude true) { x with stage := .replying none }
  | deliver {reply : R} (hx : x.stage = .answered reply) (hd : rn.isDeadFor x = false) :
      CallMoves rn x (.conclude false) { x with stage := .replying (some reply) }
  | reply {rep : Option R} (hx : x.stage = .replying rep) :
      CallMoves rn x .reply { x with stage := .finished, result := some rep }

/-- What a step does. -/
inductive Moves (rn : Network E N A R) : Action E N A R → Network E N A R → Prop
  | Reliable (yes : Bool) : Moves rn (.Reliable yes) { rn with reliable := yes }
  | existingEnd {e : E} (he : rn.ends e = true) : Moves rn (.MakeEnd e) { rn with crashed := true }
  | MakeEnd {e : E} (he : rn.ends e = false) :
      Moves rn (.MakeEnd e)
        { rn with
          ends := Function.update rn.ends e true
          enabled := Function.update rn.enabled e false
          connections := Function.update rn.connections e none }
  | DeleteEnd {e : E} (he : rn.ends e = true) :
      Moves rn (.DeleteEnd e)
        { rn with
          ends := Function.update rn.ends e false
          enabled := Function.update rn.enabled e false
          connections := Function.update rn.connections e none }
  | missingEnd {e : E} (he : rn.ends e = false) :
      Moves rn (.DeleteEnd e) { rn with crashed := true }
  | Connect (e : E) (n : N) :
      Moves rn (.Connect e n) { rn with connections := Function.update rn.connections e (some n) }
  | Enable (e : E) (enabled : Bool) :
      Moves rn (.Enable e enabled) { rn with enabled := Function.update rn.enabled e enabled }
  | MakeServer (rs : Server) :
      Moves rn (.MakeServer rs) { rn with objects := rn.objects ++ [{ rs with count := 0 }] }
  | AddServer {n : N} {rs : ℕ} (hrs : rs < rn.objects.length) :
      Moves rn (.AddServer n rs) { rn with servers := Function.update rn.servers n (some rs) }
  | DeleteServer (n : N) :
      Moves rn (.DeleteServer n) { rn with servers := Function.update rn.servers n none }
  | Cleanup : Moves rn .Cleanup { rn with done := true, crashed := rn.done }
  | stop (hl : rn.listening = true) (hd : rn.done = true) :
      Moves rn .stop { rn with listening := false }
  | call (req : ReqMsg E A) : Moves rn (.Call req) { rn with calls := rn.calls ++ [{ req := req }] }
  | act {k : ℕ} {a : CallAction R} {x x' : Call E N A R} (hk : rn.calls[k]? = some x)
      (hx : rn.CallMoves x a x') :
      Moves rn (.act k a) ((rn.callEffect x a).setCall k x')

variable {rn rn' : Network E N A R} {x x' : Call E N A R}

omit [DecidableEq E] in
lemma CallMoves.req_eq {a : CallAction R} (h : rn.CallMoves x a x') : x'.req = x.req := by
  cases h <;> rfl

omit [DecidableEq E] in
lemma callMoves_of_callStep {a : CallAction R} (h : rn.callStep x a = some x') :
    rn.CallMoves x a x' := by
  have hall : (x.route.all fun route => !route.reliable) = true →
      ∀ route ∈ x.route, route.reliable = false := by
    cases x.route <;> simp
  cases a with
  | abort =>
    simp only [callStep] at h
    split at h
    · split_ifs at h with hd
      cases h
      exact .abort ‹_› ‹_› hd
    · cases h
  | receive =>
    simp only [callStep] at h
    split at h
    · split_ifs at h with hl
      cases h
      exact .receive ‹_› ‹_› hl
    · cases h
  | read =>
    simp only [callStep] at h
    split at h
    · split at h <;> cases h
      · exact .accept ‹_› ‹_›
      · exact .refuse ‹_› ‹_›
    · cases h
  | drop =>
    simp only [callStep] at h
    split at h
    · split_ifs at h with hr
      cases h
      exact .drop ‹_› (hall hr)
    · cases h
  | spawn =>
    simp only [callStep] at h
    split at h <;> cases h
    exact .spawn ‹_›
  | dispatch =>
    simp only [callStep] at h
    split at h <;> cases h
    exact .dispatch ‹_›
  | return_ reply =>
    simp only [callStep] at h
    split at h <;> cases h
    exact .return_ ‹_›
  | answer =>
    simp only [callStep] at h
    split at h <;> cases h
    exact .answer ‹_› ‹_›
  | poll =>
    simp only [callStep] at h
    split at h
    · split_ifs at h with hd
      · cases h
        exact .giveUp ‹_› hd
      · cases h
        exact .wait ‹_› (Bool.eq_false_iff.mpr hd)
    · cases h
  | drain =>
    simp only [callStep] at h
    split at h <;> cases h
    exact .drain ‹_› ‹_›
  | conclude lost =>
    simp only [callStep] at h
    split at h
    · cases h
      exact .fail ‹_›
    · split_ifs at h with hd hlost hr
      · cases h
        exact .discard ‹_› hd
      · cases h
        cases lost
        · cases hlost
        · exact .lose ‹_› (hall hr)
      · cases h
        cases lost
        · exact .deliver ‹_› (Bool.eq_false_iff.mpr hd)
        · exact absurd rfl hlost
    · cases h
  | reply =>
    simp only [callStep] at h
    split at h <;> cases h
    exact .reply ‹_›

lemma moves_of_step {a : Action E N A R} (h : rn.step a = some rn') :
    rn.crashed = false ∧ rn.Moves a rn' := by
  unfold step at h
  by_cases hc : rn.crashed = true
  · rw [if_pos hc] at h
    cases h
  rw [if_neg hc] at h
  refine ⟨Bool.eq_false_iff.mpr hc, ?_⟩
  cases a with
  | Reliable | Connect | Enable | MakeServer | DeleteServer | Cleanup | Call =>
    cases h
    constructor
  | MakeEnd e =>
    simp only at h
    split_ifs at h with he <;> cases h
    · exact .existingEnd he
    · exact .MakeEnd (Bool.eq_false_iff.mpr he)
  | DeleteEnd e =>
    simp only at h
    split_ifs at h with he <;> cases h
    · exact .DeleteEnd he
    · exact .missingEnd (Bool.eq_false_iff.mpr he)
  | AddServer n rs =>
    simp only at h
    split_ifs at h with hrs
    cases h
    exact .AddServer hrs
  | stop =>
    simp only at h
    split_ifs at h with hs
    cases h
    obtain ⟨hl, hd⟩ := (Bool.and_eq_true _ _).mp hs
    exact .stop hl hd
  | act k a =>
    simp only at h
    split at h
    · obtain ⟨x', hx', rfl⟩ := Option.map_eq_some_iff.mp h
      exact .act ‹_› (callMoves_of_callStep hx')
    · cases h

end Network

/-- The network with all calls made over it. -/
def labrpc (E N A R : Type) [DecidableEq E] [DecidableEq N] :
    Machine (Network E N A R) (Action E N A R) :=
  .ofStep .MakeNetwork Network.step

end LabRpc

end DistLabs
