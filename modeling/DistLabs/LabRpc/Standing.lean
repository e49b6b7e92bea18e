import DistLabs.LabRpc.Network
import Mathlib.Data.List.Count

/-!
# The goroutines of a call

How far `processReq` and the goroutine of the handler can be apart, and that the counters of the
network and of its servers count every call once.
-/

namespace DistLabs

namespace LabRpc

variable {E N A R : Type} [DecidableEq N] {rn rn' : Network E N A R} {x x' : Call E N A R}
  {a : CallAction R} {k : ℕ}

/-! ### The goroutines of a call -/

/-- The handler has been started and its reply has not been taken. -/
def Thread.Pending : Thread R → Prop
  | .starting | .running | .returned _ => True
  | .none | .ended _ => False

/-- Nothing is left of the handler. -/
def Thread.Settled : Thread R → Prop
  | .none | .ended _ => True
  | .starting | .running | .returned _ => False

/-- How the goroutines of a call stand to each other. -/
inductive Standing : Stage R → Thread R → Option (Route N) → Option (Option R) → Prop
  | unsent : Standing .unsent .none none none
  | aborted : Standing .unsent .none none (some none)
  | received : Standing .received .none none none
  | accepted {route : Route N} : Standing .accepted .none (some route) none
  | polling {t : Thread R} {route : Route N} (ht : t.Pending) :
      Standing .polling t (some route) none
  | answered {r : R} {route : Route N} : Standing (.answered r) (.ended r) (some route) none
  | dead {t : Thread R} {route : Route N} (ht : t ≠ .none) : Standing .dead t (some route) none
  | failing {t : Thread R} {route : Option (Route N)} (ht : t ≠ .none → route.isSome) :
      Standing (.replying none) t route none
  | replying {r : R} {route : Route N} :
      Standing (.replying (some r)) (.ended r) (some route) none
  | failed {t : Thread R} {route : Option (Route N)} (ht : t ≠ .none → route.isSome) :
      Standing .finished t route (some none)
  | finished {r : R} {route : Route N} :
      Standing .finished (.ended r) (some route) (some (some r))

def Call.Ok (x : Call E N A R) : Prop := Standing x.stage x.thread x.route x.result

lemma Call.Ok.moves (h : x.Ok) (hm : rn.CallMoves x a x') : x'.Ok := by
  obtain ⟨req, route, stage, thread, result⟩ := x
  cases hm with
  | abort hx hr =>
    cases hx
    cases hr
    cases h
    exact .aborted
  | receive hx hr =>
    cases hx
    cases hr
    cases h
    exact .received
  | accept hx =>
    cases hx
    cases h
    exact .accepted
  | refuse hx =>
    cases hx
    cases h
    exact .failing (absurd rfl)
  | drop hx =>
    cases hx
    cases h
    exact .failing (absurd rfl)
  | spawn hx =>
    cases hx
    cases h
    exact .polling trivial
  | dispatch hx | return_ hx =>
    cases hx
    cases h with
    | polling => exact .polling trivial
    | dead => exact .dead (by simp)
    | failing ht => exact .failing fun _ => ht (by simp)
    | failed ht => exact .failed fun _ => ht (by simp)
  | answer hx ht =>
    cases hx
    cases ht
    cases h
    exact .answered
  | wait => exact h
  | giveUp hx =>
    cases hx
    cases h with
    | polling ht => exact .dead fun heq => by rw [heq] at ht; exact ht
  | drain hx ht =>
    cases ht
    cases h with
    | polling => exact absurd rfl hx
    | dead => exact .dead (by simp)
    | failing ht => exact .failing fun _ => ht (by simp)
    | failed ht => exact .failed fun _ => ht (by simp)
  | fail hx =>
    cases hx
    cases h
    exact .failing fun _ => rfl
  | discard hx =>
    cases hx
    cases h
    exact .failing fun _ => rfl
  | lose hx =>
    cases hx
    cases h
    exact .failing fun _ => rfl
  | deliver hx =>
    cases hx
    cases h
    exact .replying
  | reply hx =>
    cases hx
    cases h with
    | failing ht => exact .failed ht
    | replying => exact .finished

section Runs

variable [DecidableEq E] {P : Network E N A R → Action E N A R → Prop}

/-- A call after a step is new, has not changed, or has been moved. -/
lemma Network.Moves.call_cases {b : Action E N A R} (hm : rn.Moves b rn')
    (hk : rn'.calls[k]? = some x') :
    (∃ req : ReqMsg E A, x' = { req := req }) ∨ rn.calls[k]? = some x' ∨
      ∃ a x, rn.calls[k]? = some x ∧ rn.CallMoves x a x' := by
  cases hm with
  | call req =>
    rcases Nat.lt_or_ge k rn.calls.length with hlt | hge
    · rw [List.getElem?_append_left hlt] at hk
      exact .inr (.inl hk)
    · rw [List.getElem?_append_right hge] at hk
      exact .inl ⟨req, List.mem_singleton.mp (List.mem_of_getElem? hk)⟩
  | @act j a x y hj hx =>
    simp only [setCall, calls_callEffect] at hk
    rcases eq_or_ne j k with rfl | hne
    · rw [List.getElem?_set_self (List.getElem?_eq_some_iff.mp hj).1] at hk
      cases hk
      exact .inr (.inr ⟨a, x, hj, hx⟩)
    · rw [List.getElem?_set_ne hne] at hk
      exact .inr (.inl hk)
  | _ => exact .inr (.inl hk)

/-- What holds of a new call and is kept by the steps of a call holds of all calls. -/
lemma forall_calls_of_moves {Q : Call E N A R → Prop} (hnew : ∀ req, Q { req := req })
    (hact : ∀ x a x', rn.CallMoves x a x' → Q x → Q x') {b : Action E N A R} (hm : rn.Moves b rn')
    (h : ∀ x ∈ rn.calls, Q x) : ∀ x ∈ rn'.calls, Q x := by
  intro x' hx'
  obtain ⟨k, hk⟩ := List.mem_iff_getElem?.mp hx'
  rcases hm.call_cases hk with ⟨req, rfl⟩ | hk | ⟨a, x, hk, hx⟩
  · exact hnew req
  · exact h x' (List.mem_of_getElem? hk)
  · exact hact x a x' hx (h x (List.mem_of_getElem? hk))

lemma ok_of_run {l : List (Network E N A R)} (h : (labrpc E N A R).Run P l) :
    ∀ rn ∈ l, ∀ x ∈ rn.calls, x.Ok := by
  refine h.invariant (I := fun rn => ∀ x ∈ rn.calls, x.Ok) ?_ ?_
  · rintro _ rfl _ ⟨⟩
  · intro rn past b rn' _ _ hok hn
    exact forall_calls_of_moves (fun _ => .unsent) (fun _ _ _ hm hx => hx.moves hm)
      (Network.moves_of_step hn).2 hok

end Runs

/-! ### Counting -/

/-- The handler of the call has been started on a server. -/
def Call.ranOn (x : Call E N A R) (s : ℕ) : Bool :=
  match x.thread with
  | .none | .starting => false
  | _ => x.route.any fun route => route.server = s

def Call.wasReceived (x : Call E N A R) : Bool :=
  match x.stage with
  | .unsent => false
  | _ => true

omit [DecidableEq N] in
lemma exists_route_of_ranOn {s : ℕ} (h : x.ranOn s = true) :
    ∃ route ∈ x.route, route.server = s := by
  unfold Call.ranOn at h
  split at h
  · cases h
  · cases h
  · simpa [Option.any_eq_true] using h

lemma Network.CallMoves.wasReceived_eq (hm : rn.CallMoves x a x') (ha : a ≠ .receive) :
    x'.wasReceived = x.wasReceived := by
  cases hm with
  | receive => exact absurd rfl ha
  | abort | dispatch | return_ | wait | drain => rfl
  | answer hx | spawn hx | accept hx | refuse hx | drop hx | giveUp hx | fail hx | discard hx
  | lose hx | deliver hx | reply hx => simp [Call.wasReceived, hx]

lemma Network.CallMoves.ranOn_eq (hx : x.Ok) (hm : rn.CallMoves x a x') (ha : a ≠ .dispatch)
    (s : ℕ) : x'.ranOn s = x.ranOn s := by
  obtain ⟨req, route, stage, thread, result⟩ := x
  cases hm with
  | dispatch => exact absurd rfl ha
  | accept h =>
    cases h
    cases hx
    rfl
  | spawn h =>
    cases h
    cases hx
    rfl
  | return_ h | answer _ h | drain _ h =>
    cases h
    rfl
  | _ => rfl

/-- One element of a list is replaced by one that is counted. -/
lemma countP_set_succ {α : Type*} {p : α → Bool} {l : List α} {y y' : α} (hk : l[k]? = some y)
    (hy : p y = false) (hy' : p y' = true) : (l.set k y').countP p = l.countP p + 1 := by
  obtain ⟨hlt, rfl⟩ := List.getElem?_eq_some_iff.mp hk
  simp [List.countP_set hlt, hy, hy']

lemma countP_set_eq {α : Type*} {p : α → Bool} {l : List α} {y y' : α} (hk : l[k]? = some y)
    (h : p y' = p y) : (l.set k y').countP p = l.countP p := by
  obtain ⟨hlt, rfl⟩ := List.getElem?_eq_some_iff.mp hk
  rw [List.countP_set hlt, h]
  split_ifs with hp
  · exact Nat.sub_add_cancel (List.countP_pos_iff.mpr ⟨_, List.getElem_mem hlt, hp⟩)
  · rfl

/-- The counters count. -/
structure Network.Counts (rn : Network E N A R) : Prop where
  registered : ∀ n s, rn.servers n = some s → s < rn.objects.length
  routed : ∀ x ∈ rn.calls, ∀ route ∈ x.route, route.server < rn.objects.length
  total : rn.count = BitVec.ofNat 32 (rn.calls.countP Call.wasReceived)
  count : ∀ s rs, rn.objects[s]? = some rs →
    rs.count = BitVec.ofNat 64 (rn.calls.countP fun x => x.ranOn s)

omit [DecidableEq N] in
lemma server_lt_of_readEndnameInfo (h : rn.Counts) {e : E} {route : Route N}
    (hr : rn.readEndnameInfo e = some route) : route.server < rn.objects.length := by
  unfold Network.readEndnameInfo at hr
  split_ifs at hr
  split at hr
  · split at hr <;> cases hr
    exact h.registered _ _ ‹_›
  · cases hr

/-- The route of a call after a step leads to a server there is. -/
lemma Network.Counts.route_lt (h : rn.Counts) (hk : rn.calls[k]? = some x)
    (hm : rn.CallMoves x a x') : ∀ route ∈ x'.route, route.server < rn.objects.length := by
  have hx := h.routed x (List.mem_of_getElem? hk)
  cases hm with
  | accept _ hr =>
    rintro _ ⟨⟩
    exact server_lt_of_readEndnameInfo h hr
  | _ => exact hx

section Act

variable (h : rn.Counts) (hk : rn.calls[k]? = some x)

include h hk

lemma Network.Counts.setCall (hm : rn.CallMoves x a x')
    (htotal : (rn.callEffect x a).count = BitVec.ofNat 32 ((rn.calls.set k x').countP
      Call.wasReceived))
    (hcount : ∀ s rs, (rn.callEffect x a).objects[s]? = some rs →
      rs.count = BitVec.ofNat 64 ((rn.calls.set k x').countP fun x => x.ranOn s)) :
    ((rn.callEffect x a).setCall k x').Counts := by
  have hcalls : ((rn.callEffect x a).setCall k x').calls = rn.calls.set k x' := by
    simp [Network.setCall]
  refine ⟨?_, fun y hy => ?_, hcalls ▸ htotal, hcalls ▸ hcount⟩
  · simpa [Network.setCall] using h.registered
  · rw [hcalls] at hy
    simp only [Network.setCall, length_objects_callEffect]
    rcases List.mem_or_eq_of_mem_set hy with hy | rfl
    · exact h.routed y hy
    · exact h.route_lt hk hm

lemma Network.Counts.receive (hm : rn.CallMoves x .receive x') :
    ((rn.callEffect x .receive).setCall k x').Counts := by
  refine h.setCall hk hm ?_ fun s rs hs => ?_
  · cases hm with
    | receive hx =>
      rw [countP_set_succ hk (by simp [Call.wasReceived, hx]) rfl, BitVec.ofNat_add, ← h.total]
      rfl
  · cases hm with
    | receive hx =>
      rw [countP_set_eq hk (by rfl)]
      exact h.count s rs hs

omit [DecidableEq N] in
/-- The handler is started on the server of the route. -/
lemma Network.Counts.exists_object (hok : x.Ok) (ht : x.thread = .starting) :
    ∃ route rs, x.route = some route ∧ rn.objects[route.server]? = some rs := by
  obtain ⟨route, hr⟩ : ∃ route, x.route = some route := by
    obtain ⟨req, route, stage, thread, result⟩ := x
    cases ht
    cases hok with
    | polling | dead => exact ⟨_, rfl⟩
    | failing hsome | failed hsome => exact Option.isSome_iff_exists.mp (hsome (by simp))
  have hlt := h.routed x (List.mem_of_getElem? hk) route hr
  exact ⟨route, _, hr, List.getElem?_eq_getElem hlt⟩

lemma Network.Counts.dispatch (hok : x.Ok) (hm : rn.CallMoves x .dispatch x') :
    ((rn.callEffect x .dispatch).setCall k x').Counts := by
  cases hm with
  | dispatch ht =>
    obtain ⟨route, rs, hr, hrs⟩ := h.exists_object hk hok ht
    have heff : rn.callEffect x .dispatch =
        { rn with
          objects := rn.objects.set route.server { rs with count := rs.count + 1 }
          crashed := !rs.handles x.req.svcMeth } := by
      simp [callEffect, hr, hrs]
    refine h.setCall hk (.dispatch ht) ?_ fun s rs' hs => ?_
    · rw [heff, countP_set_eq hk (by rfl)]
      exact h.total
    · rw [heff] at hs
      have hbefore : x.ranOn s = false := by simp [Call.ranOn, ht]
      rcases eq_or_ne route.server s with rfl | hne
      · rw [List.getElem?_set_self (List.getElem?_eq_some_iff.mp hrs).1] at hs
        cases hs
        rw [countP_set_succ hk hbefore (by simp [Call.ranOn, hr]), BitVec.ofNat_add,
          ← h.count _ rs hrs]
        rfl
      · rw [List.getElem?_set_ne hne] at hs
        rw [countP_set_eq hk (by simp [Call.ranOn, ht, hr, hne])]
        exact h.count s rs' hs

lemma Network.Counts.act (hok : x.Ok) (hm : rn.CallMoves x a x') :
    ((rn.callEffect x a).setCall k x').Counts := by
  by_cases hrec : a = .receive
  · subst hrec
    exact h.receive hk hm
  by_cases hdis : a = .dispatch
  · subst hdis
    exact h.dispatch hk hok hm
  have heff : rn.callEffect x a = rn := by
    cases a with
    | receive => exact absurd rfl hrec
    | dispatch => exact absurd rfl hdis
    | _ => rfl
  refine h.setCall hk hm ?_ fun s rs hs => ?_
  · rw [heff, countP_set_eq hk (hm.wasReceived_eq hrec)]
    exact h.total
  · rw [heff] at hs
    rw [countP_set_eq hk (hm.ranOn_eq hok hdis s)]
    exact h.count s rs hs

end Act

lemma registered_update {f : N → Option ℕ} {n : N} {o : Option ℕ} {B : ℕ}
    (hf : ∀ m s, f m = some s → s < B) (ho : ∀ s ∈ o, s < B) :
    ∀ m s, Function.update f n o m = some s → s < B := by
  intro m s hs
  rcases eq_or_ne m n with rfl | hne
  · rw [Function.update_self] at hs
    exact ho s hs
  · rw [Function.update_of_ne hne] at hs
    exact hf m s hs

section Runs

variable [DecidableEq E] {P : Network E N A R → Action E N A R → Prop}

lemma Network.Counts.moves (h : rn.Counts) (hok : ∀ x ∈ rn.calls, x.Ok) {b : Action E N A R}
    (hm : rn.Moves b rn') : rn'.Counts := by
  cases hm with
  | MakeServer rs =>
    have hlen : rn.objects.length ≤ (rn.objects ++ [{ rs with count := 0 }]).length := by simp
    refine ⟨fun n s hs => Nat.lt_of_lt_of_le (h.registered n s hs) hlen,
      fun x hx route hr => Nat.lt_of_lt_of_le (h.routed x hx route hr) hlen, h.total,
      fun s rs' hs => ?_⟩
    rcases Nat.lt_or_ge s rn.objects.length with hlt | hge
    · rw [List.getElem?_append_left hlt] at hs
      exact h.count s rs' hs
    · -- nothing has run on the new server
      rw [List.getElem?_append_right hge] at hs
      obtain rfl := List.mem_singleton.mp (List.mem_of_getElem? hs)
      have hzero : rn.calls.countP (fun x => x.ranOn s) = 0 := by
        refine List.countP_eq_zero.mpr fun x hx hran => ?_
        obtain ⟨route, hr, rfl⟩ := exists_route_of_ranOn hran
        exact absurd (h.routed x hx route hr) (Nat.not_lt.mpr hge)
      rw [hzero]
      rfl
  | AddServer hrs =>
    refine ⟨registered_update h.registered ?_, h.routed, h.total, h.count⟩
    rintro _ ⟨⟩
    exact hrs
  | DeleteServer n =>
    refine ⟨registered_update h.registered ?_, h.routed, h.total, h.count⟩
    rintro _ ⟨⟩
  | call req =>
    refine ⟨h.registered, fun x hx => ?_, ?_, fun s rs hs => ?_⟩
    · rcases List.mem_append.mp hx with hx | hx
      · exact h.routed x hx
      · obtain rfl := List.mem_singleton.mp hx
        simp
    · rw [List.countP_append, h.total]
      rfl
    · rw [List.countP_append, h.count s rs hs]
      rfl
  | act hk hx => exact h.act hk (hok _ (List.mem_of_getElem? hk)) hx
  | _ => exact ⟨h.registered, h.routed, h.total, h.count⟩

lemma counts_of_run {l : List (Network E N A R)} (h : (labrpc E N A R).Run P l) :
    ∀ rn ∈ l, rn.Counts := by
  refine h.invariant (I := Network.Counts) ?_ ?_
  · rintro _ rfl
    exact ⟨by simp [Network.MakeNetwork], by simp [Network.MakeNetwork], rfl,
      by simp [Network.MakeNetwork]⟩
  · intro rn past b rn' hr _ hc hn
    exact hc.moves (ok_of_run hr rn List.mem_cons_self) (Network.moves_of_step hn).2

/-- No call is executed twice or uncounted: `GetTotalCount` is the number of requests the network
has received, and the count of a registered server the number of those whose handler has been
started on it. -/
theorem counts_calls (h : (labrpc E N A R).Reachable rn) :
    rn.GetTotalCount = BitVec.ofNat 32 (rn.calls.countP Call.wasReceived) ∧
      ∀ n s, rn.servers n = some s →
        rn.GetCount n = some (BitVec.ofNat 64 (rn.calls.countP fun x => x.ranOn s)) := by
  obtain ⟨past, hr⟩ := h
  have hc := counts_of_run hr rn List.mem_cons_self
  refine ⟨hc.total, fun n s hs => ?_⟩
  obtain ⟨rs, hrs⟩ : ∃ rs, rn.objects[s]? = some rs :=
    ⟨_, List.getElem?_eq_getElem (hc.registered n s hs)⟩
  simp [Network.GetCount, hs, hrs, hc.count s rs hrs]

/-- A server with one method. -/
def echoServer : Server := Server.AddService {} "Echo" (· == "Call")

/-- End 5 is connected to the server, and a call is made over it. -/
def firstCall : List (Action ℕ ℕ ℕ ℕ) :=
  [.MakeServer echoServer, .AddServer 0 0, .MakeEnd 5, .Connect 5 0, .Enable 5 true,
    .Call ⟨5, "Echo.Call", 3⟩, .act 0 .receive, .act 0 .read, .act 0 .spawn, .act 0 .dispatch]

/-- The handler returns, and so does the call. -/
def firstReply : List (Action ℕ ℕ ℕ ℕ) :=
  [.act 0 (.return_ 3), .act 0 .answer, .act 0 (.conclude false), .act 0 .reply]

theorem counts_calls_first :
    ∃ rn : Network ℕ ℕ ℕ ℕ, (labrpc ℕ ℕ ℕ ℕ).Reachable rn ∧ rn.servers 0 = some 0 ∧
      rn.calls.countP (fun x => x.ranOn 0) = 1 ∧ rn.GetCount 0 = some 1 := by
  obtain ⟨rn, past, hr, hserver, hcount⟩ : ∃ (rn : Network ℕ ℕ ℕ ℕ) (past : List _),
      (labrpc ℕ ℕ ℕ ℕ).Run Machine.Any (rn :: past) ∧ rn.servers 0 = some 0 ∧
        rn.calls.countP (fun x => x.ranOn 0) = 1 :=
    Machine.exists_run_of_trace (fun _ _ => true) (fun _ _ _ => trivial) firstCall (by decide)
  refine ⟨rn, ⟨past, hr⟩, hserver, hcount, ?_⟩
  rw [(counts_calls ⟨past, hr⟩).2 0 0 hserver, hcount]
  rfl

end Runs

end LabRpc

end DistLabs
