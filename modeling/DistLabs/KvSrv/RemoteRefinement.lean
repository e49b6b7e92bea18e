import DistLabs.KvSrv.Remote

/-!
# The network does not matter

Every step of clerks, network and server is a step of clerks and server alone, or nothing to them.
A call that has returned has left no handler behind, so the histories of the system over the network
are linearizable.
-/

namespace DistLabs

namespace KvSrv

open LabRpc (Network Server Call CallAction Route Thread KeepsServers)

variable {rn rn' : Network ℕ ℕ Args String} {x x' : Call ℕ ℕ Args String}
  {a : CallAction String} {k : ℕ}

/-! ### The network of the tests -/

/-- The network as long as its servers and ends in use are left alone. -/
def kvNet : Machine (Network ℕ ℕ Args String) (LabRpc.Action ℕ ℕ Args String) :=
  (LabRpc.labrpc ℕ ℕ Args String).guarded KeepsServers

lemma ok_of_kvNet (h : kvNet.Reachable rn) (hk : rn.calls[k]? = some x) : x.Ok := by
  obtain ⟨past, h⟩ := h
  exact LabRpc.ok_of_run h.of_guarded rn List.mem_cons_self x (List.mem_of_getElem? hk)

lemma kept_of_kvNet (h : kvNet.Reachable rn) (hk : rn.calls[k]? = some x) : x.Kept rn := by
  obtain ⟨past, h⟩ := h
  exact LabRpc.kept_of_run h.of_guarded rn List.mem_cons_self x (List.mem_of_getElem? hk)

lemma kvNet_step (h : kvNet.Reachable rn) {b : LabRpc.Action ℕ ℕ Args String}
    (hP : KeepsServers rn b) (hn : rn.step b = some rn') : kvNet.Reachable rn' := by
  obtain ⟨past, h⟩ := h
  exact ⟨_, .next h trivial ⟨hP, hn⟩⟩

/-- While its handler runs, a call has not returned. -/
lemma result_eq_none (h : kvNet.Reachable rn) (hk : rn.calls[k]? = some x)
    (ht : ¬x.thread.Settled) : x.result = none := by
  cases hr : x.result with
  | none => rfl
  | some rep =>
    exact absurd ((kept_of_kvNet h hk).settled_of_result (ok_of_kvNet h hk) hr) ht

lemma act_of_step (h : rn.step (.act k a) = some rn') :
    ∃ x x', rn.calls[k]? = some x ∧ rn.CallMoves x a x' ∧
      rn' = (rn.callEffect x a).setCall k x' := by
  cases (LabRpc.Network.moves_of_step h).2 with
  | act hk hx => exact ⟨_, _, hk, hx, rfl⟩

/-- The network has the server of `KVServer`, and all calls are for its methods. -/
structure Wired (rn : Network ℕ ℕ Args String) : Prop where
  crashed : rn.crashed = false
  objects : ∃ m, rn.objects = [{ kvService with count := m }]
  servers : ∀ n s, rn.servers n = some s → s = 0
  routed : ∀ x ∈ rn.calls, ∀ route ∈ x.route, route.server = 0
  methods : ∀ x ∈ rn.calls, x.req.svcMeth = x.req.args.svcMeth

/-- `dispatch` finds the methods that the clerks call. -/
lemma handles_kvService (m : BitVec 64) (args : Args) :
    Server.handles { kvService with count := m } args.svcMeth = true := by
  have hop : ∀ op : Op, kvService.handles ("KVServer." ++ op.method) = true := by
    intro op
    cases op <;> decide +kernel
  have hdone : kvService.handles "KVServer.Done" = true := by decide +kernel
  cases args with
  | op req => exact hop req.op
  | done id =>
    rw [Args.svcMeth]
    exact hdone

lemma Wired.callEffect (h : Wired rn) (hx : x ∈ rn.calls) (a : CallAction String) :
    (rn.callEffect x a).crashed = false ∧
      ∃ m, (rn.callEffect x a).objects = [{ kvService with count := m }] := by
  obtain ⟨m, hm⟩ := h.objects
  cases a with
  | dispatch =>
    cases hr : x.route with
    | none =>
      simp only [Network.callEffect, hr]
      exact ⟨h.crashed, h.objects⟩
    | some route =>
      have hroute := h.routed x hx route hr
      simp [Network.callEffect, hr, hroute, hm, h.methods x hx, handles_kvService]
  | _ => exact ⟨h.crashed, h.objects⟩

lemma Wired.act (h : Wired rn) (hk : rn.calls[k]? = some x) (hm : rn.CallMoves x a x') :
    Wired ((rn.callEffect x a).setCall k x') := by
  have hx := List.mem_of_getElem? hk
  have heff := h.callEffect hx a
  have hset : ∀ y ∈ ((rn.callEffect x a).setCall k x').calls, y ∈ rn.calls ∨ y = x' := by
    intro y hy
    rw [Network.setCall, Network.calls_callEffect] at hy
    exact List.mem_or_eq_of_mem_set hy
  have hroute : ∀ route ∈ x'.route, route.server = 0 := by
    cases hm with
    | accept _ hr =>
      rintro _ ⟨⟩
      exact h.servers _ _ (LabRpc.alive_of_readEndnameInfo hr).2
    | _ => exact h.routed x hx
  have hreq : x'.req = x.req := hm.req_eq
  refine ⟨heff.1, heff.2, ?_, fun y hy => ?_, fun y hy => ?_⟩
  · simpa [Network.setCall] using h.servers
  · rcases hset y hy with hy | rfl
    · exact h.routed y hy
    · exact hroute
  · rcases hset y hy with hy | rfl
    · exact h.methods y hy
    · rw [hreq]
      exact h.methods x hx

lemma Wired.call (h : Wired rn) (c : ℕ) (args : Args) :
    Wired { rn with calls := rn.calls ++ [{ req := ⟨c, args.svcMeth, args⟩ }] } where
  crashed := h.crashed
  objects := h.objects
  servers := h.servers
  routed x hx := by
    rcases List.mem_append.mp hx with hx | hx
    · exact h.routed x hx
    · obtain rfl := List.mem_singleton.mp hx
      simp
  methods x hx := by
    rcases List.mem_append.mp hx with hx | hx
    · exact h.methods x hx
    · obtain rfl := List.mem_singleton.mp hx
      rfl

/-! ### Handlers -/

/-- Deliveries are not taken back, and their replies stay. -/
def Service.Grows (S S' : Service) : Prop :=
  ∀ (j : ℕ) (d : Delivery), S.deliveries[j]? = some d → ∃ pc,
    S'.deliveries[j]? = some ⟨d.req, pc⟩ ∧ ∀ v, d.pc = .replied v → pc = .replied v

lemma Service.Grows.refl (S : Service) : S.Grows S := fun _ d hd => ⟨d.pc, hd, fun _ h => h⟩

lemma Service.Moves.grows {S S' : Service} {b : ServerAction} (hm : S.Moves b S') :
    S.Grows S' := by
  have hset : ∀ {i : ℕ} {req : Request} {pc pc' : Pc}, S.deliveries[i]? = some ⟨req, pc⟩ →
      (∀ v, pc ≠ .replied v) → ∀ (j : ℕ) (d : Delivery), S.deliveries[j]? = some d → ∃ pc,
        (S.deliveries.set i ⟨req, pc'⟩)[j]? = some ⟨d.req, pc⟩ ∧
          ∀ v, d.pc = .replied v → pc = .replied v := by
    intro i req pc pc' hi hpc j d hd
    rcases eq_or_ne i j with rfl | hne
    · cases hi.symm.trans hd
      exact ⟨pc', List.getElem?_set_self (List.getElem?_eq_some_iff.mp hi).1,
        fun v hv => absurd hv (hpc v)⟩
    · exact ⟨d.pc, by rw [List.getElem?_set_ne hne, hd], fun _ h => h⟩
  cases hm with
  | deliver req =>
    intro j d hd
    exact ⟨d.pc, (List.getElem?_append_left (List.getElem?_eq_some_iff.mp hd).1).trans hd,
      fun _ h => h⟩
  | hit hk | miss hk | modify hk => exact hset hk (by simp)
  | done => exact .refl S

/-- What the handler of a call has done, by the state of its goroutine: `slot` is its delivery, and
`cleared` says whether `Done` has run. -/
inductive Handled (S : Service) (slot : Option ℕ) (cleared : Bool) : Args → Thread String → Prop
  | waiting {args : Args} {t : Thread String} (ht : t = .none ∨ t = .starting) (hs : slot = none)
      (hc : cleared = false) : Handled S slot cleared args t
  | running {req : Request} {pc : Pc} {j : ℕ} (hs : slot = some j)
      (hj : S.deliveries[j]? = some ⟨req, pc⟩) : Handled S slot cleared (.op req) .running
  | replied {req : Request} {t : Thread String} {v : String} {j : ℕ}
      (ht : t = .returned v ∨ t = .ended v) (hs : slot = some j)
      (hj : S.deliveries[j]? = some ⟨req, .replied v⟩) : Handled S slot cleared (.op req) t
  | clearing {id : ℕ} (hs : slot = none) : Handled S slot cleared (.done id) .running
  | cleared {id : ℕ} {t : Thread String} {v : String} (ht : t = .returned v ∨ t = .ended v)
      (hs : slot = none) (hc : cleared = true) : Handled S slot cleared (.done id) t

section Handled

variable {S S' : Service} {slot : Option ℕ} {cleared : Bool} {args : Args} {t : Thread String}

lemma Handled.grows (h : Handled S slot cleared args t) (hg : S.Grows S') :
    Handled S' slot cleared args t := by
  cases h with
  | waiting ht hs hc => exact .waiting ht hs hc
  | running hs hj =>
    obtain ⟨pc, hpc, -⟩ := hg _ _ hj
    exact .running hs hpc
  | replied ht hs hj =>
    obtain ⟨pc, hpc, hv⟩ := hg _ _ hj
    cases hv _ rfl
    exact .replied ht hs hpc
  | clearing hs => exact .clearing hs
  | cleared ht hs hc => exact .cleared ht hs hc

/-- A step of the network that is not one of the handler. -/
lemma Handled.act (h : Handled S slot cleared args x.thread) (hok : x.Ok)
    (hm : rn.CallMoves x a x') (hd : a ≠ .dispatch) (hr : ∀ r, a ≠ .return_ r) :
    Handled S slot cleared args x'.thread := by
  have hend : ∀ r, Handled S slot cleared args (.returned r) →
      Handled S slot cleared args (.ended r) := by
    intro r h
    cases h with
    | waiting ht => simp at ht
    | replied ht hs hj =>
      obtain rfl : r = _ := by simpa using ht
      exact .replied (.inr rfl) hs hj
    | cleared ht hs hc => exact .cleared (.inr rfl) hs hc
  cases hm with
  | dispatch => exact absurd rfl hd
  | return_ => exact absurd rfl (hr _)
  | spawn hx =>
    obtain ⟨req, route, stage, thread, result⟩ := x
    cases hx
    cases hok
    cases h with
    | waiting _ hs hc => exact .waiting (.inr rfl) hs hc
    | replied ht => simp at ht
    | cleared ht => simp at ht
  | answer _ ht | drain _ ht =>
    rw [ht] at h
    exact hend _ h
  | _ => exact h

end Handled

/-! ### What holds throughout -/

/-- The clerk is in `Call` number `k` with these arguments. -/
def RemoteClerk.At : RemoteClerk → ℕ → Args → Prop
  | .calling req (some k), n, args => n = k ∧ args = .op req
  | .finishing req _ (some k), n, args => n = k ∧ args = .done req.id
  | _, _, _ => False

structure Remote.Inv (D : Remote) : Prop where
  reachable : kvNet.Reachable D.net
  wired : Wired D.net
  ends : ∀ c, D.net.ends c = true ↔ D.clerks c ≠ .absent
  current : ∀ (k : ℕ) (x : Call ℕ ℕ Args String), D.net.calls[k]? = some x → x.result = none →
    (D.clerks x.req.endname).At k x.req.args
  called : ∀ c k args, (D.clerks c).At k args →
    ∃ x, D.net.calls[k]? = some x ∧ x.req.endname = c ∧ x.req.args = args
  handled : ∀ (k : ℕ) (x : Call ℕ ℕ Args String), D.net.calls[k]? = some x →
    Handled D.service (D.slots k) (D.cleared k) x.req.args x.thread
  unused : ∀ k, D.net.calls.length ≤ k → D.slots k = none ∧ D.cleared k = false

section Inv

variable {D D' : Remote} {c : ℕ} {y : RemoteClerk}

/-- A step of the network in call `k`, and what the handler does in it. -/
lemma Remote.Inv.act (h : D.Inv) (hn : D.net.step (.act k a) = some D'.net)
    (hclerks : D'.clerks = D.clerks) (hgrows : D.service.Grows D'.service)
    (hother : ∀ i ≠ k, D'.slots i = D.slots i ∧ D'.cleared i = D.cleared i)
    (hself : ∀ x x', D.net.calls[k]? = some x → D.net.CallMoves x a x' →
      Handled D'.service (D'.slots k) (D'.cleared k) x'.req.args x'.thread) : D'.Inv := by
  obtain ⟨x, x', hk, hm, hnet⟩ := act_of_step hn
  have hlt := (List.getElem?_eq_some_iff.mp hk).1
  have hcalls : D'.net.calls = D.net.calls.set k x' := by
    rw [hnet, Network.setCall, Network.calls_callEffect]
  have hreq := hm.req_eq
  have hold : ∀ {i : ℕ} {z : Call ℕ ℕ Args String}, D'.net.calls[i]? = some z →
      i ≠ k ∧ D.net.calls[i]? = some z ∨ i = k ∧ z = x' := by
    intro i z hz
    rw [hcalls] at hz
    rcases eq_or_ne k i with rfl | hne
    · rw [List.getElem?_set_self hlt] at hz
      cases hz
      exact .inr ⟨rfl, rfl⟩
    · rw [List.getElem?_set_ne hne] at hz
      exact .inl ⟨hne.symm, hz⟩
  refine ⟨kvNet_step (b := .act k a) h.reachable trivial hn, hnet ▸ h.wired.act hk hm, fun c => ?_,
    fun i z hz hr => ?_, fun c i args hat => ?_, fun i z hz => ?_, fun i hi => ?_⟩
  · rw [hclerks, hnet, Network.setCall]
    simp only [Network.ends_callEffect]
    exact h.ends c
  · rw [hclerks]
    rcases hold hz with ⟨-, hz⟩ | ⟨rfl, rfl⟩
    · exact h.current i z hz hr
    · -- a call that has not returned after the step has not returned before
      have hr' : x.result = none := by
        cases hm with
        | abort | reply => cases hr
        | _ => exact hr
      rw [hreq]
      exact h.current i x hk hr'
  · rw [hclerks] at hat
    obtain ⟨z, hz, hc, hargs⟩ := h.called c i args hat
    rw [hcalls]
    rcases eq_or_ne k i with rfl | hne
    · cases hz.symm.trans hk
      exact ⟨x', List.getElem?_set_self hlt, hreq ▸ hc, hreq ▸ hargs⟩
    · exact ⟨z, by rw [List.getElem?_set_ne hne, hz], hc, hargs⟩
  · rcases hold hz with ⟨hne, hz⟩ | ⟨rfl, rfl⟩
    · rw [(hother i hne).1, (hother i hne).2]
      exact (h.handled i z hz).grows hgrows
    · exact hself x z hk hm
  · rw [hcalls, List.length_set] at hi
    rw [(hother i (by omega)).1, (hother i (by omega)).2]
    exact h.unused i hi

/-- The server does something, and the network nothing. -/
lemma Remote.Inv.serve (h : D.Inv) (hnet : D'.net = D.net) (hclerks : D'.clerks = D.clerks)
    (hhandled : ∀ (k : ℕ) (x : Call ℕ ℕ Args String), D.net.calls[k]? = some x →
      Handled D'.service (D'.slots k) (D'.cleared k) x.req.args x.thread)
    (hunused : ∀ k, D.net.calls.length ≤ k → D'.slots k = none ∧ D'.cleared k = false) :
    D'.Inv := by
  refine ⟨?_, ?_, ?_, ?_, ?_, ?_, ?_⟩
  all_goals rw [hnet]
  · exact h.reachable
  · exact h.wired
  · rw [hclerks]
    exact h.ends
  · rw [hclerks]
    exact h.current
  · rw [hclerks]
    exact h.called
  · exact hhandled
  · exact hunused

/-- A clerk that is in no `Call`, or whose `Call` has returned, does something else. -/
lemma Remote.Inv.setClerk (h : D.Inv) (hclerks : D'.clerks = Function.update D.clerks c y)
    (hold : ∀ k args x, (D.clerks c).At k args → D.net.calls[k]? = some x → x.result.isSome)
    (hnew : ∀ k args, ¬y.At k args) (hcalls : D'.net.calls = D.net.calls)
    (hreach : kvNet.Reachable D'.net) (hwired : Wired D'.net)
    (hends : ∀ c', D'.net.ends c' = true ↔ D'.clerks c' ≠ .absent)
    (hservice : D'.service = D.service) (hslots : D'.slots = D.slots)
    (hcleared : D'.cleared = D.cleared) : D'.Inv := by
  refine ⟨hreach, hwired, hends, ?_, ?_, ?_, ?_⟩
  all_goals rw [hcalls]
  · intro k x hk hr
    have hat := h.current k x hk hr
    rw [hclerks]
    rcases eq_or_ne x.req.endname c with heq | hne
    · rw [heq] at hat
      simpa [hr] using hold k _ x hat hk
    · rwa [Function.update_of_ne hne]
  · intro c' k args hat
    rw [hclerks] at hat
    rcases eq_or_ne c' c with rfl | hne
    · rw [Function.update_self] at hat
      exact absurd hat (hnew k args)
    · rw [Function.update_of_ne hne] at hat
      exact h.called c' k args hat
  · rw [hservice, hslots, hcleared]
    exact h.handled
  · rw [hslots, hcleared]
    exact h.unused

lemma ends_update {b : Bool} (h : D.Inv) (hy : b = true ↔ y ≠ .absent) (c' : ℕ) :
    Function.update D.net.ends c b c' = true ↔ Function.update D.clerks c y c' ≠ .absent := by
  rcases eq_or_ne c' c with rfl | hne
  · rw [Function.update_self, Function.update_self]
    exact hy
  · rw [Function.update_of_ne hne, Function.update_of_ne hne]
    exact h.ends c'

/-- A clerk that is made stays made. -/
lemma ends_made (h : D.Inv) (hc : D.clerks c ≠ .absent) (hy : y ≠ .absent) (c' : ℕ) :
    D.net.ends c' = true ↔ Function.update D.clerks c y c' ≠ .absent := by
  have hself : Function.update D.net.ends c true = D.net.ends :=
    Function.update_eq_self_iff.mpr ((h.ends c).mpr hc).symm
  rw [← hself]
  exact ends_update h (by simpa using hy) c'

/-- The end of a clerk that is in no `Call` is not in use. -/
lemma Remote.Inv.idleEnd (h : D.Inv) (hc : ∀ k args, ¬(D.clerks c).At k args) :
    D.net.IdleEnd c := by
  intro x hx he
  obtain ⟨k, hk⟩ := List.mem_iff_getElem?.mp hx
  cases hr : x.result with
  | some => rfl
  | none => exact absurd (he ▸ h.current k x hk hr) (hc k _)

lemma Remote.Inv.makeClient (h : D.Inv) {net₁ net₂ net : Network ℕ ℕ Args String}
    (hc : D.clerks c = .absent) (hmake : D.net.step (.MakeEnd c) = some net₁)
    (hconnect : net₁.step (.Connect c 0) = some net₂)
    (henable : net₂.step (.Enable c true) = some net) :
    Remote.Inv { D.setClerk c .idle with net := net } := by
  have hnot : ∀ k args, ¬(D.clerks c).At k args := by simp [hc, RemoteClerk.At]
  have hreach₁ := kvNet_step (b := .MakeEnd c) h.reachable (h.idleEnd hnot) hmake
  have hreach₂ := kvNet_step (b := .Connect c 0) hreach₁ trivial hconnect
  have hreach := kvNet_step (b := .Enable c true) hreach₂ (.inl rfl) henable
  cases (Network.moves_of_step hmake).2 with
  | existingEnd he => exact absurd hc ((h.ends c).mp he)
  | MakeEnd he =>
    cases (Network.moves_of_step hconnect).2
    cases (Network.moves_of_step henable).2
    refine h.setClerk rfl (fun k args x hat => absurd hat (hnot k args)) (by simp [RemoteClerk.At])
      rfl hreach ?_ (ends_update h (by simp)) rfl rfl rfl
    exact ⟨h.wired.crashed, h.wired.objects, h.wired.servers, h.wired.routed, h.wired.methods⟩

lemma Remote.Inv.deleteClient (h : D.Inv) {net : Network ℕ ℕ Args String}
    (hc : D.clerks c = .idle) (hn : D.net.step (.DeleteEnd c) = some net) :
    Remote.Inv { D.setClerk c .absent with net := net } := by
  have hnot : ∀ k args, ¬(D.clerks c).At k args := by simp [hc, RemoteClerk.At]
  have hreach := kvNet_step (b := .DeleteEnd c) h.reachable (h.idleEnd hnot) hn
  have hends : D.net.ends c = true := (h.ends c).mpr (by simp [hc])
  cases (Network.moves_of_step hn).2 with
  | missingEnd he =>
    rw [hends] at he
    cases he
  | DeleteEnd =>
    refine h.setClerk rfl (fun k args x hat => absurd hat (hnot k args)) (by simp [RemoteClerk.At])
      rfl hreach ?_ (ends_update h (by simp)) rfl rfl rfl
    exact ⟨h.wired.crashed, h.wired.objects, h.wired.servers, h.wired.routed, h.wired.methods⟩

/-- The clerk changes without a step of the network. -/
lemma Remote.Inv.turn (h : D.Inv) (hclerks : D'.clerks = Function.update D.clerks c y)
    (hnet : D'.net = D.net) (hc : D.clerks c ≠ .absent) (hy : y ≠ .absent)
    (hold : ∀ k args x, (D.clerks c).At k args → D.net.calls[k]? = some x → x.result.isSome)
    (hnew : ∀ k args, ¬y.At k args) (hservice : D'.service = D.service)
    (hslots : D'.slots = D.slots) (hcleared : D'.cleared = D.cleared) : D'.Inv := by
  refine h.setClerk hclerks hold hnew ?_ ?_ ?_ (fun c' => ?_) hservice hslots hcleared
  · rw [hnet]
  · rw [hnet]
    exact h.reachable
  · rw [hnet]
    exact h.wired
  · rw [hnet, hclerks]
    exact ends_made h hc hy c'

/-- A clerk calls its end. -/
lemma Remote.Inv.call (h : D.Inv) {args : Args} {net : Network ℕ ℕ Args String}
    (hn : D.sendArgs c args = some net) (hc : D.clerks c ≠ .absent) (hy : y ≠ .absent)
    (hold : ∀ k args, ¬(D.clerks c).At k args)
    (hnew : ∀ k args', y.At k args' ↔ k = D.net.calls.length ∧ args' = args) :
    Remote.Inv { D.setClerk c y with net := net } := by
  have hreach := kvNet_step (b := .Call _) h.reachable trivial hn
  cases (Network.moves_of_step hn).2 with
  | call =>
    have hcases : ∀ {k : ℕ} {x : Call ℕ ℕ Args String},
        (D.net.calls ++ [{ req := ⟨c, args.svcMeth, args⟩ }])[k]? = some x →
        D.net.calls[k]? = some x ∨
          k = D.net.calls.length ∧ x = { req := ⟨c, args.svcMeth, args⟩ } := by
      intro k x hk
      rcases Nat.lt_or_ge k D.net.calls.length with hlt | hge
      · rw [List.getElem?_append_left hlt] at hk
        exact .inl hk
      · rw [List.getElem?_append_right hge] at hk
        obtain ⟨hlt, rfl⟩ := List.getElem?_eq_some_iff.mp hk
        simp only [List.length_singleton] at hlt
        exact .inr ⟨by omega, List.mem_singleton.mp (List.getElem_mem _)⟩
    refine ⟨hreach, h.wired.call c args, ends_made h hc hy, fun k x hk hr => ?_,
      fun c' k args' hat => ?_, fun k x hk => ?_, fun k hk => ?_⟩
    · rcases hcases hk with hk | ⟨rfl, rfl⟩
      · have hat := h.current k x hk hr
        have hne : x.req.endname ≠ c := by
          intro heq
          exact hold k _ (heq ▸ hat)
        simpa [Remote.setClerk, hne] using hat
      · simpa [Remote.setClerk] using (hnew _ _).mpr ⟨rfl, rfl⟩
    · rcases eq_or_ne c' c with rfl | hne
      · obtain ⟨rfl, rfl⟩ := (hnew k args').mp (by simpa [Remote.setClerk] using hat)
        exact ⟨_, List.getElem?_concat_length, rfl, rfl⟩
      · obtain ⟨x, hx, hargs⟩ := h.called c' k args' (by simpa [Remote.setClerk, hne] using hat)
        exact ⟨x, by rw [List.getElem?_append_left (List.getElem?_eq_some_iff.mp hx).1, hx], hargs⟩
    · rcases hcases hk with hk | ⟨rfl, rfl⟩
      · exact h.handled k x hk
      · obtain ⟨hs, hcl⟩ := h.unused _ (Nat.le_refl _)
        exact .waiting (.inl rfl) hs hcl
    · rw [List.length_append] at hk
      exact h.unused k (by omega)

/-- What a returned call tells the clerk. -/
lemma Remote.Inv.handled_of_result (h : D.Inv) {rep : Option String} (hk : D.net.calls[k]? = some x)
    (hr : x.result = some rep) :
    x.thread.Settled ∧ Handled D.service (D.slots k) (D.cleared k) x.req.args x.thread ∧
      ∀ v, rep = some v → x.thread = .ended v := by
  have hok := ok_of_kvNet h.reachable hk
  refine ⟨(kept_of_kvNet h.reachable hk).settled_of_result hok hr, h.handled k x hk, ?_⟩
  rintro v rfl
  exact hok.ended_of_result hr

lemma exists_of_result? {rep : Option String} (hr : D.result? k = some rep) :
    ∃ x, D.net.calls[k]? = some x ∧ x.result = some rep := by
  unfold Remote.result? at hr
  split at hr
  · exact ⟨_, ‹_›, hr⟩
  · cases hr

/-- The `Call` of the clerk has returned. -/
lemma isSome_of_result? {rep : Option String} (hr : D.result? k = some rep)
    (hat : ∀ n args, (D.clerks c).At n args → n = k) :
    ∀ n args x, (D.clerks c).At n args → D.net.calls[n]? = some x → x.result.isSome := by
  intro n args x hn hx
  obtain rfl := hat n args hn
  obtain ⟨x', hx', hres⟩ := exists_of_result? hr
  cases hx.symm.trans hx'
  simp [hres]

lemma Remote.Inv.moves (h : D.Inv) {b : RemoteAction} (hm : D.Moves b D') : D'.Inv := by
  cases hm with
  | Reliable hn =>
    have hreach := kvNet_step (b := .Reliable _) h.reachable trivial hn
    cases (Network.moves_of_step hn).2
    exact ⟨hreach, ⟨h.wired.crashed, h.wired.objects, h.wired.servers, h.wired.routed,
      h.wired.methods⟩, h.ends, h.current, h.called, h.handled, h.unused⟩
  | makeClient hc hmake hconnect henable => exact h.makeClient hc hmake hconnect henable
  | deleteClient hc hn => exact h.deleteClient hc hn
  | invoke hc =>
    exact h.turn rfl rfl (by simp [hc]) (by simp) (by simp [hc, RemoteClerk.At])
      (by simp [RemoteClerk.At]) rfl rfl rfl
  | call hc hn | callDone hc hn =>
    exact h.call hn (by simp [hc]) (by simp) (by simp [hc, RemoteClerk.At])
      (by simp [RemoteClerk.At])
  | act hd hr hn =>
    refine h.act hn rfl (.refl _) (fun _ _ => ⟨rfl, rfl⟩) fun x x' hk hm => ?_
    rw [hm.req_eq]
    exact (h.handled _ x hk).act (ok_of_kvNet h.reachable hk) hm hd hr
  | @dispatch k x req net hk hreq hn =>
    refine h.act hn rfl (Service.Moves.grows (.deliver req)) (fun i hi => ?_) fun z z' hz hm => ?_
    · simp [hi]
    · cases hk.symm.trans hz
      cases hm with
      | dispatch =>
        rw [hreq]
        exact .running (Function.update_self _ _ _) List.getElem?_concat_length
  | @dispatchDone k id x net hk hreq hn =>
    refine h.act hn rfl (.refl _) (fun _ _ => ⟨rfl, rfl⟩) fun z z' hz hm => ?_
    cases hk.symm.trans hz
    cases hm with
    | dispatch ht =>
      have hh := h.handled k x hk
      rw [hreq, ht] at hh
      rw [hreq]
      cases hh with
      | waiting _ hs => exact .clearing hs
      | cleared ht => simp at ht
  | load hS =>
    have hgrows := (Service.moves_of_step (a := .load _) hS).grows
    exact h.serve rfl rfl (fun k x hk => (h.handled k x hk).grows hgrows) h.unused
  | modify hj hS =>
    have hgrows := (Service.moves_of_step (a := .modify _) hS).grows
    exact h.serve rfl rfl (fun k x hk => (h.handled k x hk).grows hgrows) h.unused
  | @done k id x hk hreq ht hc =>
    refine h.serve rfl rfl (fun i z hz => ?_) fun i hi => ?_
    · have hh := (h.handled i z hz).grows (Service.Moves.grows (.done id))
      rcases eq_or_ne i k with rfl | hne
      · cases hk.symm.trans hz
        rw [hreq, ht] at hh ⊢
        cases hh with
        | waiting ht => simp at ht
        | clearing hs => exact .clearing hs
        | cleared ht => simp at ht
      · simpa [hne] using hh
    · have hne : i ≠ k := by
        have := (List.getElem?_eq_some_iff.mp hk).1
        omega
      simpa [hne] using h.unused i hi
  | @return_ k j req v net hk hj hn =>
    refine h.act hn rfl (.refl _) (fun _ _ => ⟨rfl, rfl⟩) fun x x' hx hm => ?_
    cases hm with
    | return_ ht =>
      have hh := h.handled k x hx
      rw [ht, hk] at hh
      rw [hk]
      generalize x.req.args = args at hh
      cases hh with
      | waiting ht => simp at ht
      | running hs hj' =>
        cases hs
        cases hj.symm.trans hj'
        exact .replied (.inl rfl) rfl hj
      | replied ht => simp at ht
      | clearing hs => cases hs
      | cleared ht => simp at ht
  | @returnDone k net hk hc hn =>
    refine h.act hn rfl (.refl _) (fun _ _ => ⟨rfl, rfl⟩) fun x x' hx hm => ?_
    cases hm with
    | return_ ht =>
      have hh := h.handled k x hx
      rw [ht, hk, hc] at hh
      rw [hk, hc]
      generalize x.req.args = args at hh
      cases hh with
      | waiting ht => simp at ht
      | running hs => cases hs
      | replied ht => simp at ht
      | clearing => exact .cleared (.inl rfl) rfl rfl
      | cleared ht => simp at ht
  | succeed hc hr | fail hc hr | complete hc hr | failDone hc hr =>
    exact h.turn rfl rfl (by simp [hc]) (by simp)
      (isSome_of_result? hr (by simp [hc, RemoteClerk.At])) (by simp [RemoteClerk.At]) rfl rfl rfl

/-! ### Refinement -/

lemma System.step_of_moves {C C' : System} {b : SystemAction} (hm : C.Moves b C') :
    C.step b = some C' := by
  cases hm with
  | load hS =>
    cases hS with
    | hit hk hv => simp [System.step, Service.load, hk, hv]
    | miss hk hv => simp [System.step, Service.load, hk, hv]
  | modify hk => simp [System.step, Service.modify, hk]
  | succeed hc hk => simp [System.step, hc, hk]
  | invoke hc | send hc | fail hc | sendDone hc | failDone hc | complete hc =>
    simp [System.step, hc]

/-- What a clerk is to the server. -/
def RemoteClerk.clerk (slots : ℕ → Option ℕ) (cleared : ℕ → Bool) : RemoteClerk → Clerk
  | .absent => .idle
  | .idle => .idle
  | .calling req none => .calling req none
  | .calling req (some k) => .calling req (slots k)
  | .finishing req v none => .finishing req v false
  | .finishing req v (some k) => .finishing req v (cleared k)

/-- The system without its network. -/
def Remote.system (D : Remote) : System where
  service := D.service
  clerks c := (D.clerks c).clerk D.slots D.cleared
  history := D.history

lemma Remote.system_clerks {x : RemoteClerk} (hc : D.clerks c = x) :
    D.system.clerks c = x.clerk D.slots D.cleared :=
  congrArg (RemoteClerk.clerk D.slots D.cleared) hc

/-- One clerk is something else to the server than before. -/
lemma Remote.system_eq {z : Clerk} (hself : D'.system.clerks c = z)
    (hother : ∀ c' ≠ c, D'.system.clerks c' = D.system.clerks c') :
    D'.system = { D.system.setClerk c z with service := D'.service, history := D'.history } := by
  have hclerks : D'.system.clerks = Function.update D.system.clerks c z := by
    funext c'
    rcases eq_or_ne c' c with rfl | hne
    · rw [hself, Function.update_self]
    · rw [hother c' hne, Function.update_of_ne hne]
  simp only [System.setClerk, ← hclerks]
  rfl

lemma Remote.system_setClerk (hclerks : D'.clerks = Function.update D.clerks c y)
    (hslots : D'.slots = D.slots) (hcleared : D'.cleared = D.cleared) :
    D'.system =
      { D.system.setClerk c (y.clerk D.slots D.cleared) with
        service := D'.service
        history := D'.history } := by
  refine system_eq ?_ fun c' hne => ?_
  · rw [system_clerks rfl, hclerks, hslots, hcleared, Function.update_self]
  · rw [system_clerks rfl, hclerks, hslots, hcleared, Function.update_of_ne hne]
    rfl

lemma Remote.moves_of_eq {C : System} {b : SystemAction} (h : D'.system = C)
    (hm : D.system.Moves b C) : D.system.Moves b D'.system := by
  rw [h]
  exact hm

/-- A clerk is nothing else to the server than before. -/
lemma Remote.system_eq_self (hclerks : D'.clerks = Function.update D.clerks c y)
    (hslots : D'.slots = D.slots) (hcleared : D'.cleared = D.cleared)
    (hservice : D'.service = D.service) (hhistory : D'.history = D.history)
    (hc : D.system.clerks c = y.clerk D.slots D.cleared) : D'.system = D.system := by
  rw [system_setClerk hclerks hslots hcleared, System.setClerk, ← hc, Function.update_eq_self,
    hservice, hhistory]
  rfl

lemma clerk_update_slots {slots : ℕ → Option ℕ} {cleared : ℕ → Bool} {o : Option ℕ}
    (h : ∀ args, ¬y.At k args) :
    y.clerk (Function.update slots k o) cleared = y.clerk slots cleared := by
  rcases y with _ | _ | ⟨req, _ | n⟩ | ⟨req, v, _ | n⟩
  all_goals try rfl
  have hne : n ≠ k := by
    rintro rfl
    exact h (.op req) ⟨rfl, rfl⟩
  simp [RemoteClerk.clerk, hne]

lemma clerk_update_cleared {slots : ℕ → Option ℕ} {cleared : ℕ → Bool} {b : Bool}
    (h : ∀ args, ¬y.At k args) :
    y.clerk slots (Function.update cleared k b) = y.clerk slots cleared := by
  rcases y with _ | _ | ⟨req, _ | n⟩ | ⟨req, v, _ | n⟩
  all_goals try rfl
  have hne : n ≠ k := by
    rintro rfl
    exact h (.done req.id) ⟨rfl, rfl⟩
  simp [RemoteClerk.clerk, hne]

/-- No other clerk is in a call than the one whose end it is made over. -/
lemma Remote.Inv.not_at (h : D.Inv) (hk : D.net.calls[k]? = some x) (hc : c ≠ x.req.endname)
    (args : Args) : ¬(D.clerks c).At k args := by
  intro hat
  obtain ⟨z, hz, hzc, -⟩ := h.called c k args hat
  cases hz.symm.trans hk
  exact hc hzc.symm

/-- A clerk whose call is handled by a method of the store. -/
lemma eq_calling {req : Request} (hat : y.At k (.op req)) : y = .calling req (some k) := by
  rcases y with _ | _ | ⟨req', _ | n⟩ | ⟨req', v, _ | n⟩
  case calling.some =>
    obtain ⟨rfl, heq⟩ := hat
    cases heq
    rfl
  case finishing.some =>
    obtain ⟨-, heq⟩ := hat
    cases heq
  all_goals exact hat.elim

lemma exists_eq_finishing {id : ℕ} (hat : y.At k (.done id)) :
    ∃ req v, y = .finishing req v (some k) ∧ req.id = id := by
  rcases y with _ | _ | ⟨req', _ | n⟩ | ⟨req', v, _ | n⟩
  case calling.some =>
    obtain ⟨-, heq⟩ := hat
    cases heq
  case finishing.some =>
    obtain ⟨rfl, heq⟩ := hat
    cases heq
    exact ⟨req', v, rfl, rfl⟩
  all_goals exact hat.elim

/-- The handler of a request starts: it arrives. -/
lemma Remote.Inv.dispatch_system (h : D.Inv) {req : Request} {net : Network ℕ ℕ Args String}
    (hk : D.net.calls[k]? = some x) (hreq : x.req.args = .op req)
    (hn : D.net.step (.act k .dispatch) = some net) :
    D.system.Moves (.send x.req.endname) (Remote.system
      { D with
        net := net
        service := D.service.deliver req
        slots := Function.update D.slots k (some D.service.deliveries.length) }) := by
  obtain ⟨z, z', hz, hm, -⟩ := act_of_step hn
  cases hz.symm.trans hk
  cases hm with
  | dispatch ht =>
    have hcurrent := h.current k x hk (result_eq_none h.reachable hk (by simp [ht, Thread.Settled]))
    rw [hreq] at hcurrent
    have hclerk := eq_calling hcurrent
    have hslot : D.slots k = none := by
      have hh := h.handled k x hk
      rw [ht] at hh
      generalize x.req.args = args at hh
      cases hh with
      | waiting _ hs => exact hs
      | replied ht => simp at ht
      | cleared ht => simp at ht
    have hsystem : D.system.clerks x.req.endname = .calling req none := by
      simp [Remote.system, hclerk, RemoteClerk.clerk, hslot]
    refine moves_of_eq (system_eq ?_ fun c hne => clerk_update_slots (h.not_at hk hne))
      (.send hsystem)
    simp only [Remote.system, hclerk, RemoteClerk.clerk, Function.update_self]

/-- The handler of `Done` runs. -/
lemma Remote.Inv.done_system (h : D.Inv) {id : ℕ} (hk : D.net.calls[k]? = some x)
    (hreq : x.req.args = .done id) (ht : x.thread = .running) (hc : D.cleared k = false) :
    D.system.Moves (.sendDone x.req.endname) (Remote.system
      { D with
        service := D.service.done id
        cleared := Function.update D.cleared k true }) := by
  have hcurrent := h.current k x hk (result_eq_none h.reachable hk (by simp [ht, Thread.Settled]))
  rw [hreq] at hcurrent
  obtain ⟨req, v, hclerk, rfl⟩ := exists_eq_finishing hcurrent
  have hsystem : D.system.clerks x.req.endname = .finishing req v false := by
    simp [Remote.system, hclerk, RemoteClerk.clerk, hc]
  refine moves_of_eq (system_eq ?_ fun c hne => clerk_update_cleared (h.not_at hk hne))
    (.sendDone hsystem)
  simp only [Remote.system, hclerk, RemoteClerk.clerk, Function.update_self]

/-- The handler whose reply a clerk has got has ended. -/
lemma Remote.Inv.replied_of_result (h : D.Inv) {req : Request} {rep : Option String}
    (hc : D.clerks c = .calling req (some k)) (hr : D.result? k = some rep) :
    (∀ j, D.slots k = some j → ∃ v, D.service.deliveries[j]? = some ⟨req, .replied v⟩) ∧
      ∀ v, rep = some v → ∃ j, D.slots k = some j ∧
        D.service.deliveries[j]? = some ⟨req, .replied v⟩ := by
  obtain ⟨x, hk, hargs⟩ : ∃ x, D.net.calls[k]? = some x ∧ x.req.args = .op req := by
    obtain ⟨x, hk, -, hargs⟩ := h.called c k (.op req) (by simp [hc, RemoteClerk.At])
    exact ⟨x, hk, hargs⟩
  obtain ⟨x', hk', hres⟩ := exists_of_result? hr
  cases hk.symm.trans hk'
  obtain ⟨hsettled, hh, hended⟩ := h.handled_of_result hk hres
  rw [hargs] at hh
  refine ⟨fun j hj => ?_, fun v hv => ?_⟩
  · generalize x.thread = t at hh hsettled
    rw [hj] at hh
    cases hh with
    | waiting _ hs => cases hs
    | running => exact hsettled.elim
    | replied _ hs hj =>
      cases hs
      exact ⟨_, hj⟩
  · rw [hended v hv] at hh
    cases hh with
    | waiting ht => simp at ht
    | replied ht hs hj =>
      obtain rfl : v = _ := by simpa using ht
      exact ⟨_, hs, hj⟩

/-- The handler of a `Done` that has returned true has run. -/
lemma Remote.Inv.cleared_of_result (h : D.Inv) {req : Request} {v w : String}
    (hc : D.clerks c = .finishing req v (some k)) (hr : D.result? k = some (some w)) :
    D.cleared k = true := by
  obtain ⟨x, hk, -, hargs⟩ := h.called c k (.done req.id) (by simp [hc, RemoteClerk.At])
  obtain ⟨x', hk', hres⟩ := exists_of_result? hr
  cases hk.symm.trans hk'
  obtain ⟨-, hh, hended⟩ := h.handled_of_result hk hres
  rw [hargs, hended w rfl] at hh
  cases hh with
  | waiting ht => simp at ht
  | cleared _ _ hc => exact hc

/-- The ids of the clerks are new. -/
def FreshIds (D : Remote) : RemoteAction → Prop
  | .invoke _ _ id => ∀ i, .call id i ∉ D.history
  | _ => True

/-- A step over the network is one of clerks and server, or nothing to them. -/
lemma Remote.Inv.refines (h : D.Inv) {b : RemoteAction} (hP : FreshIds D b) (hm : D.Moves b D') :
    D'.system = D.system ∨ ∃ b', Settles D.system b' ∧ D.system.Moves b' D'.system := by
  cases hm with
  | Reliable | act | dispatchDone | return_ | returnDone => exact .inl rfl
  | makeClient hc =>
    exact .inl (system_eq_self rfl rfl rfl rfl rfl (system_clerks (x := .absent) hc))
  | deleteClient hc =>
    exact .inl (system_eq_self rfl rfl rfl rfl rfl (system_clerks (x := .idle) hc))
  | call hc =>
    refine .inl (system_eq_self rfl rfl rfl rfl rfl ((system_clerks hc).trans ?_))
    rw [RemoteClerk.clerk, RemoteClerk.clerk, (h.unused _ (Nat.le_refl _)).1]
  | callDone hc =>
    refine .inl (system_eq_self rfl rfl rfl rfl rfl ((system_clerks hc).trans ?_))
    rw [RemoteClerk.clerk, RemoteClerk.clerk, (h.unused _ (Nat.le_refl _)).2]
  | @invoke c id inv hc =>
    refine .inr ⟨.invoke c inv id, hP, ?_⟩
    exact moves_of_eq (system_setClerk rfl rfl rfl) (.invoke (system_clerks hc))
  | @dispatch k x req net hk hreq hn =>
    exact .inr ⟨.send x.req.endname, trivial, h.dispatch_system hk hreq hn⟩
  | @done k id x hk hreq ht hc =>
    exact .inr ⟨.sendDone x.req.endname, trivial, h.done_system hk hreq ht hc⟩
  | @load j S hS =>
    exact .inr ⟨.load j, trivial, .load (Service.moves_of_step (a := .load j) hS)⟩
  | @modify j req pc S hj hS =>
    cases Service.moves_of_step (a := .modify j) hS with
    | modify hj' =>
      cases hj.symm.trans hj'
      exact .inr ⟨.modify j, trivial, .modify hj⟩
  | @succeed c k req v hc hr =>
    obtain ⟨j, hslot, hj⟩ := (h.replied_of_result hc hr).2 v rfl
    have hsystem : D.system.clerks c = .calling req (some j) := by
      rw [system_clerks hc, RemoteClerk.clerk, hslot]
    refine .inr ⟨.succeed c, trivial, ?_⟩
    exact moves_of_eq (system_setClerk rfl rfl rfl) (.succeed hsystem hj)
  | @fail c k req hc hr =>
    refine .inr ⟨.fail c, fun req' j d hclerk hd => ?_, ?_⟩
    · rw [system_clerks hc, RemoteClerk.clerk] at hclerk
      injection hclerk with hreq hslot
      obtain ⟨v, hv⟩ := (h.replied_of_result hc hr).1 j hslot
      cases hd.symm.trans hv
      exact ⟨v, rfl⟩
    · exact moves_of_eq (system_setClerk rfl rfl rfl) (.fail (system_clerks hc))
  | @complete c k req v w hc hr =>
    have hsystem : D.system.clerks c = .finishing req v true := by
      rw [system_clerks hc, RemoteClerk.clerk, h.cleared_of_result hc hr]
    refine .inr ⟨.complete c, trivial, ?_⟩
    exact moves_of_eq (system_setClerk rfl rfl rfl) (.complete hsystem)
  | @failDone c k req v hc hr =>
    refine .inr ⟨.failDone c, trivial, ?_⟩
    exact moves_of_eq (system_setClerk rfl rfl rfl) (.failDone (system_clerks hc))

end Inv

lemma Remote.inv_initial : Remote.initial.Inv where
  reachable := by
    have hmake : kvNet.Reachable (.MakeNetwork : Network ℕ ℕ Args String) := .of_init rfl
    have hserver := kvNet_step (b := .MakeServer kvService) hmake trivial rfl
    exact kvNet_step (b := .AddServer 0 0) hserver (by rintro _ ⟨⟩) rfl
  wired := by
    refine ⟨rfl, ⟨0, rfl⟩, fun n s hs => ?_, by rintro _ ⟨⟩, by rintro _ ⟨⟩⟩
    rcases eq_or_ne n 0 with rfl | hne
    · cases hs
      rfl
    · simp [initial, makeConfig, hne] at hs
  ends c := by simp [initial, makeConfig, Network.MakeNetwork]
  current k x hk := by cases hk
  called c k args hat := hat.elim
  handled k x hk := by cases hk
  unused k _ := ⟨rfl, rfl⟩

/-- The system over the network is one of clerks and server. -/
lemma remote_refines {D : Remote} {past : List Remote} (h : remote.Run FreshIds (D :: past)) :
    D.Inv ∧ ∃ past, kvsrv.Run Settles (D.system :: past) := by
  have hsim := Machine.simulate (N := kvsrv.guarded Settles) (R := fun D C => D.Inv ∧ C = D.system)
    ?_ ?_ h
  · obtain ⟨_, ⟨past, hrun⟩, hinv, rfl⟩ := hsim
    exact ⟨hinv, past, hrun.of_guarded⟩
  · rintro _ rfl
    exact ⟨.initial, rfl, Remote.inv_initial, rfl⟩
  · rintro D past b D' _ - - ⟨hinv, rfl⟩ hP hn
    have hm := Remote.moves_of_step hn
    refine ⟨D'.system, ?_, hinv.moves hm, rfl⟩
    rcases hinv.refines hP hm with heq | ⟨b', hS, hb'⟩
    · rw [heq]
      exact .refl _
    · exact .single b' ⟨hS, System.step_of_moves hb'⟩

/-- Over the network, too, the histories of clerks and server are linearizable: with new ids, and
whatever the network loses, delays or reorders, the system does what clerks and server alone can do
if a failed call has not run its handler or has run it to its end. No step ends in a fatal error. -/
theorem linearizable_over_network {D : Remote} {past : List Remote}
    (h : remote.Run FreshIds (D :: past)) :
    D.net.crashed = false ∧ (∃ past, kvsrv.Run Settles (D.system :: past)) ∧
      Linearizable kvModel D.history := by
  obtain ⟨hinv, past', hrun⟩ := remote_refines h
  obtain ⟨t, hreach, hC⟩ := kvsrv_serves hrun
  have hlin := Atomic.linearizable_of_reachable hreach
  rw [hC.history] at hlin
  exact ⟨hinv.wired.crashed, ⟨past', hrun⟩, hlin⟩

/-- `FreshIds`, to be evaluated. -/
def freshIds (D : Remote) : RemoteAction → Bool
  | .invoke _ _ id => D.history.all fun e => e.id ≠ id
  | _ => true

lemma freshIds_sound (D : Remote) (a : RemoteAction) (h : freshIds D a = true) : FreshIds D a := by
  cases a with
  | invoke c inv id =>
    intro i hi
    simp only [freshIds, List.all_eq_true] at h
    simpa [Event.id] using h _ hi
  | _ => trivial

/-- A clerk appends; the reply to its first call is lost, so that the handler runs twice. -/
def droppedReply : List RemoteAction :=
  [.Reliable false, .makeClient 0, .invoke 0 (.Append "k" "x") 7,
    .Call 0, .act 0 .receive, .act 0 .read, .act 0 .spawn, .dispatch 0, .load 0, .modify 0,
    .return_ 0, .act 0 .answer, .act 0 (.conclude true), .act 0 .reply, .resume 0,
    .Call 0, .act 1 .receive, .act 1 .read, .act 1 .spawn, .dispatch 1, .load 1,
    .return_ 1, .act 1 .answer, .act 1 (.conclude false), .act 1 .reply, .resume 0,
    .Call 0, .act 2 .receive, .act 2 .read, .act 2 .spawn, .dispatch 2, .done 2,
    .return_ 2, .act 2 .answer, .act 2 (.conclude false), .act 2 .reply, .resume 0]

theorem linearizable_droppedReply :
    ∃ D past, remote.Run FreshIds (D :: past) ∧
      D.history = [.call 7 ⟨3, "k", "x"⟩, .effect 7 ⟨3, "k", "x"⟩ ⟨""⟩, .ret 7 ⟨""⟩] ∧
      Linearizable kvModel D.history := by
  obtain ⟨D, past, hr, hhistory⟩ : ∃ D past, remote.Run FreshIds (D :: past) ∧
      D.history = [.call 7 ⟨3, "k", "x"⟩, .effect 7 ⟨3, "k", "x"⟩ ⟨""⟩, .ret 7 ⟨""⟩] :=
    Machine.exists_run_of_trace freshIds freshIds_sound droppedReply (by decide +kernel)
  exact ⟨D, past, hr, hhistory, (linearizable_over_network hr).2.2⟩

end KvSrv

end DistLabs
