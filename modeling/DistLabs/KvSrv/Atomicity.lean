import DistLabs.KvSrv.Clerk
import Mathlib.Data.Set.Card

/-!
# The service is atomic

As long as every `Call` settles, at most one delivery of a request is under way, and it belongs to
the clerk that waits for it. A request that has been taken has its reply in the cache until its
clerk has the reply.

The same holds the other way round: what is in the cache belongs to a clerk that has not been told
that its `Done` has run, since no update of a request runs after its clerk has the reply.
-/

namespace DistLabs

namespace KvSrv

open Atomic

def Clerk.request? : Clerk → Option Request
  | idle => none
  | calling req _ => some req
  | finishing req _ _ => some req

/-- A request whose clerk has no reply is new, or it has been taken and its reply is in the
cache. -/
inductive Standing (req : Request) (cached : Option String) : Stage KvInput KvOutput → Prop
  | new (h : cached = none) : Standing req cached (.called req.input)
  | taken {v : String} (h : cached = some v) :
      Standing req cached (.taken req.input (req.output v))

/-- What the stage of a request is, from where its delivery stands. -/
inductive Pc.Ok (req : Request) (cached : Option String) : Pc → Stage KvInput KvOutput → Prop
  | loading {st : Stage KvInput KvOutput} (h : Standing req cached st) :
      Pc.Ok req cached .loading st
  | missed : Pc.Ok req cached .missed (.called req.input)
  | replied {v : String} (h : cached = some v) :
      Pc.Ok req cached (.replied v) (.taken req.input (req.output v))

section Ok

variable {req : Request} {cached : Option String} {st : Stage KvInput KvOutput} {v : String}

lemma Pc.Ok.standing (h : Pc.Ok req cached .loading st) : Standing req cached st := by
  cases h with
  | loading h => exact h

lemma Pc.Ok.eq_called (h : Pc.Ok req cached .missed st) : st = .called req.input := by
  cases h with
  | missed => rfl

lemma Pc.Ok.eq_taken (h : Pc.Ok req cached (.replied v) st) :
    cached = some v ∧ st = .taken req.input (req.output v) := by
  cases h with
  | replied h => exact ⟨h, rfl⟩

/-- The lookup of a delivery. -/
lemma Standing.hit (h : Standing req cached st) (hv : cached = some v) :
    Pc.Ok req cached (.replied v) st := by
  cases h with
  | new hnone => cases hnone.symm.trans hv
  | taken hv' =>
    cases hv'.symm.trans hv
    exact .replied hv

lemma Standing.miss (h : Standing req cached st) (hv : cached = none) :
    Pc.Ok req cached .missed st := by
  cases h with
  | new => exact .missed
  | taken hv' => cases hv'.symm.trans hv

end Ok

/-- What the stage of a request is, from where its clerk stands. -/
inductive Clerk.Ok (S : Service) (stage : ℕ → Stage KvInput KvOutput) : Clerk → Prop
  | idle : Clerk.Ok S stage .idle
  | waiting {req : Request} (h : Standing req (S.kv.cache req.id) (stage req.id)) :
      Clerk.Ok S stage (.calling req none)
  | calling {req : Request} {k : ℕ} {pc : Pc} (hk : S.deliveries[k]? = some ⟨req, pc⟩)
      (h : pc.Ok req (S.kv.cache req.id) (stage req.id)) : Clerk.Ok S stage (.calling req (some k))
  | finishing {req : Request} {v : String} {ran : Bool}
      (h : stage req.id = .taken req.input (req.output v)) :
      Clerk.Ok S stage (.finishing req v ran)

/-- The simulation relation. -/
structure Serves (C : System) (t : Atomic.State ℕ KvInput KvOutput (String → String)) : Prop where
  object : t.object = C.service.kv.kvPair
  history : t.history = C.history
  clerks : ∀ c, (C.clerks c).Ok C.service t.stage
  cache : ∀ n, t.stage n = .unused → C.service.kv.cache n = none
  owner : ∀ k d, C.service.deliveries[k]? = some d →
    (∃ v, d.pc = .replied v) ∨ ∃ c, C.clerks c = .calling d.req (some k)
  distinct : ∀ c c' req req', (C.clerks c).request? = some req →
    (C.clerks c').request? = some req' → req.id = req'.id → c = c'

variable {C C' : System} {t t' : Atomic.State ℕ KvInput KvOutput (String → String)} {S S' : Service}
  {stage stage' : ℕ → Stage KvInput KvOutput} {x : Clerk} {c n : ℕ}

/-- A clerk whose request is not concerned. -/
lemma Clerk.Ok.congr (h : x.Ok S stage)
    (hstage : ∀ req, x.request? = some req → stage' req.id = stage req.id)
    (hcache : ∀ req, x.request? = some req → S'.kv.cache req.id = S.kv.cache req.id)
    (hdel : ∀ (req : Request) (k : ℕ) (pc : Pc), x.request? = some req →
      S.deliveries[k]? = some ⟨req, pc⟩ → S'.deliveries[k]? = some ⟨req, pc⟩) :
    x.Ok S' stage' := by
  cases h with
  | idle => exact .idle
  | waiting h =>
    refine .waiting ?_
    rwa [hstage _ rfl, hcache _ rfl]
  | calling hk h =>
    refine .calling (hdel _ _ _ rfl hk) ?_
    rwa [hstage _ rfl, hcache _ rfl]
  | finishing h => exact .finishing ((hstage _ rfl).trans h)

/-- The request of a clerk has been called and has not returned. -/
lemma Clerk.Ok.stage_eq (h : x.Ok S stage) {req : Request} (hreq : x.request? = some req) :
    stage req.id = .called req.input ∨ ∃ o, stage req.id = .taken req.input o := by
  have hstanding : ∀ {cached : Option String} {st : Stage KvInput KvOutput},
      Standing req cached st → st = .called req.input ∨ ∃ o, st = .taken req.input o := by
    intro cached st hst
    cases hst with
    | new => exact .inl rfl
    | taken => exact .inr ⟨_, rfl⟩
  cases h with
  | idle => cases hreq
  | waiting h =>
    cases hreq
    exact hstanding h
  | calling hk h =>
    cases hreq
    generalize stage req.id = st at h ⊢
    cases h with
    | loading h => exact hstanding h
    | missed => exact .inl rfl
    | replied => exact .inr ⟨_, rfl⟩
  | finishing h =>
    cases hreq
    exact .inr ⟨_, h⟩

lemma Clerk.Ok.stage_ne (h : x.Ok S stage) {req : Request} (hreq : x.request? = some req) :
    stage req.id ≠ .unused := by
  rcases h.stage_eq hreq with hst | ⟨o, hst⟩ <;> simp [hst]

/-- A step of clerk `c`, whose request has id `n`, or of its delivery: what it has to show. -/
lemma Serves.perform (h : Serves C t)
    (hn : ∀ c' ≠ c, ∀ req, (C.clerks c').request? = some req → req.id ≠ n)
    (hc : ∀ req, (C.clerks c).request? = some req → req.id = n)
    (hx : ∀ req, x.request? = some req → req.id = n)
    (hclerks : C'.clerks = Function.update C.clerks c x)
    (hobject : t'.object = C'.service.kv.kvPair) (hhistory : t'.history = C'.history)
    (hok : x.Ok C'.service t'.stage)
    (hstage : ∀ m, m ≠ n → t'.stage m = t.stage m) (hused : t'.stage n ≠ .unused)
    (hcache : ∀ m, m ≠ n → C'.service.kv.cache m = C.service.kv.cache m)
    (hdel : ∀ (k : ℕ) (d : Delivery), d.req.id ≠ n →
      (C'.service.deliveries[k]? = some d ↔ C.service.deliveries[k]? = some d))
    (howner : ∀ (k : ℕ) (d : Delivery), C'.service.deliveries[k]? = some d → d.req.id = n →
      (∃ v, d.pc = .replied v) ∨ x = .calling d.req (some k)) : Serves C' t' := by
  refine ⟨hobject, hhistory, fun c' => ?_, fun m hm => ?_, fun k d hk => ?_, ?_⟩
  · rw [hclerks]
    rcases eq_or_ne c' c with rfl | hne
    · rwa [Function.update_self]
    · rw [Function.update_of_ne hne]
      have hid := hn c' hne
      exact (h.clerks c').congr (fun req hr => hstage _ (hid req hr))
        (fun req hr => hcache _ (hid req hr))
        (fun req k pc hr hk => (hdel k ⟨req, pc⟩ (hid req hr)).mpr hk)
  · have hne : m ≠ n := by
      rintro rfl
      exact hused hm
    rw [hcache m hne]
    exact h.cache m (hstage m hne ▸ hm)
  · rw [hclerks]
    rcases eq_or_ne d.req.id n with hid | hid
    · exact (howner k d hk hid).imp_right fun hx => ⟨c, by rw [Function.update_self, hx]⟩
    · refine (h.owner k d ((hdel k d hid).mp hk)).imp_right fun ⟨c', hc'⟩ => ⟨c', ?_⟩
      rw [Function.update_of_ne, hc']
      rintro rfl
      exact hid (hc d.req (by rw [hc', Clerk.request?]))
  · intro c₁ c₂ req₁ req₂ h₁ h₂ heq
    rw [hclerks] at h₁ h₂
    rcases eq_or_ne c₁ c with rfl | hne₁
    · rcases eq_or_ne c₂ c₁ with rfl | hne₂
      · rfl
      · rw [Function.update_self] at h₁
        rw [Function.update_of_ne hne₂] at h₂
        exact absurd (heq.symm.trans (hx req₁ h₁)) (hn c₂ hne₂ req₂ h₂)
    · rw [Function.update_of_ne hne₁] at h₁
      rcases eq_or_ne c₂ c with rfl | hne₂
      · rw [Function.update_self] at h₂
        exact absurd (heq.trans (hx req₂ h₂)) (hn c₁ hne₁ req₁ h₁)
      · rw [Function.update_of_ne hne₂] at h₂
        exact h.distinct c₁ c₂ req₁ req₂ h₁ h₂ heq

lemma id_eq_of_request {y : Option Request} {req : Request} (h : y = some req) :
    ∀ req', y = some req' → req'.id = req.id := by
  rintro req' h'
  cases h.symm.trans h'
  rfl

lemma Serves.others (h : Serves C t) {req : Request} (hreq : (C.clerks c).request? = some req) :
    ∀ c' ≠ c, ∀ req', (C.clerks c').request? = some req' → req'.id ≠ req.id :=
  fun c' hne req' hreq' heq => hne (h.distinct c' c req' req hreq' hreq heq)

/-- A delivery of the request of clerk `c` has replied, or the clerk waits for it. -/
lemma Serves.owner_of_request (h : Serves C t) {req : Request}
    (hreq : (C.clerks c).request? = some req) {k : ℕ} {d : Delivery}
    (hk : C.service.deliveries[k]? = some d) (hid : d.req.id = req.id) :
    (∃ v, d.pc = .replied v) ∨ C.clerks c = .calling d.req (some k) := by
  refine (h.owner k d hk).imp_right fun ⟨c', hc'⟩ => ?_
  obtain rfl : c' = c := h.distinct c' c d.req req (by rw [hc', Clerk.request?]) hreq hid
  exact hc'

lemma Invocation.request_id (inv : Invocation) (id : ℕ) : (inv.request id).id = id := by
  cases inv <;> rfl

/-- A new operation. -/
lemma Serves.invoke (h : Serves C t) (hreach : (machine kvModel).Reachable t) {inv : Invocation}
    {id : ℕ} (hid : ∀ i, .call id i ∉ C.history) (hc : C.clerks c = .idle) :
    ∃ t', (machine kvModel).Steps t t' ∧
      Serves { C.setClerk c (.calling (inv.request id) none) with
        history := C.history ++ [.call id (inv.request id).input] } t' := by
  have hunused : t.stage id = .unused :=
    (inv_of_reachable hreach).stage_eq_unused (h.history ▸ hid)
  have hfree : ∀ c' req, (C.clerks c').request? = some req → req.id ≠ id := by
    rintro c' req hreq rfl
    exact (h.clerks c').stage_ne hreq hunused
  refine ⟨_, .single () (Step.call (inv.request id).input hunused), ?_⟩
  refine h.perform (c := c) (n := id) (fun c' _ => hfree c') (by simp [hc, Clerk.request?]) ?_ rfl
    h.object (by rw [h.history]) ?_ (fun m hm => Function.update_of_ne hm _ _) (by simp)
    (fun _ _ => rfl) (fun _ _ _ => Iff.rfl) ?_
  · rintro req ⟨⟩
    exact inv.request_id id
  · refine .waiting ?_
    simp only [inv.request_id, Function.update_self]
    exact .new (h.cache id hunused)
  · intro k d hk hd
    refine (h.owner k d hk).imp_right fun ⟨c', hc'⟩ => ?_
    exact absurd hd (hfree c' d.req (by rw [hc', Clerk.request?]))

/-- A step of the clerk, or the server under it, that the atomic object does not see. -/
lemma Serves.stutter (h : Serves C t) {req : Request} (hreq : (C.clerks c).request? = some req)
    (hx : x.request? = some req) (hclerks : C'.clerks = Function.update C.clerks c x)
    (hkv : C'.service.kv.kvPair = C.service.kv.kvPair) (hhistory : C'.history = C.history)
    (hok : x.Ok C'.service t.stage)
    (hcache : ∀ m, m ≠ req.id → C'.service.kv.cache m = C.service.kv.cache m)
    (hdel : ∀ (k : ℕ) (d : Delivery), d.req.id ≠ req.id →
      (C'.service.deliveries[k]? = some d ↔ C.service.deliveries[k]? = some d))
    (howner : ∀ (k : ℕ) (d : Delivery), C'.service.deliveries[k]? = some d → d.req.id = req.id →
      (∃ v, d.pc = .replied v) ∨ x = .calling d.req (some k)) : Serves C' t := by
  exact h.perform (h.others hreq) (id_eq_of_request hreq) (id_eq_of_request hx) hclerks
    (h.object.trans hkv.symm) (h.history.trans hhistory.symm) hok (fun _ _ => rfl)
    ((h.clerks c).stage_ne hreq) hcache hdel howner

/-- The request arrives. -/
lemma Serves.send (h : Serves C t) {req : Request} (hc : C.clerks c = .calling req none) :
    Serves { C.setClerk c (.calling req (some C.service.deliveries.length)) with
      service := C.service.deliver req } t := by
  have hreq : (C.clerks c).request? = some req := by rw [hc, Clerk.request?]
  have hnew : ∀ (k : ℕ) (d : Delivery), (C.service.deliver req).deliveries[k]? = some d →
      C.service.deliveries[k]? = some d ∨
        k = C.service.deliveries.length ∧ d = ⟨req, .loading⟩ := by
    intro k d hk
    simp only [Service.deliver, List.getElem?_append] at hk
    split_ifs at hk with hlt
    · exact .inl hk
    · rw [List.getElem?_singleton] at hk
      split_ifs at hk with h0
      cases hk
      exact .inr ⟨by omega, rfl⟩
  have hself : (C.service.deliver req).deliveries[C.service.deliveries.length]? =
      some ⟨req, .loading⟩ := by
    simp [Service.deliver]
  refine h.stutter hreq rfl rfl rfl rfl (.calling hself ?_) (fun _ _ => rfl)
    (fun k d hid => ⟨fun hk => ?_, fun hk => ?_⟩) (fun k d hk hid => ?_)
  · have hok := h.clerks c
    rw [hc] at hok
    cases hok with
    | waiting hst => exact .loading hst
  · rcases hnew k d hk with hk | ⟨-, rfl⟩
    · exact hk
    · exact absurd rfl hid
  · exact (List.getElem?_append_left (List.getElem?_eq_some_iff.mp hk).1).trans hk
  · rcases hnew k d hk with hk | ⟨rfl, rfl⟩
    · refine .inl ((h.owner_of_request hreq hk hid).resolve_right fun hcall => ?_)
      rw [hc] at hcall
      cases hcall
    · exact .inr rfl

/-- `Call` returns. The delivery, if there is one, has replied. -/
lemma Serves.settle (h : Serves C t) {req : Request} {k : Option ℕ}
    (hc : C.clerks c = .calling req k) (hx : x.request? = some req)
    (hk : ∀ j d, k = some j → C.service.deliveries[j]? = some d → ∃ v, d.pc = .replied v)
    (hok : x.Ok C.service t.stage) : Serves (C.setClerk c x) t := by
  have hreq : (C.clerks c).request? = some req := by rw [hc, Clerk.request?]
  refine h.stutter hreq hx rfl rfl rfl hok (fun _ _ => rfl) (fun _ _ _ => Iff.rfl) ?_
  intro j d hj hid
  rcases h.owner_of_request hreq hj hid with hv | hcall
  · exact .inl hv
  · rw [hc] at hcall
    cases hcall
    exact .inl (hk j d rfl hj)

/-- A clerk that has its reply waits for no delivery. -/
lemma Serves.of_finishing (h : Serves C t) {req : Request} {v : String} {ran : Bool}
    (hc : C.clerks c = .finishing req v ran) :
    (C.clerks c).request? = some req ∧ t.stage req.id = .taken req.input (req.output v) ∧
      ∀ (k : ℕ) (d : Delivery), C.service.deliveries[k]? = some d → d.req.id = req.id →
        ∃ w, d.pc = .replied w := by
  have hreq : (C.clerks c).request? = some req := by rw [hc, Clerk.request?]
  refine ⟨hreq, ?_, fun k d hk hid => ?_⟩
  · have hok := h.clerks c
    rw [hc] at hok
    cases hok with
    | finishing hst => exact hst
  · refine (h.owner_of_request hreq hk hid).resolve_right fun hcall => ?_
    rw [hc] at hcall
    cases hcall

/-- The clerk that waits for a delivery, and what its stage is. -/
lemma Serves.waiting_clerk (h : Serves C t) {k : ℕ} {req : Request} {pc : Pc}
    (hk : C.service.deliveries[k]? = some ⟨req, pc⟩) (hpc : ∀ v, pc ≠ .replied v) :
    ∃ c, C.clerks c = .calling req (some k) ∧
      pc.Ok req (C.service.kv.cache req.id) (t.stage req.id) := by
  obtain ⟨c, hc⟩ := (h.owner k _ hk).resolve_left fun ⟨v, hv⟩ => hpc v hv
  refine ⟨c, hc, ?_⟩
  have hok := h.clerks c
  rw [hc] at hok
  cases hok with
  | calling hk' hpc' =>
    cases hk.symm.trans hk'
    exact hpc'

/-- A delivery whose clerk waits for it takes a step. -/
lemma Serves.setDelivery (h : Serves C t) {k : ℕ} {req : Request} {pc pc' : Pc}
    (hc : C.clerks c = .calling req (some k)) (hk : C.service.deliveries[k]? = some ⟨req, pc⟩)
    (hclerks : C'.clerks = C.clerks)
    (hobject : t'.object = C'.service.kv.kvPair) (hhistory : t'.history = C'.history)
    (hstage : ∀ m, m ≠ req.id → t'.stage m = t.stage m)
    (hcache : ∀ m, m ≠ req.id → C'.service.kv.cache m = C.service.kv.cache m)
    (hdel : C'.service.deliveries = C.service.deliveries.set k ⟨req, pc'⟩)
    (hpc : pc'.Ok req (C'.service.kv.cache req.id) (t'.stage req.id)) : Serves C' t' := by
  have hreq : (C.clerks c).request? = some req := by rw [hc, Clerk.request?]
  have hself : C'.service.deliveries[k]? = some ⟨req, pc'⟩ := by
    rw [hdel, List.getElem?_set_self (List.getElem?_eq_some_iff.mp hk).1]
  have hok : Clerk.Ok C'.service t'.stage (C.clerks c) := hc ▸ .calling hself hpc
  refine h.perform (x := C.clerks c) (h.others hreq) (id_eq_of_request hreq)
    (id_eq_of_request hreq) ?_ hobject hhistory hok hstage (hok.stage_ne hreq) hcache
    (fun j d hid => ?_) (fun j d hj hid => ?_)
  · rw [hclerks, Function.update_eq_self]
  · rcases eq_or_ne k j with rfl | hne
    · rw [hself, hk]
      constructor <;> rintro ⟨⟩ <;> exact absurd rfl hid
    · rw [hdel, List.getElem?_set_ne hne]
  · rcases eq_or_ne k j with rfl | hne
    · cases hself.symm.trans hj
      exact .inr hc
    · rw [hdel, List.getElem?_set_ne hne] at hj
      exact h.owner_of_request hreq hj hid

/-- An update runs: the operation is taken. -/
lemma Serves.modify (h : Serves C t) {k : ℕ} {req : Request}
    (hk : C.service.deliveries[k]? = some ⟨req, .missed⟩)
    (hkv : C'.service.kv = (C.service.kv.modifyFunc req).1)
    (hdel : C'.service.deliveries =
      C.service.deliveries.set k ⟨req, .replied (C.service.kv.modifyFunc req).2⟩)
    (hclerks : C'.clerks = C.clerks)
    (hhistory : C'.history = C.history ++
      [.effect req.id req.input (req.output (C.service.kv.modifyFunc req).2)]) :
    ∃ t', (machine kvModel).Steps t t' ∧ Serves C' t' := by
  obtain ⟨c, hc, hpc⟩ := h.waiting_clerk hk (by simp)
  have hst := hpc.eq_called
  have hmodel := C.service.kv.step_modifyFunc req
  rw [← h.object] at hmodel
  refine ⟨_, .single () (Step.effect (o := req.output (C.service.kv.modifyFunc req).2) hst
    (by rw [hmodel])), ?_⟩
  refine h.setDelivery hc hk hclerks (by rw [hmodel, hkv]) (by rw [hhistory, h.history])
    (fun m hm => Function.update_of_ne hm _ _) (fun m hm => ?_) hdel ?_
  · rw [hkv, KVServer.cache_modifyFunc, Function.update_of_ne hm]
  · simp only [Function.update_self, hkv, KVServer.cache_modifyFunc]
    exact .replied rfl

lemma Serves.moves (h : Serves C t) (hreach : (machine kvModel).Reachable t) {a : SystemAction}
    (hP : Settles C a) (hm : C.Moves a C') : ∃ t', (machine kvModel).Steps t t' ∧ Serves C' t' := by
  cases hm with
  | invoke hc => exact h.invoke hreach hP hc
  | send hc => exact ⟨t, .refl t, h.send hc⟩
  | @fail c req k hc =>
    have hk : ∀ j d, k = some j → C.service.deliveries[j]? = some d → ∃ v, d.pc = .replied v :=
      fun j d hkj hj => hP req j d (hkj ▸ hc) hj
    refine ⟨t, .refl t, h.settle hc rfl hk (.waiting ?_)⟩
    have hok := h.clerks c
    rw [hc] at hok
    cases hok with
    | waiting hst => exact hst
    | @calling _ j pc hj hpc =>
      obtain ⟨v, hv⟩ := hk j _ rfl hj
      cases hv
      obtain ⟨hcached, hst⟩ := hpc.eq_taken
      rw [hst]
      exact .taken hcached
  | @succeed c k req req' v hc hk =>
    refine ⟨t, .refl t, h.settle hc rfl (fun j d hkj hj => ?_) (.finishing ?_)⟩
    · cases hkj
      cases hk.symm.trans hj
      exact ⟨v, rfl⟩
    · have hok := h.clerks c
      rw [hc] at hok
      cases hok with
      | calling hj hpc =>
        cases hk.symm.trans hj
        exact hpc.eq_taken.2
  | load hS =>
    cases hS with
    | hit hk hv =>
      obtain ⟨c, hc, hpc⟩ := h.waiting_clerk hk (by simp)
      exact ⟨t, .refl t, h.setDelivery hc hk rfl h.object h.history (fun _ _ => rfl)
        (fun _ _ => rfl) rfl (hpc.standing.hit hv)⟩
    | miss hk hv =>
      obtain ⟨c, hc, hpc⟩ := h.waiting_clerk hk (by simp)
      exact ⟨t, .refl t, h.setDelivery hc hk rfl h.object h.history (fun _ _ => rfl)
        (fun _ _ => rfl) rfl (hpc.standing.miss hv)⟩
  | modify hk => exact h.modify hk rfl rfl rfl rfl
  | @sendDone c req v hc =>
    obtain ⟨hreq, hst, howner⟩ := h.of_finishing hc
    exact ⟨t, .refl t, h.stutter hreq rfl rfl rfl rfl (.finishing hst)
      (fun m hm => Function.update_of_ne hm _ _) (fun _ _ _ => Iff.rfl)
      (fun k d hk hid => .inl (howner k d hk hid))⟩
  | @failDone c req v ran hc =>
    obtain ⟨hreq, hst, howner⟩ := h.of_finishing hc
    exact ⟨t, .refl t, h.stutter hreq rfl rfl rfl rfl (.finishing hst) (fun _ _ => rfl)
      (fun _ _ _ => Iff.rfl) (fun k d hk hid => .inl (howner k d hk hid))⟩
  | @complete c req v hc =>
    obtain ⟨hreq, hst, howner⟩ := h.of_finishing hc
    refine ⟨_, .single () (Step.ret hst), ?_⟩
    exact h.perform (h.others hreq) (id_eq_of_request hreq) (by simp [Clerk.request?]) rfl h.object
      (by rw [h.history]) .idle (fun m hm => Function.update_of_ne hm _ _) (by simp)
      (fun _ _ => rfl) (fun _ _ _ => Iff.rfl) (fun k d hk hid => .inl (howner k d hk hid))

/-- Every run in which calls settle is a run of the atomic object. -/
lemma kvsrv_serves {past : List System} (h : kvsrv.Run Settles (C :: past)) :
    ∃ t, (machine kvModel).Reachable t ∧ Serves C t := by
  refine Machine.simulate ?_ ?_ h
  · rintro C rfl
    refine ⟨_, rfl, rfl, rfl, fun c => .idle, fun n _ => rfl, ?_, ?_⟩
    · simp [System.initial]
    · simp [System.initial, Clerk.request?]
  · intro C past a C' t _ hreach hC hP hnext
    exact hC.moves hreach hP (System.moves_of_step hnext)

/-- The service is linearizable and updates take effect once: in every run in which ids are distinct
and a `Call` that returns false has not run its handler or has run it to completion, the events of
every operation are its call, then one update, then its return, as far as it has got; the updates in
their order lead from the empty store to the contents of `kvPair`, with the outputs the register
model gives them; and the history of calls and returns is linearizable with respect to that
model. -/
theorem linearizable {past : List System} (h : kvsrv.Run Settles (C :: past)) :
    (∀ n, ∃ st : Stage KvInput KvOutput, (C.history.filter fun e => e.id = n) = st.trail n) ∧
      kvModel.run kvModel.init (effects C.history) = some C.service.kv.kvPair ∧
      Linearizable kvModel C.history := by
  obtain ⟨t, hreach, hC⟩ := kvsrv_serves h
  have hinv := inv_of_reachable hreach
  have hlin := linearizable_of_reachable hreach
  have hrun := hinv.run
  rw [hC.history] at hlin hrun
  rw [hC.object] at hrun
  refine ⟨fun n => ⟨t.stage n, ?_⟩, hrun, hlin⟩
  rw [← hinv.trail, hC.history]

/-- A check of `Settles`. -/
def settles (C : System) : SystemAction → Bool
  | .invoke _ _ id => C.history.all fun e => e.id ≠ id
  | .fail c =>
    match C.clerks c with
    | .calling _ (some k) =>
      C.service.deliveries[k]?.all fun d => d.pc ≠ .loading ∧ d.pc ≠ .missed
    | _ => true
  | _ => true

lemma settles_sound (C : System) (a : SystemAction) (h : settles C a = true) : Settles C a := by
  cases a with
  | invoke c inv id =>
    intro i hi
    simp only [settles, List.all_eq_true] at h
    simpa [Event.id] using h _ hi
  | fail c =>
    intro req k d hc hk
    simp only [settles, hc, hk, Option.all_some, decide_eq_true_eq] at h
    cases hpc : d.pc with
    | loading => exact absurd hpc h.1
    | missed => exact absurd hpc h.2
    | replied v => exact ⟨v, rfl⟩
  | _ => trivial

/-- Clerk 0 appends; the first reply is lost, and the second delivery finds it in the cache. Then
clerk 1 gets. -/
def lostReply : List SystemAction :=
  [.invoke 0 (.Append "k" "x") 7, .send 0, .load 0, .modify 0, .fail 0, .send 0, .load 1,
    .succeed 0, .sendDone 0, .complete 0, .invoke 1 (.Get "k") 8, .send 1, .load 2, .modify 2,
    .succeed 1, .sendDone 1, .complete 1]

/-- The two operations of that run are linearizable. -/
theorem linearizable_lostReply :
    ∃ C past, kvsrv.Run Settles (C :: past) ∧
      C.history =
        [.call 7 ⟨3, "k", "x"⟩, .effect 7 ⟨3, "k", "x"⟩ ⟨""⟩, .ret 7 ⟨""⟩, .call 8 ⟨0, "k", ""⟩,
          .effect 8 ⟨0, "k", ""⟩ ⟨"x"⟩, .ret 8 ⟨"x"⟩] ∧
      Linearizable kvModel C.history := by
  obtain ⟨C, past, hr, hC⟩ : ∃ C past, kvsrv.Run Settles (C :: past) ∧
      C.history =
        [.call 7 ⟨3, "k", "x"⟩, .effect 7 ⟨3, "k", "x"⟩ ⟨""⟩, .ret 7 ⟨""⟩, .call 8 ⟨0, "k", ""⟩,
          .effect 8 ⟨0, "k", ""⟩ ⟨"x"⟩, .ret 8 ⟨"x"⟩] :=
    Machine.exists_run_of_trace settles settles_sound lostReply (by decide +kernel)
  exact ⟨C, past, hr, hC, (linearizable hr).2.2⟩

/-! ### The reply cache -/

/-- The operations that have started and not returned. -/
def System.inProgress (C : System) : Set ℕ :=
  {n | (∃ i, .call n i ∈ C.history) ∧ ∀ o, .ret n o ∉ C.history}

lemma System.finite_inProgress (C : System) : C.inProgress.Finite := by
  refine (List.finite_toSet (C.history.map Event.id)).subset ?_
  rintro n ⟨⟨i, hi⟩, -⟩
  exact List.mem_map.mpr ⟨_, hi, rfl⟩

/-- The operation a clerk is at is in progress. -/
lemma Serves.mem_inProgress (h : Serves C t) (hreach : (machine kvModel).Reachable t)
    {req : Request} (hreq : (C.clerks c).request? = some req) : req.id ∈ C.inProgress := by
  have hmem := fun e => (inv_of_reachable hreach).mem_history (e := e)
  rw [h.history] at hmem
  rcases (h.clerks c).stage_eq hreq with hst | ⟨o, hst⟩
  all_goals
    refine ⟨⟨req.input, (hmem _).mpr ?_⟩, fun o' ho' => ?_⟩
    · simp [Event.id, hst, Stage.trail]
    · simpa [Event.id, hst, Stage.trail] using (hmem _).mp ho'

/-- The clerk is at operation `n`, and if it has its reply then `Done` has not run in its present
`Call`. -/
inductive Clerk.Holds : Clerk → ℕ → Prop
  | calling {req : Request} {k : Option ℕ} : Holds (.calling req k) req.id
  | finishing {req : Request} {v : String} : Holds (.finishing req v false) req.id

lemma Clerk.Holds.exists_request (h : x.Holds n) :
    ∃ req, x.request? = some req ∧ req.id = n := by
  cases h with
  | calling => exact ⟨_, rfl, rfl⟩
  | finishing => exact ⟨_, rfl, rfl⟩

/-- Every id in the cache has a clerk. -/
def Held (C : System) : Prop := ∀ n, C.service.kv.cache n ≠ none → ∃ c, (C.clerks c).Holds n

/-- A step of clerk `c` that puts nothing into the cache. -/
lemma Held.setClerk (h : Held C) (hclerks : C'.clerks = Function.update C.clerks c x)
    (hcache : ∀ n, C'.service.kv.cache n ≠ none → C.service.kv.cache n ≠ none ∧
      ((C.clerks c).Holds n → x.Holds n)) : Held C' := by
  intro n hn
  obtain ⟨hcached, hx⟩ := hcache n hn
  obtain ⟨c', hc'⟩ := h n hcached
  refine ⟨c', ?_⟩
  rw [hclerks]
  rcases eq_or_ne c' c with rfl | hne
  · rw [Function.update_self]
    exact hx hc'
  · rwa [Function.update_of_ne hne]

lemma Held.moves (h : Held C) (hC : Serves C t) {a : SystemAction} (hm : C.Moves a C') :
    Held C' := by
  cases hm with
  | invoke hc =>
    refine h.setClerk rfl fun n hn => ⟨hn, fun hold => ?_⟩
    rw [hc] at hold
    cases hold
  | send hc | fail hc | succeed hc =>
    refine h.setClerk rfl fun n hn => ⟨hn, fun hold => ?_⟩
    rw [hc] at hold
    cases hold
    constructor
  | load hS =>
    cases hS with
    | hit | miss => exact h
  | @modify k req hk =>
    obtain ⟨c, hc, -⟩ := hC.waiting_clerk hk (by simp)
    intro n hn
    rcases eq_or_ne n req.id with rfl | hne
    · exact ⟨c, hc ▸ .calling⟩
    · rw [KVServer.cache_modifyFunc, Function.update_of_ne hne] at hn
      exact h n hn
  | @sendDone c req v hc =>
    refine h.setClerk rfl fun n hn => ?_
    -- the entry of this operation is gone
    have hne : n ≠ req.id := by
      rintro rfl
      exact hn (Function.update_self _ _ _)
    refine ⟨fun hnone => hn ((Function.update_of_ne hne _ _).trans hnone), fun hold => ?_⟩
    rw [hc] at hold
    cases hold
    exact absurd rfl hne
  | failDone hc =>
    refine h.setClerk rfl fun n hn => ⟨hn, fun hold => ?_⟩
    rw [hc] at hold
    cases hold
    constructor
  | complete hc =>
    refine h.setClerk rfl fun n hn => ⟨hn, fun hold => ?_⟩
    rw [hc] at hold
    cases hold

lemma kvsrv_held {past : List System} (h : kvsrv.Run Settles (C :: past)) : Held C := by
  refine h.invariant (I := Held) ?_ ?_ C List.mem_cons_self
  · rintro C rfl n hn
    exact absurd rfl hn
  · intro C past a C' hr _ hC hnext
    obtain ⟨t, -, hserves⟩ := kvsrv_serves hr
    exact hC.moves hserves (System.moves_of_step hnext)

/-- The cache holds only calls in progress: in every run in which ids are distinct and a `Call` that
returns false has not run its handler or has run it to completion, every id in the cache is that of
an operation some clerk is at, which has started and not returned. So the cache has at most as many
entries as there are operations in progress, and it is empty when there are none. -/
theorem cache_in_progress {past : List System} (h : kvsrv.Run Settles (C :: past)) :
    (∀ n v, C.service.kv.cache n = some v → n ∈ C.inProgress ∧
      ∃ c req, (C.clerks c).request? = some req ∧ req.id = n) ∧
    {n | C.service.kv.cache n ≠ none}.Finite ∧
    {n | C.service.kv.cache n ≠ none}.ncard ≤ C.inProgress.ncard ∧
    (C.inProgress = ∅ → ∀ n, C.service.kv.cache n = none) := by
  obtain ⟨t, hreach, hC⟩ := kvsrv_serves h
  have howner : ∀ n, C.service.kv.cache n ≠ none → n ∈ C.inProgress ∧
      ∃ c req, (C.clerks c).request? = some req ∧ req.id = n := by
    intro n hn
    obtain ⟨c, hc⟩ := kvsrv_held h n hn
    obtain ⟨req, hreq, rfl⟩ := hc.exists_request
    exact ⟨hC.mem_inProgress hreach hreq, c, req, hreq, rfl⟩
  have hsub : {n | C.service.kv.cache n ≠ none} ⊆ C.inProgress := fun n hn => (howner n hn).1
  refine ⟨fun n v hv => howner n (by simp [hv]), C.finite_inProgress.subset hsub,
    Set.ncard_le_ncard hsub C.finite_inProgress, fun hempty n => ?_⟩
  by_contra hn
  exact (hempty ▸ hsub hn : n ∈ (∅ : Set ℕ))

/-- In that run the reply that was lost is in the cache while clerk 0 is at its operation, and the
cache is empty when both clerks have returned. -/
theorem cache_in_progress_lostReply :
    (∃ C past, kvsrv.Run Settles (C :: past) ∧ C.service.kv.cache 7 = some "" ∧
      7 ∈ C.inProgress) ∧
    ∃ C past, kvsrv.Run Settles (C :: past) ∧ .ret 8 ⟨"x"⟩ ∈ C.history ∧
      ∀ n, C.service.kv.cache n = none := by
  constructor
  · obtain ⟨C, past, hr, hC⟩ : ∃ C past, kvsrv.Run Settles (C :: past) ∧
        C.service.kv.cache 7 = some "" :=
      Machine.exists_run_of_trace settles settles_sound (lostReply.take 8) (by decide +kernel)
    exact ⟨C, past, hr, hC, ((cache_in_progress hr).1 7 _ hC).1⟩
  · obtain ⟨C, past, hr, hC⟩ : ∃ C past, kvsrv.Run Settles (C :: past) ∧
        C.history =
          [.call 7 ⟨3, "k", "x"⟩, .effect 7 ⟨3, "k", "x"⟩ ⟨""⟩, .ret 7 ⟨""⟩, .call 8 ⟨0, "k", ""⟩,
            .effect 8 ⟨0, "k", ""⟩ ⟨"x"⟩, .ret 8 ⟨"x"⟩] :=
      Machine.exists_run_of_trace settles settles_sound lostReply (by decide +kernel)
    refine ⟨C, past, hr, by simp [hC], (cache_in_progress hr).2.2.2 ?_⟩
    refine Set.eq_empty_iff_forall_notMem.mpr fun n hn => ?_
    rcases hn with ⟨⟨i, hi⟩, hret⟩
    rw [hC] at hi hret
    simp only [List.mem_cons, Event.call.injEq, List.not_mem_nil, reduceCtorEq, or_false,
      false_or] at hi
    rcases hi with ⟨rfl, -⟩ | ⟨rfl, -⟩
    · exact hret ⟨""⟩ (by simp)
    · exact hret ⟨"x"⟩ (by simp)

end KvSrv

end DistLabs
