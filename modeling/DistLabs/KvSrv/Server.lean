import DistLabs.Lib.Machine
import Mathlib.Data.Nat.Notation
import Mathlib.Logic.Function.Basic
import Mathlib.Order.Basic

/-!
# The key/value server

The server of `kvsrv` and the deliveries of requests to it. A handler looks into the cache without
holding the lock and then, if it has found nothing, runs its update under the lock, so one step is
one lookup, one update, or one `Done`.

Two deliveries of one request that both look before either has updated update twice.
-/

namespace DistLabs

namespace KvSrv

/-! ### Server -/

/-- The handler a request is for. -/
inductive Op where
  | get
  | put
  | append
  deriving DecidableEq

/-- `GetArgs` and `PutAppendArgs`; `Get` passes no value on. -/
structure Request where
  op : Op
  id : ℕ
  key : String
  value : String
  deriving DecidableEq

/-- A missing key of `kvPair` reads as the empty string. -/
structure KVServer where
  kvPair : String → String
  cache : ℕ → Option String

def StartKVServer : KVServer where
  kvPair _ := ""
  cache _ := none

namespace KVServer

/-- `kv.cache.Store(id, v)`. -/
def store (kv : KVServer) (id : ℕ) (v : String) : KVServer :=
  { kv with cache := Function.update kv.cache id (some v) }

/-- The function `Get` gives to `modifyCache`. -/
def getFunc (kv : KVServer) (id : ℕ) (key _value : String) : KVServer × String :=
  let v := kv.kvPair key
  (kv.store id v, v)

/-- The function `Put` gives to `modifyCache`. -/
def putFunc (kv : KVServer) (id : ℕ) (key value : String) : KVServer × String :=
  ({ kv with kvPair := Function.update kv.kvPair key value }.store id value, value)

/-- The function `Append` gives to `modifyCache`. -/
def appendFunc (kv : KVServer) (id : ℕ) (key value : String) : KVServer × String :=
  let old := kv.kvPair key
  ({ kv with kvPair := Function.update kv.kvPair key (old ++ value) }.store id old, old)

/-- What `modifyCache` does when the cache has nothing, under the lock. -/
def modifyFunc (kv : KVServer) (req : Request) : KVServer × String :=
  match req.op with
  | .get => kv.getFunc req.id req.key ""
  | .put => kv.putFunc req.id req.key req.value
  | .append => kv.appendFunc req.id req.key req.value

def Done (kv : KVServer) (id : ℕ) : KVServer :=
  { kv with cache := Function.update kv.cache id none }

/-- Every update stores what it returns. -/
lemma cache_modifyFunc (kv : KVServer) (req : Request) :
    (kv.modifyFunc req).1.cache =
      Function.update kv.cache req.id (some (kv.modifyFunc req).2) := by
  unfold modifyFunc
  split <;> rfl

end KVServer

/-! ### Deliveries -/

/-- Where the handler of a delivery stands: before the lookup in `modifyCache`, behind a lookup
that has found nothing, or at its end, with its reply. -/
inductive Pc where
  | loading
  | missed
  | replied (v : String)
  deriving DecidableEq

structure Delivery where
  req : Request
  pc : Pc
  deriving DecidableEq

/-- The server with all deliveries there have been. `updates` and `dones` record the requests whose
update has run and the ids that `Done` has been called for. -/
structure Service where
  kv : KVServer
  deliveries : List Delivery := []
  updates : List Request := []
  dones : List ℕ := []

inductive ServerAction where
  | deliver (req : Request)
  | load (k : ℕ)
  | modify (k : ℕ)
  | done (id : ℕ)

namespace Service

def deliver (S : Service) (req : Request) : Service :=
  { S with deliveries := S.deliveries ++ [⟨req, .loading⟩] }

/-- The lookup of `modifyCache`. -/
def load (S : Service) (k : ℕ) : Option Service :=
  match S.deliveries[k]? with
  | some ⟨req, .loading⟩ =>
    match S.kv.cache req.id with
    | some v => some { S with deliveries := S.deliveries.set k ⟨req, .replied v⟩ }
    | none => some { S with deliveries := S.deliveries.set k ⟨req, .missed⟩ }
  | _ => none

/-- The locked part of `modifyCache`. -/
def modify (S : Service) (k : ℕ) : Option Service :=
  match S.deliveries[k]? with
  | some ⟨req, .missed⟩ =>
    let (kv, v) := S.kv.modifyFunc req
    some
      { S with
        kv := kv
        deliveries := S.deliveries.set k ⟨req, .replied v⟩
        updates := S.updates ++ [req] }
  | _ => none

def done (S : Service) (id : ℕ) : Service := { S with kv := S.kv.Done id, dones := S.dones ++ [id] }

def step (S : Service) : ServerAction → Option Service
  | .deliver req => some (S.deliver req)
  | .load k => S.load k
  | .modify k => S.modify k
  | .done id => some (S.done id)

/-- What a step can do. -/
inductive Moves (S : Service) : ServerAction → Service → Prop
  | deliver (req : Request) : Moves S (.deliver req) (S.deliver req)
  | hit {k : ℕ} {req : Request} {v : String} (hk : S.deliveries[k]? = some ⟨req, .loading⟩)
      (hv : S.kv.cache req.id = some v) :
      Moves S (.load k) { S with deliveries := S.deliveries.set k ⟨req, .replied v⟩ }
  | miss {k : ℕ} {req : Request} (hk : S.deliveries[k]? = some ⟨req, .loading⟩)
      (hv : S.kv.cache req.id = none) :
      Moves S (.load k) { S with deliveries := S.deliveries.set k ⟨req, .missed⟩ }
  | modify {k : ℕ} {req : Request} (hk : S.deliveries[k]? = some ⟨req, .missed⟩) :
      Moves S (.modify k)
        { S with
          kv := (S.kv.modifyFunc req).1
          deliveries := S.deliveries.set k ⟨req, .replied (S.kv.modifyFunc req).2⟩
          updates := S.updates ++ [req] }
  | done (id : ℕ) : Moves S (.done id) (S.done id)

lemma moves_of_step {S S' : Service} {a : ServerAction} (h : S.step a = some S') :
    S.Moves a S' := by
  cases a with
  | deliver req =>
    cases h
    exact .deliver req
  | load k =>
    simp only [step, load] at h
    split at h
    · rename_i req hk
      split at h <;> cases h
      · exact .hit hk ‹_›
      · exact .miss hk ‹_›
    · cases h
  | modify k =>
    simp only [step, modify] at h
    split at h <;> cases h
    exact .modify ‹_›
  | done id =>
    cases h
    exact .done id

end Service

/-- The server, from any state, under any deliveries. -/
def service (kv : KVServer) : Machine Service ServerAction := .ofStep { kv := kv } Service.step

/-! ### Overlapping deliveries -/

/-- The condition on a step for the request with id `r`: a delivery of it looks into the cache only
while no other one is between its lookup and its update, and never after `Done`. -/
def Exclusive (r : ℕ) (S : Service) : ServerAction → Prop
  | .load k => ∀ d, S.deliveries[k]? = some d → d.req.id = r →
      (∀ d' ∈ S.deliveries, d'.req.id = r → d'.pc ≠ .missed) ∧ r ∉ S.dones
  | _ => True

/-- How often the update of the request with id `r` has run. -/
def Service.updated (S : Service) (r : ℕ) : ℕ := S.updates.countP fun req => req.id = r

/-- How far the request with id `r` has got: no delivery has looked, one has missed, or there is a
value that all deliveries reply with. -/
inductive Once (r : ℕ) (S : Service) : Prop
  | untouched (hd : ∀ d ∈ S.deliveries, d.req.id = r → d.pc = .loading)
      (hu : S.updated r = 0) : Once r S
  | pending {k : ℕ} {req : Request} (hk : S.deliveries[k]? = some ⟨req, .missed⟩)
      (hr : req.id = r)
      (hd : ∀ j d, S.deliveries[j]? = some d → d.req.id = r → j ≠ k → d.pc = .loading)
      (hu : S.updated r = 0) : Once r S
  | settled {v : String}
      (hd : ∀ d ∈ S.deliveries, d.req.id = r → d.pc = .loading ∨ d.pc = .replied v)
      (hu : S.updated r ≤ 1)
      (hc : r ∉ S.dones → S.kv.cache r = some v) : Once r S

section Once

variable {r : ℕ} {S S' : Service} {a : ServerAction}

lemma Once.deliver (h : Once r S) (req : Request) : Once r (S.deliver req) := by
  have hnew : ∀ d ∈ S.deliveries ++ [⟨req, .loading⟩], d ∈ S.deliveries ∨ d.pc = .loading := by
    intro d hd
    rcases List.mem_append.mp hd with hd | hd
    · exact .inl hd
    · exact .inr (by rw [List.mem_singleton.mp hd])
  cases h with
  | untouched hd hu =>
    exact .untouched (fun d hmem hid => (hnew d hmem).elim (hd d · hid) id) hu
  | @pending k _ hk hr hd hu =>
    have hlt := (List.getElem?_eq_some_iff.mp hk).1
    refine .pending (k := k) ?_ hr (fun j d hj hid hne => ?_) hu
    · exact (List.getElem?_append_left hlt).trans hk
    · rcases Nat.lt_or_ge j S.deliveries.length with hlt | hge
      · exact hd j d ((List.getElem?_append_left hlt).symm.trans hj) hid hne
      · simp only [Service.deliver, List.getElem?_append_right hge] at hj
        exact congrArg Delivery.pc (List.mem_singleton.mp (List.mem_of_getElem? hj))
  | settled hd hu hc =>
    exact .settled (fun d hmem hid => (hnew d hmem).elim (hd d · hid) .inl) hu hc

lemma Once.done (h : Once r S) (id : ℕ) : Once r (S.done id) := by
  cases h with
  | untouched hd hu => exact .untouched hd hu
  | pending hk hr hd hu => exact .pending hk hr hd hu
  | settled hd hu hc =>
    refine .settled hd hu fun hnot => ?_
    simp only [Service.done, List.mem_append, List.mem_singleton, not_or] at hnot
    simp only [Service.done, KVServer.Done, Function.update_of_ne hnot.2]
    exact hc hnot.1

/-- A step of a delivery of another request. -/
lemma Once.other (h : Once r S) {k : ℕ} {req : Request} {pc pc' : Pc}
    (hk : S.deliveries[k]? = some ⟨req, pc⟩) (hid : req.id ≠ r)
    (hdel : S'.deliveries = S.deliveries.set k ⟨req, pc'⟩)
    (hup : S'.updates = S.updates ∨ S'.updates = S.updates ++ [req])
    (hcache : S'.kv.cache r = S.kv.cache r) (hdones : S'.dones = S.dones) : Once r S' := by
  have hold : ∀ (j : ℕ) (d : Delivery), S'.deliveries[j]? = some d → d.req.id = r →
      S.deliveries[j]? = some d := by
    intro j d hj hd
    rw [hdel, List.getElem?_set] at hj
    split_ifs at hj with hkj
    · cases hj
      exact absurd hd hid
    · exact hj
  have hmem : ∀ d ∈ S'.deliveries, d.req.id = r → d ∈ S.deliveries := by
    intro d hd hr
    obtain ⟨j, hj⟩ := List.getElem?_of_mem hd
    exact List.mem_of_getElem? (hold j d hj hr)
  have hsame : S'.updated r = S.updated r := by
    rcases hup with hup | hup <;> simp [Service.updated, hup, hid]
  cases h with
  | untouched hd hu => exact .untouched (fun d hd' hr => hd d (hmem d hd' hr) hr) (hsame.trans hu)
  | @pending k' req' hk' hr hd hu =>
    refine .pending (k := k') ?_ hr (fun j d hj hd' => hd j d (hold j d hj hd') hd')
      (hsame.trans hu)
    rw [hdel, List.getElem?_set_ne, hk']
    rintro rfl
    rw [hk] at hk'
    cases hk'
    exact hid hr
  | settled hd hu hc =>
    exact .settled (fun d hd' hr => hd d (hmem d hd' hr) hr) (hsame.trans_le hu)
      (by rwa [hdones, hcache])

lemma Once.moves (h : Once r S) (hP : Exclusive r S a) (hm : S.Moves a S') : Once r S' := by
  cases hm with
  | deliver req => exact h.deliver req
  | done id => exact h.done id
  | @hit k req v hk hv =>
    rcases ne_or_eq req.id r with hid | hid
    · exact h.other hk hid rfl (.inl rfl) rfl rfl
    obtain ⟨hmiss, hdone⟩ := hP _ hk hid
    rw [hid] at hv
    have hset : ∀ {Q : Delivery → Prop}, (∀ d ∈ S.deliveries, d.req.id = r → Q d) →
        Q ⟨req, .replied v⟩ → ∀ d ∈ S.deliveries.set k ⟨req, .replied v⟩, d.req.id = r → Q d := by
      intro Q hQ hnew d hd hr
      rcases List.mem_or_eq_of_mem_set hd with hd | rfl
      · exact hQ d hd hr
      · exact hnew
    cases h with
    | untouched hd hu =>
      exact .settled (hset (fun d hd' hr => .inl (hd d hd' hr)) (.inr rfl))
        (hu.trans_le (Nat.zero_le 1)) fun _ => hv
    | pending hk' hr => exact absurd rfl (hmiss _ (List.mem_of_getElem? hk') hr)
    | @settled v' hd hu hc =>
      obtain rfl : v' = v := Option.some.inj ((hc hdone).symm.trans hv)
      exact .settled (hset hd (.inr rfl)) hu hc
  | @miss k req hk hv =>
    rcases ne_or_eq req.id r with hid | hid
    · exact h.other hk hid rfl (.inl rfl) rfl rfl
    obtain ⟨hmiss, hdone⟩ := hP _ hk hid
    rw [hid] at hv
    cases h with
    | untouched hd hu =>
      refine .pending (k := k) ?_ hid (fun j d hj hr hne => ?_) hu
      · rw [List.getElem?_set_self (List.getElem?_eq_some_iff.mp hk).1]
      · rw [List.getElem?_set_ne hne.symm] at hj
        exact hd d (List.mem_of_getElem? hj) hr
    | pending hk' hr => exact absurd rfl (hmiss _ (List.mem_of_getElem? hk') hr)
    | settled hd hu hc =>
      rw [hc hdone] at hv
      cases hv
  | @modify k req hk =>
    rcases ne_or_eq req.id r with hid | hid
    · refine h.other hk hid rfl (.inr rfl) ?_ rfl
      rw [KVServer.cache_modifyFunc, Function.update_of_ne (Ne.symm hid)]
    cases h with
    | untouched hd hu =>
      cases hd _ (List.mem_of_getElem? hk) hid
    | @pending k' req' hk' hr hd hu =>
      obtain rfl : k = k' := by
        by_contra hne
        cases hd k _ hk hid hne
      refine .settled (v := (S.kv.modifyFunc req).2) (fun d hd' hr' => ?_) ?_ fun _ => ?_
      · obtain ⟨j, hj⟩ := List.getElem?_of_mem hd'
        rw [List.getElem?_set] at hj
        split_ifs at hj with hkj
        · cases hj
          exact .inr rfl
        · exact .inl (hd j d hj hr' (Ne.symm hkj))
      · rw [Service.updated, List.countP_append]
        exact Nat.add_le_add (Nat.le_of_eq hu) List.countP_le_length
      · rw [KVServer.cache_modifyFunc, hid, Function.update_self]
    | settled hd =>
      rcases hd _ (List.mem_of_getElem? hk) hid with hpc | hpc <;> cases hpc

/-- Overlapping deliveries of one request take effect once: from any state of the server and for
every request id `r`, in every run in which a delivery of `r` looks into the cache only while no
other one is between its lookup and its update, and never after `Done`, the update of `r` runs at
most once and all deliveries of `r` reply with the same value. -/
theorem applied_once {kv : KVServer} {past : List Service}
    (h : (service kv).Run (Exclusive r) (S :: past)) :
    S.updated r ≤ 1 ∧
      ∀ d ∈ S.deliveries, ∀ d' ∈ S.deliveries, d.req.id = r → d'.req.id = r →
        ∀ v v', d.pc = .replied v → d'.pc = .replied v' → v = v' := by
  have honce : Once r S := by
    refine h.invariant (I := Once r) ?_ ?_ S List.mem_cons_self
    · rintro S rfl
      exact .untouched (by simp) rfl
    · intro S past a S' _ hP hS hnext
      exact hS.moves hP (Service.moves_of_step hnext)
  cases honce with
  | untouched hd hu =>
    refine ⟨hu.trans_le (Nat.zero_le 1), ?_⟩
    intro d hmem d' _ hr _ v v' hv
    cases hv.symm.trans (hd d hmem hr)
  | @pending k _ hk _ hd hu =>
    refine ⟨hu.trans_le (Nat.zero_le 1), ?_⟩
    intro d hmem d' _ hr _ v v' hv
    obtain ⟨j, hj⟩ := List.getElem?_of_mem hmem
    rcases eq_or_ne j k with rfl | hne
    · cases hk.symm.trans hj
      cases hv
    · cases hv.symm.trans (hd j d hj hr hne)
  | @settled v₀ hd hu _ =>
    have hval : ∀ d ∈ S.deliveries, d.req.id = r → ∀ v, d.pc = .replied v → v = v₀ := by
      intro d hmem hr v hv
      rcases hd d hmem hr with hpc | hpc
      · cases hv.symm.trans hpc
      · cases hv.symm.trans hpc
        rfl
    refine ⟨hu, fun d hmem d' hmem' hr hr' v v' hv hv' => ?_⟩
    rw [hval d hmem hr v hv, hval d' hmem' hr' v' hv']

/-- A check of `Exclusive`. -/
def exclusive (r : ℕ) (S : Service) : ServerAction → Bool
  | .load k => S.deliveries[k]?.all fun d => d.req.id = r →
      (∀ d' ∈ S.deliveries, d'.req.id = r → d'.pc ≠ .missed) ∧ r ∉ S.dones
  | _ => true

lemma exclusive_sound (r : ℕ) (S : Service) (a : ServerAction) (h : exclusive r S a = true) :
    Exclusive r S a := by
  cases a with
  | load k =>
    intro d hd
    simp only [exclusive, hd, Option.all_some, decide_eq_true_eq] at h
    exact h
  | _ => trivial

/-- Append `x` to the value of `k`, under id 7. -/
def appendX : Request := ⟨.append, 7, "k", "x"⟩

/-- The second delivery looks into the cache after the first one has updated. -/
theorem applied_once_retry :
    ∃ S past, (service StartKVServer).Run (Exclusive 7) (S :: past) ∧
      S.deliveries = [⟨appendX, .replied ""⟩, ⟨appendX, .replied ""⟩] ∧ S.updated 7 ≤ 1 := by
  obtain ⟨S, past, hr, hS⟩ : ∃ S past, (service StartKVServer).Run (Exclusive 7) (S :: past) ∧
      S.deliveries = [⟨appendX, .replied ""⟩, ⟨appendX, .replied ""⟩] :=
    Machine.exists_run_of_trace (exclusive 7) (exclusive_sound 7)
      [.deliver appendX, .load 0, .deliver appendX, .modify 0, .load 1] (by decide +kernel)
  exact ⟨S, past, hr, hS, (applied_once hr).1⟩

/-- Both deliveries look into the cache before either has updated. -/
theorem overlapping_deliveries_apply_twice :
    ∃ S, (service StartKVServer).Reachable S ∧ S.updated 7 = 2 ∧ S.kv.kvPair "k" = "xx" ∧
      S.deliveries = [⟨appendX, .replied ""⟩, ⟨appendX, .replied "x"⟩] := by
  obtain ⟨S, past, hr, hS⟩ : ∃ S past, (service StartKVServer).Run Machine.Any (S :: past) ∧
      (S.updated 7 = 2 ∧ S.kv.kvPair "k" = "xx" ∧
        S.deliveries = [⟨appendX, .replied ""⟩, ⟨appendX, .replied "x"⟩]) :=
    Machine.exists_run_of_trace (fun _ _ => true) (fun _ _ _ => trivial)
      [.deliver appendX, .deliver appendX, .load 0, .load 1, .modify 0, .modify 1]
      (by decide +kernel)
  exact ⟨S, ⟨past, hr⟩, hS⟩

end Once

end KvSrv

end DistLabs
