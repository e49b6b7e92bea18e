import DistLabs.LabRpc.Standing

/-!
# What a call means

`Call` returns true only if the handler has run, once, and its server was still the registered one
after it had returned. As long as no server in use is deleted and no end in use is disabled, the
handler of a call that has returned false has not been started or has run to its end.
-/

namespace DistLabs

namespace LabRpc

section Runs

variable {E N A R : Type} [DecidableEq N] [DecidableEq E]
  {P : Network E N A R → Action E N A R → Prop} {rn rn' : Network E N A R} {x x' : Call E N A R}
  {a : CallAction R} {k : ℕ}

/-! ### Replies -/

/-- What stays of a call: its request, the server it goes to, and the reply of its handler. -/
structure Call.Onward (x x' : Call E N A R) : Prop where
  req : x'.req = x.req
  route : ∀ route, x.route = some route → x'.route = some route
  ended : ∀ r, x.thread = .ended r → x'.thread = .ended r

omit [DecidableEq N] [DecidableEq E] in
lemma Call.Onward.refl (x : Call E N A R) : x.Onward x := ⟨rfl, fun _ h => h, fun _ h => h⟩

omit [DecidableEq E] in
lemma Network.CallMoves.onward (hok : x.Ok) (hm : rn.CallMoves x a x') : x.Onward x' := by
  cases hm with
  | accept hx =>
    refine ⟨rfl, fun route hr => ?_, fun _ h => h⟩
    obtain ⟨req, route, stage, thread, result⟩ := x
    cases hx
    cases hok
    cases hr
  | spawn hx =>
    refine ⟨rfl, fun _ h => h, fun r hr => ?_⟩
    obtain ⟨req, route, stage, thread, result⟩ := x
    cases hx
    cases hok
    cases hr
  | dispatch ht | return_ ht | answer _ ht | drain _ ht =>
    refine ⟨rfl, fun _ h => h, fun r hr => ?_⟩
    cases ht.symm.trans hr
  | _ => exact ⟨rfl, fun _ h => h, fun _ h => h⟩

/-- Every call goes on. -/
def Network.Onward (rn' rn : Network E N A R) : Prop :=
  ∀ (k : ℕ) (x : Call E N A R), rn.calls[k]? = some x →
    ∃ x', rn'.calls[k]? = some x' ∧ x.Onward x'

lemma Network.Moves.onward (hok : ∀ x ∈ rn.calls, x.Ok) {b : Action E N A R}
    (hm : rn.Moves b rn') : rn'.Onward rn := by
  cases hm with
  | call req =>
    intro k x hk
    exact ⟨x, List.getElem?_append_left (List.getElem?_eq_some_iff.mp hk).1 ▸ hk, .refl x⟩
  | @act j a y y' hj hy =>
    intro k x hk
    rw [Network.setCall, calls_callEffect]
    rcases eq_or_ne j k with rfl | hne
    · cases hj.symm.trans hk
      exact ⟨y', List.getElem?_set_self (List.getElem?_eq_some_iff.mp hk).1,
        hy.onward (hok _ (List.mem_of_getElem? hk))⟩
    · exact ⟨x, by rw [List.getElem?_set_ne hne, hk], .refl x⟩
  | _ => exact fun k x hk => ⟨x, hk, .refl x⟩

lemma pairwise_onward {l : List (Network E N A R)} (h : (labrpc E N A R).Run P l) :
    l.Pairwise Network.Onward := by
  refine h.pairwise ?_ ?_
  · intro a b c hab hbc k x hk
    obtain ⟨y, hy, hxy⟩ := hbc k x hk
    obtain ⟨z, hz, hyz⟩ := hab k y hy
    exact ⟨z, hz, hyz.req.trans hxy.req, fun r hr => hyz.route r (hxy.route r hr),
      fun r hr => hyz.ended r (hxy.ended r hr)⟩
  · intro rn past b rn' hr _ hn
    exact (Network.moves_of_step hn).2.onward (ok_of_run hr rn List.mem_cons_self)

/-- The reply `r` is about to be given to the call or has been. -/
def Call.Replies (x : Call E N A R) (r : R) : Prop :=
  x.stage = .replying (some r) ∨ x.result = some (some r)

omit [DecidableEq E] in
/-- A call is given the reply of a handler that has returned, of a server that is not dead. -/
lemma Network.CallMoves.replies (hok : x.Ok) (hm : rn.CallMoves x a x') {r : R}
    (hr : x'.Replies r) : x.Replies r ∨ x.thread = .ended r ∧ rn.isDeadFor x = false := by
  obtain ⟨req, route, stage, thread, result⟩ := x
  cases hm with
  | deliver hx hd =>
    rcases hr with hr | hr
    · cases hx
      cases hr
      cases hok
      exact .inr ⟨rfl, hd⟩
    · exact .inl (.inr hr)
  | reply hx =>
    rcases hr with hr | hr
    · cases hr
    · cases hr
      exact .inl (.inl hx)
  | abort =>
    rcases hr with hr | hr
    · exact .inl (.inl hr)
    · cases hr
  | dispatch | return_ | drain | wait => exact .inl hr
  | _ =>
    rcases hr with hr | hr
    · cases hr
    · exact .inl (.inr hr)

/-- At some time of a run the handler of call `k` had returned `r` and its server was not dead. -/
def Answered (l : List (Network E N A R)) (k : ℕ) (r : R) : Prop :=
  ∃ D ∈ l, ∃ y, D.calls[k]? = some y ∧ y.thread = .ended r ∧ D.isDeadFor y = false

lemma answered_of_run {past : List (Network E N A R)} (h : (labrpc E N A R).Run P (rn :: past))
    {r : R} (hk : rn.calls[k]? = some x) (hr : x.Replies r) : Answered (rn :: past) k r := by
  have hall : ∀ C ∈ (rn :: past).head?, ∀ (k : ℕ) (x : Call E N A R), C.calls[k]? = some x →
      ∀ r, x.Replies r → Answered (rn :: past) k r := by
    refine Machine.Run.history (I := fun l => ∀ C ∈ l.head?, ∀ (k : ℕ) (x : Call E N A R),
      C.calls[k]? = some x → ∀ r, x.Replies r → Answered l k r) ?_ ?_ h
    · rintro _ rfl _ ⟨⟩ k x hk
      cases hk
    · rintro rn past b rn' hrun ih - hn _ ⟨⟩ k x hk r hr
      have hold : ∀ y, rn.calls[k]? = some y → y.Replies r → Answered (rn' :: rn :: past) k r := by
        intro y hy hyr
        obtain ⟨D, hD, z, hz⟩ := ih rn rfl k y hy r hyr
        exact ⟨D, List.mem_cons_of_mem _ hD, z, hz⟩
      rcases (Network.moves_of_step hn).2.call_cases hk with ⟨req, rfl⟩ | hk | ⟨a, y, hy, hm⟩
      · rcases hr with hr | hr <;> cases hr
      · exact hold x hk hr
      · have hok := ok_of_run hrun rn List.mem_cons_self y (List.mem_of_getElem? hy)
        rcases hm.replies hok hr with hyr | ⟨ht, hd⟩
        · exact hold y hy hyr
        · exact ⟨rn, by simp, y, hy, ht, hd⟩
  exact hall rn rfl k x hk r hr

omit [DecidableEq E] in
lemma isDeadFor_eq_false :
    rn.isDeadFor x = false ↔ ∃ route, x.route = some route ∧ rn.enabled x.req.endname = true ∧
      rn.servers route.servername = some route.server := by
  unfold Network.isDeadFor
  cases x.route <;> simp [Network.isServerDead]

/-- `Call` returns true only if its handler has returned the reply, and at some time after that its
end was enabled and the server on which the handler had run was the registered one. -/
theorem true_means_executed {past : List (Network E N A R)}
    (h : (labrpc E N A R).Run Machine.Any (rn :: past)) {r : R} (hk : rn.calls[k]? = some x)
    (hr : x.result = some (some r)) :
    x.thread = .ended r ∧ ∃ route, x.route = some route ∧
      ∃ D ∈ rn :: past, ∃ y, D.calls[k]? = some y ∧ y.thread = .ended r ∧
        D.enabled x.req.endname = true ∧ D.servers route.servername = some route.server := by
  obtain ⟨D, hD, y, hy, hend, halive⟩ := answered_of_run h hk (.inr hr)
  obtain ⟨route, hroute, henabled, hserver⟩ := isDeadFor_eq_false.mp halive
  have honward : y.Onward x := by
    rcases List.mem_cons.mp hD with rfl | hD
    · cases hy.symm.trans hk
      exact .refl x
    · obtain ⟨x', hx', honward⟩ := (List.pairwise_cons.mp (pairwise_onward h)).1 D hD k y hy
      cases hx'.symm.trans hk
      exact honward
  exact ⟨honward.ended r hend, route, honward.route route hroute, D, hD, y, hy, hend,
    honward.req ▸ henabled, hserver⟩

theorem true_means_executed_first :
    ∃ (rn : Network ℕ ℕ ℕ ℕ) (x : Call ℕ ℕ ℕ ℕ), (labrpc ℕ ℕ ℕ ℕ).Reachable rn ∧
      rn.calls[0]? = some x ∧ x.result = some (some 3) ∧ x.thread = .ended 3 := by
  obtain ⟨rn, past, hr, hx⟩ : ∃ (rn : Network ℕ ℕ ℕ ℕ) (past : List _),
      (labrpc ℕ ℕ ℕ ℕ).Run Machine.Any (rn :: past) ∧
        (rn.calls[0]?.any fun x => x.result == some (some 3)) = true :=
    Machine.exists_run_of_trace (fun _ _ => true) (fun _ _ _ => trivial) (firstCall ++ firstReply)
      (by decide)
  obtain ⟨x, hk, hres⟩ := (Option.any_eq_true _ _).mp hx
  have hres := eq_of_beq hres
  exact ⟨rn, x, ⟨past, hr⟩, hk, hres, (true_means_executed hr hk hres).1⟩

/-- A deleted server does not reply: if the handler of a call had not ended when the server on which
it runs was registered for the last time, then `Call` does not return true. The states of the run
are numbered back from its end. -/
theorem deleted_server_does_not_reply {l : List (Network E N A R)}
    (h : (labrpc E N A R).Run Machine.Any l) {j : ℕ} {D : Network E N A R} {y : Call E N A R}
    {route : Route N} (hD : l[j]? = some D) (hy : D.calls[k]? = some y)
    (hthread : ∀ r, y.thread ≠ .ended r)
    (hdeleted : ∀ i < j, ∀ C, l[i]? = some C → C.servers route.servername ≠ some route.server)
    (hrn : l[0]? = some rn) (hk : rn.calls[k]? = some x) (hroute : x.route = some route) (r : R) :
    x.result ≠ some (some r) := by
  intro hr
  obtain ⟨past, rfl⟩ : ∃ past, l = rn :: past := by
    cases l with
    | nil => cases hrn
    | cons _ past =>
      cases hrn
      exact ⟨past, rfl⟩
  have hlater : ∀ {i j : ℕ} {C D : Network E N A R}, i < j → (rn :: past)[i]? = some C →
      (rn :: past)[j]? = some D → C.Onward D := by
    intro i j C D hij hC hD
    obtain ⟨hi, rfl⟩ := List.getElem?_eq_some_iff.mp hC
    obtain ⟨hj, rfl⟩ := List.getElem?_eq_some_iff.mp hD
    exact List.pairwise_iff_getElem.mp (pairwise_onward h) i j hi hj hij
  obtain ⟨C, hC, z, hz, hend, halive⟩ := answered_of_run h hk (.inr hr)
  obtain ⟨i, hi⟩ := List.mem_iff_getElem?.mp hC
  rcases Nat.lt_trichotomy i j with hlt | rfl | hgt
  · -- the server was registered then
    obtain ⟨route', hroute', -, hserver⟩ := isDeadFor_eq_false.mp halive
    obtain rfl : route' = route := by
      rcases Nat.eq_zero_or_pos i with rfl | hpos
      · cases hrn.symm.trans hi
        cases hz.symm.trans hk
        exact Option.some.inj (hroute'.symm.trans hroute)
      · obtain ⟨x', hx', honward⟩ := hlater hpos hrn hi k z hz
        cases hx'.symm.trans hk
        exact Option.some.inj ((honward.route route' hroute').symm.trans hroute)
    exact hdeleted i hlt C hi hserver
  · cases hD.symm.trans hi
    cases hz.symm.trans hy
    exact hthread r hend
  · obtain ⟨y', hy', honward⟩ := hlater hgt hD hi k z hz
    cases hy'.symm.trans hy
    exact hthread r (honward.ended r hend)

/-- The server is deleted while its handler runs. -/
def deletedRun : List (Network ℕ ℕ ℕ ℕ) :=
  (Machine.trace Network.step (fun _ _ => true) [.MakeNetwork]
    (firstCall ++ .DeleteServer 0 :: firstReply)).get (by decide)

theorem deleted_server_does_not_reply_first :
    ∃ (rn : Network ℕ ℕ ℕ ℕ) (x : Call ℕ ℕ ℕ ℕ), (labrpc ℕ ℕ ℕ ℕ).Reachable rn ∧
      rn.calls[0]? = some x ∧ x.result ≠ some (some 3) := by
  have hrun : (labrpc ℕ ℕ ℕ ℕ).Run Machine.Any deletedRun :=
    .of_trace (fun _ _ _ => trivial) (.init rfl) (Option.some_get _).symm
  obtain ⟨rn, hrn, x, hk, hroute⟩ : ∃ rn, deletedRun[0]? = some rn ∧ ∃ x, rn.calls[0]? = some x ∧
      x.route = some ⟨0, 0, true⟩ := ⟨_, rfl, _, rfl, rfl⟩
  obtain ⟨D, hD, y, hy, hthread⟩ : ∃ D, deletedRun[5]? = some D ∧ ∃ y, D.calls[0]? = some y ∧
      y.thread = .running := ⟨_, rfl, _, rfl, rfl⟩
  have hdeleted : ∀ i < 5, ∀ C, deletedRun[i]? = some C → C.servers 0 ≠ some 0 := by
    have hall : ∀ i < 5, (deletedRun[i]?.all fun C => C.servers 0 ≠ some 0) = true := by decide
    intro i hi C hC
    simpa [hC] using hall i hi
  refine ⟨rn, x, ?_, hk, ?_⟩
  · cases hl : deletedRun with
    | nil => cases hl ▸ hrn
    | cons C past =>
      rw [hl] at hrn hrun
      cases hrn
      exact ⟨past, hrun⟩
  · exact deleted_server_does_not_reply hrun hD hy (by simp [hthread]) hdeleted hrn hk hroute 3

/-! ### Servers that are not deleted -/

/-- No call of the end is in progress. -/
def Network.IdleEnd (rn : Network E N A R) (e : E) : Prop :=
  ∀ x ∈ rn.calls, x.req.endname = e → x.result.isSome

/-- No call to the server is in progress. -/
def Network.IdleServer (rn : Network E N A R) (n : N) : Prop :=
  ∀ x ∈ rn.calls, ∀ route ∈ x.route, route.servername = n → x.result.isSome

/-- The condition on a step: no end is disabled and no server deleted or replaced while a call over
it is in progress. -/
def KeepsServers (rn : Network E N A R) : Action E N A R → Prop
  | .MakeEnd e | .DeleteEnd e => rn.IdleEnd e
  | .Enable e enabled => enabled = true ∨ rn.IdleEnd e
  | .AddServer n _ | .DeleteServer n => rn.IdleServer n
  | _ => True

/-- `processReq` does not wait for the handler any more. -/
def Stage.Behind : Stage R → Prop
  | .dead | .replying _ | .finished => True
  | _ => False

/-- The server of a call in progress is alive, and nothing is left of the handler when it is not
waited for any more. -/
structure Call.Kept (rn : Network E N A R) (x : Call E N A R) : Prop where
  alive : x.result = none → ∀ route ∈ x.route,
    rn.enabled x.req.endname = true ∧ rn.servers route.servername = some route.server
  settled : x.stage.Behind → x.thread.Settled

omit [DecidableEq N] [DecidableEq E] in
lemma alive_of_readEndnameInfo {e : E} {route : Route N}
    (h : rn.readEndnameInfo e = some route) :
    rn.enabled e = true ∧ rn.servers route.servername = some route.server := by
  unfold Network.readEndnameInfo at h
  split_ifs at h with he
  split at h
  · split at h <;> cases h
    exact ⟨he, ‹_›⟩
  · cases h

omit [DecidableEq E] in
lemma Call.Kept.moves (h : x.Kept rn) (hok : x.Ok) (hm : rn.CallMoves x a x') : x'.Kept rn := by
  obtain ⟨req, route, stage, thread, result⟩ := x
  cases hm with
  | accept hx hr =>
    refine ⟨?_, False.elim⟩
    rintro - _ ⟨⟩
    exact alive_of_readEndnameInfo hr
  | abort hx => exact ⟨by simp, h.settled⟩
  | receive | spawn | answer => exact ⟨h.alive, False.elim⟩
  | refuse hx | drop hx =>
    refine ⟨h.alive, fun _ => ?_⟩
    cases hx
    cases hok
    trivial
  | dispatch ht | return_ ht =>
    refine ⟨h.alive, fun hs => ?_⟩
    cases ht
    exact h.settled hs
  | wait => exact h
  | giveUp hx hd =>
    -- the server is not dead
    cases hx
    cases hok
    rw [isDeadFor_eq_false.mpr ⟨_, rfl, h.alive rfl _ rfl⟩] at hd
    cases hd
  | drain => exact ⟨h.alive, fun _ => trivial⟩
  | fail hx =>
    cases hx
    exact ⟨h.alive, fun _ => h.settled trivial⟩
  | discard hx | lose hx | deliver hx =>
    refine ⟨h.alive, fun _ => ?_⟩
    cases hx
    cases hok
    trivial
  | reply hx =>
    cases hx
    exact ⟨by simp, fun _ => h.settled trivial⟩

omit [DecidableEq N] [DecidableEq E] in
/-- The tables change, but not for the calls in progress. -/
lemma Call.Kept.congr (h : x.Kept rn)
    (henabled : x.result = none → rn.enabled x.req.endname = true →
      rn'.enabled x.req.endname = true)
    (hservers : x.result = none → ∀ route ∈ x.route,
      rn'.servers route.servername = rn.servers route.servername) : x.Kept rn' where
  alive hr route hroute :=
    let ⟨he, hs⟩ := h.alive hr route hroute
    ⟨henabled hr he, (hservers hr route hroute).trans hs⟩
  settled := h.settled

lemma kept_moves (h : ∀ x ∈ rn.calls, x.Kept rn) (hok : ∀ x ∈ rn.calls, x.Ok)
    {b : Action E N A R} (hP : KeepsServers rn b) (hm : rn.Moves b rn') :
    ∀ x ∈ rn'.calls, x.Kept rn' := by
  have hend : ∀ {e b}, rn.IdleEnd e → ∀ x ∈ rn.calls, x.result = none →
      Function.update rn.enabled e b x.req.endname = rn.enabled x.req.endname := by
    intro e b hidle x hx hr
    refine Function.update_of_ne ?_ _ _
    rintro rfl
    simpa [hr] using hidle x hx rfl
  have hserver : ∀ {n o}, rn.IdleServer n → ∀ x ∈ rn.calls, x.result = none → ∀ route ∈ x.route,
      Function.update rn.servers n o route.servername = rn.servers route.servername := by
    intro n o hidle x hx hr route hroute
    refine Function.update_of_ne ?_ _ _
    rintro rfl
    simpa [hr] using hidle x hx route hroute rfl
  cases hm with
  | MakeEnd | DeleteEnd =>
    intro x hx
    exact (h x hx).congr (fun hr he => (hend hP x hx hr).trans he) fun _ _ _ => rfl
  | Enable e enabled =>
    intro x hx
    refine (h x hx).congr (fun hr he => ?_) fun _ _ _ => rfl
    rcases hP with rfl | hidle
    · rcases eq_or_ne x.req.endname e with heq | hne
      · simp [heq]
      · simpa [hne] using he
    · exact (hend hidle x hx hr).trans he
  | AddServer | DeleteServer =>
    intro x hx
    exact (h x hx).congr (fun _ he => he) fun hr => hserver hP x hx hr
  | call req =>
    intro x hx
    rcases List.mem_append.mp hx with hx | hx
    · exact (h x hx).congr (fun _ he => he) fun _ _ _ => rfl
    · obtain rfl := List.mem_singleton.mp hx
      exact ⟨by simp, False.elim⟩
  | act hk hx =>
    intro y hy
    simp only [Network.setCall, Network.calls_callEffect] at hy
    have hy' : y.Kept rn := by
      rcases List.mem_or_eq_of_mem_set hy with hy | rfl
      · exact h y hy
      · exact (h _ (List.mem_of_getElem? hk)).moves (hok _ (List.mem_of_getElem? hk)) hx
    exact hy'.congr (fun _ he => by simpa [Network.setCall] using he)
      fun _ _ _ => by simp [Network.setCall]
  | _ => exact fun x hx => (h x hx).congr (fun _ he => he) fun _ _ _ => rfl

lemma kept_of_run {l : List (Network E N A R)} (h : (labrpc E N A R).Run KeepsServers l) :
    ∀ rn ∈ l, ∀ x ∈ rn.calls, x.Kept rn := by
  refine h.invariant (I := fun rn => ∀ x ∈ rn.calls, x.Kept rn) ?_ ?_
  · rintro _ rfl _ ⟨⟩
  · intro rn past b rn' hr hP hkept hn
    exact kept_moves hkept (ok_of_run hr rn List.mem_cons_self) hP (Network.moves_of_step hn).2

omit [DecidableEq N] [DecidableEq E] in
/-- When `Call` has returned, nothing is left of the handler. -/
lemma Call.Kept.settled_of_result (h : x.Kept rn) (hok : x.Ok) {rep : Option R}
    (hr : x.result = some rep) : x.thread.Settled := by
  obtain ⟨req, route, stage, thread, result⟩ := x
  cases hr
  cases hok with
  | aborted => trivial
  | failed | finished => exact h.settled trivial

omit [DecidableEq N] [DecidableEq E] in
lemma Call.Ok.ended_of_result (hok : x.Ok) {r : R} (hr : x.result = some (some r)) :
    x.thread = .ended r := by
  obtain ⟨req, route, stage, thread, result⟩ := x
  cases hr
  cases hok
  rfl

/-- When `Call` has returned, with either result, its handler has not been started and will not be,
or it has run to its end, unless the server was deleted or the end disabled in the meantime. -/
theorem handler_settled {past : List (Network E N A R)}
    (h : (labrpc E N A R).Run KeepsServers (rn :: past)) (hk : rn.calls[k]? = some x)
    {rep : Option R} (hr : x.result = some rep) :
    x.thread = .none ∧ rep = none ∨ ∃ r, x.thread = .ended r := by
  have hok := ok_of_run h rn List.mem_cons_self x (List.mem_of_getElem? hk)
  have hkept := kept_of_run h rn List.mem_cons_self x (List.mem_of_getElem? hk)
  have hsettled := hkept.settled_of_result hok hr
  cases rep with
  | none =>
    cases ht : x.thread with
    | none => exact .inl ⟨rfl, rfl⟩
    | ended r => exact .inr ⟨r, rfl⟩
    | _ =>
      rw [ht] at hsettled
      exact hsettled.elim
  | some r => exact .inr ⟨r, hok.ended_of_result hr⟩

/-- A check of `KeepsServers`. -/
def keepsServers (rn : Network E N A R) : Action E N A R → Bool
  | .MakeEnd e | .DeleteEnd e => rn.calls.all fun x => x.req.endname ≠ e || x.result.isSome
  | .Enable e enabled => enabled || rn.calls.all fun x => x.req.endname ≠ e || x.result.isSome
  | .AddServer n _ | .DeleteServer n =>
    rn.calls.all fun x => (x.route.all fun route => route.servername ≠ n) || x.result.isSome
  | _ => true

lemma keepsServers_sound (rn : Network E N A R) (b : Action E N A R)
    (h : keepsServers rn b = true) : KeepsServers rn b := by
  have hend : ∀ {e}, (rn.calls.all fun x => x.req.endname ≠ e || x.result.isSome) = true →
      rn.IdleEnd e := by
    intro e h x hx he
    simpa [he] using List.all_eq_true.mp h x hx
  have hserver : ∀ {n}, (rn.calls.all fun x =>
      (x.route.all fun route => route.servername ≠ n) || x.result.isSome) = true →
      rn.IdleServer n := by
    intro n h x hx route hr hn
    have := List.all_eq_true.mp h x hx
    simpa [Option.mem_def.mp hr, hn] using this
  cases b with
  | MakeEnd | DeleteEnd => exact hend h
  | Enable => exact (Bool.or_eq_true _ _ ▸ h).imp_right hend
  | AddServer | DeleteServer => exact hserver h
  | _ => trivial

theorem handler_settled_lost :
    ∃ (rn : Network ℕ ℕ ℕ ℕ) (x : Call ℕ ℕ ℕ ℕ), (labrpc ℕ ℕ ℕ ℕ).Reachable rn ∧
      rn.calls[0]? = some x ∧ x.result = some none ∧
      (x.thread = .none ∨ ∃ r, x.thread = .ended r) := by
  obtain ⟨rn, past, hr, hx⟩ : ∃ (rn : Network ℕ ℕ ℕ ℕ) (past : List _),
      (labrpc ℕ ℕ ℕ ℕ).Run KeepsServers (rn :: past) ∧
        (rn.calls[0]?.any fun x => x.result == some none) = true :=
    Machine.exists_run_of_trace keepsServers keepsServers_sound
      (.Reliable false :: firstCall ++
        [.act 0 (.return_ 3), .act 0 .answer, .act 0 (.conclude true), .act 0 .reply]) (by decide)
  obtain ⟨x, hk, hres⟩ := (Option.any_eq_true _ _).mp hx
  have hres := eq_of_beq hres
  exact ⟨rn, x, ⟨past, hr.mono fun _ _ _ _ _ => trivial⟩, hk, hres,
    (handler_settled hr hk hres).imp_left And.left⟩

/-! ### The end of a call -/

def Stage.rank : Stage R → ℕ
  | .unsent => 6
  | .received => 5
  | .accepted => 4
  | .polling => 3
  | .answered _ => 2
  | .dead => 2
  | .replying _ => 1
  | .finished => 0

def Thread.rank : Thread R → ℕ
  | .starting => 3
  | .running => 2
  | .returned _ => 1
  | .none => 0
  | .ended _ => 0

/-- How many steps the goroutines of a call have at most before them. -/
def Call.rank (x : Call E N A R) : ℕ :=
  match x.stage, x.result with
  | .unsent, some _ => 0
  | stage, _ => 4 * stage.rank + x.thread.rank

/-- `Call` has returned and the handler has ended. -/
def Call.Over (x : Call E N A R) : Prop := x.result.isSome ∧ x.thread.Settled

omit [DecidableEq E] in
lemma Network.CallMoves.rank_le (hok : x.Ok) (hm : rn.CallMoves x a x') : x'.rank ≤ x.rank := by
  obtain ⟨req, route, stage, thread, result⟩ := x
  cases hm with
  | wait => exact Nat.le_refl _
  | abort h h' | receive h h' | answer h h' =>
    cases h
    cases h'
    cases hok
    simp [Call.rank, Stage.rank, Thread.rank]
  | dispatch h | return_ h | drain _ h =>
    cases h
    cases hok <;> simp [Call.rank, Stage.rank, Thread.rank]
  | accept h | refuse h | drop h | spawn h | giveUp h | fail h | discard h | lose h | deliver h
  | reply h =>
    cases h
    cases hok <;> simp [Call.rank, Stage.rank, Thread.rank]

omit [DecidableEq E] in
/-- A goroutine of the call can go on, unless it is the handler. -/
lemma exists_callStep (hok : x.Ok) (hl : rn.listening = false → rn.done = true) :
    x.Over ∨ x.thread = .running ∨ ∃ a x', rn.callStep x a = some x' ∧ x'.rank < x.rank := by
  obtain ⟨req, route, stage, thread, result⟩ := x
  cases hok with
  | unsent =>
    refine .inr (.inr ?_)
    cases hlisten : rn.listening with
    | true =>
      refine ⟨.receive, _, by simp only [Network.callStep, hlisten, if_true]; rfl, ?_⟩
      simp [Call.rank, Stage.rank, Thread.rank]
    | false =>
      refine ⟨.abort, _, by simp only [Network.callStep, hl hlisten, if_true]; rfl, ?_⟩
      simp [Call.rank, Stage.rank, Thread.rank]
  | aborted | finished => exact .inl ⟨rfl, trivial⟩
  | received =>
    refine .inr (.inr ⟨.read, ?_⟩)
    cases hread : rn.readEndnameInfo req.endname with
    | some route =>
      exact ⟨_, by simp only [Network.callStep, hread]; rfl, by simp [Call.rank, Stage.rank]⟩
    | none =>
      exact ⟨_, by simp only [Network.callStep, hread]; rfl, by simp [Call.rank, Stage.rank]⟩
  | accepted => exact .inr (.inr ⟨.spawn, _, rfl, by simp [Call.rank, Stage.rank, Thread.rank]⟩)
  | polling ht =>
    cases thread with
    | starting => exact .inr (.inr ⟨.dispatch, _, rfl, by simp [Call.rank, Thread.rank]⟩)
    | running => exact .inr (.inl rfl)
    | returned r =>
      exact .inr (.inr ⟨.answer, _, rfl, by simp [Call.rank, Stage.rank, Thread.rank]⟩)
    | none | ended => exact ht.elim
  | @answered r route =>
    refine .inr (.inr ⟨.conclude false, ?_⟩)
    cases hd : rn.isDeadFor ⟨req, some route, .answered r, .ended r, none⟩ with
    | true => exact ⟨_, by simp only [Network.callStep, hd]; rfl, by simp [Call.rank, Stage.rank]⟩
    | false => exact ⟨_, by simp only [Network.callStep, hd]; rfl, by simp [Call.rank, Stage.rank]⟩
  | dead => exact .inr (.inr ⟨.conclude false, _, rfl, by simp [Call.rank, Stage.rank]⟩)
  | failing | replying => exact .inr (.inr ⟨.reply, _, rfl, by simp [Call.rank, Stage.rank]⟩)
  | failed =>
    cases thread with
    | starting => exact .inr (.inr ⟨.dispatch, _, rfl, by simp [Call.rank, Thread.rank]⟩)
    | running => exact .inr (.inl rfl)
    | returned r => exact .inr (.inr ⟨.drain, _, rfl, by simp [Call.rank, Thread.rank]⟩)
    | none | ended => exact .inl ⟨rfl, trivial⟩

lemma done_of_run {l : List (Network E N A R)} (h : (labrpc E N A R).Run P l) :
    ∀ rn ∈ l, rn.listening = false → rn.done = true := by
  refine h.invariant (I := fun rn => rn.listening = false → rn.done = true) ?_ ?_
  · rintro _ rfl hl
    cases hl
  · intro rn past b rn' _ _ hl hn
    cases (Network.moves_of_step hn).2 with
    | Cleanup => exact fun _ => rfl
    | stop _ hd => exact fun _ => hd
    | @act k a x x' =>
      obtain ⟨_, _, _, -, heff⟩ := rn.callEffect_eq x a
      rw [heff]
      exact hl
    | _ => exact hl

/-- A call always comes to its end if handlers do: as long as it has not returned or its handler has
not ended, and the handler is not running, a step of its own brings it nearer to the end, and no
step of anything else takes it further away. -/
theorem call_progress (h : (labrpc E N A R).Reachable rn) (hc : rn.crashed = false)
    (hk : rn.calls[k]? = some x) :
    (x.Over ∨ x.thread = .running ∨ ∃ a rn' x', rn.step (.act k a) = some rn' ∧
      rn'.calls[k]? = some x' ∧ x'.rank < x.rank) ∧
      ∀ b rn', rn.step b = some rn' → ∃ x', rn'.calls[k]? = some x' ∧ x'.rank ≤ x.rank := by
  obtain ⟨past, hr⟩ := h
  have hok := ok_of_run hr rn List.mem_cons_self
  have hlt := (List.getElem?_eq_some_iff.mp hk).1
  refine ⟨?_, fun b rn' hn => ?_⟩
  · rcases exists_callStep (hok x (List.mem_of_getElem? hk))
      (done_of_run hr rn List.mem_cons_self) with hover | hrunning | ⟨a, x', hx', hrank⟩
    · exact .inl hover
    · exact .inr (.inl hrunning)
    · refine .inr (.inr ⟨a, (rn.callEffect x a).setCall k x', x', ?_, ?_, hrank⟩)
      · simp [Network.step, hc, hk, hx']
      · simp [Network.setCall, hlt]
  · cases (Network.moves_of_step hn).2 with
    | call req => exact ⟨x, by rw [List.getElem?_append_left hlt, hk], Nat.le_refl _⟩
    | @act j a y y' hj hy =>
      simp only [Network.setCall, Network.calls_callEffect]
      rcases eq_or_ne j k with rfl | hne
      · cases hj.symm.trans hk
        exact ⟨y', List.getElem?_set_self hlt, hy.rank_le (hok _ (List.mem_of_getElem? hk))⟩
      · exact ⟨x, by rw [List.getElem?_set_ne hne, hk], Nat.le_refl _⟩
    | _ => exact ⟨x, hk, Nat.le_refl _⟩

theorem call_progress_first :
    ∃ (rn : Network ℕ ℕ ℕ ℕ) (x : Call ℕ ℕ ℕ ℕ), (labrpc ℕ ℕ ℕ ℕ).Reachable rn ∧
      rn.calls[0]? = some x ∧
      (x.Over ∨ x.thread = .running ∨ ∃ a rn' x', rn.step (.act 0 a) = some rn' ∧
        rn'.calls[0]? = some x' ∧ x'.rank < x.rank) := by
  obtain ⟨rn, past, hr, hc, hx⟩ : ∃ (rn : Network ℕ ℕ ℕ ℕ) (past : List _),
      (labrpc ℕ ℕ ℕ ℕ).Run Machine.Any (rn :: past) ∧ rn.crashed = false ∧
        rn.calls[0]?.isSome = true :=
    Machine.exists_run_of_trace (fun _ _ => true) (fun _ _ _ => trivial) (firstCall.take 7)
      (by decide)
  obtain ⟨x, hk⟩ := Option.isSome_iff_exists.mp hx
  exact ⟨rn, x, ⟨past, hr⟩, hk, (call_progress ⟨past, hr⟩ hc hk).1⟩

end Runs

end LabRpc

end DistLabs
