import DistLabs.Raft.Alignment

/-!
# What is stored of a snapshot

The service calls `Snapshot` with all that it knows up to an index, and `Snapshot` puts the commands
of the previous snapshot in front of the new ones. So the store holds what the calls have brought
one after the other, which is what the last call has brought if the earlier ones had no commands.

The calls come one at a time here, with requests and the peer's own goroutines in between. A call is
followed from its first critical section to its last one.
-/

namespace DistLabs

variable {Cmd : Type*} {cfg : Config}

/-! ### The service of a peer -/

/-- A call of `Snapshot`: the index and the commands that its data decodes to. -/
abbrev ServiceCall (Cmd : Type*) := ℕ × List (Option Cmd)

def Input.serviceCall : Input Cmd → Option (ServiceCall Cmd)
  | .act _ _ (.snapshot index data) =>
    (Raft.decodeSnapshot data).map fun content => (index, content.2)
  | _ => none

/-- The condition on a step: the service makes one call after the other, with increasing indices,
requests hold the entries behind their previous entry, the entry at the index of a call keeps its
term until the call returns, and the peer does not crash. -/
def CallsInTurn (s : Server cfg.peers Cmd × List (ServiceCall Cmd)) : Input Cmd → Prop
  | .act _ _ (.snapshot index _) => s.1.snapshots = [] ∧ s.1.rf.X < index
  | .act _ _ (.snapshotTrim j) =>
    ∀ c ∈ s.1.snapshots[j]?, ∀ e ∈ s.1.rf.log.get? (s.1.rf.logIndex2sliceIndex c.index),
      e.term = c.lastIncludedTerm
  | .appendEntries args => args.Consecutive
  | .crash | .restart => False
  | _ => True

/-! ### What the calls are merged to -/

/-- What `Snapshot` makes of the calls, newest first. -/
def merged (calls : List (ServiceCall Cmd)) : Option (ℤ × List (Option Cmd)) :=
  calls.head?.map fun call => (call.1, calls.reverse.flatMap Prod.snd)

lemma merged_cons (call : ServiceCall Cmd) (calls : List (ServiceCall Cmd)) :
    merged (call :: calls) = some ((call.1 : ℤ), (merged calls).elim [] Prod.snd ++ call.2) := by
  cases calls with
  | nil => simp [merged]
  | cons => simp [merged]

namespace Raft

/-- Index and commands of the snapshot. -/
def content (rf : Raft Cmd) : Option (ℤ × List (Option Cmd)) :=
  rf.snapshot.map fun s => (s.lastIncludedIndex, s.commands)

/-- Index and commands of the stored snapshot. -/
def storedContent (rf : Raft Cmd) : Option (ℤ × List (Option Cmd)) :=
  decodeSnapshot rf.persister.snapshot

variable {rf rf' : Raft Cmd}

lemma Stored.storedContent (h : rf.Stored) : rf.storedContent = rf.content := by
  unfold Raft.storedContent content
  rw [h]
  unfold persist
  cases rf.snapshot with
  | none => rfl
  | some s => rfl

/-- Every critical section stores the snapshot or leaves the store alone. -/
lemma Step.storedContent (h : Step cfg rf rf') (hlive : rf.dead = false) :
    rf'.storedContent = rf'.content ∨ rf'.storedContent = rf.storedContent := by
  rcases h.stored hlive with hs | hu
  · exact .inl hs.storedContent
  · exact .inr (by unfold Raft.storedContent; rw [hu.persister])

lemma snapshotRead_mergedCommands {index : ℕ} {data : List (GobValue Cmd)} {c : SnapshotCall Cmd}
    (h : rf.snapshotRead index data = some c) :
    ∃ commands, decodeSnapshot data = some ((index : ℤ), commands) ∧ c.published = false ∧
      c.index = index ∧ c.mergedCommands = rf.content.elim [] Prod.snd ++ commands := by
  obtain ⟨commands, e, hdata, -, rfl⟩ := snapshotRead_eq_some h
  refine ⟨commands, hdata, rfl, rfl, ?_⟩
  unfold content
  cases rf.snapshot <;> rfl

end Raft

/-! ### A call and its critical sections -/

/-- How far the newest of the calls has come, and what the peer then holds and has stored. -/
inductive Server.Serves {n : ℕ} (srv : Server n Cmd) : List (ServiceCall Cmd) → Prop
  | returned {calls : List (ServiceCall Cmd)} (hs : srv.snapshots = [])
      (hcontent : srv.rf.content = merged calls) (hstored : srv.rf.storedContent = merged calls) :
      Serves srv calls
  | read {calls : List (ServiceCall Cmd)} {call : ServiceCall Cmd} {c : Raft.SnapshotCall Cmd}
      (hs : srv.snapshots = [c]) (hp : c.published = false)
      (hc : merged (call :: calls) = some ((c.index : ℤ), c.mergedCommands))
      (hcontent : srv.rf.content = merged calls) (hstored : srv.rf.storedContent = merged calls) :
      Serves srv (call :: calls)
  | published {calls : List (ServiceCall Cmd)} {call : ServiceCall Cmd} {c : Raft.SnapshotCall Cmd}
      (hs : srv.snapshots = [c]) (hp : c.published = true)
      (hc : merged (call :: calls) = some ((c.index : ℤ), c.mergedCommands))
      (hcontent : srv.rf.content = merged (call :: calls))
      (hstored : srv.rf.storedContent = merged calls ∨
        srv.rf.storedContent = merged (call :: calls)) :
      Serves srv (call :: calls)

section Serves

variable {n : ℕ} {srv srv' : Server n Cmd} {calls : List (ServiceCall Cmd)}

/-- What is not part of a call. -/
lemma Server.Serves.keep (h : srv.Serves calls) (hstep : Raft.Step cfg srv.rf srv'.rf)
    (hlive : srv.rf.dead = false) (hs : srv'.snapshots = srv.snapshots)
    (hsnap : srv'.rf.snapshot = srv.rf.snapshot) : srv'.Serves calls := by
  have hcont : srv'.rf.content = srv.rf.content := by
    unfold Raft.content
    rw [hsnap]
  have hst := hstep.storedContent hlive
  rw [hcont] at hst
  cases h with
  | returned hs₀ hcontent hstored =>
    exact .returned (hs.trans hs₀) (hcont.trans hcontent) (hst.elim (·.trans hcontent)
      (·.trans hstored))
  | read hs₀ hp hc hcontent hstored =>
    exact .read (hs.trans hs₀) hp hc (hcont.trans hcontent) (hst.elim (·.trans hcontent)
      (·.trans hstored))
  | published hs₀ hp hc hcontent hstored =>
    refine .published (hs.trans hs₀) hp hc (hcont.trans hcontent) ?_
    rcases hst with hst | hst
    · exact .inr (hst.trans hcontent)
    · rwa [hst]

/-- The first critical section, with no other call going on. -/
lemma Server.Serves.begin (h : srv.Serves calls) (hidle : srv.snapshots = []) {index : ℕ}
    {data : List (GobValue Cmd)} {c : Raft.SnapshotCall Cmd}
    (hread : srv.rf.snapshotRead index data = some c) :
    ∃ commands, Raft.decodeSnapshot data = some ((index : ℤ), commands) ∧
      ({ srv with snapshots := srv.snapshots ++ [c] } : Server n Cmd).Serves
        ((index, commands) :: calls) := by
  obtain ⟨commands, hdata, hp, hidx, hmerged⟩ := Raft.snapshotRead_mergedCommands hread
  refine ⟨commands, hdata, ?_⟩
  cases h with
  | returned _ hcontent hstored =>
    refine .read (by simp [hidle]) hp ?_ hcontent hstored
    rw [merged_cons, hidx, hmerged, hcontent]
  | read hs | published hs => simp [hidle] at hs

lemma Server.Serves.publish (h : srv.Serves calls) {j : ℕ} {c : Raft.SnapshotCall Cmd}
    (hj : srv.snapshots[j]? = some c) (hp : c.published = false) :
    ({ srv with
        rf := srv.rf.snapshotPublish c
        snapshots := srv.snapshots.set j { c with published := true } } : Server n Cmd).Serves
      calls := by
  cases h with
  | returned hs => simp [hs] at hj
  | @read _ _ c₀ hs _ hc _ hstored =>
    obtain ⟨rfl, rfl⟩ : j = 0 ∧ c₀ = c := by simpa [hs, List.getElem?_singleton] using hj
    exact .published (c := { c₀ with published := true }) (by simp [hs]) rfl hc hc.symm
      (.inl hstored)
  | published hs hp' =>
    obtain ⟨rfl, rfl⟩ : j = 0 ∧ _ = c := by simpa [hs, List.getElem?_singleton] using hj
    simp [hp] at hp'

lemma Server.Serves.trim (h : srv.Serves calls) {j : ℕ} {c : Raft.SnapshotCall Cmd}
    {rf : Raft Cmd} (hj : srv.snapshots[j]? = some c) (hp : c.published = true)
    (hrf : srv.rf.snapshotTrim cfg c = some rf) :
    ({ srv with rf := rf, snapshots := srv.snapshots.eraseIdx j } : Server n Cmd).Serves calls := by
  cases h with
  | returned hs => simp [hs] at hj
  | read hs hp' =>
    obtain ⟨rfl, rfl⟩ : j = 0 ∧ _ = c := by simpa [hs, List.getElem?_singleton] using hj
    simp [hp] at hp'
  | published hs _ hc =>
    obtain ⟨rfl, rfl⟩ : j = 0 ∧ _ = c := by simpa [hs, List.getElem?_singleton] using hj
    obtain ⟨rest, -, rfl⟩ := Raft.snapshotTrim_eq_some hrf
    exact .returned (by simp [hs]) hc.symm hc.symm

lemma Server.Serves.storedContent (h : srv.Serves calls) :
    srv.rf.storedContent = merged calls ∨
      srv.snapshots ≠ [] ∧ srv.rf.storedContent = merged calls.tail := by
  cases h with
  | returned _ _ hstored => exact .inl hstored
  | read hs _ _ _ hstored => exact .inr ⟨by simp [hs], hstored⟩
  | published hs _ _ _ hstored => exact hstored.symm.imp_right fun hst => ⟨by simp [hs], hst⟩

/-- What a peer and its service do together. -/
structure Server.Sound (srv : Server n Cmd) (calls : List (ServiceCall Cmd)) : Prop where
  aligned : srv.Aligned
  serves : srv.Serves calls

end Serves

/-! ### Runs -/

section Run

variable [Zero Cmd] {me : ℕ} {srv srv' : Server cfg.peers Cmd} {calls : List (ServiceCall Cmd)}
  {i : Input Cmd}

omit [Zero Cmd] in
lemma Server.Sound.act {votes : List (VoteCall Cmd)} {appends : List (AppendCall Cmd)}
    {a : LocalAction Cmd} (h : srv.Sound calls) (hlive : srv.rf.dead = false)
    (hP : CallsInTurn (srv, calls) (.act votes appends a)) {eff : Effect cfg.peers Cmd}
    (heff : srv.act cfg votes appends a = some eff) :
    eff.server.Sound ((Input.act votes appends a).serviceCall.toList ++ calls) := by
  have hacts := acts_of_act heff
  refine ⟨h.aligned.acts hacts, ?_⟩
  by_cases ha : ∃ index data, a = .snapshot index data
  · obtain ⟨index, data, rfl⟩ := ha
    obtain ⟨-, c, hread, rfl⟩ := Server.snapshot_eq_some heff
    obtain ⟨commands, hdata, hserves⟩ := h.serves.begin hP.1 hread
    simpa [Input.serviceCall, hdata] using hserves
  · have hnone : (Input.act votes appends a).serviceCall = none := by
      cases a with
      | snapshot index data => exact absurd ⟨index, data, rfl⟩ ha
      | _ => rfl
    have hstep := hacts.rf_step
    have hm := hacts.snapshotMove
    rw [hnone]
    generalize eff.server = srv' at hstep hm ⊢
    cases hm with
    | keep hs hsnap => exact h.serves.keep hstep hlive hs hsnap
    | read => exact absurd ⟨_, _, rfl⟩ ha
    | publish hj hp => exact h.serves.publish hj hp
    | trim hj hp hrf => exact h.serves.trim hj hp hrf

lemma Server.Sound.respond (h : srv.Sound calls) (hP : CallsInTurn (srv, calls) i)
    (hi : srv.respond cfg i = some srv') : srv'.Sound (i.serviceCall.toList ++ calls) := by
  cases Server.responds_of_respond hi with
  | act hlive heff => exact h.act hlive hP heff
  | @requestVote args hlive =>
    have hstep : Raft.Step cfg srv.rf (srv.rf.RequestVote args).1 := .requestVote
    refine ⟨h.aligned.requestVote args, h.serves.keep hstep hlive rfl ?_⟩
    obtain ⟨T, v, st, p, hrf⟩ := srv.rf.requestVote_eq args
    simp [hrf]
  | @appendEntries args hlive =>
    refine ⟨h.aligned.appendEntries hP, h.serves.keep .appendEntries hlive rfl ?_⟩
    rcases (Raft.appendOutcome cfg srv.rf args).followed with ⟨-, hr⟩ | ⟨-, hf⟩
    · simp [hr]
    · exact hf.snapshot
  | crash | restart => exact hP.elim

/-- A call that nothing interrupts does what `Raft.Snapshot` says. -/
lemma Server.respond_snapshot {index : ℕ} {data : List (GobValue Cmd)} {rf : Raft Cmd}
    (hlive : srv.rf.dead = false) (hidle : srv.snapshots = [])
    (hidx : index ≤ srv.rf.lastApplied) (h : srv.rf.Snapshot cfg index data = some rf) :
    [Input.act [] [] (.snapshot index data), .act [] [] (.snapshotPublish 0),
      .act [] [] (.snapshotTrim 0)].foldlM (Server.respond cfg) srv =
        some { srv with rf := rf } := by
  unfold Raft.Snapshot at h
  split at h
  · cases h
  · rename_i c hread
    obtain ⟨-, -, hp, -, -⟩ := Raft.snapshotRead_mergedCommands hread
    have hlive' : (srv.rf.snapshotPublish c).dead = false := hlive
    have htrim : (srv.rf.snapshotPublish c).snapshotTrim cfg { c with published := true } =
        some rf := h
    simp [Server.respond, Server.act, Server.snapshot, Server.snapshotPublish, Server.snapshotTrim,
      hlive, hlive', hidle, hidx, hread, hp, htrim]

end Run

end DistLabs
