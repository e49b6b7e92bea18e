import DistLabs.Raft.Durability

/-!
# Recovery after compaction

`persist` stores the snapshot next to the term, the vote and the trimmed log, but `readPersist`
reads only the latter three back, and `Make` starts with `X = 0` and no snapshot. So a restart
gives a peer its log back under the same indices exactly when no snapshot was taken.
-/

namespace DistLabs

variable {Cmd : Type*} [Zero Cmd] {cfg : Config}

namespace Raft

/-- Term and command of the entry at an absolute index. -/
def entryAt (rf : Raft Cmd) (i : ℕ) : Option (ℕ × Option Cmd) :=
  (rf.log.get? (rf.logIndex2sliceIndex i)).map fun e => (e.term, e.command)

/-- The index of the stored snapshot. -/
def storedIndex (p : Persister Cmd) : Option ℤ := (decodeSnapshot p.snapshot).map Prod.fst

/-- The snapshot in `p'` is at least as recent as the one in `p`. -/
def AtLeastAsRecent (p p' : Persister Cmd) : Prop :=
  ∀ i ∈ storedIndex p, ∃ j ∈ storedIndex p', i ≤ j

/-- A crash and a restart now would give the peer back its view of the log above the snapshot and
the snapshot, and whatever the restarted peer does would keep the stored snapshot. -/
structure Recovers (cfg : Config) (rf : Raft Cmd) : Prop where
  X : (Make rf.me rf.persister).X = rf.X
  log : ∀ i > rf.X, (Make rf.me rf.persister).entryAt i = rf.entryAt i
  snapshot : (Make rf.me rf.persister).snapshot = rf.snapshot
  kept : ∀ l, (peerFrom cfg (Make rf.me rf.persister)).Run Machine.Any l → ∀ srv ∈ l,
    AtLeastAsRecent rf.persister srv.rf.persister

/-- What is known of the snapshot of a peer: `X` is only ever set together with it, and the store
holds none or one that decodes. -/
structure SnapshotInv (rf : Raft Cmd) : Prop where
  X_eq : rf.snapshot = none → rf.X = 0
  stored : rf.persister.snapshot = [] ∨ (storedIndex rf.persister).isSome

variable {rf rf' : Raft Cmd}

omit [Zero Cmd] in
lemma snapshot_persist (rf : Raft Cmd) :
    rf.persist.persister.snapshot = [] ∨ (storedIndex rf.persist.persister).isSome := by
  unfold storedIndex persist
  cases rf.snapshot with
  | none => exact .inl rfl
  | some s => exact .inr rfl

omit [Zero Cmd] in
lemma storedIndex_persist (h : rf.snapshot = none) : storedIndex rf.persist.persister = none := by
  simp [storedIndex, persist, h, decodeSnapshot]

omit [Zero Cmd] in
lemma Step.snapshot_X (h : Step cfg rf rf') :
    rf'.snapshot = rf.snapshot ∧ rf'.X = rf.X ∨ rf'.snapshot.isSome := by
  cases h with
  | start hstate => simp [start_of_leader hstate]
  | @advance i end_ =>
    obtain ⟨next, matched, h⟩ := rf.advanceNext_eq i end_
    simp [h]
  | @commit term end_ =>
    obtain ⟨c, h⟩ := rf.commit_eq term end_
    simp [h]
  | applyLog h =>
    obtain ⟨_, rfl, _⟩ := applyLog_eq_some h
    simp
  | trim h =>
    obtain ⟨rest, _, rfl⟩ := snapshotTrim_eq_some h
    exact .inr rfl
  | @requestVote args =>
    generalize hr : rf.RequestVote args = r
    have hout := hr ▸ rf.voteOutcome args
    cases hout <;> simp [becomeFollower]
  | @appendEntries args =>
    rcases (appendOutcome cfg rf args).followed with ⟨_, h⟩ | ⟨_, h⟩
    · simp [h]
    · exact .inl ⟨h.snapshot, h.X⟩
  | _ => simp [becomeCandidate, becomeLeader, becomeFollower, snapshotPublish]

lemma SnapshotInv.life (h : SnapshotInv rf) (hl : Life cfg rf rf') : SnapshotInv rf' := by
  cases hl with
  | live hlive hstep =>
    constructor
    · intro hnone
      rcases hstep.snapshot_X with ⟨hs, hX⟩ | hs
      · rw [hX]
        exact h.X_eq (hs ▸ hnone)
      · simp [hnone] at hs
    · rcases hstep.stored hlive with hs | hu
      · rw [hs]
        exact snapshot_persist rf'
      · rw [hu.persister]
        exact h.stored
  | crash => exact ⟨h.X_eq, h.stored⟩
  | restart => exact ⟨fun _ => X_make _ _, by rw [persister_make]; exact h.stored⟩

/-- A restarted peer may be sent a request that makes it overwrite the stored snapshot. -/
lemma storedIndex_of_kept (hkept : ∀ l, (peerFrom cfg (Make rf.me rf.persister)).Run Machine.Any l →
    ∀ srv ∈ l, AtLeastAsRecent rf.persister srv.rf.persister) :
    storedIndex rf.persister = none := by
  set rf₀ := Make rf.me rf.persister
  have hlive : rf₀.dead = false := dead_make _ _
  let args : AppendEntriesArgs Cmd := ⟨rf₀.currentTerm, 0, 0, 0, [], 0⟩
  have hrun : (peerFrom cfg rf₀).Run Machine.Any
      [{ Server.boot rf₀ with rf := (rf₀.AppendEntries cfg args).1 }, .boot rf₀] := by
    refine .next (.init rfl) trivial (a := .appendEntries args) ?_
    simp [peerFrom, Machine.ofStep, Server.respond, Server.boot, hlive]
  have hempty : storedIndex (rf₀.AppendEntries cfg args).1.persister = none := by
    rcases (appendOutcome cfg rf₀ args).followed with ⟨hlt, _⟩ | ⟨_, hf⟩
    · exact absurd hlt (lt_irrefl _)
    · rw [hf.stored hlive]
      exact storedIndex_persist (hf.snapshot.trans (snapshot_make _ _))
  by_contra hne
  obtain ⟨i, hi⟩ := Option.ne_none_iff_exists'.mp hne
  obtain ⟨j, hj, _⟩ := hkept _ hrun _ List.mem_cons_self i hi
  rw [hempty] at hj
  cases hj

lemma entryAt_make (hd : Durable rf) (hX : rf.X = 0) (i : ℕ) :
    (Make rf.me rf.persister).entryAt i = rf.entryAt i := by
  unfold entryAt logIndex2sliceIndex
  rw [(make_of_durable hd rf.me).2.2, X_make, hX]
  rfl

end Raft

section Run

variable {me : ℕ} {srv : Server cfg.peers Cmd}

lemma peer_snapshotInv (h : (peer cfg me).Reachable srv) : srv.rf.SnapshotInv := by
  refine h.invariant (I := fun srv => srv.rf.SnapshotInv) ?_ ?_
  · rintro srv rfl
    exact ⟨fun _ => rfl, .inl rfl⟩
  · intro srv i srv' hi hnext
    exact hi.life (Server.respond_life hnext)

/-- A peer recovers from a crash exactly when it has no snapshot, neither in memory nor in its
store. -/
theorem recovers_iff (h : (peer cfg me).Reachable srv) :
    srv.rf.Recovers cfg ↔ srv.rf.snapshot = none ∧ srv.rf.persister.snapshot = [] := by
  have hinv := peer_snapshotInv h
  constructor
  · intro hr
    refine ⟨hr.snapshot.symm.trans (Raft.snapshot_make _ _), ?_⟩
    rcases hinv.stored with hnil | hsome
    · exact hnil
    · simp [Raft.storedIndex_of_kept hr.kept] at hsome
  · rintro ⟨hnone, hnil⟩
    have hX := hinv.X_eq hnone
    obtain ⟨past, hrun⟩ := h
    have hd := peer_durable hrun srv List.mem_cons_self
    refine ⟨by rw [Raft.X_make, hX], fun i _ => Raft.entryAt_make hd hX i,
      by rw [Raft.snapshot_make, hnone], fun l _ srv' _ i hi => ?_⟩
    simp [Raft.storedIndex, hnil, Raft.decodeSnapshot] at hi

/-- A peer that has applied an entry and compacted its log up to it. -/
def compacting : List (Input ℕ) :=
  [.appendEntries ⟨1, 1, 0, 0, [⟨1, 1, some 7⟩], 1⟩, .act [] [] .applyLog,
    .act [] [] (.snapshot 1 [.int 1, .commands [some 7]]), .act [] [] (.snapshotPublish 0),
    .act [] [] (.snapshotTrim 0)]

/-- After `Snapshot(1, ·)` a restart puts `X` back to 0. -/
theorem not_recovers_of_compacting :
    ∃ srv : Server (Config.doubling 3).peers ℕ, (peer (.doubling 3) 0).Reachable srv ∧
      srv.rf.X = 1 ∧ ¬ srv.rf.Recovers (.doubling 3) := by
  obtain ⟨srv, past, hrun, hX⟩ : ∃ srv past,
      (peer (.doubling 3) 0).Run Machine.Any (srv :: past) ∧ srv.rf.X = 1 :=
    Machine.exists_run_of_trace (fun _ _ => true) (fun _ _ _ => trivial) compacting (by decide)
  refine ⟨srv, ⟨past, hrun⟩, hX, fun hr => ?_⟩
  have := hr.X
  rw [Raft.X_make, hX] at this
  cases this

/-- A peer that has stored an entry and taken no snapshot recovers. -/
theorem recovers_after_append :
    ∃ srv : Server (Config.doubling 3).peers ℕ, (peer (.doubling 3) 0).Reachable srv ∧
      srv.rf.log.elems = [⟨0, 0, some 0⟩, ⟨1, 1, some 7⟩] ∧
      srv.rf.Recovers (.doubling 3) := by
  obtain ⟨srv, past, hrun, hlog, hnone, hnil⟩ : ∃ srv past,
      (peer (.doubling 3) 0).Run Machine.Any (srv :: past) ∧
        srv.rf.log.elems = [⟨0, 0, some 0⟩, ⟨1, 1, some 7⟩] ∧ srv.rf.snapshot = none ∧
          srv.rf.persister.snapshot = [] :=
    Machine.exists_run_of_trace (fun _ _ => true) (fun _ _ _ => trivial) (compacting.take 2)
      (by decide)
  exact ⟨srv, ⟨past, hrun⟩, hlog, (recovers_iff ⟨past, hrun⟩).mpr ⟨hnone, hnil⟩⟩

end Run

end DistLabs
