import DistLabs.Consensus.Completeness
import DistLabs.Raft.Commit
import DistLabs.Raft.Slicing

/-!
# Replication

The cluster refines the protocol of `DistLabs.Consensus.ReplicatedLog`, as long as no goroutine
slices behind the end of its log: the peers are its servers, the `AppendEntries` requests are its
messages, and whatever a peer holds in some state of the run has been taken note of.
-/

namespace DistLabs

open ReplicatedLog

variable {Cmd : Type*} {cfg : Config}

/-- Majorities of `n` peers, and the terms of log entries. -/
def logParams [Zero Cmd] (n : ℕ) : Params ℕ (LogEntry Cmd) where
  quorums := majority n
  term := LogEntry.term
  root := Raft.sentinel
  term_root := rfl

/-- A request as a message. Its office is the term the sender was in when it built the request. -/
def Call.message (c : AppendCall Cmd) : Message (LogEntry Cmd) :=
  ⟨c.args.term, c.sender.currentTerm, c.log, c.args.leaderCommit⟩

/-- Peer `s` has stood in `term` with a log of this length, whose last entry has this term. -/
def Stands (t : State ℕ (LogEntry Cmd)) (s term lastLogTerm lastLogIndex : ℕ) : Prop :=
  ∃ B, t.ballot s term = some B ∧ lastLogTerm = lastTerm LogEntry.term B ∧
    lastLogIndex + 1 = B.length

/-- What the goroutines and the calls of the cluster carry is on the records of the protocol. -/
structure Logged {n : ℕ} (C : Cluster n Cmd) (t : State ℕ (LogEntry Cmd)) : Prop where
  recorded : Recorded C t.votes
  elections : ∀ s, ∀ el ∈ (C.servers s).elections,
    Stands t s el.term el.lastLogTerm el.lastLogIndex
  requests : ∀ c ∈ C.voteCalls,
    Stands t c.src c.args.term c.args.lastLogTerm c.args.lastLogIndex
  heartbeats : ∀ s, ∀ hb ∈ (C.servers s).heartbeats, (s, hb.term, hb.commitIndex) ∈ t.seen
  broadcasts : ∀ s, ∀ b ∈ (C.servers s).broadcasts, (s, b.term, b.leaderCommit) ∈ t.seen
  messages : ∀ c ∈ C.appendCalls, c.message ∈ t.messages
  created : ∀ e ∈ C.created, ∃ r, t.reign e.term = some r ∧ r.log[e.index]? = some e
  applied : ∀ x ∈ C.applyCh, ∃ e, (x.2.commandIndex, e) ∈ t.applied ∧ e.command = x.2.command

section Logged

variable {n : ℕ} {C : Cluster n Cmd} {t t' : State ℕ (LogEntry Cmd)} {s : ℕ}

lemma Stands.mono {term lastLogTerm lastLogIndex : ℕ} (h : Stands t s term lastLogTerm lastLogIndex)
    (he : Extends t t') : Stands t' s term lastLogTerm lastLogIndex := by
  obtain ⟨B, hB, hlast⟩ := h
  exact ⟨B, he.ballot _ _ _ hB, hlast⟩

lemma Logged.mono (h : Logged C t) (he : Extends t t') : Logged C t' where
  recorded := h.recorded.mono he.votes
  elections s el hel := (h.elections s el hel).mono he
  requests c hc := (h.requests c hc).mono he
  heartbeats s hb hhb := he.seen (h.heartbeats s hb hhb)
  broadcasts s b hb := he.seen (h.broadcasts s b hb)
  messages c hc := he.messages (h.messages c hc)
  created e hem := by
    obtain ⟨r, hr, hlog⟩ := h.created e hem
    obtain ⟨r', hr', -, hp⟩ := he.reign _ r hr
    exact ⟨r', hr', (getElem?_of_isPrefix hp (List.getElem?_eq_some_iff.mp hlog).1).trans hlog⟩
  applied x hx := by
    obtain ⟨e, hie, hcmd⟩ := h.applied x hx
    exact ⟨e, he.applied hie, hcmd⟩

/-- A step of peer `s`. What it captures is current, what it creates must be on the records. -/
lemma Logged.act (h : Logged C t) (hw : C.Wired) (hme : (C.servers s).rf.me = s)
    {a : LocalAction Cmd} {eff : Effect n Cmd}
    (hacts : (C.servers s).Acts cfg C.voteCalls C.appendCalls a eff)
    (hseen : (s, (C.servers s).rf.currentTerm, (C.servers s).rf.commitIndex) ∈ t.seen)
    (hstand : eff.server.rf =
        (C.servers s).rf.becomeCandidate ((C.servers s).rf.currentTerm + 1) →
      Stands t s ((C.servers s).rf.currentTerm + 1)
        (C.servers s).rf.getLastLogEntryTermIndex.1 (C.servers s).rf.getLastLogEntryTermIndex.2)
    (hsend : ∀ c ∈ eff.appendCall, c.message ∈ t.messages)
    (hcreated : ∀ e ∈ eff.created, ∃ r, t.reign e.term = some r ∧ r.log[e.index]? = some e)
    (happlied : ∀ m ∈ eff.applyMsg, ∃ e, (m.commandIndex, e) ∈ t.applied ∧ e.command = m.command) :
    Logged (C.perform s eff) t where
  recorded := h.recorded.act hw hacts
  elections := by
    intro v el hel
    rcases eq_or_ne v s with rfl | hne
    · simp only [Cluster.perform, Function.update_self] at hel
      rcases hacts.mem_elections hel with ⟨el₀, hel₀, ht, hlt, hli⟩ | ⟨hrf, ht, hlast⟩
      · rw [ht, hlt, hli]
        exact h.elections v el₀ hel₀
      · have := hstand hrf
        rwa [← hlast, ← ht] at this
    · simp only [Cluster.perform, Function.update_of_ne hne] at hel
      exact h.elections v el hel
  requests := by
    intro c hc
    rcases List.mem_append.mp hc with hc | hc
    · exact h.requests c hc
    · cases hacts with
      | voteCall hel _ _ =>
        obtain rfl := List.mem_singleton.mp hc
        simpa only [hme] using h.elections s _ (List.mem_of_getElem? hel)
      | _ => cases hc
  heartbeats := by
    intro v hb hhb
    rcases eq_or_ne v s with rfl | hne
    · simp only [Cluster.perform, Function.update_self] at hhb
      rcases hacts.mem_heartbeats hhb with ⟨hb₀, hhb₀, ht, hc⟩ | ⟨-, ht, hc⟩
      · rw [ht, hc]
        exact h.heartbeats v hb₀ hhb₀
      · rwa [ht, hc]
    · simp only [Cluster.perform, Function.update_of_ne hne] at hhb
      exact h.heartbeats v hb hhb
  broadcasts := by
    intro v b hb
    rcases eq_or_ne v s with rfl | hne
    · simp only [Cluster.perform, Function.update_self] at hb
      rcases hacts.mem_broadcasts hb with ⟨b₀, hb₀, ht, hc, -⟩ | ⟨-, ht, hc, -⟩
      · rw [ht, hc]
        exact h.broadcasts v b₀ hb₀
      · rwa [ht, hc]
    · simp only [Cluster.perform, Function.update_of_ne hne] at hb
      exact h.broadcasts v b hb
  messages := by
    intro c hc
    rcases List.mem_append.mp hc with hc | hc
    · exact h.messages c hc
    · exact hsend c (Option.mem_toList.mp hc)
  created := by
    intro e he
    rcases List.mem_append.mp he with he | he
    · exact h.created e he
    · exact hcreated e (Option.mem_toList.mp he)
  applied := by
    intro x hx
    rcases List.mem_append.mp hx with hx | hx
    · exact h.applied x hx
    · obtain ⟨m, hm, rfl⟩ := List.mem_map.mp hx
      exact happlied m (Option.mem_toList.mp hm)

/-- The goroutines are as they were or gone. -/
lemma Logged.update (h : Logged C t) {srv : Server n Cmd}
    (hrec : Recorded { C with servers := Function.update C.servers s srv } t.votes)
    (hel : srv.elections ⊆ (C.servers s).elections)
    (hhb : srv.heartbeats ⊆ (C.servers s).heartbeats)
    (hbc : srv.broadcasts ⊆ (C.servers s).broadcasts) :
    Logged { C with servers := Function.update C.servers s srv } t := by
  have hold : ∀ {α : Type} {f : Server n Cmd → List α}, f srv ⊆ f (C.servers s) → ∀ v,
      f (Function.update C.servers s srv v) ⊆ f (C.servers v) := by
    intro α f hf v
    rcases eq_or_ne v s with rfl | hne
    · rwa [Function.update_self]
    · rw [Function.update_of_ne hne]
      exact List.Subset.refl _
  exact
    { recorded := hrec
      elections := fun v el hv => h.elections v el (hold hel v hv)
      requests := h.requests
      heartbeats := fun v hb hv => h.heartbeats v hb (hold hhb v hv)
      broadcasts := fun v b hv => h.broadcasts v b (hold hbc v hv)
      messages := h.messages
      created := h.created
      applied := h.applied }

/-- A peer has been booted. -/
lemma Logged.boot {C : Cluster cfg.peers Cmd} (h : Logged C t) (s : ℕ) (rf : Raft Cmd) :
    Logged { C with servers := Function.update C.servers s (.boot rf) } t :=
  h.update (h.recorded.boot s rf) (List.nil_subset _) (List.nil_subset _) (List.nil_subset _)

/-- A handler has run at peer `s`. -/
lemma Logged.setRf {C : Cluster cfg.peers Cmd} (h : Logged C t) (s : ℕ) (rf : Raft Cmd) :
    Logged (C.setRf s rf) t :=
  h.update (h.recorded.setRf s rf) (List.Subset.refl _) (List.Subset.refl _) (List.Subset.refl _)

end Logged

/-- The simulation relation: the servers are the peers, the records cover what is under way, and
only terms with a leader have a reign. -/
structure Replicates {n : ℕ} (C : Cluster n Cmd) (t : State ℕ (LogEntry Cmd)) : Prop where
  server : ∀ v, t.server v = (C.servers v).rf.replica
  logged : Logged C t
  leaders : ∀ T r, t.reign T = some r → 0 < T → T ∈ C.leaders.map Prod.snd
  nodup : (C.created.map fun e => (e.index, e.term)).Nodup

/-! ### Answering the steps of the cluster -/

/-- What some peer has held in its own term, in some state of the run, has been taken note of. -/
def Noted {n : ℕ} (l : List (Cluster n Cmd)) (t : State ℕ (LogEntry Cmd)) : Prop :=
  ∀ D ∈ l, ∀ v i, Has LogEntry.term (D.servers v).rf.log.elems i (D.servers v).rf.currentTerm →
    (v, i, (D.servers v).rf.currentTerm) ∈ t.held

lemma Raft.ne_becomeCandidate {rf rf' : Raft Cmd} (h : rf'.currentTerm = rf.currentTerm) :
    rf' ≠ rf.becomeCandidate (rf.currentTerm + 1) := by
  rintro rfl
  simp [Raft.becomeCandidate] at h

section Answer

variable [Zero Cmd] {C C' : Cluster cfg.peers Cmd} {t t' : State ℕ (LogEntry Cmd)} {s : ℕ}
  {a : LocalAction Cmd} {eff : Effect cfg.peers Cmd}
  (h : Replicates C t) (hreach : (machine (logParams cfg.peers)).Reachable t) (hw : C.Wired)
  (hme : (C.servers s).rf.me = s)
  (hacts : (C.servers s).Acts cfg C.voteCalls C.appendCalls a eff)

include h hreach hw hme hacts

/-- A step of peer `s`, answered by steps that lead to `t'`. -/
lemma Replicates.perform (hsteps : (machine (logParams cfg.peers)).Steps t t')
    (hserver : t'.server = Function.update t.server s eff.server.rf.replica)
    (hleaders : ∀ T r, t'.reign T = some r → t.reign T = none → eff.leader = some T)
    (hstand : eff.server.rf =
        (C.servers s).rf.becomeCandidate ((C.servers s).rf.currentTerm + 1) →
      Stands t' s ((C.servers s).rf.currentTerm + 1)
        (C.servers s).rf.getLastLogEntryTermIndex.1 (C.servers s).rf.getLastLogEntryTermIndex.2)
    (hsend : ∀ c ∈ eff.appendCall, c.message ∈ t'.messages)
    (hcreated : ∀ e ∈ eff.created, (∃ r, t'.reign e.term = some r ∧ r.log[e.index]? = some e) ∧
      ∀ r, t.reign e.term = some r → r.log.length ≤ e.index)
    (happlied : ∀ m ∈ eff.applyMsg,
      ∃ e, (m.commandIndex, e) ∈ t'.applied ∧ e.command = m.command) :
    Replicates (C.perform s eff) t' := by
  have he := extends_of_steps hreach hsteps
  have hseen := (current_of_reachable hreach s).2
  rw [h.server s] at hseen
  refine ⟨fun v => ?_, ?_, ?_, ?_⟩
  · rw [hserver]
    rcases eq_or_ne v s with rfl | hne
    · simp [Cluster.perform]
    · simp [Cluster.perform, hne, h.server]
  · exact (h.logged.mono he).act hw hme hacts (he.seen hseen) hstand hsend
      (fun e hem => (hcreated e hem).1) happlied
  · intro T r hr hT
    simp only [Cluster.perform, List.map_append, List.mem_append]
    cases hold : t.reign T with
    | some r₀ => exact .inl (h.leaders T r₀ hold hT)
    | none => exact .inr (by simp [hleaders T r hr hold])
  · cases hc : eff.created with
    | none => simpa [Cluster.perform, hc] using h.nodup
    | some e =>
      simp only [Cluster.perform, hc, Option.toList_some, List.map_append, List.map_singleton]
      refine List.Nodup.append h.nodup (List.nodup_singleton _) ?_
      simp only [List.disjoint_singleton, List.mem_map, not_exists, not_and]
      rintro e' he' heq
      obtain ⟨hidx, hterm⟩ := Prod.mk.inj heq
      obtain ⟨r, hr, hlog⟩ := h.logged.created e' he'
      have := (hcreated e hc).2 r (hterm ▸ hr)
      have := (List.getElem?_eq_some_iff.mp hlog).1
      omega

/-- The same for one step that elects nobody. -/
lemma Replicates.answer {u : State ℕ (LogEntry Cmd)} (hstep : Step (logParams cfg.peers) t u)
    (hserver : u.server = Function.update t.server s eff.server.rf.replica)
    (hreign : u.reign = t.reign)
    (hstand : eff.server.rf =
        (C.servers s).rf.becomeCandidate ((C.servers s).rf.currentTerm + 1) →
      Stands u s ((C.servers s).rf.currentTerm + 1)
        (C.servers s).rf.getLastLogEntryTermIndex.1 (C.servers s).rf.getLastLogEntryTermIndex.2)
    (hcreated : eff.created = none)
    (hsend : ∀ c ∈ eff.appendCall, c.message ∈ u.messages)
    (happlied : ∀ m ∈ eff.applyMsg,
      ∃ e, (m.commandIndex, e) ∈ u.applied ∧ e.command = m.command) :
    ∃ t', (machine (logParams cfg.peers)).Steps t t' ∧ Replicates (C.perform s eff) t' := by
  refine ⟨_, hstep.steps, h.perform hreach hw hme hacts hstep.steps hserver ?_ hstand hsend
    (by simp [hcreated]) happlied⟩
  intro T r hr hnone
  simp only [State.record, hreign, hnone] at hr
  cases hr

/-- A step that changes nothing the protocol looks at. -/
lemma Replicates.stutter (hsame : eff.server.rf.replica = (C.servers s).rf.replica)
    (hcreated : eff.created = none) (hcall : eff.appendCall = none)
    (happly : eff.applyMsg = none) : Replicates (C.perform s eff) t := by
  refine h.perform hreach hw hme hacts (.refl t) ?_ ?_ (fun hrf => ?_) (by simp [hcall])
    (by simp [hcreated]) (by simp [happly])
  · rw [hsame, ← h.server s, Function.update_eq_self]
  · intro T r hr hnone
    simp [hnone] at hr
  · exact absurd hrf (Raft.ne_becomeCandidate (congrArg Replica.term hsame))

/-- A step that changes the term or the role without winning an election. -/
lemma Replicates.turn (hplain : (C.servers s).rf.PlainLog) (hcreated : eff.created = none)
    (hcall : eff.appendCall = none) (happly : eff.applyMsg = none)
    (hturn : eff.server.rf.replica = (C.servers s).rf.replica ∨
      eff.server.rf = (C.servers s).rf.becomeCandidate ((C.servers s).rf.currentTerm + 1) ∨
      ∃ T, (C.servers s).rf.currentTerm < T ∧
        eff.server.rf = (C.servers s).rf.becomeFollower T none) :
    ∃ t', (machine (logParams cfg.peers)).Steps t t' ∧ Replicates (C.perform s eff) t' := by
  have hs := h.server s
  rcases hturn with hsame | hrf | ⟨T, hT, hrf⟩
  · exact ⟨t, .refl t, h.stutter hreach hw hme hacts hsame hcreated hcall happly⟩
  · refine h.answer hreach hw hme hacts (.stand s) ?_ rfl (fun _ => ?_) hcreated (by simp [hcall])
      (by simp [happly])
    · rw [hrf, Raft.replica_becomeCandidate]
      simp only [hs]
      rfl
    · obtain ⟨hlast, hlen⟩ := hplain.getLastLogEntryTermIndex
      exact ⟨_, by simp [State.stood, hs, Raft.replica], hlast, hlen⟩
  · refine h.answer hreach hw hme hacts (.bump s (T := T) (by rw [hs]; exact hT)) ?_ rfl
      (fun hc => ?_) hcreated (by simp [hcall]) (by simp [happly])
    · rw [hrf, Raft.replica_becomeFollower]
      simp only [hs]
    · have := congrArg (fun rf => rf.replica.role) (hrf.symm.trans hc)
      simp [Raft.replica_becomeFollower, Raft.replica_becomeCandidate] at this

/-- A peer that wins its election. -/
lemma Replicates.win (hs : s < cfg.peers) (hpos : 0 < (C.servers s).rf.currentTerm)
    (hnodup : ((C.perform s eff).leaders.map Prod.snd).Nodup) (hlead : eff.leader ≠ none) :
    ∃ t', (machine (logParams cfg.peers)).Steps t t' ∧ Replicates (C.perform s eff) t' := by
  have hacts' := hacts
  cases hacts' with
  | @voteWin e x y el hel hd hstate hterm =>
    have hserver := h.server s
    have hT : (t.server s).term = (C.servers s).rf.currentTerm := by rw [hserver]; rfl
    obtain ⟨hA, hvotes⟩ := h.logged.recorded.quorum hw hs (List.mem_of_getElem? hel) hd
    have hnew : t.reign (t.server s).term = none := by
      cases hr : t.reign (t.server s).term with
      | none => rfl
      | some r =>
        have hmem := h.leaders _ r hr (hT ▸ hpos)
        rw [hT] at hmem
        simp only [Cluster.perform, Option.toList_some, List.map_append,
          List.map_singleton] at hnodup
        rw [← List.concat_eq_append, List.nodup_concat] at hnodup
        exact absurd hmem hnodup.1
    have hstep := Step.win (P := logParams cfg.peers) (t := t) s (A := insert s el.poll.yes)
      (by rw [hserver, Raft.replica, hstate]; rfl) hnew hA (by rwa [hT, hterm])
    refine ⟨_, hstep.steps, h.perform hreach hw hme hacts hstep.steps ?_ ?_ (fun hc => ?_)
      (by simp) (by simp) (by simp)⟩
    · simp only [State.record, hserver]
      rfl
    · intro T r hr hnone
      simp only [State.record, Chronicle.elect, hT] at hr
      rcases eq_or_ne T (C.servers s).rf.currentTerm with rfl | hne
      · rfl
      · rw [Function.update_of_ne hne, hnone] at hr
        cases hr
    · exact absurd hc (Raft.ne_becomeCandidate rfl)
  | _ => exact absurd rfl hlead

/-- A leader to which the service has given a command. -/
lemma Replicates.append (hplain : (C.servers s).rf.PlainLog) (hcreates : eff.created ≠ none) :
    ∃ t', (machine (logParams cfg.peers)).Steps t t' ∧ Replicates (C.perform s eff) t' := by
  have hacts' := hacts
  cases hacts' with
  | @start command m hstate =>
    have hserver := h.server s
    have hT : (t.server s).term = (C.servers s).rf.currentTerm := by rw [hserver]; rfl
    have hrole : (t.server s).role = .leader := by rw [hserver, Raft.replica, hstate]; rfl
    obtain ⟨-, r, hr, hlog⟩ := ((inv_of_reachable hreach).replica s).leader hrole
    have hlen : r.log.length = (C.servers s).rf.log.len + (C.servers s).rf.X := by
      rw [hlog, hserver, hplain.X]
      rfl
    have hstep := Step.append (P := logParams cfg.peers) (t := t) s
      (e := ⟨(C.servers s).rf.currentTerm, (C.servers s).rf.log.len + (C.servers s).rf.X, command⟩)
      hrole hr hT.symm
    refine ⟨_, hstep.steps, h.perform hreach hw hme hacts hstep.steps ?_ ?_ (fun hc => ?_)
      (by simp) ?_ (by simp)⟩
    · rw [Raft.replica_start cfg hstate]
      simp only [State.record, hserver]
    · intro T r' hr' hnone
      simp only [State.record, Chronicle.append] at hr'
      rcases eq_or_ne T (t.server s).term with rfl | hne
      · rw [hr] at hnone
        cases hnone
      · rw [Function.update_of_ne hne, hnone] at hr'
        cases hr'
    · refine absurd hc (Raft.ne_becomeCandidate ?_)
      simp [Raft.start_of_leader hstate]
    · rintro e ⟨⟩
      rw [hT] at hr
      refine ⟨⟨_, (congrArg _ hT.symm).trans (Function.update_self _ _ _), ?_⟩, fun r' hr' => ?_⟩
      · rw [← hlen]
        simp
      · rw [hr] at hr'
        cases hr'
        exact hlen.le
  | _ => exact absurd rfl hcreates

/-- A leader that builds a request. -/
lemma Replicates.send {c : AppendCall Cmd} (hcall : eff.appendCall = some c) :
    ∃ t', (machine (logParams cfg.peers)).Steps t t' ∧ Replicates (C.perform s eff) t' := by
  obtain ⟨hgen, -, hsender, -⟩ := (hw.servers s).appendCall hacts c hcall
  have hstate := hgen.state
  have hserver := h.server s
  rw [hsender] at hstate
  have hseen : (s, c.args.term, c.args.leaderCommit) ∈ t.seen := by
    cases hacts with
    | heartbeatCall hhb _ _ hargs =>
      cases hcall
      obtain ⟨hterm, -, -, hcommit⟩ := heartbeatRequest_eq_some hargs
      rw [hterm, hcommit]
      exact h.logged.heartbeats s _ (List.mem_of_getElem? hhb)
    | peerCall hbc _ _ _ hargs =>
      cases hcall
      obtain ⟨prev, entries, -, -, rfl⟩ := appendRequest_eq_some hargs
      exact h.logged.broadcasts s _ (List.mem_of_getElem? hbc)
    | _ => cases hcall
  have hrf : eff.server.rf = (C.servers s).rf ∧ eff.created = none ∧ eff.applyMsg = none := by
    cases hacts with
    | heartbeatCall | peerCall => exact ⟨rfl, rfl, rfl⟩
    | _ => cases hcall
  refine h.answer hreach hw hme hacts (.send s (m := c.message) ?_ ?_ ?_ hseen) ?_ rfl
    (fun hc => ?_) hrf.2.1 ?_ (by simp [hrf.2.2])
  · rw [hserver, Raft.replica, hstate]
    rfl
  · rw [hserver, Call.message, hsender]
    rfl
  · rw [hserver, Call.message, Call.log, hsender]
    exact List.take_prefix _ _
  · rw [hrf.1, ← hserver, Function.update_eq_self]
  · exact absurd hc (Raft.ne_becomeCandidate (by rw [hrf.1]))
  · rintro c' hc'
    cases hcall.symm.trans hc'
    exact Set.mem_insert _ _

/-- A leader whose counting goroutine has the lock. -/
lemma Replicates.commit {past : List (Cluster cfg.peers Cmd)}
    (hrun : (raft cfg).Run NoSnapshot (C :: past)) (hnoted : Noted (C :: past) t)
    (hs : s < cfg.peers) {b : ℕ} (ha : a = .peerDecide b)
    (hset : eff.server.rf.commitIndex ≠ (C.servers s).rf.commitIndex) :
    ∃ t', (machine (logParams cfg.peers)).Steps t t' ∧ Replicates (C.perform s eff) t' := by
  have hacts' := hacts
  cases hacts' with
  | quiet srv' hrf => exact absurd (by rw [hrf]) hset
  | @peerDecide _ bc hbc hd =>
    have hserver := h.server s
    have hT : (t.server s).term = (C.servers s).rf.currentTerm := by rw [hserver]; rfl
    have hc : (C.servers s).rf.state = .leader ∧ (C.servers s).rf.currentTerm = bc.term ∧
        (C.servers s).rf.commitIndex < bc.end_ := by
      by_contra hno
      exact hset (by rw [Raft.commit, if_neg hno])
    obtain ⟨e, he, heterm, -, Q, hQ, -, hacks⟩ :=
      raft_acked hrun hs (List.mem_of_getElem? hbc) hd hc.1 hc.2.1
    have hhas : Has LogEntry.term (C.servers s).rf.log.elems bc.end_
        (C.servers s).rf.currentTerm := ⟨e, he, heterm⟩
    have hchosen : Chosen (logParams cfg.peers : Params ℕ (LogEntry Cmd)) t.held bc.end_
        (C.servers s).rf.currentTerm := by
      refine ⟨Q, hQ, fun v hv => ?_⟩
      rcases eq_or_ne v s with rfl | hne
      · exact hnoted C List.mem_cons_self v _ hhas
      · -- a peer that has answered held the entry right after its answer
        obtain ⟨k, ⟨D, D', rest, hsuf, hack⟩, -⟩ := hacks v hv hne
        have hnote := hnoted D' (hsuf.subset List.mem_cons_self) v bc.end_
        rw [hack.holds.term] at hnote
        exact hnote hack.holds.entry
    refine h.answer hreach hw hme hacts (.commit s (i := bc.end_) ?_ ?_ ?_) ?_ rfl
      (fun hrf => ?_) rfl (by simp) (by simp)
    · rw [hserver, Raft.replica, hc.1]
      rfl
    · rw [hT, hserver]
      exact hhas
    · rwa [hT]
    · simp only [hserver, Raft.commit, if_pos hc]
      rfl
    · refine absurd hrf (Raft.ne_becomeCandidate ?_)
      simp [Raft.commit, hc]
  | _ => cases ha

/-- A peer that applies an entry. -/
lemma Replicates.apply (hplain : (C.servers s).rf.PlainLog) {m : ApplyMsg Cmd}
    (happly : eff.applyMsg = some m) :
    ∃ t', (machine (logParams cfg.peers)).Steps t t' ∧ Replicates (C.perform s eff) t' := by
  have hacts' := hacts
  cases hacts' with
  | @applyLog rf msg hlog =>
    cases happly
    have hserver := h.server s
    obtain ⟨hlt, rfl, e, he, rfl⟩ := Raft.applyLog_eq_some hlog
    rw [Raft.get?_logIndex2sliceIndex hplain.X] at he
    have hidx := (hplain.placed he).1
    refine h.answer hreach hw hme hacts
      (.apply s (i := (C.servers s).rf.lastApplied + 1) (e := e) (Nat.succ_pos _) ?_ ?_) ?_ rfl
      (fun hrf => ?_) rfl (by simp) ?_
    · rw [hserver]
      exact hlt
    · rw [hserver]
      exact he
    · exact (Function.update_eq_self_iff.mpr hserver.symm).symm
    · exact absurd hrf (Raft.ne_becomeCandidate rfl)
    · rintro m ⟨⟩
      exact ⟨e, by rw [hidx]; exact Set.mem_insert _ _, rfl⟩
  | _ => cases happly

lemma Replicates.act {past : List (Cluster cfg.peers Cmd)}
    (hrun : (raft cfg).Run NoSnapshot (C :: past)) (hnoted : Noted (C :: past) t)
    (hs : s < cfg.peers) (hplain : (C.servers s).Plain)
    (hnodup : ((C.perform s eff).leaders.map Prod.snd).Nodup) :
    ∃ t', (machine (logParams cfg.peers)).Steps t t' ∧ Replicates (C.perform s eff) t' := by
  by_cases hlead : eff.leader = none
  swap
  · refine h.win hreach hw hme hacts hs (hplain.term_pos ?_) hnodup hlead
    cases hacts with
    | voteWin _ _ hstate _ => simp [hstate]
    | _ => exact absurd rfl hlead
  by_cases hcreates : eff.created = none
  swap
  · exact h.append hreach hw hme hacts hplain.plainLog hcreates
  cases hcall : eff.appendCall with
  | some c => exact h.send hreach hw hme hacts hcall
  | none =>
  cases happly : eff.applyMsg with
  | some m => exact h.apply hreach hw hme hacts hplain.plainLog happly
  | none =>
  by_cases hset : eff.server.rf.commitIndex = (C.servers s).rf.commitIndex
  swap
  · obtain ⟨b, hb⟩ := hacts.commitIndex_eq.resolve_left hset
    exact h.commit hreach hw hme hacts hrun hnoted hs hb hset
  -- nothing but the term and the role can change
  refine h.turn hreach hw hme hacts hplain.plainLog hcreates hcall happly ?_
  refine (hacts.ballot hlead).imp_left fun hsame => ?_
  have hlog : eff.server.rf.log = (C.servers s).rf.log := by
    rcases hacts.log_X with ⟨hlog, -⟩ | ⟨_, -, -, -, -, hc⟩ | ⟨_, _, -, hc, -⟩
    · exact hlog
    · rw [hcreates] at hc
      cases hc
    · rw [hplain.snapshots] at hc
      cases hc
  rw [Raft.replica, Raft.replica, hsame.currentTerm, hsame.state, hlog, hset]

end Answer

/-! ### Handlers -/

section Handler

variable [Zero Cmd] {C : Cluster cfg.peers Cmd} {t t' : State ℕ (LogEntry Cmd)} {s : ℕ}
  {rf : Raft Cmd}

omit [Zero Cmd] in
lemma Replicates.server_update (h : Replicates C t) (srv : Server cfg.peers Cmd)
    (hserver : t'.server = Function.update t.server s srv.rf.replica) (v : ℕ) :
    t'.server v = (Function.update C.servers s srv v).rf.replica := by
  rw [hserver]
  rcases eq_or_ne v s with rfl | hne
  · rw [Function.update_self, Function.update_self]
  · rw [Function.update_of_ne hne, Function.update_of_ne hne, h.server]

/-- A handler has run at peer `s`. -/
lemma Replicates.setRf (h : Replicates C t) (hreach : (machine (logParams cfg.peers)).Reachable t)
    (hsteps : (machine (logParams cfg.peers)).Steps t t')
    (hserver : t'.server = Function.update t.server s rf.replica) (hreign : t'.reign = t.reign) :
    Replicates (C.setRf s rf) t' where
  server := h.server_update { C.servers s with rf := rf } hserver
  logged := (h.logged.mono (extends_of_steps hreach hsteps)).setRf s rf
  leaders T r hr := h.leaders T r (hreign ▸ hr)
  nodup := h.nodup

/-- Peer `s` has been booted. -/
lemma Replicates.boot (h : Replicates C t) (hreach : (machine (logParams cfg.peers)).Reachable t)
    (hsteps : (machine (logParams cfg.peers)).Steps t t')
    (hserver : t'.server = Function.update t.server s rf.replica) (hreign : t'.reign = t.reign) :
    Replicates { C with servers := Function.update C.servers s (.boot rf) } t' where
  server := h.server_update (.boot rf) hserver
  logged := (h.logged.mono (extends_of_steps hreach hsteps)).boot s rf
  leaders T r hr := h.leaders T r (hreign ▸ hr)
  nodup := h.nodup

/-- A vote request, whose candidate has stood with the log the request describes. -/
lemma exists_steps_requestVote {n c : ℕ} {args : RequestVoteArgs}
    (hplain : rf.PlainLog) (hserver : t.server s = rf.replica)
    (hstands : Stands t c args.term args.lastLogTerm args.lastLogIndex) :
    ∃ t', (machine (logParams n)).Steps t t' ∧
      t'.server = Function.update t.server s (rf.RequestVote args).1.replica ∧
      t'.reign = t.reign ∧
      ((rf.RequestVote args).2.voteGranted = true → (s, args.term, c) ∈ t'.votes) := by
  have hT : (t.server s).term = rf.currentTerm := by rw [hserver]; rfl
  obtain ⟨B, hB, hlast, hlen⟩ := hstands
  have hbump : rf.currentTerm < args.term → ∃ t₁, (machine (logParams n)).Steps t t₁ ∧
      t₁.server =
        Function.update t.server s { rf.replica with term := args.term, role := .follower } ∧
      t₁.reign = t.reign ∧ t₁.ballot = t.ballot := by
    intro hlt
    refine ⟨_, (Step.bump (P := logParams n) s (T := args.term) (hT ▸ hlt)).steps, ?_, rfl, rfl⟩
    rw [← hserver]
    rfl
  have hout := rf.voteOutcome args
  generalize rf.RequestVote args = r at hout ⊢
  cases hout with
  | refuse => exact ⟨t, .refl t, by rw [← hserver, Function.update_eq_self], rfl, by simp⟩
  | bump hlt =>
    obtain ⟨t₁, hsteps, hserver₁, hreign₁, -⟩ := hbump hlt
    exact ⟨t₁, hsteps, by rw [hserver₁, Raft.replica_becomeFollower], hreign₁, by simp⟩
  | grant hterm hvote hlog =>
    have hup := hplain.upToDate hlog hlast hlen
    refine ⟨_, (Step.grant (P := logParams n) s c (B := B) ?_ ?_).steps, ?_, rfl, fun _ => ?_⟩
    · rw [hT, hterm, hB]
    · rwa [hserver]
    · rw [Raft.replica_persistUnlessKilled]
      exact (Function.update_eq_self_iff.mpr hserver.symm).symm
    · rw [← hterm, ← hT]
      exact Set.mem_insert _ _
  | bumpGrant hlt hlog =>
    -- the peer moves to the term of the request before it votes
    have hup := hplain.upToDate hlog hlast hlen
    obtain ⟨t₁, hsteps, hserver₁, hreign₁, hballot₁⟩ := hbump hlt
    have hself : t₁.server s = { rf.replica with term := args.term, role := .follower } := by
      rw [hserver₁, Function.update_self]
    have hgrant := Step.grant (P := logParams n) (t := t₁) s c (B := B)
      (by rw [hself, hballot₁, hB]) (by rwa [hself])
    refine ⟨_, Relation.ReflTransGen.trans hsteps hgrant.steps, ?_, hreign₁, fun _ => ?_⟩
    · rw [Raft.replica_persistUnlessKilled]
      refine hserver₁.trans ?_
      rw [← Raft.replica_becomeFollower rf args.term none]
      rfl
    · rw [show args.term = (t₁.server s).term by rw [hself]]
      exact Set.mem_insert _ _

/-- A request is handled like the message it is a slice of. -/
lemma exists_steps_appendEntries (cfg : Config) {n : ℕ} {c : AppendCall Cmd}
    (hreach : (machine (logParams n)).Reachable t) (hplain : rf.PlainLog)
    (hserver : t.server s = rf.replica) (hm : c.message ∈ t.messages) (hc : Sliced c)
    (hplaced : c.args.Placed) :
    ∃ t', (machine (logParams n)).Steps t t' ∧
      t'.server = Function.update t.server s (rf.AppendEntries cfg c.args).1.replica ∧
      t'.reign = t.reign := by
  have hinv := inv_of_reachable hreach
  obtain ⟨-, r, hr, hp⟩ := hinv.message _ hm
  have hgr := (hinv.replica s).grounded
  rw [hserver] at hgr
  have hmatch := fun j T hj hj' =>
    hgr.take_eq ((hinv.valid.grounded_log hr).of_isPrefix hp) (i := j) (T := T) hj hj'
  have hhead : c.log[0]? = some Raft.sentinel := by
    rw [Call.log, List.getElem?_take_of_lt (by omega), hc.plainLog.head]
  rcases hplain.receive cfg hplaced hc.sliceOf hhead hmatch with
    ⟨-, hsame⟩ | ⟨hterm, ℓ, k, hrf, hmerge, hcommit⟩
  · exact ⟨t, .refl t, by rw [hsame, ← hserver, Function.update_eq_self], rfl⟩
  · rw [← show (t.server s).term = rf.currentTerm by rw [hserver]; rfl] at hterm
    rw [← show (t.server s).log = rf.log.elems by rw [hserver]; rfl] at hmerge
    rw [← show (t.server s).commit = rf.commitIndex by rw [hserver]; rfl] at hcommit
    refine ⟨_, (Step.receive (P := logParams n) s hm hterm hmerge hcommit).steps, ?_, rfl⟩
    rw [hrf]
    rfl

lemma Replicates.moves (h : Replicates C t)
    (hreach : (machine (logParams cfg.peers)).Reachable t) {C' : Cluster cfg.peers Cmd}
    {past : List (Cluster cfg.peers Cmd)} {a : Action Cmd}
    (hrun : (raft cfg).Run SlicesWithinLog (C :: past)) (hnoted : Noted (C :: past) t)
    (hm : C.Moves cfg a C') (hnodup : (C'.leaders.map Prod.snd).Nodup) :
    ∃ t', (machine (logParams cfg.peers)).Steps t t' ∧ Replicates C' t' := by
  have hns := raft_noSnapshot hrun
  have hw := raft_wired hrun C List.mem_cons_self
  have hplain := raft_plain hns C List.mem_cons_self
  cases hm with
  | @act s _ _ hup hacts =>
    exact h.act hreach hw (raft_me hrun s) hacts hns hnoted hup.1 (hplain.servers s) hnodup
  | @handleVote k call hk hup hnew =>
    have hmem := List.mem_of_getElem? hk
    obtain ⟨t', hsteps, hserver, hreign, hgrant⟩ := exists_steps_requestVote (n := cfg.peers)
      (hplain.servers call.dst).plainLog (h.server call.dst) (h.logged.requests call hmem)
    have hrec := h.logged.recorded.mono (extends_of_steps hreach hsteps).votes
    have hC := h.setRf hreach hsteps hserver hreign
    refine ⟨t', hsteps, hC.server,
      { hC.logged with recorded := hrec.answer hgrant, requests := ?_ }, hC.leaders, hC.nodup⟩
    refine forall_mem_set hC.logged.requests ?_ k
    exact hC.logged.requests call hmem
  | @handleAppend k call hk hup hnew =>
    have hmem := List.mem_of_getElem? hk
    obtain ⟨t', hsteps, hserver, hreign⟩ := exists_steps_appendEntries cfg hreach
      (hplain.servers call.dst).plainLog (h.server call.dst) (h.logged.messages call hmem)
      (raft_sliced hrun C List.mem_cons_self call hmem) (hplain.appends call hmem)
    have hC := h.setRf hreach hsteps hserver hreign
    refine ⟨t', hsteps, hC.server,
      { hC.logged with recorded := ⟨hC.logged.recorded.replies, hC.logged.recorded.counted⟩
                       messages := ?_ },
      hC.leaders, hC.nodup⟩
    refine forall_mem_set hC.logged.messages ?_ k
    exact hC.logged.messages call hmem
  | @crash s hup =>
    refine ⟨t, .refl t, h.boot hreach (.refl t) ?_ rfl⟩
    exact (Function.update_eq_self_iff.mpr (h.server s).symm).symm
  | @restart s hs hdead =>
    obtain ⟨hterm, -, hlog⟩ := Raft.make_of_durable (raft_durable hrun s) s
    have hsteps := (Step.restart (P := logParams cfg.peers) (t := t) s).steps
    refine ⟨_, hsteps, h.boot hreach hsteps ?_ rfl⟩
    rw [Raft.replica, hterm, hlog, Raft.state_make, Raft.commitIndex_make]
    simp only [State.record, h.server s]
    rfl

end Handler

/-! ### Runs -/

section Run

variable [Zero Cmd]

lemma replicates_initial (n : ℕ) :
    Replicates (.initial n : Cluster n Cmd) ((initial (logParams n)).record (logParams n)) where
  server v := rfl
  logged :=
    { recorded := ⟨by simp [Cluster.initial], by simp [Cluster.initial, Server.boot]⟩
      elections := by simp [Cluster.initial, Server.boot]
      requests := by simp [Cluster.initial]
      heartbeats := by simp [Cluster.initial, Server.boot]
      broadcasts := by simp [Cluster.initial, Server.boot]
      messages := by simp [Cluster.initial]
      created := by simp [Cluster.initial]
      applied := by simp [Cluster.initial] }
  leaders T r hr hT := by simp [State.record, initial, hT.ne'] at hr
  nodup := by simp [Cluster.initial]

/-- The states of a run are, one after the other, those that the protocol has gone through. -/
def Shadowed {n : ℕ} (l : List (Cluster n Cmd)) (t : State ℕ (LogEntry Cmd)) : Prop :=
  ∀ D ∈ l, ∃ u, (machine (logParams n)).Reachable u ∧ (machine (logParams n)).Steps u t ∧
    Replicates D u

lemma Shadowed.noted {n : ℕ} {l : List (Cluster n Cmd)} {t : State ℕ (LogEntry Cmd)}
    (h : Shadowed l t) : Noted l t := by
  intro D hD v i hi
  obtain ⟨u, hreach, hsteps, hu⟩ := h D hD
  have hheld := (current_of_reachable hreach v).1 i
  rw [hu.server v] at hheld
  exact (extends_of_steps hreach hsteps).held (hheld hi)

lemma Shadowed.cons {n : ℕ} {C : Cluster n Cmd} {l : List (Cluster n Cmd)}
    {t t' : State ℕ (LogEntry Cmd)} (h : Shadowed l t)
    (hreach : (machine (logParams n)).Reachable t) (hsteps : (machine (logParams n)).Steps t t')
    (hC : Replicates C t') : Shadowed (C :: l) t' := by
  intro D hD
  rcases List.mem_cons.mp hD with rfl | hD
  · exact ⟨t', hreach.steps hsteps, .refl t', hC⟩
  · obtain ⟨u, hu, hut, hDu⟩ := h D hD
    exact ⟨u, hu, hut.trans hsteps, hDu⟩

/-- Every run that slices within logs is a run of the protocol. -/
lemma raft_shadowed {C : Cluster cfg.peers Cmd} {past : List (Cluster cfg.peers Cmd)}
    (h : (raft cfg).Run SlicesWithinLog (C :: past)) :
    ∃ t, (machine (logParams cfg.peers)).Reachable t ∧ Replicates C t ∧
      Shadowed (C :: past) t := by
  obtain ⟨t, hreach, hC, hpast⟩ : ∃ t, (machine (logParams cfg.peers)).Reachable t ∧
      (∀ D ∈ (C :: past).head?, Replicates D t) ∧ Shadowed (C :: past) t := by
    refine Machine.simulate_run
      (R := fun l t => (∀ D ∈ l.head?, Replicates D t) ∧ Shadowed l t) ?_ ?_ h
    · rintro C rfl
      have h0 : Replicates (.initial cfg.peers : Cluster cfg.peers Cmd) _ :=
        replicates_initial cfg.peers
      refine ⟨_, rfl, by simpa using h0, ?_⟩
      exact Shadowed.cons (l := []) (by simp [Shadowed]) (.of_init rfl) (.refl _) h0
    · rintro C past a C' t hr hreach ⟨hC, hpast⟩ hP hnext
      obtain ⟨t', hsteps, hC'⟩ := (hC C rfl).moves hreach hr hpast.noted
        (Cluster.moves_of_step hnext) (raft_leaders_nodup (.next hr hP hnext))
      exact ⟨t', hsteps, by simpa using hC', hpast.cons hreach hsteps hC'⟩
  exact ⟨t, hreach, hC C rfl, hpast⟩

lemma raft_replicates {C : Cluster cfg.peers Cmd} {past : List (Cluster cfg.peers Cmd)}
    (h : (raft cfg).Run SlicesWithinLog (C :: past)) :
    ∃ t, (machine (logParams cfg.peers)).Reachable t ∧ Replicates C t := by
  obtain ⟨t, hreach, hC, -⟩ := raft_shadowed h
  exact ⟨t, hreach, hC⟩

end Run

end DistLabs
