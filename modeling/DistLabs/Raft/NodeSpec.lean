import DistLabs.Raft.Node
import Mathlib.Tactic.SplitIfs

/-!
# What the functions of a peer do

One inversion for each of the two RPC handlers, a list-level description of the merge in
`AppendEntries`, and `Raft.Step`, the list of everything that can happen to the state of a live
peer.
-/

namespace DistLabs

namespace Raft

variable {Cmd : Type*} {cfg : Config}

/-! ### Storing changes nothing in memory -/

section persistUnlessKilled

variable (rf : Raft Cmd)

lemma persistUnlessKilled_of_live (h : rf.dead = false) : rf.persistUnlessKilled = rf.persist := by
  simp [persistUnlessKilled, killed, h]

lemma persistUnlessKilled_eq : ∃ p, rf.persistUnlessKilled = { rf with persister := p } := by
  unfold persistUnlessKilled
  split_ifs
  · exact ⟨rf.persister, rfl⟩
  · exact ⟨_, rfl⟩

@[simp] lemma me_persistUnlessKilled : rf.persistUnlessKilled.me = rf.me := by
  obtain ⟨p, hp⟩ := rf.persistUnlessKilled_eq
  rw [hp]

@[simp] lemma dead_persistUnlessKilled : rf.persistUnlessKilled.dead = rf.dead := by
  obtain ⟨p, hp⟩ := rf.persistUnlessKilled_eq
  rw [hp]

@[simp] lemma currentTerm_persistUnlessKilled :
    rf.persistUnlessKilled.currentTerm = rf.currentTerm := by
  obtain ⟨p, hp⟩ := rf.persistUnlessKilled_eq
  rw [hp]

@[simp] lemma votedFor_persistUnlessKilled : rf.persistUnlessKilled.votedFor = rf.votedFor := by
  obtain ⟨p, hp⟩ := rf.persistUnlessKilled_eq
  rw [hp]

@[simp] lemma state_persistUnlessKilled : rf.persistUnlessKilled.state = rf.state := by
  obtain ⟨p, hp⟩ := rf.persistUnlessKilled_eq
  rw [hp]

@[simp] lemma log_persistUnlessKilled : rf.persistUnlessKilled.log = rf.log := by
  obtain ⟨p, hp⟩ := rf.persistUnlessKilled_eq
  rw [hp]

@[simp] lemma commitIndex_persistUnlessKilled :
    rf.persistUnlessKilled.commitIndex = rf.commitIndex := by
  obtain ⟨p, hp⟩ := rf.persistUnlessKilled_eq
  rw [hp]

@[simp] lemma lastApplied_persistUnlessKilled :
    rf.persistUnlessKilled.lastApplied = rf.lastApplied := by
  obtain ⟨p, hp⟩ := rf.persistUnlessKilled_eq
  rw [hp]

@[simp] lemma nextIndex_persistUnlessKilled : rf.persistUnlessKilled.nextIndex = rf.nextIndex := by
  obtain ⟨p, hp⟩ := rf.persistUnlessKilled_eq
  rw [hp]

@[simp] lemma matchedIndex_persistUnlessKilled :
    rf.persistUnlessKilled.matchedIndex = rf.matchedIndex := by
  obtain ⟨p, hp⟩ := rf.persistUnlessKilled_eq
  rw [hp]

@[simp] lemma X_persistUnlessKilled : rf.persistUnlessKilled.X = rf.X := by
  obtain ⟨p, hp⟩ := rf.persistUnlessKilled_eq
  rw [hp]

@[simp] lemma snapshot_persistUnlessKilled : rf.persistUnlessKilled.snapshot = rf.snapshot := by
  obtain ⟨p, hp⟩ := rf.persistUnlessKilled_eq
  rw [hp]

end persistUnlessKilled

/-- Without a snapshot indices are slice positions. -/
lemma get?_logIndex2sliceIndex {rf : Raft Cmd} (hX : rf.X = 0) (i : ℕ) :
    rf.log.get? (rf.logIndex2sliceIndex i) = rf.log.elems[i]? := by
  simp [logIndex2sliceIndex, hX, Slice.get?_natCast]

/-! ### RequestVote -/

/-- The last entry named by a vote request is at least as up to date as that of the log. -/
lemma isUpToDate_iff {rf : Raft Cmd} {term index : ℕ} :
    rf.isUpToDate term index = true ↔
      rf.getLastLogEntryTermIndex.1 < term ∨
        rf.getLastLogEntryTermIndex.1 = term ∧ rf.getLastLogEntryTermIndex.2 ≤ index := by
  simp only [isUpToDate]
  split_ifs <;> simp <;> omega

/-- What `RequestVote` can do. -/
inductive VoteOutcome (rf : Raft Cmd) (args : RequestVoteArgs) :
    Raft Cmd × RequestVoteReply → Prop
  | refuse : VoteOutcome rf args (rf, ⟨rf.currentTerm, false⟩)
  | bump (hterm : rf.currentTerm < args.term) :
      VoteOutcome rf args (rf.becomeFollower args.term none, ⟨rf.currentTerm, false⟩)
  | grant (hterm : rf.currentTerm = args.term)
      (hvote : rf.votedFor = none ∨ rf.votedFor = some args.candidateId)
      (hlog : rf.isUpToDate args.lastLogTerm args.lastLogIndex = true) :
      VoteOutcome rf args
        ({ rf with votedFor := some args.candidateId }.persistUnlessKilled, ⟨rf.currentTerm, true⟩)
  | bumpGrant (hterm : rf.currentTerm < args.term)
      (hlog : rf.isUpToDate args.lastLogTerm args.lastLogIndex = true) :
      VoteOutcome rf args
        ({ rf.becomeFollower args.term none with
            votedFor := some args.candidateId }.persistUnlessKilled, ⟨rf.currentTerm, true⟩)

lemma voteOutcome (rf : Raft Cmd) (args : RequestVoteArgs) :
    VoteOutcome rf args (rf.RequestVote args) := by
  unfold RequestVote
  by_cases hlt : args.term < rf.currentTerm
  · rw [if_pos hlt]
    exact .refuse
  rw [if_neg hlt]
  by_cases hgt : args.term > rf.currentTerm
  · have hup : (rf.becomeFollower args.term none).isUpToDate args.lastLogTerm args.lastLogIndex =
        rf.isUpToDate args.lastLogTerm args.lastLogIndex := by
      simp [isUpToDate, becomeFollower, getLastLogEntryTermIndex]
    simp only [if_pos hgt, hup]
    split_ifs with hg
    · exact .bumpGrant hgt hg.2
    · exact .bump hgt
  · simp only [if_neg hgt]
    split_ifs with hg
    · exact .grant (by omega) hg.1 hg.2
    · exact .refuse

lemma becomeFollower_eq (rf : Raft Cmd) (term : ℕ) (vote : Option ℕ) :
    ∃ p, rf.becomeFollower term vote =
      { rf with state := .follower, currentTerm := term, votedFor := vote, persister := p } :=
  persistUnlessKilled_eq _

/-- A vote request changes the term, the vote and the role at most. -/
lemma requestVote_eq (rf : Raft Cmd) (args : RequestVoteArgs) :
    ∃ term vote state p, (rf.RequestVote args).1 =
      { rf with currentTerm := term, votedFor := vote, state := state, persister := p } := by
  generalize hr : rf.RequestVote args = r
  have hout := hr ▸ rf.voteOutcome args
  cases hout with
  | refuse => exact ⟨_, _, _, _, rfl⟩
  | bump =>
    obtain ⟨p, hp⟩ := rf.becomeFollower_eq args.term none
    exact ⟨_, _, _, p, hp⟩
  | grant =>
    obtain ⟨p, hp⟩ := persistUnlessKilled_eq { rf with votedFor := some args.candidateId }
    exact ⟨_, _, _, p, hp⟩
  | bumpGrant =>
    obtain ⟨p, hp⟩ := rf.becomeFollower_eq args.term none
    obtain ⟨q, hq⟩ := persistUnlessKilled_eq
      { rf.becomeFollower args.term none with votedFor := some args.candidateId }
    exact ⟨_, _, _, q, by rw [hq, hp]⟩

/-! ### AppendEntries -/

/-- What `AppendEntries` can do. -/
inductive AppendOutcome (cfg : Config) (rf : Raft Cmd) (args : AppendEntriesArgs Cmd) :
    Raft Cmd × AppendEntriesReply → Prop
  | stale (hterm : args.term < rf.currentTerm) :
      AppendOutcome cfg rf args (rf, { term := rf.currentTerm })
  | reject {reply : AppendEntriesReply} (hterm : rf.currentTerm ≤ args.term)
      (hfail : reply.success = false) :
      AppendOutcome cfg rf args (rf.becomeFollower args.term (some args.leaderId), reply)
  | heartbeat {reply reply' : AppendEntriesReply} {start : ℕ} {entries : List (LogEntry Cmd)}
      (hterm : rf.currentTerm ≤ args.term) (hargs : args.entries = [])
      (hprev : rf.checkPrev args reply' = .merge reply start entries) :
      AppendOutcome cfg rf args
        ((rf.becomeFollower args.term (some args.leaderId)).updateCommit args [],
          { reply with success := true })
  | merge {reply reply' : AppendEntriesReply} {start : ℕ} {entries : List (LogEntry Cmd)}
      (hterm : rf.currentTerm ≤ args.term) (hargs : args.entries ≠ [])
      (hprev : rf.checkPrev args reply' = .merge reply start entries) :
      AppendOutcome cfg rf args
        (({ rf.becomeFollower args.term (some args.leaderId) with
            log := (mergeEntries cfg rf.log start entries).1 }.persistUnlessKilled).updateCommit
            args (mergeEntries cfg rf.log start entries).2,
          { reply with success := true })

lemma checkPrev_becomeFollower (rf : Raft Cmd) (args : AppendEntriesArgs Cmd)
    (reply : AppendEntriesReply) (term : ℕ) (v : Option ℕ) :
    (rf.becomeFollower term v).checkPrev args reply = rf.checkPrev args reply := by
  simp [checkPrev, becomeFollower, logIndex2sliceIndex]

lemma checkPrev_reject {rf : Raft Cmd} {args : AppendEntriesArgs Cmd}
    {reply reply' : AppendEntriesReply} (h : rf.checkPrev args reply = .reject reply') :
    reply'.success = reply.success := by
  simp only [checkPrev] at h
  split_ifs at h
  · cases h
    rfl
  · split at h <;> cases h
    rfl

/-- When the merge is reached: the previous entry is in the log and has the right term, or every
entry down to slot 0 has the same wrong term, or it is not after the snapshot. -/
lemma checkPrev_merge {rf : Raft Cmd} {args : AppendEntriesArgs Cmd}
    {reply reply' : AppendEntriesReply} {start : ℕ} {entries : List (LogEntry Cmd)}
    (h : rf.checkPrev args reply = .merge reply' start entries) :
    (∃ prev x, rf.logIndex2sliceIndex args.prevLogIndex = (prev : ℕ) ∧ 0 < prev ∧
        rf.log.elems[prev]? = some x ∧ start = prev + 1 ∧ entries = args.entries ∧
        (x.term = args.prevLogTerm ∨ scanConflict rf.log.elems x.term prev = none)) ∨
      rf.logIndex2sliceIndex args.prevLogIndex ≤ 0 ∧ start = 1 ∧
        entries = if rf.X - args.prevLogIndex < args.entries.length then
          args.entries.drop (rf.X - args.prevLogIndex) else [] := by
  simp only [checkPrev] at h
  by_cases hpos : rf.logIndex2sliceIndex args.prevLogIndex > 0
  · rw [if_pos hpos] at h
    by_cases hlong : rf.logIndex2sliceIndex args.prevLogIndex > (rf.log.len : ℤ) - 1
    · rw [if_pos hlong] at h
      cases h
    rw [if_neg hlong] at h
    have hcast : ((rf.logIndex2sliceIndex args.prevLogIndex).toNat : ℤ) =
        rf.logIndex2sliceIndex args.prevLogIndex := Int.toNat_of_nonneg (by omega)
    have hlt : (rf.logIndex2sliceIndex args.prevLogIndex).toNat < rf.log.elems.length := by
      have : (rf.log.elems.length : ℤ) = rf.log.len := rfl
      omega
    have hx := List.getElem?_eq_getElem hlt
    refine .inl ⟨_, _, hcast.symm, by omega, hx, ?_⟩
    simp only [hx, Option.getD_some] at h
    split_ifs at h with hterm
    · split at h <;> cases h
      rename_i hscan
      exact ⟨rfl, rfl, .inr hscan⟩
    · cases h
      exact ⟨rfl, rfl, .inl (not_not.mp hterm)⟩
  · rw [if_neg hpos] at h
    cases h
    exact .inr ⟨by omega, rfl, rfl⟩

lemma checkPrev_start {rf : Raft Cmd} {args : AppendEntriesArgs Cmd}
    {reply reply' : AppendEntriesReply} {start : ℕ} {entries : List (LogEntry Cmd)}
    (h : rf.checkPrev args reply = .merge reply' start entries) (hpos : 0 < rf.log.len) :
    0 < start ∧ start ≤ rf.log.len := by
  rcases checkPrev_merge h with ⟨prev, x, -, hprev, hx, rfl, -, -⟩ | ⟨-, rfl, -⟩
  · have := (List.getElem?_eq_some_iff.mp hx).1
    unfold Slice.len
    omega
  · omega

lemma appendOutcome (cfg : Config) (rf : Raft Cmd) (args : AppendEntriesArgs Cmd) :
    AppendOutcome cfg rf args (rf.AppendEntries cfg args) := by
  unfold AppendEntries
  by_cases hlt : args.term < rf.currentTerm
  · simp only [if_pos hlt]
    exact .stale hlt
  simp only [if_neg hlt, checkPrev_becomeFollower]
  have hterm : rf.currentTerm ≤ args.term := Nat.le_of_not_lt hlt
  have hlog : (rf.becomeFollower args.term (some args.leaderId)).log = rf.log := by
    simp [becomeFollower]
  split
  · rename_i reply hprev
    exact .reject hterm (checkPrev_reject hprev)
  · rename_i reply start entries hprev
    split_ifs with hnil
    · exact .heartbeat hterm (by simpa using hnil) hprev
    · simp only [hlog]
      exact .merge hterm (by simpa using hnil) hprev

/-! ### The merge -/

/-- The first position the merge writes to: it lies behind the previous entry, everything between
them agrees in term with the request, and it is the end of the log or holds another term. -/
structure MergePoint (log : List (LogEntry Cmd)) (start : ℕ) (entries : List (LogEntry Cmd))
    (i : ℕ) : Prop where
  start_le : start ≤ i
  le_length : i ≤ log.length
  agree : ∀ j x e, start + j < i → log[start + j]? = some x → entries[j]? = some e →
    x.term = e.term
  conflict : i = log.length ∨
    ∃ x e, log[i]? = some x ∧ entries[i - start]? = some e ∧ x.term ≠ e.term

/-- The merged log takes every position from the old log or from the request. -/
lemma MergePoint.getElem? {log entries : List (LogEntry Cmd)} {start i : ℕ}
    (h : MergePoint log start entries i) (q : ℕ) :
    (log.take i ++ entries.drop (i - start))[q]? =
      if q < i then log[q]? else entries[q - start]? := by
  have hstart := h.start_le
  have hle := h.le_length
  split_ifs with hq
  · rw [List.getElem?_append_left (by simp; omega), List.getElem?_take_of_lt hq]
  · rw [List.getElem?_append_right (by simp; omega), List.getElem?_drop, List.length_take]
    congr 1
    omega

lemma findConflict_eq_none {log : List (LogEntry Cmd)} {start : ℕ}
    {entries : List (LogEntry Cmd)} (h : findConflict log start entries = none) :
    ∀ j x e, log[start + j]? = some x → entries[j]? = some e → x.term = e.term := by
  induction entries generalizing start with
  | nil => simp
  | cons e es ih =>
    intro j x e' hx he
    simp only [findConflict] at h
    split at h
    · rename_i hnone
      have hlen := List.getElem?_eq_none_iff.mp hnone
      have := (List.getElem?_eq_some_iff.mp hx).1
      omega
    · rename_i y hy
      split_ifs at h with hterm
      cases j with
      | zero =>
        simp only [Nat.add_zero, List.getElem?_cons_zero, Option.some.injEq] at hx he
        rw [hy] at hx
        cases hx
        cases he
        simpa using hterm
      | succ j =>
        refine ih h j x e' ?_ (by simpa using he)
        rw [← hx]
        congr 1
        omega

lemma findConflict_eq_some {log : List (LogEntry Cmd)} {start i : ℕ}
    {entries rest : List (LogEntry Cmd)} (h : findConflict log start entries = some (i, rest)) :
    start ≤ i ∧ rest = entries.drop (i - start) ∧
      (∀ j x e, start + j < i → log[start + j]? = some x → entries[j]? = some e →
        x.term = e.term) ∧
      ∃ x e, log[i]? = some x ∧ entries[i - start]? = some e ∧ x.term ≠ e.term := by
  induction entries generalizing start with
  | nil => simp [findConflict] at h
  | cons e es ih =>
    simp only [findConflict] at h
    split at h
    · cases h
    · rename_i y hy
      split_ifs at h with hterm
      · cases h
        refine ⟨le_rfl, by simp, by omega, y, e, hy, by simp, hterm⟩
      · obtain ⟨hle, hrest, hagree, x, e', hx, he', hne⟩ := ih h
        have hsub : i - start = i - (start + 1) + 1 := by omega
        refine ⟨by omega, by rw [hrest, hsub, List.drop_succ_cons], ?_, x, e', hx, ?_, hne⟩
        · intro j z f hj hz hf
          cases j with
          | zero =>
            simp only [Nat.add_zero, List.getElem?_cons_zero, Option.some.injEq] at hz hf
            rw [hy] at hz
            cases hz
            cases hf
            simpa using hterm
          | succ j =>
            refine hagree j z f (by omega) ?_ (by simpa using hf)
            rw [← hz]
            congr 1
            omega
        · rw [hsub, List.getElem?_cons_succ, he']

/-- The merge keeps the log up to a merge point and continues with the request from there. -/
lemma mergeEntries_spec (cfg : Config) {log : Slice (LogEntry Cmd)} {start : ℕ}
    (entries : List (LogEntry Cmd)) (hstart : start ≤ log.len) :
    ∃ i, MergePoint log.elems start entries i ∧
      (mergeEntries cfg log start entries).1 =
        (log.upto i).append cfg.growslice (entries.drop (i - start)) ∧
      (mergeEntries cfg log start entries).2 = entries.drop (i - start) := by
  unfold mergeEntries
  split
  · rename_i i rest h
    obtain ⟨hle, rfl, hagree, x, e, hx, he, hne⟩ := findConflict_eq_some h
    have hlt := (List.getElem?_eq_some_iff.mp hx).1
    exact ⟨i, ⟨hle, by omega, hagree, .inr ⟨x, e, hx, he, hne⟩⟩, rfl, rfl⟩
  · rename_i h
    have hdrop : entries.drop (min (log.len - start) entries.length) =
        entries.drop (log.len - start) := by
      rcases Nat.le_total (log.len - start) entries.length with hl | hl
      · rw [Nat.min_eq_left hl]
      · rw [Nat.min_eq_right hl, List.drop_length, List.drop_eq_nil_of_le hl]
    have hall : log.upto log.len = log := by
      simp [Slice.upto, Slice.len]
    refine ⟨log.len, ⟨hstart, le_rfl, fun j x e _ => findConflict_eq_none h j x e, .inl rfl⟩, ?_⟩
    simp [hdrop, hall]

/-! ### Replies to AppendEntries -/

/-- What a goroutine of `appendEntries` can do with a reply. -/
inductive ReplyOutcome (rf : Raft Cmd) (i term end_ : ℕ) (args : AppendEntriesArgs Cmd)
    (reply : AppendEntriesReply) : Raft Cmd → Verdict → Prop
  | late (hterm : rf.currentTerm ≠ term) : ReplyOutcome rf i term end_ args reply rf (.report false)
  | stepDown (hterm : rf.currentTerm = term) (hgt : rf.currentTerm < reply.term) :
      ReplyOutcome rf i term end_ args reply (rf.becomeFollower reply.term none) (.report false)
  | accept (hterm : rf.currentTerm = term) (hle : reply.term ≤ rf.currentTerm)
      (hs : reply.success = true) :
      ReplyOutcome rf i term end_ args reply (rf.advanceNext i end_) (.report true)
  | short (hterm : rf.currentTerm = term) (hle : reply.term ≤ rf.currentTerm)
      (hs : reply.success = false) (hlen : reply.xLen ≤ args.prevLogIndex) :
      ReplyOutcome rf i term end_ args reply rf (.retry reply.xLen)
  | missing {x : ℕ} (hterm : rf.currentTerm = term) (hle : reply.term ≤ rf.currentTerm)
      (hs : reply.success = false) (hlen : args.prevLogIndex < reply.xLen)
      (hc : isContainTerm rf.log.elems reply.xTerm = some (false, x)) :
      ReplyOutcome rf i term end_ args reply rf (.retry reply.xIndex)
  | found {index : ℕ} (hterm : rf.currentTerm = term) (hle : reply.term ≤ rf.currentTerm)
      (hs : reply.success = false) (hlen : args.prevLogIndex < reply.xLen)
      (hc : isContainTerm rf.log.elems reply.xTerm = some (true, index)) :
      ReplyOutcome rf i term end_ args reply rf (.retry (rf.X + index))

section Reply

variable {rf rf' : Raft Cmd} {i term end_ : ℕ} {args : AppendEntriesArgs Cmd}
  {reply : AppendEntriesReply} {v : Verdict}

lemma replyOutcome (h : rf.handleAppendReply i term end_ args reply = some (rf', v)) :
    ReplyOutcome rf i term end_ args reply rf' v := by
  simp only [handleAppendReply] at h
  split_ifs at h with hne hgt hs hlen
  · cases h
    exact .late hne
  · cases h
    exact .stepDown (not_not.mp hne) hgt
  · cases h
    exact .accept (not_not.mp hne) (not_lt.mp hgt) hs
  · cases h
    exact .short (not_not.mp hne) (not_lt.mp hgt) (by simpa using hs) (by omega)
  · have hs : reply.success = false := by simpa using hs
    split at h <;> cases h
    · exact .missing (not_not.mp hne) (not_lt.mp hgt) hs (by omega) ‹_›
    · exact .found (not_not.mp hne) (not_lt.mp hgt) hs (by omega) ‹_›

/-- What a reply does to the peer. -/
lemma handleAppendReply_rf (h : rf.handleAppendReply i term end_ args reply = some (rf', v)) :
    rf' = rf ∨ rf.currentTerm < reply.term ∧ rf' = rf.becomeFollower reply.term none ∨
      rf.currentTerm = term ∧ rf' = rf.advanceNext i end_ := by
  cases replyOutcome h with
  | stepDown _ hgt => exact .inr (.inl ⟨hgt, rfl⟩)
  | accept hterm => exact .inr (.inr ⟨hterm, rfl⟩)
  | _ => exact .inl rfl

end Reply

/-! ### The steps of one peer -/

/-- What can happen to the state of a live peer in one critical section. -/
inductive Step (cfg : Config) (rf : Raft Cmd) : Raft Cmd → Prop
  | idle : Step cfg rf rf
  | campaign : Step cfg rf (rf.becomeCandidate (rf.currentTerm + 1))
  | win (hstate : rf.state = .candidate) : Step cfg rf (rf.becomeLeader cfg)
  | stepDown {term : ℕ} (hterm : rf.currentTerm < term) :
      Step cfg rf (rf.becomeFollower term none)
  | start {command : Option Cmd} (hstate : rf.state = .leader) :
      Step cfg rf (rf.Start cfg command).1
  | advance {i end_ : ℕ} : Step cfg rf (rf.advanceNext i end_)
  | commit {term end_ : ℕ} : Step cfg rf (rf.commit term end_)
  | applyLog {rf' : Raft Cmd} {msg : ApplyMsg Cmd} (h : rf.applyLog = some (rf', msg)) :
      Step cfg rf rf'
  | publish {c : SnapshotCall Cmd} : Step cfg rf (rf.snapshotPublish c)
  | trim {c : SnapshotCall Cmd} {rf' : Raft Cmd} (h : rf.snapshotTrim cfg c = some rf') :
      Step cfg rf rf'
  | requestVote {args : RequestVoteArgs} : Step cfg rf (rf.RequestVote args).1
  | appendEntries {args : AppendEntriesArgs Cmd} : Step cfg rf (rf.AppendEntries cfg args).1

section Step

variable {rf rf' : Raft Cmd}

lemma updateCommit_eq (rf : Raft Cmd) (args : AppendEntriesArgs Cmd)
    (entries : List (LogEntry Cmd)) :
    ∃ c, rf.updateCommit args entries = { rf with commitIndex := c } := by
  unfold updateCommit
  split_ifs
  · exact ⟨_, rfl⟩
  · exact ⟨rf.commitIndex, rfl⟩

@[simp] lemma log_updateCommit (rf : Raft Cmd) (args : AppendEntriesArgs Cmd)
    (entries : List (LogEntry Cmd)) : (rf.updateCommit args entries).log = rf.log := by
  obtain ⟨c, hc⟩ := rf.updateCommit_eq args entries
  rw [hc]

lemma commitIndex_updateCommit {rf rf' : Raft Cmd} (h : rf'.commitIndex = rf.commitIndex)
    (args : AppendEntriesArgs Cmd) (entries : List (LogEntry Cmd)) :
    (rf'.updateCommit args entries).commitIndex = (rf.updateCommit args entries).commitIndex := by
  unfold updateCommit
  rw [h]
  split_ifs
  · rfl
  · exact h

lemma advanceNext_eq (rf : Raft Cmd) (i end_ : ℕ) :
    ∃ next matched,
      rf.advanceNext i end_ = { rf with nextIndex := next, matchedIndex := matched } := by
  unfold advanceNext
  split_ifs
  · exact ⟨_, _, rfl⟩
  · exact ⟨rf.nextIndex, rf.matchedIndex, rfl⟩

lemma commit_eq (rf : Raft Cmd) (term end_ : ℕ) :
    ∃ c, rf.commit term end_ = { rf with commitIndex := c } := by
  unfold commit
  split_ifs
  · exact ⟨_, rfl⟩
  · exact ⟨rf.commitIndex, rfl⟩

lemma applyLog_eq_some {msg : ApplyMsg Cmd} (h : rf.applyLog = some (rf', msg)) :
    rf.lastApplied < rf.commitIndex ∧ rf' = { rf with lastApplied := rf.lastApplied + 1 } ∧
      ∃ e, rf.log.get? (rf.logIndex2sliceIndex (rf.lastApplied + 1)) = some e ∧
        msg = ⟨e.command, e.index⟩ := by
  unfold applyLog at h
  split_ifs at h with hlt
  split at h <;> cases h
  rename_i e he
  exact ⟨hlt, rfl, e, he, rfl⟩

lemma start_of_leader (hstate : rf.state = .leader) (command : Option Cmd) :
    (rf.Start cfg command).1 =
      { rf with
        log := rf.log.append cfg.growslice
          [⟨rf.currentTerm, rf.log.len + rf.X, command⟩] }.persistUnlessKilled := by
  simp [Start, hstate]

lemma snapshotRead_eq_some {index : ℕ} {data : List (GobValue Cmd)}
    {c : SnapshotCall Cmd} (h : rf.snapshotRead index data = some c) :
    ∃ commands e, decodeSnapshot data = some ((index : ℤ), commands) ∧
      rf.log.get? (rf.logIndex2sliceIndex index) = some e ∧
      c = { index := index
            mergedCommands := rf.snapshot.elim [] SnapShot.commands ++ commands
            lastIncludedTerm := e.term } := by
  simp only [snapshotRead] at h
  split at h
  · cases h
  · rename_i i commands hdec
    split_ifs at h with hi
    split at h <;> cases h
    rename_i e he
    exact ⟨commands, e, by rw [hdec, not_not.mp hi], he, rfl⟩

lemma snapshotTrim_eq_some {c : SnapshotCall Cmd} (h : rf.snapshotTrim cfg c = some rf') :
    ∃ rest, rf.log.from? (rf.logIndex2sliceIndex c.index + 1) = some rest ∧
      rf' =
        { rf with
          log := Slice.append cfg.growslice (.ofList [⟨c.lastIncludedTerm, c.index, none⟩]) rest
          X := c.index
          snapshot := some ⟨c.index, c.mergedCommands, c.lastIncludedTerm⟩ }.persist := by
  unfold snapshotTrim at h
  split at h <;> cases h
  rename_i rest hrest
  exact ⟨rest, hrest, rfl⟩

/-- The store holds what the peer holds. -/
def Stored (rf : Raft Cmd) : Prop := rf.persister = rf.persist.persister

lemma stored_persistUnlessKilled (hlive : rf.dead = false) : rf.persistUnlessKilled.Stored := by
  rw [persistUnlessKilled_of_live rf hlive]
  rfl

lemma Stored.decodeState (h : rf.Stored) :
    decodeState rf.persister.raftstate =
      some (rf.currentTerm, rf.votedFor, rf.log.elems) := by
  rw [h, decodeState_persist]

/-- What an `AppendEntries` request that is not out of date leaves a peer with, its log and commit
index apart. -/
structure Followed (args : AppendEntriesArgs Cmd) (rf rf' : Raft Cmd) : Prop where
  me : rf'.me = rf.me
  dead : rf'.dead = rf.dead
  currentTerm : rf'.currentTerm = args.term
  votedFor : rf'.votedFor = some args.leaderId
  state : rf'.state = .follower
  lastApplied : rf'.lastApplied = rf.lastApplied
  X : rf'.X = rf.X
  snapshot : rf'.snapshot = rf.snapshot
  stored : rf.dead = false → rf'.Stored

lemma followed_becomeFollower (rf : Raft Cmd) (args : AppendEntriesArgs Cmd) :
    Followed args rf (rf.becomeFollower args.term (some args.leaderId)) := by
  constructor
  case stored => exact fun hlive => stored_persistUnlessKilled hlive
  all_goals simp [becomeFollower]

lemma Followed.setLog {args : AppendEntriesArgs Cmd} (h : Followed args rf rf')
    (log : Slice (LogEntry Cmd)) :
    Followed args rf ({ rf' with log := log }.persistUnlessKilled) := by
  constructor
  case stored => exact fun hlive => stored_persistUnlessKilled (h.dead.trans hlive)
  all_goals simp [h.me, h.dead, h.currentTerm, h.votedFor, h.state, h.lastApplied, h.X, h.snapshot]

lemma Followed.updateCommit {args : AppendEntriesArgs Cmd} (h : Followed args rf rf')
    (entries : List (LogEntry Cmd)) : Followed args rf (rf'.updateCommit args entries) := by
  obtain ⟨c, hc⟩ := rf'.updateCommit_eq args entries
  rw [hc]
  exact ⟨h.me, h.dead, h.currentTerm, h.votedFor, h.state, h.lastApplied, h.X, h.snapshot, h.stored⟩

lemma AppendOutcome.followed {args : AppendEntriesArgs Cmd} {r : Raft Cmd × AppendEntriesReply}
    (h : AppendOutcome cfg rf args r) :
    args.term < rf.currentTerm ∧ r = (rf, { term := rf.currentTerm }) ∨
      rf.currentTerm ≤ args.term ∧ Followed args rf r.1 := by
  have hf := followed_becomeFollower rf args
  cases h with
  | stale hterm => exact .inl ⟨hterm, rfl⟩
  | reject hterm _ => exact .inr ⟨hterm, hf⟩
  | heartbeat hterm _ _ => exact .inr ⟨hterm, hf.updateCommit []⟩
  | merge hterm _ _ => exact .inr ⟨hterm, (hf.setLog _).updateCommit _⟩

/-- A vote that is granted has been stored. -/
lemma decodeState_requestVote {args : RequestVoteArgs} (hlive : rf.dead = false)
    (h : (rf.RequestVote args).2.voteGranted = true) :
    decodeState (rf.RequestVote args).1.persister.raftstate =
      some (args.term, some args.candidateId, rf.log.elems) := by
  generalize hr : rf.RequestVote args = r at h ⊢
  have hout := hr ▸ rf.voteOutcome args
  cases hout with
  | refuse | bump => cases h
  | grant hterm _ _ =>
    refine (stored_persistUnlessKilled (by exact hlive)).decodeState.trans ?_
    simp [hterm]
  | bumpGrant _ _ =>
    have hlive' : (rf.becomeFollower args.term none).dead = false := by
      simpa [becomeFollower] using hlive
    refine (stored_persistUnlessKilled (by exact hlive')).decodeState.trans ?_
    simp [becomeFollower]

/-- A log that is reported to match has been stored. -/
lemma decodeState_appendEntries {args : AppendEntriesArgs Cmd} (hlive : rf.dead = false)
    (h : (rf.AppendEntries cfg args).2.success = true) :
    decodeState (rf.AppendEntries cfg args).1.persister.raftstate =
      some (args.term, some args.leaderId, (rf.AppendEntries cfg args).1.log.elems) := by
  rcases (appendOutcome cfg rf args).followed with ⟨_, hr⟩ | ⟨_, hf⟩
  · rw [hr] at h
    cases h
  · rw [(hf.stored hlive).decodeState, hf.currentTerm, hf.votedFor]

/-- An entry that `Start` promises an index for has been stored. -/
lemma decodeState_start (hlive : rf.dead = false) (hstate : rf.state = .leader)
    (command : Option Cmd) :
    decodeState (rf.Start cfg command).1.persister.raftstate =
      some (rf.currentTerm, rf.votedFor, rf.log.elems ++
        [⟨(rf.Start cfg command).2.2.1, (rf.Start cfg command).2.1, command⟩]) := by
  rw [start_of_leader hstate, (stored_persistUnlessKilled (by exact hlive)).decodeState]
  simp [Start, hstate]

/-- A step leaves the stored fields and the store alone. -/
structure Untouched (rf rf' : Raft Cmd) : Prop where
  persister : rf'.persister = rf.persister
  currentTerm : rf'.currentTerm = rf.currentTerm
  votedFor : rf'.votedFor = rf.votedFor
  log : rf'.log = rf.log

/-- Whenever a live peer releases its lock, it has stored what it changed. -/
lemma Step.stored (h : Step cfg rf rf') (hlive : rf.dead = false) :
    rf'.Stored ∨ Untouched rf rf' := by
  cases h with
  | idle => exact .inr ⟨rfl, rfl, rfl, rfl⟩
  | campaign => exact .inl (stored_persistUnlessKilled hlive)
  | win => exact .inr ⟨rfl, rfl, rfl, rfl⟩
  | stepDown => exact .inl (stored_persistUnlessKilled hlive)
  | start hstate =>
    rw [start_of_leader hstate]
    exact .inl (stored_persistUnlessKilled hlive)
  | @advance i end_ =>
    obtain ⟨next, matched, h⟩ := rf.advanceNext_eq i end_
    rw [h]
    exact .inr ⟨rfl, rfl, rfl, rfl⟩
  | @commit term end_ =>
    obtain ⟨c, h⟩ := rf.commit_eq term end_
    rw [h]
    exact .inr ⟨rfl, rfl, rfl, rfl⟩
  | applyLog h =>
    obtain ⟨_, rfl, _⟩ := applyLog_eq_some h
    exact .inr ⟨rfl, rfl, rfl, rfl⟩
  | publish => exact .inr ⟨rfl, rfl, rfl, rfl⟩
  | trim h =>
    obtain ⟨rest, _, rfl⟩ := snapshotTrim_eq_some h
    exact .inl rfl
  | @requestVote args =>
    generalize hr : rf.RequestVote args = r
    have hout := hr ▸ rf.voteOutcome args
    cases hout with
    | refuse => exact .inr ⟨rfl, rfl, rfl, rfl⟩
    | bump => exact .inl (stored_persistUnlessKilled hlive)
    | grant => exact .inl (stored_persistUnlessKilled hlive)
    | bumpGrant =>
      exact .inl (stored_persistUnlessKilled (by simpa [becomeFollower] using hlive))
  | @appendEntries args =>
    rcases (appendOutcome cfg rf args).followed with ⟨_, h⟩ | ⟨hterm, h⟩
    · rw [h]
      exact .inr ⟨rfl, rfl, rfl, rfl⟩
    · exact .inl (h.stored hlive)

/-- The log is never emptied. -/
lemma Step.log_pos (h : Step cfg rf rf') (hpos : 0 < rf.log.len) : 0 < rf'.log.len := by
  cases h with
  | start hstate => simp [start_of_leader hstate, Slice.len_append]
  | @advance i end_ =>
    obtain ⟨next, matched, h⟩ := rf.advanceNext_eq i end_
    simpa [h] using hpos
  | @commit term end_ =>
    obtain ⟨c, h⟩ := rf.commit_eq term end_
    simpa [h] using hpos
  | applyLog h =>
    obtain ⟨_, rfl, _⟩ := applyLog_eq_some h
    exact hpos
  | trim h =>
    obtain ⟨rest, _, rfl⟩ := snapshotTrim_eq_some h
    simp only [persist, Slice.len_append]
    exact Nat.add_pos_left Nat.one_pos _
  | @requestVote args =>
    generalize hr : rf.RequestVote args = r
    have hout := hr ▸ rf.voteOutcome args
    cases hout <;> simpa [becomeFollower] using hpos
  | @appendEntries args =>
    generalize hr : rf.AppendEntries cfg args = r
    have hout := hr ▸ appendOutcome cfg rf args
    cases hout with
    | stale => exact hpos
    | reject => simpa [becomeFollower] using hpos
    | heartbeat => simpa [becomeFollower] using hpos
    | @merge _ _ start entries _ _ hprev =>
      obtain ⟨h1, h2⟩ := checkPrev_start hprev hpos
      obtain ⟨i, hmp, hlog, -⟩ := mergeEntries_spec cfg entries h2
      have h3 := hmp.start_le
      have h4 := hmp.le_length
      simp only [log_updateCommit, log_persistUnlessKilled, hlog, Slice.len_append]
      simp only [Slice.len, Slice.elems_upto, List.length_take]
      omega
  | _ => simpa [becomeCandidate, becomeLeader, becomeFollower, snapshotPublish] using hpos

lemma Step.me_dead (h : Step cfg rf rf') : rf'.me = rf.me ∧ rf'.dead = rf.dead := by
  cases h with
  | start hstate => simp [start_of_leader hstate]
  | @advance i end_ =>
    obtain ⟨next, matched, h⟩ := rf.advanceNext_eq i end_
    simp [h]
  | @commit term end_ =>
    obtain ⟨c, h⟩ := rf.commit_eq term end_
    simp [h]
  | applyLog h =>
    obtain ⟨_, rfl, _⟩ := applyLog_eq_some h
    simp
  | trim h =>
    obtain ⟨rest, _, rfl⟩ := snapshotTrim_eq_some h
    simp [persist]
  | @requestVote args =>
    generalize hr : rf.RequestVote args = r
    have hout := hr ▸ rf.voteOutcome args
    cases hout <;> simp [becomeFollower]
  | @appendEntries args =>
    rcases (appendOutcome cfg rf args).followed with ⟨_, h⟩ | ⟨hterm, h⟩
    · simp [h]
    · exact ⟨h.me, h.dead⟩
  | _ => simp [becomeCandidate, becomeLeader, becomeFollower, snapshotPublish]

lemma Step.currentTerm_le (h : Step cfg rf rf') : rf.currentTerm ≤ rf'.currentTerm := by
  cases h with
  | campaign => simp [becomeCandidate]
  | stepDown hterm => simpa [becomeFollower] using Nat.le_of_lt hterm
  | start hstate => simp [start_of_leader hstate]
  | @advance i end_ =>
    obtain ⟨next, matched, h⟩ := rf.advanceNext_eq i end_
    simp [h]
  | @commit term end_ =>
    obtain ⟨c, h⟩ := rf.commit_eq term end_
    simp [h]
  | applyLog h =>
    obtain ⟨_, rfl, _⟩ := applyLog_eq_some h
    simp
  | trim h =>
    obtain ⟨rest, _, rfl⟩ := snapshotTrim_eq_some h
    simp [persist]
  | @requestVote args =>
    generalize hr : rf.RequestVote args = r
    have hout := hr ▸ rf.voteOutcome args
    cases hout <;> simp [becomeFollower] <;> omega
  | @appendEntries args =>
    rcases (appendOutcome cfg rf args).followed with ⟨_, h⟩ | ⟨hterm, h⟩
    · simp [h]
    · rw [h.currentTerm]
      exact hterm
  | _ => simp [becomeLeader, snapshotPublish]

end Step

end Raft

end DistLabs
