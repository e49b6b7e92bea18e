import DistLabs.Raft.NodeSpec

/-!
# Accepting and merging a request

What `AppendEntries` answers and what it does to the log, for a log that begins at any offset `X`.
A request is to be accepted if its previous entry is compacted or is in the log with the right term.
The branch for another term returns only from inside the scan for the start of that term, so when
the scan finds no other term down to slot 0 the request is merged as well.

The merge itself is described by the index at which it starts to write.
-/

namespace DistLabs

/-- The entries of the request have consecutive indices behind the previous entry. -/
def AppendEntriesArgs.Consecutive {Cmd : Type*} (args : AppendEntriesArgs Cmd) : Prop :=
  ∀ (j : ℕ) (e : LogEntry Cmd), args.entries[j]? = some e → e.index = args.prevLogIndex + 1 + j

namespace Raft

variable {Cmd : Type*} {cfg : Config} {rf : Raft Cmd} {args : AppendEntriesArgs Cmd}

/-- A log with slot 0, every entry of which has the index of its position. -/
structure Indexed (rf : Raft Cmd) : Prop where
  pos : 0 < rf.log.len
  index : ∀ (k : ℕ) (e : LogEntry Cmd), rf.log.elems[k]? = some e → e.index = rf.X + k

lemma Indexed.exists_mem_iff (h : rf.Indexed) {i : ℕ} (hi : rf.X ≤ i) {p : LogEntry Cmd → Prop} :
    (∃ e ∈ rf.log.elems, e.index = i ∧ p e) ↔ ∃ e, rf.log.elems[i - rf.X]? = some e ∧ p e := by
  constructor
  · rintro ⟨e, he, rfl, hp⟩
    obtain ⟨k, hk⟩ := List.getElem?_of_mem he
    refine ⟨e, ?_, hp⟩
    rw [h.index k e hk, Nat.add_sub_cancel_left]
    exact hk
  · rintro ⟨e, he, hp⟩
    exact ⟨e, List.mem_of_getElem? he, by rw [h.index _ e he]; omega, hp⟩

/-! ### The answer -/

/-- The previous entry of the request is compacted, or in the log with the right term. -/
def PrevMatches (rf : Raft Cmd) (args : AppendEntriesArgs Cmd) : Prop :=
  args.prevLogIndex ≤ rf.X ∨
    ∃ e ∈ rf.log.elems, e.index = args.prevLogIndex ∧ e.term = args.prevLogTerm

/-- The log has another term at the previous entry of the request, and the same one in every entry
before it. -/
def ScanRunsOut (rf : Raft Cmd) (args : AppendEntriesArgs Cmd) : Prop :=
  rf.X < args.prevLogIndex ∧
    ∃ e ∈ rf.log.elems, e.index = args.prevLogIndex ∧ e.term ≠ args.prevLogTerm ∧
      ∀ x ∈ rf.log.elems, x.index < args.prevLogIndex → x.term = e.term

lemma scanConflict_eq_none_iff {log : List (LogEntry Cmd)} {xTerm k : ℕ} :
    scanConflict log xTerm k = none ↔ ∀ i < k, (log[i]?.getD default).term = xTerm := by
  induction k with
  | zero => simp [scanConflict]
  | succ k ih =>
    unfold scanConflict
    split_ifs with hterm
    · simp only [false_iff, not_forall]
      exact ⟨k, Nat.lt_succ_self k, hterm⟩
    · rw [ih]
      refine ⟨fun h i hi => ?_, fun h i hi => h i (Nat.lt_succ_of_lt hi)⟩
      rcases Nat.lt_succ_iff_lt_or_eq.mp hi with hi | rfl
      · exact h i hi
      · exact not_not.mp hterm

lemma Indexed.scanConflict_eq_none_iff (h : rf.Indexed) {e : LogEntry Cmd} {i : ℕ}
    (hi : rf.X ≤ i) (he : rf.log.elems[i - rf.X]? = some e) :
    scanConflict rf.log.elems e.term (i - rf.X) = none ↔
      ∀ x ∈ rf.log.elems, x.index < i → x.term = e.term := by
  rw [Raft.scanConflict_eq_none_iff]
  have hlen := (List.getElem?_eq_some_iff.mp he).1
  constructor
  · intro hall x hx hlt
    obtain ⟨k, hk⟩ := List.getElem?_of_mem hx
    have hidx := h.index k x hk
    have := hall k (by omega)
    rwa [hk, Option.getD_some] at this
  · intro hall k hk
    have hget : rf.log.elems[k]? = some (rf.log.elems[k]) := List.getElem?_eq_getElem (by omega)
    rw [hget, Option.getD_some]
    exact hall _ (List.getElem_mem _) (by rw [h.index k _ hget]; omega)

/-- The check accepts the request, with the part of its entries that is not compacted, or rejects
it. -/
lemma Indexed.checkPrev_cases (h : rf.Indexed) (args : AppendEntriesArgs Cmd)
    (reply : AppendEntriesReply) :
    ((rf.PrevMatches args ∨ rf.ScanRunsOut args) ∧
        ∃ reply', rf.checkPrev args reply = .merge reply'
          (max args.prevLogIndex rf.X + 1 - rf.X)
          (args.entries.drop (rf.X - args.prevLogIndex))) ∨
      ¬(rf.PrevMatches args ∨ rf.ScanRunsOut args) ∧
        ∃ reply', rf.checkPrev args reply = .reject reply' := by
  unfold checkPrev
  rcases Nat.lt_or_ge rf.X args.prevLogIndex with hlt | hge
  · have hsub : rf.logIndex2sliceIndex args.prevLogIndex = (args.prevLogIndex - rf.X : ℕ) := by
      unfold logIndex2sliceIndex
      omega
    have hmax : max args.prevLogIndex rf.X + 1 - rf.X = args.prevLogIndex - rf.X + 1 := by omega
    have hzero : rf.X - args.prevLogIndex = 0 := by omega
    have hmatch : rf.PrevMatches args ↔ ∃ e, rf.log.elems[args.prevLogIndex - rf.X]? = some e ∧
        e.term = args.prevLogTerm := by
      rw [PrevMatches, or_iff_right (not_le.mpr hlt), h.exists_mem_iff (Nat.le_of_lt hlt)]
    have hruns : rf.ScanRunsOut args ↔ ∃ e, rf.log.elems[args.prevLogIndex - rf.X]? = some e ∧
        e.term ≠ args.prevLogTerm ∧
        ∀ x ∈ rf.log.elems, x.index < args.prevLogIndex → x.term = e.term := by
      rw [ScanRunsOut, and_iff_right hlt, h.exists_mem_iff (Nat.le_of_lt hlt)]
    simp only [hsub, Int.toNat_natCast, hmatch, hruns, hmax, hzero, List.drop_zero]
    have hpos : ((args.prevLogIndex - rf.X : ℕ) : ℤ) > 0 := by
      clear hmatch hruns
      omega
    rw [if_pos hpos]
    by_cases hlong : ((args.prevLogIndex - rf.X : ℕ) : ℤ) > (rf.log.len : ℤ) - 1
    · -- the log is too short
      have hnone : rf.log.elems[args.prevLogIndex - rf.X]? = none := by
        refine List.getElem?_eq_none ?_
        unfold Slice.len at hlong
        omega
      right
      simp [hlong, hnone]
    · obtain ⟨e, he⟩ : ∃ e, rf.log.elems[args.prevLogIndex - rf.X]? = some e := by
        refine ⟨_, List.getElem?_eq_getElem ?_⟩
        unfold Slice.len at hlong
        omega
      simp only [hlong, if_false, he, Option.getD_some, Option.some.injEq, exists_eq_left']
      by_cases hterm : e.term = args.prevLogTerm
      · simp [hterm]
      · simp only [hterm, ne_eq, not_false_eq_true, if_true, true_and, false_or]
        rw [← h.scanConflict_eq_none_iff (Nat.le_of_lt hlt) he]
        cases hscan : scanConflict rf.log.elems e.term (args.prevLogIndex - rf.X) <;> simp
  · have hle : ¬rf.logIndex2sliceIndex args.prevLogIndex > 0 := by
      unfold logIndex2sliceIndex
      omega
    have hmax : max args.prevLogIndex rf.X + 1 - rf.X = 1 := by omega
    have hdrop : (if rf.X - args.prevLogIndex < args.entries.length then
        args.entries.drop (rf.X - args.prevLogIndex) else []) =
          args.entries.drop (rf.X - args.prevLogIndex) := by
      split_ifs with hlen
      · rfl
      · exact (List.drop_eq_nil_of_le (not_lt.mp hlen)).symm
    left
    refine ⟨.inl (.inl hge), reply, ?_⟩
    simp only [hle, if_false, hmax, hdrop]

lemma Indexed.success_iff (h : rf.Indexed) (cfg : Config) (args : AppendEntriesArgs Cmd) :
    (rf.AppendEntries cfg args).2.success = true ↔
      rf.currentTerm ≤ args.term ∧ (rf.PrevMatches args ∨ rf.ScanRunsOut args) := by
  unfold AppendEntries
  rcases Nat.lt_or_ge args.term rf.currentTerm with hlt | hge
  · simp [hlt, not_le.mpr hlt]
  · simp only [if_neg (not_lt.mpr hge), checkPrev_becomeFollower]
    have hcases := h.checkPrev_cases args
      { term := rf.currentTerm
        xLen := (rf.becomeFollower args.term (some args.leaderId)).log.len +
          (rf.becomeFollower args.term (some args.leaderId)).X }
    rcases hcases with ⟨hacc, reply, hc⟩ | ⟨hrej, reply, hc⟩
    · simp only [hc, hge, hacc, and_self, iff_true]
      split_ifs <;> rfl
    · simp only [hc, hrej, and_false, iff_false]
      have hfail : reply.success = false := checkPrev_reject hc
      simp [hfail]

lemma ScanRunsOut.not_prevMatches (h : rf.Indexed) (hs : rf.ScanRunsOut args) :
    ¬rf.PrevMatches args := by
  obtain ⟨hlt, hex⟩ := hs
  obtain ⟨e, he, hne, -⟩ := (h.exists_mem_iff (Nat.le_of_lt hlt)).mp hex
  rw [PrevMatches, or_iff_right (not_le.mpr hlt), h.exists_mem_iff (Nat.le_of_lt hlt)]
  rintro ⟨e', he', heq⟩
  cases he.symm.trans he'
  exact hne heq

lemma unchanged_of_not_success (h : (rf.AppendEntries cfg args).2.success = false) :
    (rf.AppendEntries cfg args).1.log = rf.log ∧
      (rf.AppendEntries cfg args).1.commitIndex = rf.commitIndex := by
  generalize hr : rf.AppendEntries cfg args = r at h ⊢
  have hout := hr ▸ appendOutcome cfg rf args
  cases hout with
  | stale => exact ⟨rfl, rfl⟩
  | reject => simp [becomeFollower]
  | heartbeat => cases h
  | merge => cases h

/-- What a rejection says. -/
lemma checkPrev_eq_reject {reply reply' : AppendEntriesReply}
    (h : rf.checkPrev args reply = .reject reply') :
    (reply' = reply ∧ (rf.log.len : ℤ) ≤ rf.logIndex2sliceIndex args.prevLogIndex) ∨
      ∃ (prev : ℕ) (x : LogEntry Cmd) (xIndex : ℕ),
        rf.logIndex2sliceIndex args.prevLogIndex = prev ∧ rf.log.elems[prev]? = some x ∧
          x.term ≠ args.prevLogTerm ∧ scanConflict rf.log.elems x.term prev = some xIndex ∧
          reply' = { reply with xTerm := x.term, xIndex := xIndex } := by
  simp only [checkPrev] at h
  split_ifs at h with hpos hlong hterm
  · cases h
    exact .inl ⟨rfl, by omega⟩
  · obtain ⟨prev, hprev⟩ := Int.eq_ofNat_of_zero_le (Int.le_of_lt hpos)
    simp only [hprev, Int.toNat_natCast] at h hterm hlong
    obtain ⟨x, hx⟩ : ∃ x, rf.log.elems[prev]? = some x := by
      refine ⟨_, List.getElem?_eq_getElem ?_⟩
      unfold Slice.len at hlong
      omega
    simp only [hx, Option.getD_some] at h hterm
    split at h <;> cases h
    exact .inr ⟨prev, x, _, hprev, hx, hterm, ‹_›, rfl⟩

/-- The scan names the index behind the last entry of another term. -/
lemma exists_of_scanConflict {log : List (LogEntry Cmd)} {xTerm k xIndex : ℕ}
    (h : scanConflict log xTerm k = some xIndex) :
    ∃ i < k, xIndex = (log[i + 1]?.getD default).index := by
  induction k with
  | zero => cases h
  | succ k ih =>
    unfold scanConflict at h
    split_ifs at h with hterm
    · cases h
      exact ⟨k, Nat.lt_succ_self k, rfl⟩
    · obtain ⟨i, hi, heq⟩ := ih h
      exact ⟨i, Nat.lt_succ_of_lt hi, heq⟩

lemma Indexed.xIndex_of_scanConflict (h : rf.Indexed) {xTerm prev xIndex : ℕ}
    (hscan : scanConflict rf.log.elems xTerm prev = some xIndex)
    (hprev : prev < rf.log.elems.length) : rf.X < xIndex ∧ xIndex ≤ rf.X + prev := by
  obtain ⟨i, hi, rfl⟩ := exists_of_scanConflict hscan
  obtain ⟨y, hy⟩ : ∃ y, rf.log.elems[i + 1]? = some y :=
    ⟨_, List.getElem?_eq_getElem (by omega)⟩
  have hidx := h.index (i + 1) y hy
  simp only [hy, Option.getD_some]
  omega

/-- A rejection does not name an index behind the previous entry of the request. -/
lemma Indexed.xIndex_le (h : rf.Indexed)
    (hfail : (rf.AppendEntries cfg args).2.success = false) :
    (rf.AppendEntries cfg args).2.xIndex ≤ args.prevLogIndex := by
  rcases Nat.lt_or_ge args.term rf.currentTerm with hlt | hge
  · simp [AppendEntries, hlt]
  simp only [AppendEntries, if_neg (not_lt.mpr hge), checkPrev_becomeFollower] at hfail ⊢
  split at hfail
  · rename_i reply hc
    rcases checkPrev_eq_reject hc with ⟨rfl, -⟩ | ⟨prev, x, xIndex, hprev, hx, -, hscan, rfl⟩
    · exact Nat.zero_le _
    · have := h.xIndex_of_scanConflict hscan (List.getElem?_eq_some_iff.mp hx).1
      unfold logIndex2sliceIndex at hprev
      simp only
      omega
  · split_ifs at hfail

/-- Acceptance: for every log whose entries have the indices of their positions behind any offset
`X`, and every request, `AppendEntries` succeeds exactly if the term is not out of date and the
previous entry is compacted or is in the log with the right term, and leaves the log and the commit
index alone when it fails, unless the log has another term at the previous entry and no other one
before it. -/
theorem appendEntries_accepts_iff (h : rf.Indexed) (cfg : Config) (args : AppendEntriesArgs Cmd) :
    (((rf.AppendEntries cfg args).2.success = true ↔ rf.currentTerm ≤ args.term ∧
          (args.prevLogIndex ≤ rf.X ∨
            ∃ e ∈ rf.log.elems, e.index = args.prevLogIndex ∧ e.term = args.prevLogTerm)) ∧
        ((rf.AppendEntries cfg args).2.success = false →
          (rf.AppendEntries cfg args).1.log = rf.log ∧
            (rf.AppendEntries cfg args).1.commitIndex = rf.commitIndex)) ↔
      ¬(rf.currentTerm ≤ args.term ∧ rf.ScanRunsOut args) := by
  constructor
  · rintro ⟨hiff, -⟩ ⟨hterm, hruns⟩
    have hacc := hiff.mp ((h.success_iff cfg args).mpr ⟨hterm, .inr hruns⟩)
    exact hruns.not_prevMatches h hacc.2
  · intro hnot
    refine ⟨?_, unchanged_of_not_success⟩
    rw [h.success_iff]
    refine and_congr_right fun hterm => ?_
    exact or_iff_left fun hruns => hnot ⟨hterm, hruns⟩

/-- A peer whose log has been compacted up to index 5, in term 2. -/
def compactedPeer : Raft ℕ where
  me := 1
  dead := false
  persister := .empty
  currentTerm := 3
  votedFor := none
  state := .follower
  log := .ofList [⟨2, 5, none⟩, ⟨2, 6, some 16⟩, ⟨3, 7, some 17⟩]
  commitIndex := 5
  lastApplied := 5
  nextIndex := []
  matchedIndex := []
  X := 5
  snapshot := some ⟨5, [], 2⟩

lemma compactedPeer_indexed : compactedPeer.Indexed where
  pos := by decide
  index
    | 0, _, rfl => rfl
    | 1, _, rfl => rfl
    | 2, _, rfl => rfl

/-- A request with another term at index 7 is rejected. -/
theorem appendEntries_accepts_iff_compacted :
    (((compactedPeer.AppendEntries (.doubling 3) ⟨4, 0, 7, 4, [], 7⟩).2.success = true ↔
        compactedPeer.currentTerm ≤ 4 ∧ (7 ≤ compactedPeer.X ∨
          ∃ e ∈ compactedPeer.log.elems, e.index = 7 ∧ e.term = 4)) ∧
      ((compactedPeer.AppendEntries (.doubling 3) ⟨4, 0, 7, 4, [], 7⟩).2.success = false →
        (compactedPeer.AppendEntries (.doubling 3) ⟨4, 0, 7, 4, [], 7⟩).1.log =
            compactedPeer.log ∧
          (compactedPeer.AppendEntries (.doubling 3) ⟨4, 0, 7, 4, [], 7⟩).1.commitIndex =
            compactedPeer.commitIndex)) := by
  refine (appendEntries_accepts_iff compactedPeer_indexed (.doubling 3)
    ⟨4, 0, 7, 4, [], 7⟩).mpr ?_
  rintro ⟨-, -, e, he, hidx, -, hall⟩
  have h2 := hall ⟨2, 5, none⟩ List.mem_cons_self (by decide)
  simp only [compactedPeer, Slice.elems_ofList, List.mem_cons, List.not_mem_nil, or_false] at he
  rcases he with rfl | rfl | rfl <;> simp_all

/-- A request whose previous entry has index 6 and term 3 is accepted, although the log has term 2
there: the entry in slot 0 has term 2 as well. -/
theorem compactedPeer_accepts_other_term :
    compactedPeer.Indexed ∧
      (compactedPeer.AppendEntries (.doubling 3) ⟨4, 0, 6, 3, [⟨4, 7, some 27⟩], 5⟩).2.success =
        true ∧
      (compactedPeer.AppendEntries (.doubling 3) ⟨4, 0, 6, 3, [⟨4, 7, some 27⟩], 5⟩).1.log.elems =
        [⟨2, 5, none⟩, ⟨2, 6, some 16⟩, ⟨4, 7, some 27⟩] ∧
      ¬(6 ≤ compactedPeer.X ∨
        ∃ e ∈ compactedPeer.log.elems, e.index = 6 ∧ e.term = 3) :=
  ⟨compactedPeer_indexed, by decide, by decide, by decide⟩

/-! ### Logs that are not compacted -/

/-- A log that has not been compacted. It begins at index 0 with the only entry of term 0. -/
structure Whole (rf : Raft Cmd) : Prop where
  X : rf.X = 0
  indexed : rf.Indexed
  term_pos_iff : ∀ (i : ℕ) (e : LogEntry Cmd), rf.log.elems[i]? = some e → (0 < e.term ↔ 0 < i)

/-- An accepted request has its previous entry in the log. -/
lemma Whole.exists_of_success (h : rf.Whole)
    (hs : (rf.AppendEntries cfg args).2.success = true) :
    args.prevLogIndex = 0 ∨
      ∃ y, rf.log.elems[args.prevLogIndex]? = some y ∧ y.term = args.prevLogTerm := by
  obtain ⟨-, hprev | hruns⟩ := (h.indexed.success_iff cfg args).mp hs
  · rcases hprev with hle | hex
    · exact .inl (by rw [h.X] at hle; omega)
    · refine .inr ?_
      simpa [h.X] using (h.indexed.exists_mem_iff (by rw [h.X]; omega)).mp hex
  · -- slot 0 is the only entry of its term
    obtain ⟨hpos, y, hy, hidx, -, hall⟩ := hruns
    obtain ⟨k, hk⟩ := List.getElem?_of_mem hy
    obtain ⟨x, hx⟩ : ∃ x, rf.log.elems[0]? = some x :=
      ⟨_, List.getElem?_eq_getElem h.indexed.pos⟩
    have hX := h.X
    have hyk := h.indexed.index k y hk
    have hxi := h.indexed.index 0 x hx
    have heq := hall x (List.mem_of_getElem? hx) (by omega)
    have := (h.term_pos_iff k y hk).mpr (by omega)
    have := (h.term_pos_iff 0 x hx).mp (by omega)
    omega

/-! ### The merge -/

lemma checkPrev_merge_eq {reply reply' : AppendEntriesReply} {start : ℕ}
    {entries : List (LogEntry Cmd)} (h : rf.checkPrev args reply = .merge reply' start entries) :
    start = max args.prevLogIndex rf.X + 1 - rf.X ∧
      entries = args.entries.drop (rf.X - args.prevLogIndex) := by
  rcases checkPrev_merge h with ⟨prev, x, hprev, hpos, -, rfl, rfl, -⟩ | ⟨hle, rfl, rfl⟩
  · unfold logIndex2sliceIndex at hprev
    have hzero : rf.X - args.prevLogIndex = 0 := by omega
    exact ⟨by omega, by rw [hzero, List.drop_zero]⟩
  · unfold logIndex2sliceIndex at hle
    refine ⟨by omega, ?_⟩
    split_ifs with hlen
    · rfl
    · exact (List.drop_eq_nil_of_le (not_lt.mp hlen)).symm

/-- Where the merge of a request begins to write: at slice position `i`. -/
abbrev WritesFrom (rf : Raft Cmd) (args : AppendEntriesArgs Cmd) (i : ℕ) : Prop :=
  MergePoint rf.log.elems (max args.prevLogIndex rf.X + 1 - rf.X)
    (args.entries.drop (rf.X - args.prevLogIndex)) i

/-- An accepted request leaves the log up to a position as it is and continues with its entries. -/
lemma exists_writesFrom_slice (hpos : 0 < rf.log.len)
    (h : (rf.AppendEntries cfg args).2.success = true) :
    ∃ i, rf.WritesFrom args i ∧
      (rf.AppendEntries cfg args).1.log = (rf.log.upto i).append cfg.growslice
        (args.entries.drop (rf.X + i - (args.prevLogIndex + 1))) ∧
      (rf.AppendEntries cfg args).1.commitIndex =
        (rf.updateCommit args
          (args.entries.drop (rf.X + i - (args.prevLogIndex + 1)))).commitIndex := by
  generalize hr : rf.AppendEntries cfg args = r at h ⊢
  have hout := hr ▸ appendOutcome cfg rf args
  cases hout with
  | stale => cases h
  | reject _ hfail => cases hfail.symm.trans h
  | heartbeat hterm hargs hprev =>
    have hstart := (checkPrev_start hprev hpos).2
    obtain ⟨rfl, rfl⟩ := checkPrev_merge_eq hprev
    refine ⟨rf.log.len, ⟨hstart, le_rfl, by simp [hargs], .inl rfl⟩, ?_, ?_⟩
    · simp [hargs, becomeFollower, Slice.upto, Slice.len, Slice.append]
    · rw [hargs, List.drop_nil]
      exact commitIndex_updateCommit (by simp [becomeFollower]) args []
  | merge hterm hargs hprev =>
    have hstart := (checkPrev_start hprev hpos).2
    obtain ⟨rfl, rfl⟩ := checkPrev_merge_eq hprev
    obtain ⟨i, hmp, hlog, hrest⟩ := mergeEntries_spec cfg
      (args.entries.drop (rf.X - args.prevLogIndex)) hstart
    have hdrop : (args.entries.drop (rf.X - args.prevLogIndex)).drop
        (i - (max args.prevLogIndex rf.X + 1 - rf.X)) =
          args.entries.drop (rf.X + i - (args.prevLogIndex + 1)) := by
      have := hmp.start_le
      rw [List.drop_drop]
      congr 1
      omega
    refine ⟨i, hmp, ?_, ?_⟩
    · simp [hlog, hdrop]
    · rw [hrest, hdrop]
      exact commitIndex_updateCommit (by simp [becomeFollower]) args _

lemma exists_writesFrom (hpos : 0 < rf.log.len)
    (h : (rf.AppendEntries cfg args).2.success = true) :
    ∃ i, rf.WritesFrom args i ∧
      (rf.AppendEntries cfg args).1.log.elems =
        rf.log.elems.take i ++ args.entries.drop (rf.X + i - (args.prevLogIndex + 1)) := by
  obtain ⟨i, hw, hlog, -⟩ := exists_writesFrom_slice hpos h
  refine ⟨i, hw, ?_⟩
  rw [hlog, Slice.elems_append, Slice.elems_upto]

namespace WritesFrom

variable {i q : ℕ}

lemma prev_lt (h : rf.WritesFrom args i) : args.prevLogIndex < rf.X + i := by
  have := h.start_le
  omega

/-- The merged log takes every position from the old log or from the request. -/
lemma getElem? (h : rf.WritesFrom args i) (q : ℕ) :
    (rf.log.elems.take i ++ args.entries.drop (rf.X + i - (args.prevLogIndex + 1)))[q]? =
      if q < i then rf.log.elems[q]? else args.entries[rf.X + q - (args.prevLogIndex + 1)]? := by
  have hstart := h.start_le
  have hget := MergePoint.getElem? h q
  rw [List.drop_drop, List.getElem?_drop] at hget
  rw [show rf.X + i - (args.prevLogIndex + 1) =
    rf.X - args.prevLogIndex + (i - (max args.prevLogIndex rf.X + 1 - rf.X)) by omega, hget]
  split_ifs with hq
  · rfl
  · congr 1
    omega

/-- Between the previous entry and the position, the log and the request agree. -/
lemma term_eq (h : rf.WritesFrom args i) (hq : q < i) (hprev : args.prevLogIndex < rf.X + q)
    (hpos : 0 < q) {x e : LogEntry Cmd} (hx : rf.log.elems[q]? = some x)
    (he : args.entries[rf.X + q - (args.prevLogIndex + 1)]? = some e) : x.term = e.term := by
  have hj : max args.prevLogIndex rf.X + 1 - rf.X + (q - (max args.prevLogIndex rf.X + 1 - rf.X)) =
      q := by omega
  refine h.agree (q - (max args.prevLogIndex rf.X + 1 - rf.X)) x e ?_ ?_ ?_
  · rwa [hj]
  · rwa [hj]
  · rw [List.getElem?_drop, ← he]
    congr 1
    omega

lemma end_or_conflict (h : rf.WritesFrom args i) :
    i = rf.log.elems.length ∨
      ∃ x e, rf.log.elems[i]? = some x ∧
        args.entries[rf.X + i - (args.prevLogIndex + 1)]? = some e ∧ x.term ≠ e.term := by
  refine h.conflict.imp_right ?_
  rintro ⟨x, e, hx, he, hne⟩
  refine ⟨x, e, hx, ?_, hne⟩
  have := h.start_le
  rw [List.getElem?_drop] at he
  rw [← he]
  congr 1
  omega

end WritesFrom

/-- The first index above the offset at which the log has another term than the request. -/
structure FirstConflict (rf : Raft Cmd) (args : AppendEntriesArgs Cmd) (k : ℕ) : Prop where
  lt : rf.X < k
  differs : ∃ x ∈ rf.log.elems, ∃ e ∈ args.entries, x.index = k ∧ e.index = k ∧ x.term ≠ e.term
  agrees : ∀ x ∈ rf.log.elems, ∀ e ∈ args.entries, rf.X < x.index → x.index < k →
    e.index = x.index → x.term = e.term

lemma WritesFrom.eq_of_firstConflict (h : rf.Indexed) (ha : args.Consecutive) {i k : ℕ}
    (hw : rf.WritesFrom args i) (hk : rf.FirstConflict args k) : rf.X + i = k := by
  have hlt := hw.prev_lt
  have hstart := hw.start_le
  obtain ⟨x, hx, e, he, hxk, hek, hne⟩ := hk.differs
  obtain ⟨q, hq⟩ := List.getElem?_of_mem hx
  obtain ⟨j, hj⟩ := List.getElem?_of_mem he
  have hxi := h.index q x hq
  have hej := ha j e hj
  have hXk := hk.lt
  -- the conflict is not before the position
  have hge : i ≤ q := by
    by_contra hlt'
    refine hne (hw.term_eq (not_le.mp hlt') (by omega) (by omega) hq ?_)
    rw [← hj]
    congr 1
    omega
  rcases hw.end_or_conflict with hend | ⟨y, f, hy, hf, hyf⟩
  · have := (List.getElem?_eq_some_iff.mp hq).1
    omega
  · -- and not behind it either
    by_contra hne'
    have hyi := h.index i y hy
    have hfi := ha _ f hf
    exact hyf (hk.agrees y (List.mem_of_getElem? hy) f (List.mem_of_getElem? hf) (by omega)
      (by omega) (by omega))

lemma WritesFrom.eq_length (h : rf.Indexed) (ha : args.Consecutive) {i : ℕ}
    (hw : rf.WritesFrom args i)
    (hagree : ∀ x ∈ rf.log.elems, ∀ e ∈ args.entries, rf.X < x.index → e.index = x.index →
      x.term = e.term) : i = rf.log.elems.length := by
  have hlt := hw.prev_lt
  have hstart := hw.start_le
  rcases hw.end_or_conflict with hend | ⟨x, e, hx, he, hne⟩
  · exact hend
  · have hxi := h.index i x hx
    have hei := ha _ e he
    exact absurd (hagree x (List.mem_of_getElem? hx) e (List.mem_of_getElem? he) (by omega)
      (by omega)) hne

/-- Every entry of the request above the offset has its index and its term in the merged log. -/
lemma WritesFrom.exists_getElem? (h : rf.Indexed) (ha : args.Consecutive) {i : ℕ}
    (hw : rf.WritesFrom args i) {e : LogEntry Cmd} (he : e ∈ args.entries) (hX : rf.X < e.index) :
    ∃ x, (rf.log.elems.take i ++
        args.entries.drop (rf.X + i - (args.prevLogIndex + 1)))[e.index - rf.X]? = some x ∧
      x.index = e.index ∧ x.term = e.term := by
  obtain ⟨j, hj⟩ := List.getElem?_of_mem he
  have hej := ha j e hj
  have hj' : args.entries[rf.X + (e.index - rf.X) - (args.prevLogIndex + 1)]? = some e := by
    rw [← hj]
    congr 1
    omega
  rw [hw.getElem?]
  split_ifs with hlt
  · have hlen : e.index - rf.X < rf.log.elems.length := Nat.lt_of_lt_of_le hlt hw.le_length
    have hx : rf.log.elems[e.index - rf.X]? = some rf.log.elems[e.index - rf.X] :=
      List.getElem?_eq_getElem hlen
    refine ⟨_, hx, ?_, hw.term_eq hlt (by omega) (by omega) hx hj'⟩
    rw [h.index _ _ hx]
    omega
  · exact ⟨e, hj', rfl, rfl⟩

section Merged

variable (h : rf.Indexed) (ha : args.Consecutive)
  (hs : (rf.AppendEntries cfg args).2.success = true)

include hs

lemma merged_X_currentTerm :
    (rf.AppendEntries cfg args).1.X = rf.X ∧
      (rf.AppendEntries cfg args).1.currentTerm = args.term := by
  rcases (appendOutcome cfg rf args).followed with ⟨-, hr⟩ | ⟨-, hf⟩
  · rw [hr] at hs
    cases hs
  · exact ⟨hf.X, hf.currentTerm⟩

include h ha

lemma Indexed.merged : (rf.AppendEntries cfg args).1.Indexed := by
  obtain ⟨i, hw, hlog⟩ := exists_writesFrom h.pos hs
  obtain ⟨hX, -⟩ := merged_X_currentTerm hs
  have hlt := hw.prev_lt
  have hstart := hw.start_le
  have hle := hw.le_length
  constructor
  · rw [Slice.len, hlog, List.length_append, List.length_take]
    omega
  · intro q e he
    rw [hX]
    rw [hlog, hw.getElem?] at he
    split_ifs at he with hq
    · exact h.index q e he
    · rw [ha _ e he]
      omega

/-- What the merged log has at the index of an entry of the request. -/
lemma Indexed.merged_term_eq {x e : LogEntry Cmd}
    (hx : x ∈ (rf.AppendEntries cfg args).1.log.elems) (he : e ∈ args.entries)
    (hX : rf.X < x.index) (hidx : e.index = x.index) : x.term = e.term := by
  obtain ⟨i, hw, hlog⟩ := exists_writesFrom h.pos hs
  obtain ⟨hX', -⟩ := merged_X_currentTerm hs
  obtain ⟨y, hy, -, hterm⟩ := hw.exists_getElem? h ha he (by omega)
  obtain ⟨q, hq⟩ := List.getElem?_of_mem hx
  have hxq := (h.merged ha hs).index q x hq
  rw [← hlog, show e.index - rf.X = q by omega] at hy
  cases hq.symm.trans hy
  exact hterm

/-- Handling the request again finds nothing to do. -/
lemma Indexed.merged_again (hp : rf.PrevMatches args) :
    ((rf.AppendEntries cfg args).1.AppendEntries cfg args).1.log.elems =
      (rf.AppendEntries cfg args).1.log.elems := by
  have h' := h.merged ha hs
  obtain ⟨hX, hterm⟩ := merged_X_currentTerm hs
  obtain ⟨i, hw, hlog⟩ := exists_writesFrom h.pos hs
  have hlt := hw.prev_lt
  have hp' : (rf.AppendEntries cfg args).1.PrevMatches args := by
    rcases Nat.lt_or_ge rf.X args.prevLogIndex with hXp | hXp
    · rw [PrevMatches, or_iff_right (not_le.mpr hXp), h.exists_mem_iff (Nat.le_of_lt hXp)] at hp
      refine .inr ((h'.exists_mem_iff (hX ▸ Nat.le_of_lt hXp)).mpr ?_)
      rwa [hX, hlog, hw.getElem?, if_pos (by omega)]
    · exact .inl (hX.symm ▸ hXp)
  have hs' := (h'.success_iff cfg args).mpr ⟨Nat.le_of_eq hterm, .inl hp'⟩
  obtain ⟨i', hw', hlog'⟩ := exists_writesFrom h'.pos hs'
  have hend := hw'.eq_length h' ha fun x hx e he hxX hidx =>
    h.merged_term_eq ha hs hx he (hX ▸ hxX) hidx
  have hlen : args.entries.length ≤
      (rf.AppendEntries cfg args).1.X + i' - (args.prevLogIndex + 1) := by
    have hle := hw.le_length
    rw [hend, hX, hlog, List.length_append, List.length_take, List.length_drop]
    omega
  rw [hlog', hend, List.take_length, ← hend, List.drop_eq_nil_of_le hlen, List.append_nil]

end Merged

/-- The merge is exact and loses nothing: for every log whose entries have the indices of their
positions behind any offset `X`, and every request with consecutive indices whose term is not out of
date and whose previous entry is compacted or in the log with the right term, what is at or below
the previous entry is untouched, the old log is a prefix of the new one if no entry above `X`
conflicts with the request, and else is kept below the first conflict and continued with the
request; every entry of the request above `X` is there with its term, and handling the request again
changes nothing. -/
theorem appendEntries_merge_exact (h : rf.Indexed) (ha : args.Consecutive)
    (hterm : rf.currentTerm ≤ args.term) (hp : rf.PrevMatches args) (cfg : Config) :
    (rf.AppendEntries cfg args).1.log.elems.take (args.prevLogIndex + 1 - rf.X) =
        rf.log.elems.take (args.prevLogIndex + 1 - rf.X) ∧
      ((∀ x ∈ rf.log.elems, ∀ e ∈ args.entries, rf.X < x.index → e.index = x.index →
          x.term = e.term) →
        rf.log.elems <+: (rf.AppendEntries cfg args).1.log.elems) ∧
      (∀ k, rf.FirstConflict args k →
        (rf.AppendEntries cfg args).1.log.elems =
          rf.log.elems.take (k - rf.X) ++ args.entries.drop (k - (args.prevLogIndex + 1))) ∧
      (∀ e ∈ args.entries, rf.X < e.index →
        ∃ x ∈ (rf.AppendEntries cfg args).1.log.elems, x.index = e.index ∧ x.term = e.term) ∧
      ((rf.AppendEntries cfg args).1.AppendEntries cfg args).1.log.elems =
        (rf.AppendEntries cfg args).1.log.elems := by
  have hs := (h.success_iff cfg args).mpr ⟨hterm, .inl hp⟩
  obtain ⟨i, hw, hlog⟩ := exists_writesFrom h.pos hs
  refine ⟨?_, ?_, ?_, ?_, h.merged_again ha hs hp⟩
  · have hlt := hw.prev_lt
    have hle := hw.le_length
    rw [hlog, List.take_append_of_le_length (by simp; omega), List.take_take,
      min_eq_left (by omega)]
  · intro hagree
    rw [hlog, hw.eq_length h ha hagree, List.take_length]
    exact List.prefix_append _ _
  · intro k hk
    rw [hlog, ← hw.eq_of_firstConflict h ha hk, Nat.add_sub_cancel_left]
  · intro e he hX
    obtain ⟨x, hx, hidx, hxe⟩ := hw.exists_getElem? h ha he hX
    exact ⟨x, hlog ▸ List.mem_of_getElem? hx, hidx, hxe⟩

/-- A request that begins in the compacted part, agrees with the log at index 6 and conflicts with
it at index 7. -/
theorem appendEntries_merge_exact_compacted :
    (compactedPeer.AppendEntries (.doubling 3)
      ⟨4, 0, 4, 1, [⟨2, 5, some 15⟩, ⟨2, 6, some 16⟩, ⟨4, 7, some 27⟩], 5⟩).1.log.elems =
        compactedPeer.log.elems.take 2 ++ [⟨4, 7, some 27⟩] := by
  refine (appendEntries_merge_exact compactedPeer_indexed ?_ (by decide) (.inl (by decide))
    (.doubling 3)).2.2.1 7 ⟨by decide, ?_, by decide⟩
  · intro j e he
    match j, he with
    | 0, he => cases he; rfl
    | 1, he => cases he; rfl
    | 2, he => cases he; rfl
  · exact ⟨⟨3, 7, some 17⟩, by decide, ⟨4, 7, some 27⟩, by decide, rfl, rfl, by decide⟩

end Raft

end DistLabs
