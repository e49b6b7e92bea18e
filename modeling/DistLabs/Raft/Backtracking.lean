import DistLabs.Raft.Acceptance
import DistLabs.Raft.Safety
import DistLabs.Raft.TermSearch

/-!
# Backtracking

A goroutine of `appendEntries` looks for the place from which the log of a peer departs from its
own: it sends what is behind `start`, and if the peer rejects the request it tries again from a
smaller `start`. Where it goes back to depends on the reply. If the log of the peer is too short it
goes to the end of it, if the leader does not know the term of the peer it goes to the beginning of
that term in the log of the peer, and else to the end of that term in its own log.

That this comes to an end rests on where the entries come from: all the entries of a term were
written by the leader of that term, behind what it had in its log.
-/

namespace DistLabs

variable {Cmd : Type*}

/-- The logs of the leaders of all terms. A leader has no entries of later terms. -/
structure Histories (Cmd : Type*) where
  log : ℕ → List (LogEntry Cmd)
  term_le : ∀ t, ∀ e ∈ log t, e.term ≤ t

namespace Histories

variable {H : Histories Cmd} {l l' : List (LogEntry Cmd)}

/-- A log that has an entry is the log of the leader of its term up to there. -/
def Agrees (H : Histories Cmd) (l : List (LogEntry Cmd)) : Prop :=
  ∀ (i : ℕ) (e : LogEntry Cmd), l[i]? = some e → l.take (i + 1) = (H.log e.term).take (i + 1)

lemma Agrees.termsSorted (h : H.Agrees l) : Raft.TermsSorted l := by
  refine List.pairwise_iff_getElem.mpr fun i j hi hj hij => ?_
  have htake := h j l[j] (List.getElem?_eq_getElem hj)
  refine H.term_le _ _ (List.mem_of_mem_take (i := j + 1) ?_)
  rw [← htake]
  exact List.mem_take_iff_getElem.mpr ⟨i, by omega, rfl⟩

lemma Agrees.of_take (h : H.Agrees l) {k : ℕ} : H.Agrees (l.take k) := by
  intro i e he
  have hi : i < k := by
    have := (List.getElem?_eq_some_iff.mp he).1
    simp only [List.length_take] at this
    omega
  rw [List.getElem?_take_of_lt hi] at he
  rw [List.take_take, Nat.min_eq_left hi, h i e he]

/-- Two logs that have entries of one term agree up to the first of them. -/
lemma Agrees.take_eq (h : H.Agrees l) (h' : H.Agrees l') {i j : ℕ} {x y : LogEntry Cmd}
    (hx : l[i]? = some x) (hy : l'[j]? = some y) (hterm : x.term = y.term) (hij : i ≤ j) :
    l.take (i + 1) = l'.take (i + 1) := by
  calc l.take (i + 1)
      _ = (H.log y.term).take (i + 1) := by rw [h i x hx, hterm]
      _ = ((H.log y.term).take (j + 1)).take (i + 1) := by
        rw [List.take_take, Nat.min_eq_left (by omega)]
      _ = l'.take (i + 1) := by
        rw [← h' j y hy, List.take_take, Nat.min_eq_left (by omega)]

end Histories

namespace Raft

variable {cfg : Config} {rf ldr flw : Raft Cmd} {args : AppendEntriesArgs Cmd} {H : Histories Cmd}
  {p prev end_ leaderCommit : ℕ}

/-! ### The loop -/

/-- One round of the loop, in which the call comes back and nothing else happens meanwhile. It has
no result if an index is out of range. -/
def peerRound (cfg : Config) (p term leaderCommit end_ : ℕ) (ldr flw : Raft Cmd) (start : ℕ) :
    Option (Raft Cmd × Raft Cmd × Verdict) :=
  match ldr.nextIndex[p]? with
  | none => none
  | some next =>
    if ldr.givesUp start next end_ then some (ldr, flw, .report false)
    else
      match ldr.appendRequest term leaderCommit start end_ with
      | none => none
      | some args =>
        match ldr.handleAppendReply p term end_ args (flw.AppendEntries cfg args).2 with
        | none => none
        | some (ldr', verdict) => some (ldr', (flw.AppendEntries cfg args).1, verdict)

/-- What the loop leaves behind, with the values of `start` it has tried. -/
structure PeerResult (Cmd : Type*) where
  starts : List ℕ
  leader : Raft Cmd
  follower : Raft Cmd
  /-- What goes to `commitChan`. -/
  verdict : Bool

/-- The loop. It has no result if an index is out of range or the rounds do not suffice. -/
def peerLoop (cfg : Config) (p term leaderCommit end_ : ℕ) :
    ℕ → Raft Cmd → Raft Cmd → ℕ → Option (PeerResult Cmd)
  | 0, _, _, _ => none
  | rounds + 1, ldr, flw, start =>
    match peerRound cfg p term leaderCommit end_ ldr flw start with
    | none => none
    | some (ldr', flw', .report b) => some ⟨[start], ldr', flw', b⟩
    | some (ldr', flw', .retry start') =>
      (peerLoop cfg p term leaderCommit end_ rounds ldr' flw' start').map fun r =>
        { r with starts := start :: r.starts }

/-! ### The two logs -/

/-- The leader, with an entry of its own term at the end of its log. -/
structure Leads (H : Histories Cmd) (ldr : Raft Cmd) : Prop where
  whole : ldr.Whole
  agrees : H.Agrees ldr.log.elems
  state : ldr.state = .leader
  live : ldr.killed = false
  last : ∃ e ∈ ldr.log.elems.getLast?, e.term = ldr.currentTerm

/-- A peer that is not ahead of a leader of term `T`. -/
structure Trails (H : Histories Cmd) (T : ℕ) (flw : Raft Cmd) : Prop where
  whole : flw.Whole
  agrees : H.Agrees flw.log.elems
  term_le : ∀ e ∈ flw.log.elems, e.term ≤ T
  currentTerm_le : flw.currentTerm ≤ T

/-- The two logs begin alike. -/
lemma Leads.getElem?_zero (hl : Leads H ldr) {T : ℕ} (hf : Trails H T flw) :
    ldr.log.elems[0]? = flw.log.elems[0]? := by
  obtain ⟨x, hx⟩ : ∃ x, ldr.log.elems[0]? = some x :=
    ⟨_, List.getElem?_eq_getElem hl.whole.indexed.pos⟩
  obtain ⟨y, hy⟩ : ∃ y, flw.log.elems[0]? = some y :=
    ⟨_, List.getElem?_eq_getElem hf.whole.indexed.pos⟩
  have hterm : x.term = y.term := by
    have := hl.whole.term_pos_iff 0 x hx
    have := hf.whole.term_pos_iff 0 y hy
    omega
  have hget := congrArg (fun l => l[0]?) (hl.agrees.take_eq hf.agrees hx hy hterm le_rfl)
  simpa only [List.getElem?_take_of_lt Nat.one_pos] using hget

lemma Trails.becomeFollower (h : Trails H args.term flw) :
    Trails H args.term (flw.becomeFollower args.term (some args.leaderId)) := by
  obtain ⟨⟨hX, ⟨hpos, hidx⟩, hterm⟩, hag, hle, -⟩ := h
  refine ⟨⟨?_, ⟨?_, ?_⟩, ?_⟩, ?_, ?_, ?_⟩
  case refine_7 => simp [Raft.becomeFollower]
  all_goals simpa [Raft.becomeFollower]

/-! ### The answer of the peer -/

/-- The reply with which the check goes on. -/
def PrevCheck.reply : PrevCheck Cmd → AppendEntriesReply
  | .reject reply => reply
  | .merge reply _ _ => reply

lemma checkPrev_reply_term (rf : Raft Cmd) (args : AppendEntriesArgs Cmd)
    (reply : AppendEntriesReply) : (rf.checkPrev args reply).reply.term = reply.term := by
  simp only [checkPrev]
  split_ifs
  · rfl
  · split <;> rfl
  · rfl
  · rfl
  · rfl

lemma appendEntries_reply_term (cfg : Config) (rf : Raft Cmd) (args : AppendEntriesArgs Cmd) :
    (rf.AppendEntries cfg args).2.term = rf.currentTerm := by
  simp only [AppendEntries]
  split_ifs with hlt
  · rfl
  all_goals
    have hterm := (rf.becomeFollower args.term (some args.leaderId)).checkPrev_reply_term args
      { term := rf.currentTerm
        xLen := (rf.becomeFollower args.term (some args.leaderId)).log.len +
          (rf.becomeFollower args.term (some args.leaderId)).X }
    split <;> rename_i hc <;> rw [hc] at hterm <;> exact hterm

/-- A rejection of a request with previous entry `prev`: the log ends before it, or has an entry of
another term there, and the reply names that term and an index of it. -/
structure Rejects (flw : Raft Cmd) (prev prevTerm : ℕ) (reply : AppendEntriesReply) : Prop where
  success : reply.success = false
  xLen : reply.xLen = flw.log.len
  mismatch : flw.log.len ≤ prev ∨
    ∃ y, flw.log.elems[prev]? = some y ∧ y.term ≠ prevTerm ∧ reply.xTerm = y.term ∧
      0 < reply.xIndex ∧ reply.xIndex ≤ prev

lemma Whole.rejects (h : flw.Whole) (hterm : flw.currentTerm ≤ args.term)
    (hfail : (flw.AppendEntries cfg args).2.success = false) :
    (flw.AppendEntries cfg args).1 = flw.becomeFollower args.term (some args.leaderId) ∧
      Rejects flw args.prevLogIndex args.prevLogTerm (flw.AppendEntries cfg args).2 := by
  simp only [AppendEntries, if_neg (Nat.not_lt.mpr hterm), checkPrev_becomeFollower] at hfail ⊢
  split at hfail
  · rename_i reply hc
    simp only [true_and]
    have hsub : flw.logIndex2sliceIndex args.prevLogIndex = args.prevLogIndex := by
      simp [logIndex2sliceIndex, h.X]
    rcases checkPrev_eq_reject hc with ⟨rfl, hlen⟩ | ⟨prev, x, xIndex, hprev, hx, hne, hscan, rfl⟩
    · refine ⟨rfl, by simp [becomeFollower, h.X], .inl ?_⟩
      omega
    · obtain rfl : args.prevLogIndex = prev := by omega
      refine ⟨rfl, by simp [becomeFollower, h.X], .inr ⟨x, hx, hne, rfl, ?_⟩⟩
      simpa [h.X] using
        h.indexed.xIndex_of_scanConflict hscan (List.getElem?_eq_some_iff.mp hx).1
  · split_ifs at hfail

/-! ### A round -/

lemma Whole.appendRequest (h : ldr.Whole) {x : LogEntry Cmd} (hx : ldr.log.elems[prev]? = some x)
    (hse : prev + 1 ≤ end_) (hend : end_ < ldr.log.len) (term leaderCommit : ℕ) :
    ldr.appendRequest term leaderCommit (prev + 1) end_ =
      some ⟨term, ldr.me, prev, x.term, (ldr.log.elems.take (end_ + 1)).drop (prev + 1),
        leaderCommit⟩ := by
  have hidx := h.indexed.index prev x hx
  rw [h.X, Nat.zero_add] at hidx
  rw [appendRequest_of_lt (by simpa [h.X] using hx) (by simp [h.X]) hse
    (by simpa [logIndex2sliceIndex, h.X] using hend), h.X, hidx]
  rfl

/-- The leader goes back, and not below index 1. -/
lemma Leads.retries (p end_ : ℕ) (hl : Leads H ldr) (hf : Trails H ldr.currentTerm flw)
    {x : LogEntry Cmd} (hx : ldr.log.elems[prev]? = some x) (hend : prev < ldr.log.len - 1)
    {reply : AppendEntriesReply} (hr : Rejects flw prev x.term reply)
    (hterm : reply.term ≤ ldr.currentTerm) (hprev : args.prevLogIndex = prev) (hpos : 0 < prev) :
    ∃ start, ldr.handleAppendReply p ldr.currentTerm end_ args reply = some (ldr, .retry start) ∧
      0 < start ∧ start ≤ prev := by
  have hlen := hf.whole.indexed.pos
  simp only [handleAppendReply, ne_eq, not_true_eq_false, if_false, Nat.not_lt.mpr hterm,
    hr.success, Bool.false_eq_true, hr.xLen, hprev]
  rcases hr.mismatch with hshort | ⟨y, hy, hne, hxTerm, hxpos, hxle⟩
  · rw [if_pos (by omega)]
    exact ⟨flw.log.len, rfl, hlen, hshort⟩
  · have hlt := (List.getElem?_eq_some_iff.mp hy).1
    have hypos := (hf.whole.term_pos_iff prev y hy).mpr hpos
    rw [if_neg (by unfold Slice.len; omega), hxTerm]
    have hout : ContainTerm ldr.log.elems y.term (isContainTerm ldr.log.elems y.term) :=
      containTerm_isContainTerm hl.agrees.termsSorted
    generalize isContainTerm ldr.log.elems y.term = r at hout ⊢
    cases hout with
    | @found left index hleft hscan =>
      -- the entries of the term end before `prev`, or the two logs would agree there
      have hlp : left < prev := by
        obtain ⟨e, he, heq⟩ := hleft
        by_contra hge
        have htake := hf.agrees.take_eq hl.agrees hy he heq.symm (not_lt.mp hge)
        have hget := congrArg (fun l => l[prev]?) htake
        simp only [List.getElem?_take_of_lt (Nat.lt_succ_self prev), hy, hx] at hget
        cases hget
        exact hne rfl
      have hnot : prev ∉ positions ldr.log.elems y.term := by
        rintro ⟨e, he, heq⟩
        cases hx.symm.trans he
        exact hne heq.symm
      obtain ⟨hlt', z, hget, hzterm⟩ := hscan.lt hlp.le (by unfold Slice.len at hend; omega) hnot
      have hzpos := (hl.whole.term_pos_iff index z hget).mp (by omega)
      simp only [hl.whole.X, Nat.zero_add]
      exact ⟨index, rfl, hzpos, hlt'.le⟩
    | missing => exact ⟨reply.xIndex, rfl, hxpos, hxle⟩
    | behind hold =>
      -- the last entry has the leader's term
      obtain ⟨e, he, heq⟩ := hl.last
      have hold := hold e (List.mem_of_getLast? (Option.mem_def.mp he))
      have hle := hf.term_le y (List.mem_of_getElem? hy)
      omega

/-- Once a request is accepted, the peer has the log of the leader as far as it was sent. -/
lemma Leads.take_eq_of_success (hl : Leads H ldr) (hf : Trails H ldr.currentTerm flw)
    {x : LogEntry Cmd} (hx : ldr.log.elems[prev]? = some x) (hse : prev + 1 ≤ end_)
    (hend : end_ < ldr.log.len) (hprev : args.prevLogIndex = prev)
    (hprevTerm : args.prevLogTerm = x.term)
    (hentries : args.entries = (ldr.log.elems.take (end_ + 1)).drop (prev + 1))
    (hs : (flw.AppendEntries cfg args).2.success = true) :
    (flw.AppendEntries cfg args).1.log.elems.take (end_ + 1) =
      ldr.log.elems.take (end_ + 1) := by
  rcases hf.whole.appendEntries cfg args with ⟨hfail, -⟩ | ⟨-, -, i, hfit, hlog, -⟩
  · cases hfail.symm.trans hs
  have hlen : (ldr.log.elems.take (end_ + 1)).length = end_ + 1 := List.length_take_of_le hend
  have hidx := hl.whole.indexed.index prev x hx
  rw [hl.whole.X, Nat.zero_add] at hidx
  have hslice : args.SliceOf (ldr.log.elems.take (end_ + 1)) := by
    refine ⟨?_, ⟨x, ?_, hidx.trans hprev.symm, hprevTerm.symm⟩, hprev ▸ hentries⟩
    · rw [hentries, List.length_drop, hlen]
      omega
    · rw [hprev, List.getElem?_take_of_lt (by omega), hx]
  have hag : H.Agrees (ldr.log.elems.take (end_ + 1)) := hl.agrees.of_take
  have h0 : (ldr.log.elems.take (end_ + 1))[0]? = flw.log.elems[0]? := by
    rw [List.getElem?_take_of_lt (Nat.succ_pos _)]
    exact hl.getElem?_zero hf
  have hmatch : ∀ j T, Has LogEntry.term flw.log.elems j T →
      Has LogEntry.term (ldr.log.elems.take (end_ + 1)) j T →
        flw.log.elems.take (j + 1) = (ldr.log.elems.take (end_ + 1)).take (j + 1) := by
    rintro j T ⟨y, hy, rfl⟩ ⟨z, hz, hterm⟩
    exact hf.agrees.take_eq hag hy hz hterm.symm le_rfl
  rw [hlog, Slice.elems_append, Slice.elems_upto]
  rcases hfit.merge hslice h0 hmatch with ⟨hp, heq⟩ | ⟨heq, -⟩
  · have htake := List.prefix_iff_eq_take.mp hp
    rw [hlen] at htake
    rw [heq, ← htake]
  · rw [heq, List.take_take, Nat.min_self]

/-- A round makes the peer's log equal to the leader's as far as it is sent, or goes back. -/
lemma Leads.round (hl : Leads H ldr) (hf : Trails H ldr.currentTerm flw)
    (hnext : ∃ next ≤ end_, ldr.nextIndex[p]? = some next) (hse : prev + 1 ≤ end_)
    (hend : end_ < ldr.log.len) (cfg : Config) (leaderCommit : ℕ) :
    (∃ ldr' flw', peerRound cfg p ldr.currentTerm leaderCommit end_ ldr flw (prev + 1) =
        some (ldr', flw', .report true) ∧
        flw'.log.elems.take (end_ + 1) = ldr.log.elems.take (end_ + 1)) ∨
      ∃ flw' start, peerRound cfg p ldr.currentTerm leaderCommit end_ ldr flw (prev + 1) =
        some (ldr, flw', .retry start) ∧ 0 < start ∧ start ≤ prev ∧
        Trails H ldr.currentTerm flw' := by
  obtain ⟨next, hle, hnext⟩ := hnext
  obtain ⟨x, hx⟩ : ∃ x, ldr.log.elems[prev]? = some x := by
    refine ⟨_, List.getElem?_eq_getElem ?_⟩
    unfold Slice.len at hend
    omega
  have hgo : ¬ldr.givesUp (prev + 1) next end_ := by
    simp only [givesUp, hl.state, hl.whole.X, hl.live]
    simp
    omega
  have hreq := hl.whole.appendRequest hx hse hend ldr.currentTerm leaderCommit
  simp only [peerRound, hnext, if_neg hgo, hreq]
  generalize hargs : (⟨ldr.currentTerm, ldr.me, prev, x.term,
    (ldr.log.elems.take (end_ + 1)).drop (prev + 1), leaderCommit⟩ : AppendEntriesArgs Cmd) = args
  have hreply : (flw.AppendEntries cfg args).2.term ≤ ldr.currentTerm := by
    rw [appendEntries_reply_term]
    exact hf.currentTerm_le
  have hargsTerm : args.term = ldr.currentTerm := by rw [← hargs]
  have hprev : args.prevLogIndex = prev := by rw [← hargs]
  have hprevTerm : args.prevLogTerm = x.term := by rw [← hargs]
  cases hs : (flw.AppendEntries cfg args).2.success with
  | true =>
    have hverdict : ldr.handleAppendReply p ldr.currentTerm end_ args
        (flw.AppendEntries cfg args).2 = some (ldr.advanceNext p end_, .report true) := by
      simp [handleAppendReply, Nat.not_lt.mpr hreply, hs]
    left
    rw [hverdict]
    exact ⟨_, _, rfl, hl.take_eq_of_success hf hx hse hend hprev hprevTerm (by rw [← hargs]) hs⟩
  | false =>
    obtain ⟨hfol, hrej⟩ := hf.whole.rejects (hargsTerm ▸ hf.currentTerm_le) hs
    have hpos : 0 < prev := by
      -- index 0 is never rejected
      by_contra h0
      have hacc := (hf.whole.indexed.success_iff cfg args).mpr
        ⟨hargsTerm ▸ hf.currentTerm_le, .inl (.inl (by omega))⟩
      rw [hs] at hacc
      cases hacc
    rw [hprev, hprevTerm] at hrej
    obtain ⟨start, hretry, hspos, hsle⟩ := hl.retries p end_ hf hx (by omega) hrej hreply
      hprev hpos
    right
    rw [hretry, hfol]
    have hf' : Trails H args.term flw := hargsTerm ▸ hf
    exact ⟨_, start, rfl, hspos, hsle, hargsTerm ▸ hf'.becomeFollower⟩

/-! ### All rounds -/

lemma Leads.loop (hl : Leads H ldr) (hnext : ∃ next ≤ end_, ldr.nextIndex[p]? = some next)
    (hend : end_ < ldr.log.len) (cfg : Config) (leaderCommit : ℕ) (start : ℕ)
    (hf : Trails H ldr.currentTerm flw) (hstart : 0 < start) (hse : start ≤ end_) :
    ∃ result : PeerResult Cmd,
      (∀ rounds ≥ start, peerLoop cfg p ldr.currentTerm leaderCommit end_ rounds ldr flw start =
        some result) ∧
      (∀ s ∈ result.starts, 0 < s ∧ s ≤ start) ∧ result.starts.Pairwise (· > ·) ∧
      result.verdict = true ∧
      result.follower.log.elems.take (end_ + 1) = ldr.log.elems.take (end_ + 1) := by
  -- every rejection leaves a smaller `start` and a peer that still trails the leader
  induction start using Nat.strong_induction_on generalizing flw with
  | _ start ih =>
    obtain ⟨prev, rfl⟩ := Nat.exists_eq_succ_of_ne_zero (Nat.ne_of_gt hstart)
    rcases hl.round hf hnext hse hend cfg leaderCommit with
      ⟨ldr', flw', hround, htake⟩ | ⟨flw', start', hround, hpos, hle, hf'⟩
    · refine ⟨⟨[prev + 1], ldr', flw', true⟩, fun rounds hr => ?_, ?_, ?_, rfl, htake⟩
      · obtain ⟨r, rfl⟩ := Nat.exists_eq_succ_of_ne_zero (show rounds ≠ 0 by omega)
        simp only [Nat.succ_eq_add_one, peerLoop, hround]
      · simp
      · exact List.pairwise_singleton _ _
    · obtain ⟨result, hloop, hstarts, hsorted, hverdict, htake⟩ :=
        ih start' (by omega) hf' hpos (by omega)
      refine ⟨{ result with starts := (prev + 1) :: result.starts }, fun rounds hr => ?_, ?_, ?_,
        hverdict, htake⟩
      · obtain ⟨r, rfl⟩ := Nat.exists_eq_succ_of_ne_zero (show rounds ≠ 0 by omega)
        simp only [Nat.succ_eq_add_one, peerLoop, hround, hloop r (by omega), Option.map_some]
      · intro s hs
        rcases List.mem_cons.mp hs with rfl | hs
        · exact ⟨hstart, le_rfl⟩
        · have := hstarts s hs
          omega
      · refine List.pairwise_cons.mpr ⟨fun s hs => ?_, hsorted⟩
        have := (hstarts s hs).2
        omega

/-- Backtracking converges: for every leader with an entry of its term at the end of its log and
every follower that is not ahead of that term, with logs that are not compacted and agree with the
histories of their terms, the loop that begins at any `start` from 1 to `end` comes to an end within
`start` rounds without an index out of range. It tries smaller and smaller values of `start`, none
of them at or below `X`, and ends with success, when the follower has the log of the leader from 0
to `end`. -/
theorem backtracking_converges (hl : Leads H ldr) (hf : Trails H ldr.currentTerm flw)
    (hnext : ∃ next ≤ end_, ldr.nextIndex[p]? = some next) {start : ℕ} (hstart : 0 < start)
    (hse : start ≤ end_) (hend : end_ < ldr.log.len) (cfg : Config) (leaderCommit : ℕ) :
    ∃ result : PeerResult Cmd,
      (∀ rounds ≥ start, peerLoop cfg p ldr.currentTerm leaderCommit end_ rounds ldr flw start =
        some result) ∧
      result.starts.Pairwise (· > ·) ∧ (∀ s ∈ result.starts, ldr.X < s) ∧
      result.verdict = true ∧
      result.follower.log.elems.take (end_ + 1) = ldr.log.elems.take (end_ + 1) := by
  obtain ⟨result, hloop, hstarts, hsorted, hverdict, htake⟩ :=
    hl.loop hnext hend cfg leaderCommit start hf hstart hse
  refine ⟨result, hloop, hsorted, fun s hs => ?_, hverdict, htake⟩
  rw [hl.whole.X]
  exact (hstarts s hs).1

/-- The leaders of the terms 1 to 4. Leader 2 went on from what leader 1 had written, leader 3 from
a log in which the last of it was missing. -/
def fourTerms : Histories ℕ where
  log
    | 0 => [sentinel]
    | 1 => [sentinel, ⟨1, 1, some 11⟩, ⟨1, 2, some 12⟩, ⟨1, 3, some 13⟩]
    | 2 => [sentinel, ⟨1, 1, some 11⟩, ⟨1, 2, some 12⟩, ⟨1, 3, some 13⟩, ⟨2, 4, some 24⟩]
    | 3 => [sentinel, ⟨1, 1, some 11⟩, ⟨1, 2, some 12⟩, ⟨3, 3, some 33⟩, ⟨3, 4, some 34⟩]
    | 4 => [sentinel, ⟨1, 1, some 11⟩, ⟨1, 2, some 12⟩, ⟨3, 3, some 33⟩, ⟨3, 4, some 34⟩,
        ⟨4, 5, some 45⟩, ⟨4, 6, some 46⟩]
    | _ => []
  term_le
    | 0 => by decide
    | 1 => by decide
    | 2 => by decide
    | 3 => by decide
    | 4 => by decide
    | _ + 5 => by simp

def leaderFour : Raft ℕ :=
  { Raft.Make 0 .empty with
    currentTerm := 4
    state := .leader
    log := .ofList (fourTerms.log 4)
    nextIndex := [7, 6, 7] }

def followerTwo : Raft ℕ :=
  { Raft.Make 1 .empty with currentTerm := 2, log := .ofList (fourTerms.log 2) }

lemma forall_getElem? {l : List (LogEntry Cmd)} {P : ℕ → LogEntry Cmd → Prop}
    (h : ∀ i < l.length, ∀ e ∈ l[i]?, P i e) (i : ℕ) (e : LogEntry Cmd) (he : l[i]? = some e) :
    P i e :=
  h i (List.getElem?_eq_some_iff.mp he).1 e he

lemma leaderFour_leads : Leads fourTerms leaderFour where
  whole := ⟨rfl, ⟨by decide, forall_getElem? (by decide)⟩, forall_getElem? (by decide)⟩
  agrees := forall_getElem? (by decide)
  state := rfl
  live := rfl
  last := ⟨⟨4, 6, some 46⟩, rfl, rfl⟩

lemma followerTwo_trails : Trails fourTerms 4 followerTwo where
  whole := ⟨rfl, ⟨by decide, forall_getElem? (by decide)⟩, forall_getElem? (by decide)⟩
  agrees := forall_getElem? (by decide)
  term_le := by decide
  currentTerm_le := by decide

/-- Leader 4 brings a follower up to date that has the log of leader 2. -/
theorem backtracking_converges_fourTerms :
    ∃ result : PeerResult ℕ,
      peerLoop (.doubling 3) 1 4 0 6 6 leaderFour followerTwo 6 = some result ∧
      result.starts.Pairwise (· > ·) ∧ result.verdict = true ∧
      result.follower.log.elems.take 7 = leaderFour.log.elems.take 7 := by
  obtain ⟨result, hloop, hsorted, -, hverdict, htake⟩ :=
    backtracking_converges leaderFour_leads followerTwo_trails (p := 1) ⟨6, le_rfl, rfl⟩
      (show 0 < 6 by decide) le_rfl (by decide) (.doubling 3) 0
  exact ⟨result, hloop 6 le_rfl, hsorted, hverdict, htake⟩

/-- The follower's log is too short, then has a term the leader does not know, then one it knows. -/
example : (peerLoop (.doubling 3) 1 4 0 6 6 leaderFour followerTwo 6).map PeerResult.starts =
    some [6, 5, 4, 2] := by
  decide

end Raft

/-! ### The loop in the cluster -/

section Cluster

open Raft (peerRound peerLoop)

lemma Raft.handleAppendReply_dead {rf rf' : Raft Cmd} {p term end_ : ℕ}
    {args : AppendEntriesArgs Cmd} {reply : AppendEntriesReply} {v : Verdict}
    (h : rf.handleAppendReply p term end_ args reply = some (rf', v)) : rf'.dead = rf.dead := by
  rcases handleAppendReply_rf h with rfl | ⟨-, rfl⟩ | ⟨-, rfl⟩
  · rfl
  · simp [becomeFollower]
  · obtain ⟨next, matched, heq⟩ := rf.advanceNext_eq p end_
    rw [heq]

lemma Poll.exists_move {n : ℕ} {ℓ : Type*} {P : Poll n ℓ} {p : ℕ} (ph : Phase ℓ)
    (hrun : (P.phase p).running = true) (hph : ph.counted = false) :
    ∃ P', P.move p ph = some P' ∧ P'.phase p = ph := by
  refine ⟨_, dif_pos ⟨hrun, hph⟩, ?_⟩
  simp

/-- Where the goroutine of peer `s` for peer `p` stands in one `appendEntries`, with the states of
the two peers. -/
structure Cluster.AtPeer {n : ℕ} (C : Cluster n Cmd) (s b p term leaderCommit end_ : ℕ)
    (ldr flw : Raft Cmd) (ph : Phase (Option ℕ)) : Prop where
  sender_up : C.Up s
  peer_up : C.Up p
  sender : (C.servers s).rf = ldr
  peer : (C.servers p).rf = flw
  goroutine : ∃ bc, (C.servers s).broadcasts[b]? = some bc ∧ bc.term = term ∧
    bc.leaderCommit = leaderCommit ∧ bc.end_ = end_ ∧ bc.poll.phase p = ph

variable [Zero Cmd] {cfg : Config} {C : Cluster cfg.peers Cmd}
  {s b p term leaderCommit end_ start : ℕ} {ldr flw ldr' flw' : Raft Cmd}

namespace Cluster.AtPeer

omit [Zero Cmd] in
/-- A step of the goroutine changes its phase, and may change the state of its own peer and make a
call. -/
lemma perform (call : Option (AppendCall Cmd)) {ph ph' : Phase (Option ℕ)}
    (h : C.AtPeer s b p term leaderCommit end_ ldr flw ph) (hne : p ≠ s)
    (hdead : ldr'.dead = ldr.dead) {bc : Broadcast cfg.peers} {poll : Poll cfg.peers (Option ℕ)}
    (hbc : (C.servers s).broadcasts[b]? = some bc) (hpoll : poll.phase p = ph') :
    (C.perform s
      { server :=
          { C.servers s with
            rf := ldr', broadcasts := (C.servers s).broadcasts.set b { bc with poll := poll } }
        appendCall := call }).AtPeer s b p bc.term bc.leaderCommit bc.end_ ldr' flw ph' := by
  have hb : b < (C.servers s).broadcasts.length := (List.getElem?_eq_some_iff.mp hbc).1
  obtain ⟨⟨hs, hlive⟩, hp, rfl, rfl, -⟩ := h
  refine ⟨⟨hs, ?_⟩, ?_, ?_, ?_, { bc with poll := poll }, ?_, rfl, rfl, rfl, hpoll⟩
  · simp [Cluster.perform, hdead, hlive]
  · simpa [Up, Cluster.perform, Function.update_of_ne hne] using hp
  · simp [Cluster.perform]
  · simp [Cluster.perform, Function.update_of_ne hne]
  · simp [Cluster.perform, hb]

lemma giveUp {next : ℕ} (h : C.AtPeer s b p term leaderCommit end_ ldr flw (.ready (some start)))
    (hne : p ≠ s) (hnext : ldr.nextIndex[p]? = some next) (hguard : ldr.givesUp start next end_) :
    ∃ C', (raft cfg).Steps C C' ∧
      C'.AtPeer s b p term leaderCommit end_ ldr flw (.sending false) := by
  have hat := h
  obtain ⟨hs, -, rfl, rfl, bc, hbc, rfl, rfl, rfl, hph⟩ := h
  obtain ⟨poll, hmove, hpoll⟩ :=
    Poll.exists_move (P := bc.poll) (p := p) (.sending false) (by rw [hph]; rfl) rfl
  refine ⟨_, .single (.act s (.peerCall b p)) ?_, hat.perform none hne rfl hbc hpoll⟩
  simp only [raft, Machine.ofStep, step, if_pos hs, Server.act, Server.peerCall, hbc, hph, hnext,
    if_pos hguard, hmove]

lemma call {next : ℕ} {args : AppendEntriesArgs Cmd}
    (h : C.AtPeer s b p term leaderCommit end_ ldr flw (.ready (some start))) (hne : p ≠ s)
    (hnext : ldr.nextIndex[p]? = some next) (hguard : ¬ldr.givesUp start next end_)
    (hargs : ldr.appendRequest term leaderCommit start end_ = some args) :
    ∃ C' k, (raft cfg).Steps C C' ∧
      C'.AtPeer s b p term leaderCommit end_ ldr flw (.calling (some start) k) ∧
      C'.appendCalls[k]? = some { src := ldr.me, dst := p, sender := ldr, args := args } := by
  have hat := h
  obtain ⟨hs, -, rfl, rfl, bc, hbc, rfl, rfl, rfl, hph⟩ := h
  obtain ⟨poll, hmove, hpoll⟩ := Poll.exists_move (P := bc.poll) (p := p)
    (.calling (some start) C.appendCalls.length) (by rw [hph]; rfl) rfl
  refine ⟨_, _, .single (.act s (.peerCall b p)) ?_, hat.perform
    (some { src := (C.servers s).rf.me, dst := p, sender := (C.servers s).rf, args := args })
    hne rfl hbc hpoll, ?_⟩
  · simp only [raft, Machine.ofStep, step, if_pos hs, Server.act, Server.peerCall, hbc, hph, hnext,
      if_neg hguard, hargs, hmove]
  · simp [Cluster.perform]

lemma handle {ph : Phase (Option ℕ)} {k : ℕ} {call : AppendCall Cmd}
    (h : C.AtPeer s b p term leaderCommit end_ ldr flw ph) (hne : p ≠ s)
    (hcall : C.appendCalls[k]? = some call) (hdst : call.dst = p) (hnew : call.reply = none) :
    ∃ C', (raft cfg).Steps C C' ∧
      C'.AtPeer s b p term leaderCommit end_ ldr (flw.AppendEntries cfg call.args).1 ph ∧
      C'.appendCalls[k]? =
        some { call with reply := some (flw.AppendEntries cfg call.args).2 } := by
  obtain ⟨hs, hp, rfl, rfl, hgo⟩ := h
  subst hdst
  have hk : k < C.appendCalls.length := (List.getElem?_eq_some_iff.mp hcall).1
  have hlive : ((C.servers call.dst).rf.AppendEntries cfg call.args).1.dead = false := by
    rcases (Raft.appendOutcome cfg (C.servers call.dst).rf call.args).followed with
      ⟨-, hr⟩ | ⟨-, hf⟩
    · rw [hr]
      exact hp.2
    · rw [hf.dead]
      exact hp.2
  refine ⟨{ C.setRf call.dst ((C.servers call.dst).rf.AppendEntries cfg call.args).1 with
      appendCalls := C.appendCalls.set k
        { call with reply := some ((C.servers call.dst).rf.AppendEntries cfg call.args).2 } },
    .single (.handleAppend k) ?_, ⟨?_, ?_, ?_, ?_, ?_⟩, ?_⟩
  · simp only [raft, Machine.ofStep, step, hcall, hnew, Option.isNone_none, and_true, if_pos hp]
  · simpa [Up, setRf, Function.update_of_ne hne.symm] using hs
  · exact ⟨hp.1, by simp [setRf, hlive]⟩
  · simp [setRf, Function.update_of_ne hne.symm]
  · simp [setRf]
  · simpa [setRf, Function.update_of_ne hne.symm] using hgo
  · simp [hk]

lemma returnCall {l : Option ℕ} {k : ℕ} {call : AppendCall Cmd} {reply : AppendEntriesReply}
    {v : Raft.Verdict} (h : C.AtPeer s b p term leaderCommit end_ ldr flw (.calling l k))
    (hne : p ≠ s) (hcall : C.appendCalls[k]? = some call) (hreply : call.reply = some reply)
    (hv : ldr.handleAppendReply p term end_ call.args reply = some (ldr', v)) :
    ∃ C', (raft cfg).Steps C C' ∧ C'.AtPeer s b p term leaderCommit end_ ldr' flw v.phase := by
  have hat := h
  obtain ⟨hs, -, rfl, rfl, bc, hbc, rfl, rfl, rfl, hph⟩ := h
  obtain ⟨poll, hmove, hpoll⟩ := Poll.exists_move (P := bc.poll) (p := p) v.phase
    (by rw [hph]; rfl) (by cases v <;> rfl)
  refine ⟨_, .single (.act s (.peerReturn b p)) ?_,
    hat.perform none hne (Raft.handleAppendReply_dead hv) hbc hpoll⟩
  simp only [raft, Machine.ofStep, step, if_pos hs, Server.act, Server.peerReturn, hbc, hph, hcall,
    hreply, hv, hmove]

/-- A round is a call, its handling by the peer and its return, with nothing in between. -/
lemma round {v : Raft.Verdict}
    (h : C.AtPeer s b p term leaderCommit end_ ldr flw (.ready (some start))) (hne : p ≠ s)
    (hround : peerRound cfg p term leaderCommit end_ ldr flw start = some (ldr', flw', v)) :
    ∃ C', (raft cfg).Steps C C' ∧ C'.AtPeer s b p term leaderCommit end_ ldr' flw' v.phase := by
  simp only [peerRound] at hround
  split at hround
  · cases hround
  rename_i next hnext
  split_ifs at hround with hguard
  · cases hround
    exact h.giveUp hne hnext hguard
  · split at hround
    · cases hround
    rename_i args hargs
    split at hround <;> cases hround
    rename_i hv
    obtain ⟨C₁, k, hsteps₁, hat₁, hcall₁⟩ := h.call hne hnext hguard hargs
    obtain ⟨C₂, hsteps₂, hat₂, hcall₂⟩ := hat₁.handle hne hcall₁ rfl rfl
    obtain ⟨C₃, hsteps₃, hat₃⟩ := hat₂.returnCall hne hcall₂ rfl hv
    exact ⟨C₃, (hsteps₁.trans hsteps₂).trans hsteps₃, hat₃⟩

/-- The loop is a behaviour of the cluster. -/
lemma loop {rounds : ℕ} {result : Raft.PeerResult Cmd}
    (h : C.AtPeer s b p term leaderCommit end_ ldr flw (.ready (some start))) (hne : p ≠ s)
    (hloop : peerLoop cfg p term leaderCommit end_ rounds ldr flw start = some result) :
    ∃ C', (raft cfg).Steps C C' ∧ C'.AtPeer s b p term leaderCommit end_ result.leader
      result.follower (.sending result.verdict) := by
  induction rounds generalizing C ldr flw start result with
  | zero => cases hloop
  | succ rounds ih =>
    simp only [peerLoop] at hloop
    split at hloop
    · cases hloop
    · rename_i hround
      cases hloop
      exact h.round hne hround
    · rename_i ldr' flw' start' hround
      obtain ⟨result', hloop', rfl⟩ := Option.map_eq_some_iff.mp hloop
      obtain ⟨C₁, hsteps₁, hat₁⟩ := h.round hne hround
      obtain ⟨C₂, hsteps₂, hat₂⟩ := ih hat₁ hloop'
      exact ⟨C₂, hsteps₁.trans hsteps₂, hat₂⟩

end Cluster.AtPeer

/-! ### The histories of a run -/

/-- The logs of the leaders on record. -/
def Histories.ofChronicle (R : Chronicle (LogEntry Cmd)) (h : Chronicle.Valid LogEntry.term R) :
    Histories Cmd where
  log t := (R t).elim [] Reign.log
  term_le t e he := by
    cases hr : R t with
    | none => simp [hr] at he
    | some r =>
      rw [hr] at he
      obtain ⟨i, hi⟩ := List.getElem?_of_mem he
      exact (h t r hr).le ⟨e, hi, rfl⟩

omit [Zero Cmd] in
lemma Histories.agrees_ofChronicle {R : Chronicle (LogEntry Cmd)}
    (h : Chronicle.Valid LogEntry.term R) {l : List (LogEntry Cmd)}
    (hl : Chronicle.Grounded LogEntry.term R l) : (ofChronicle R h).Agrees l := by
  intro i e he
  obtain ⟨r, hr, hp⟩ := hl i e.term ⟨e, he, rfl⟩
  have hlen : (l.take (i + 1)).length = i + 1 := by
    have := (List.getElem?_eq_some_iff.mp he).1
    simp only [List.length_take]
    omega
  have htake := List.prefix_iff_eq_take.mp hp
  rw [hlen] at htake
  simpa only [ofChronicle, hr, Option.elim_some] using htake

/-- In every state of a run the logs of the peers have a common history. -/
lemma raft_histories {past : List (Cluster cfg.peers Cmd)}
    (h : (raft cfg).Run SlicesWithinLog (C :: past)) :
    ∃ H : Histories Cmd, ∀ s, H.Agrees (C.servers s).rf.log.elems := by
  obtain ⟨t, hreach, hC⟩ := raft_replicates h
  refine ⟨.ofChronicle t.reign (ReplicatedLog.inv_of_reachable hreach).valid, fun s => ?_⟩
  exact Histories.agrees_ofChronicle _ (hC.grounded hreach (.inl ⟨s, rfl⟩))

/-- In every state of a run, a goroutine of a leader that has an entry of its own term can bring a
follower that is not ahead of that term up to its log, if nothing else happens meanwhile. -/
theorem raft_catches_up {past : List (Cluster cfg.peers Cmd)}
    (h : (raft cfg).Run SlicesWithinLog (C :: past))
    (hat : C.AtPeer s b p ldr.currentTerm leaderCommit end_ ldr flw (.ready (some start)))
    (hne : p ≠ s) (hstate : ldr.state = .leader)
    (hlast : ∃ e ∈ ldr.log.elems.getLast?, e.term = ldr.currentTerm)
    (hterm : flw.currentTerm ≤ ldr.currentTerm)
    (hle : ∀ e ∈ flw.log.elems, e.term ≤ ldr.currentTerm)
    (hnext : ∃ next ≤ end_, ldr.nextIndex[p]? = some next) (hstart : 0 < start) (hse : start ≤ end_)
    (hend : end_ < ldr.log.len) :
    ∃ C' ldr' flw', (raft cfg).Steps C C' ∧
      C'.AtPeer s b p ldr.currentTerm leaderCommit end_ ldr' flw' (.sending true) ∧
      flw'.log.elems.take (end_ + 1) = ldr.log.elems.take (end_ + 1) := by
  obtain ⟨H, hH⟩ := raft_histories h
  have hplain := (raft_plain (raft_noSnapshot h) C List.mem_cons_self).servers
  obtain ⟨⟨-, hlive⟩, -, rfl, rfl, -⟩ := id hat
  have hl : Raft.Leads H (C.servers s).rf :=
    ⟨(hplain s).plainLog.whole, hH s, hstate, hlive, hlast⟩
  have hf : Raft.Trails H (C.servers s).rf.currentTerm (C.servers p).rf :=
    ⟨(hplain p).plainLog.whole, hH p, hle, hterm⟩
  obtain ⟨result, hloop, -, -, hverdict, htake⟩ :=
    hl.loop hnext hend cfg leaderCommit start hf hstart hse
  obtain ⟨C', hsteps, hat'⟩ := hat.loop hne (hloop start le_rfl)
  rw [hverdict] at hat'
  exact ⟨C', result.leader, result.follower, hsteps, hat', htake⟩

/-- After `firstCommands`, peer 1 is the second leader, appends a command and starts to send it to
peer 2, which has no entry yet. -/
def emptyPeer : List (Action ℕ) :=
  firstCommands ++ electing 1 0 2 1 ++
    [.act 1 (.start (some 13)), .act 1 .broadcastStart, .act 1 (.peerNext 0 2)]

theorem raft_catches_up_emptyPeer :
    ∃ (C C' : Cluster (Config.doubling 3).peers ℕ) (past : List (Cluster _ ℕ)),
      (raft (.doubling 3)).Run SlicesWithinLog (C :: past) ∧
      (C.servers 2).rf.log.elems = [Raft.sentinel] ∧ (raft (.doubling 3)).Steps C C' ∧
      (C'.servers 2).rf.log.elems.take 4 = (C.servers 1).rf.log.elems.take 4 := by
  obtain ⟨C, past, hr, ⟨hup, hup', hbc, hstate, hlast⟩, hterm, hlog, hnext, hlen⟩ :
      ∃ (C : Cluster (Config.doubling 3).peers ℕ) (past : List (Cluster _ ℕ)),
      (raft (.doubling 3)).Run SlicesWithinLog (C :: past) ∧
      (C.Up 1 ∧ C.Up 2 ∧
        ((C.servers 1).broadcasts[0]?.any fun bc => bc.term = (C.servers 1).rf.currentTerm ∧
          bc.end_ = 3 ∧ bc.poll.phase 2 = .ready (some 3)) = true ∧
        (C.servers 1).rf.state = .leader ∧
        ((C.servers 1).rf.log.elems.getLast?.any fun e =>
          e.term = (C.servers 1).rf.currentTerm) = true) ∧
      (C.servers 2).rf.currentTerm ≤ (C.servers 1).rf.currentTerm ∧
      (C.servers 2).rf.log.elems = [Raft.sentinel] ∧ (C.servers 1).rf.nextIndex[2]? = some 3 ∧
      3 < (C.servers 1).rf.log.len :=
    Machine.exists_run_of_trace slicesWithinLog slicesWithinLog_sound emptyPeer (by decide +kernel)
  obtain ⟨bc, hb, hbc⟩ := (Option.any_eq_true _ _).mp hbc
  obtain ⟨hbterm, hbend, hphase⟩ := of_decide_eq_true hbc
  obtain ⟨e, he, heterm⟩ := (Option.any_eq_true _ _).mp hlast
  obtain ⟨C', _, _, hsteps, hat', htake⟩ := raft_catches_up hr
    ⟨hup, hup', rfl, rfl, bc, hb, hbterm, rfl, hbend, hphase⟩ (by decide) hstate
    ⟨e, he, of_decide_eq_true heterm⟩ hterm (by simp [hlog, Raft.sentinel]) ⟨3, by decide, hnext⟩
    (by decide) (Nat.le_refl 3) hlen
  refine ⟨C, C', past, hr, hlog, hsteps, ?_⟩
  rw [hat'.peer]
  exact htake

end Cluster

end DistLabs
