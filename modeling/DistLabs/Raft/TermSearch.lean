import DistLabs.Raft.Node
import Mathlib.Order.Bounds.Basic

/-!
# The search for a term

`isContainTerm` looks for a term in a log by bisection. In a log whose terms do not decrease the
search ends at an entry of the term if there is one, and else at the first newer entry, which is
behind the end of the log when every entry is older. The scan that follows goes forward from the
entry found, to the end of its run. It does not look at the last entry, and reports position 0 when
it has not seen the run end.

So a term is located only if the log goes on far enough behind it: `isContainTerm_finds_iff` says
how far.
-/

namespace DistLabs

namespace Raft

variable {Cmd : Type*} {logs : List (LogEntry Cmd)} {term : ℕ}

/-- The terms of the log do not decrease. -/
def TermsSorted (logs : List (LogEntry Cmd)) : Prop := logs.Pairwise fun x y => x.term ≤ y.term

lemma TermsSorted.le (h : TermsSorted logs) {i j : ℕ} {x y : LogEntry Cmd} (hij : i ≤ j)
    (hx : logs[i]? = some x) (hy : logs[j]? = some y) : x.term ≤ y.term := by
  obtain ⟨hi, rfl⟩ := List.getElem?_eq_some_iff.mp hx
  obtain ⟨hj, rfl⟩ := List.getElem?_eq_some_iff.mp hy
  rcases Nat.lt_or_eq_of_le hij with hlt | rfl
  · exact List.pairwise_iff_getElem.mp h i j hi hj hlt
  · exact Nat.le_refl _

/-! ### The bisection -/

/-- The interval `[left, right]` of the search: the entries before it are older than the term, the
entries behind it newer. -/
structure Brackets (logs : List (LogEntry Cmd)) (term : ℕ) (left right : ℤ) : Prop where
  nonneg : 0 ≤ left
  lt : right < logs.length
  le : left ≤ right + 1
  below : ∀ (i : ℕ) (e : LogEntry Cmd), (i : ℤ) < left → logs[i]? = some e → e.term < term
  above : ∀ (i : ℕ) (e : LogEntry Cmd), right < (i : ℤ) → logs[i]? = some e → term < e.term

lemma brackets_all (logs : List (LogEntry Cmd)) (term : ℕ) :
    Brackets logs term 0 ((logs.length : ℤ) - 1) where
  nonneg := Int.le_refl 0
  lt := by omega
  le := by omega
  below i e hi _ := by omega
  above i e hi he := by
    have := (List.getElem?_eq_some_iff.mp he).1
    omega

namespace Brackets

variable {left right : ℤ} {mid : ℕ} {e : LogEntry Cmd}

/-- The entry in the middle is older. -/
lemma upper (h : Brackets logs term left right) (hs : TermsSorted logs) (hr : mid ≤ right)
    (he : logs[mid]? = some e) (hlt : e.term < term) : Brackets logs term (mid + 1) right where
  nonneg := by omega
  lt := h.lt
  le := by omega
  below i x hi hx := Nat.lt_of_le_of_lt (hs.le (by omega) hx he) hlt
  above := h.above

/-- The entry in the middle is newer. -/
lemma lower (h : Brackets logs term left right) (hs : TermsSorted logs) (hl : left ≤ mid)
    (hr : mid ≤ right) (he : logs[mid]? = some e) (hlt : term < e.term) :
    Brackets logs term left (mid - 1) where
  nonneg := h.nonneg
  lt := by have := h.lt; omega
  le := by omega
  below := h.below
  above i x hi hx := Nat.lt_of_lt_of_le hlt (hs.le (by omega) he hx)

/-- An empty interval leaves no place for the term. -/
lemma term_ne {r : ℕ} (h : Brackets logs term r ((r : ℤ) - 1)) {x : LogEntry Cmd} (hx : x ∈ logs) :
    x.term ≠ term := by
  obtain ⟨i, hi⟩ := List.getElem?_of_mem hx
  rcases Nat.lt_or_ge i r with hlt | hge
  · exact Nat.ne_of_lt (h.below i x (by omega) hi)
  · exact Nat.ne_of_gt (h.above i x (by omega) hi)

end Brackets

/-- The search reads inside the log only. It ends at an entry of the term, or at the place where one
would have to be. -/
lemma exists_searchTerm (hs : TermsSorted logs) (fuel : ℕ) {left right : ℤ}
    (hb : Brackets logs term left right) (hfuel : right + 1 - left ≤ fuel) :
    ∃ r : ℕ, searchTerm logs term fuel left right = some (r : ℤ) ∧
      ((∃ e, logs[r]? = some e ∧ e.term = term) ∨ Brackets logs term r ((r : ℤ) - 1)) := by
  induction fuel generalizing left right with
  | zero =>
    have := hb.nonneg
    have := hb.le
    refine ⟨left.toNat, ?_, .inr ?_⟩
    · rw [searchTerm, Int.toNat_of_nonneg hb.nonneg]
    · rw [Int.toNat_of_nonneg hb.nonneg, show left - 1 = right by omega]
      exact hb
  | succ fuel ih =>
    have hnonneg := hb.nonneg
    have hlt := hb.lt
    have hle := hb.le
    unfold searchTerm
    split_ifs with hlr
    · -- the middle lies in the interval
      obtain ⟨mid, hmid⟩ := Int.eq_ofNat_of_zero_le (show 0 ≤ (left + right) / 2 by omega)
      have hl : left ≤ mid := by omega
      have hr : (mid : ℤ) ≤ right := by omega
      obtain ⟨e, he⟩ : ∃ e, logs[mid]? = some e := ⟨_, List.getElem?_eq_getElem (by omega)⟩
      simp only [hmid, Int.toNat_natCast, he]
      split_ifs with heq hltt
      · exact ⟨mid, rfl, .inl ⟨e, he, heq⟩⟩
      · exact ih (hb.upper hs hr he hltt) (by omega)
      · exact ih (hb.lower hs hl hr he (by omega)) (by omega)
    · refine ⟨left.toNat, ?_, .inr ?_⟩
      · rw [Int.toNat_of_nonneg hnonneg]
      · rw [Int.toNat_of_nonneg hnonneg, show left - 1 = right by omega]
        exact hb

/-! ### The scan -/

/-- The positions of the entries of a term. -/
def positions (logs : List (LogEntry Cmd)) (term : ℕ) : Set ℕ :=
  {i | ∃ e : LogEntry Cmd, logs[i]? = some e ∧ e.term = term}

lemma positions_nonempty_iff : (positions logs term).Nonempty ↔ ∃ e ∈ logs, e.term = term := by
  constructor
  · rintro ⟨i, e, he, hterm⟩
    exact ⟨e, List.mem_of_getElem? he, hterm⟩
  · rintro ⟨e, he, hterm⟩
    obtain ⟨i, hi⟩ := List.getElem?_of_mem he
    exact ⟨i, e, hi, hterm⟩

/-- How the scan ends that starts behind the position `i` of the term: at the end of the run, if the
entry behind it is not the last one of the log, and with 0 if no such entry is seen. -/
inductive ScanEnd (logs : List (LogEntry Cmd)) (term i : ℕ) : ℕ → Prop
  | stop {k : ℕ} {z : LogEntry Cmd} (hik : i ≤ k)
      (hrun : ∀ j, i ≤ j → j ≤ k → j ∈ positions logs term) (hlen : k + 2 < logs.length)
      (hz : logs[k + 1]? = some z) (hne : z.term ≠ term) : ScanEnd logs term i k
  | runOut (hrun : ∀ j, i ≤ j → j + 1 < logs.length → j ∈ positions logs term) :
      ScanEnd logs term i 0

/-- The scan may as well start one entry of the term earlier. -/
lemma ScanEnd.pred {i k : ℕ} (h : ScanEnd logs term (i + 1) k) (hi : i ∈ positions logs term) :
    ScanEnd logs term i k := by
  cases h with
  | stop hik hrun hlen hz hne =>
    refine .stop (by omega) (fun j hij hjk => ?_) hlen hz hne
    rcases Nat.eq_or_lt_of_le hij with rfl | hlt
    · exact hi
    · exact hrun j hlt hjk
  | runOut hrun =>
    refine .runOut fun j hij hj => ?_
    rcases Nat.eq_or_lt_of_le hij with rfl | hlt
    · exact hi
    · exact hrun j hlt hj

/-- Nothing is left to be scanned. -/
lemma ScanEnd.of_length_le {i : ℕ} (hi : i ∈ positions logs term) (hlen : logs.length ≤ i + 2) :
    ScanEnd logs term i 0 := by
  refine .runOut fun j hij hj => ?_
  obtain rfl : j = i := by omega
  exact hi

lemma scanEnd_scanTerm (fuel : ℕ) {i : ℕ} (hi : i ∈ positions logs term)
    (hfuel : logs.length ≤ fuel + i + 2) :
    ScanEnd logs term i (scanTerm logs term fuel (i + 1)) := by
  induction fuel generalizing i with
  | zero => exact .of_length_le hi (by omega)
  | succ fuel ih =>
    unfold scanTerm
    split_ifs with hlt hother
    · obtain ⟨z, hz⟩ : ∃ z, logs[i + 1]? = some z := ⟨_, List.getElem?_eq_getElem (by omega)⟩
      rw [hz, Option.getD_some] at hother
      refine .stop (Nat.le_refl i) (fun j hij hji => ?_) (by omega) hz hother
      exact Nat.le_antisymm hij hji ▸ hi
    · obtain ⟨z, hz⟩ : ∃ z, logs[i + 1]? = some z := ⟨_, List.getElem?_eq_getElem (by omega)⟩
      rw [hz, Option.getD_some, not_not] at hother
      exact (ih ⟨z, hz, hother⟩ (by omega)).pred hi
    · exact .of_length_le hi (by omega)

/-- The scan does not go past an entry of another term that is not the last one. -/
lemma ScanEnd.lt {i k m : ℕ} (h : ScanEnd logs term i k) (him : i ≤ m) (hm : m + 1 < logs.length)
    (hnot : m ∉ positions logs term) : k < m ∧ k ∈ positions logs term := by
  cases h with
  | stop hik hrun =>
    refine ⟨?_, hrun k hik (Nat.le_refl k)⟩
    by_contra hmk
    exact hnot (hrun m him (by omega))
  | runOut hrun => exact absurd (hrun m him hm) hnot

/-- In a log whose terms do not decrease, the run the scan sees the end of is the last one. -/
lemma TermsSorted.isGreatest (hs : TermsSorted logs) {k : ℕ} {z : LogEntry Cmd}
    (hk : k ∈ positions logs term) (hz : logs[k + 1]? = some z) (hne : z.term ≠ term) :
    IsGreatest (positions logs term) k ∧ term < z.term := by
  obtain ⟨y, hy, rfl⟩ := id hk
  have hlt : y.term < z.term := Nat.lt_of_le_of_ne (hs.le (Nat.le_succ k) hy hz) hne.symm
  refine ⟨⟨hk, ?_⟩, hlt⟩
  rintro j ⟨e, he, hterm⟩
  by_contra hkj
  have := hs.le (Nat.lt_of_not_le hkj) hz he
  omega

/-! ### The whole function -/

/-- What `isContainTerm` returns for a log whose terms do not decrease. It panics if every entry is
older, since it then looks behind the end of the log. -/
inductive ContainTerm (logs : List (LogEntry Cmd)) (term : ℕ) : Option (Bool × ℕ) → Prop
  | found {left index : ℕ} (hleft : left ∈ positions logs term)
      (hscan : ScanEnd logs term left index) : ContainTerm logs term (some (true, index))
  | missing (hnot : ∀ e ∈ logs, e.term ≠ term) (hnew : ∃ e ∈ logs, term < e.term) :
      ContainTerm logs term (some (false, 0))
  | behind (hold : ∀ e ∈ logs, e.term < term) : ContainTerm logs term none

lemma containTerm_isContainTerm (hs : TermsSorted logs) :
    ContainTerm logs term (isContainTerm logs term) := by
  obtain ⟨r, hr, hend⟩ :=
    exists_searchTerm hs (logs.length + 1) (brackets_all logs term) (by omega)
  unfold isContainTerm
  simp only [hr, Int.toNat_natCast]
  rcases hend with ⟨e, he, hterm⟩ | hb
  · have hleft : r ∈ positions logs term := ⟨e, he, hterm⟩
    simp only [he, hterm, ne_eq, not_true_eq_false, if_false]
    exact .found hleft (scanEnd_scanTerm _ hleft (by omega))
  · cases he : logs[r]? with
    | none =>
      have hlen := List.getElem?_eq_none_iff.mp he
      refine .behind fun x hx => ?_
      obtain ⟨i, hi⟩ := List.getElem?_of_mem hx
      have hlt := (List.getElem?_eq_some_iff.mp hi).1
      exact hb.below i x (by omega) hi
    | some e =>
      have hmem := List.mem_of_getElem? he
      simp only [hb.term_ne hmem, ne_eq, not_false_eq_true, if_true]
      exact .missing (fun x hx => hb.term_ne hx) ⟨e, hmem, hb.above r e (by omega) he⟩

/-- The index reported for a term that is found is 0, or that of the last entry of a run. The terms
may come in any order here. -/
lemma isContainTerm_eq_true {index : ℕ} (h : isContainTerm logs term = some (true, index)) :
    index = 0 ∨ ∃ y z, logs[index]? = some y ∧ y.term = term ∧ logs[index + 1]? = some z ∧
      z.term ≠ term := by
  unfold isContainTerm at h
  split at h
  · cases h
  · rename_i left _
    split at h
    · cases h
    · rename_i e he
      split_ifs at h with hterm
      · simp at h
      · have hindex : scanTerm logs term logs.length (left.toNat + 1) = index := by simpa using h
        have hscan := scanEnd_scanTerm logs.length ⟨e, he, not_not.mp hterm⟩ (by omega)
        rw [hindex] at hscan
        cases hscan with
        | stop hik hrun _ hz hne =>
          obtain ⟨y, hy, hyterm⟩ := hrun _ hik (Nat.le_refl _)
          exact .inr ⟨y, _, hy, hyterm, hz, hne⟩
        | runOut => exact .inl rfl

/-- What `isContainTerm` is to return: whether the term is in the log, and its last position. -/
structure FindsLast (logs : List (LogEntry Cmd)) (term : ℕ) (flag : Bool) (index : ℕ) : Prop where
  flag_iff : flag = true ↔ ∃ e ∈ logs, e.term = term
  isGreatest : flag = true → IsGreatest (positions logs term) index

/-- The log goes on far enough behind the term: for a term in the log some entry that is not the
last one is newer, unless only the first entry has the term, and for one that is not in the log some
entry is newer. -/
structure GoesOn (logs : List (LogEntry Cmd)) (term : ℕ) : Prop where
  found : (∃ e ∈ logs, e.term = term) →
    (∃ e ∈ logs.dropLast, term < e.term) ∨ ∀ e ∈ logs.tail, e.term ≠ term
  missing : (∀ e ∈ logs, e.term ≠ term) → ∃ e ∈ logs, term < e.term

lemma mem_dropLast_iff {e : LogEntry Cmd} :
    e ∈ logs.dropLast ↔ ∃ j, j + 1 < logs.length ∧ logs[j]? = some e := by
  rw [List.mem_iff_getElem?]
  refine exists_congr fun j => ?_
  rw [List.getElem?_dropLast]
  split_ifs with hj
  · exact ⟨fun he => ⟨by omega, he⟩, fun he => he.2⟩
  · constructor
    · intro he
      cases he
    · intro he
      exact absurd he.1 (by omega)

/-- A term that only the first entry has is last in position 0. -/
lemma isGreatest_zero_iff (hne : (positions logs term).Nonempty) :
    IsGreatest (positions logs term) 0 ↔ ∀ e ∈ logs.tail, e.term ≠ term := by
  have htail : ∀ {e : LogEntry Cmd}, e ∈ logs.tail ↔ ∃ j, logs[j + 1]? = some e := by
    simp [List.mem_iff_getElem?]
  constructor
  · rintro ⟨-, hup⟩ e he hterm
    obtain ⟨j, hj⟩ := htail.mp he
    exact absurd (hup ⟨e, hj, hterm⟩) (Nat.not_succ_le_zero j)
  · intro hnot
    have hzero : ∀ j ∈ positions logs term, j = 0 := by
      rintro (_ | j) ⟨e, he, hterm⟩
      · rfl
      · exact absurd hterm (hnot e (htail.mpr ⟨j, he⟩))
    obtain ⟨i, hi⟩ := hne
    exact ⟨hzero i hi ▸ hi, fun j hj => Nat.le_of_eq (hzero j hj)⟩

/-- If the scan runs out, no entry but the last one is newer than the term. -/
lemma TermsSorted.not_newer_of_runOut (hs : TermsSorted logs) {left : ℕ}
    (hleft : left ∈ positions logs term)
    (hrun : ∀ j, left ≤ j → j + 1 < logs.length → j ∈ positions logs term) :
    ¬∃ e ∈ logs.dropLast, term < e.term := by
  rintro ⟨e, he, hlt⟩
  obtain ⟨j, hj, hget⟩ := mem_dropLast_iff.mp he
  rcases Nat.le_total left j with hle | hle
  · obtain ⟨y, hy, hterm⟩ := hrun j hle hj
    cases hget.symm.trans hy
    omega
  · obtain ⟨y, hy, hterm⟩ := hleft
    have := hs.le hle hget hy
    omega

/-- The scan ends at the last position of the term only if it sees a newer entry, or if it would not
have to move. -/
lemma ScanEnd.isGreatest_iff (hs : TermsSorted logs) {left index : ℕ}
    (h : ScanEnd logs term left index) (hleft : left ∈ positions logs term) :
    IsGreatest (positions logs term) index ↔
      (∃ e ∈ logs.dropLast, term < e.term) ∨ ∀ e ∈ logs.tail, e.term ≠ term := by
  cases h with
  | @stop _ z hik hrun hlen hz hne =>
    obtain ⟨hgreatest, hnew⟩ := hs.isGreatest (hrun index hik (Nat.le_refl _)) hz hne
    have hz' : z ∈ logs.dropLast := mem_dropLast_iff.mpr ⟨index + 1, hlen, hz⟩
    exact ⟨fun _ => .inl ⟨z, hz', hnew⟩, fun _ => hgreatest⟩
  | runOut hrun =>
    rw [isGreatest_zero_iff ⟨left, hleft⟩]
    exact ⟨.inr, fun hg => hg.resolve_left (hs.not_newer_of_runOut hleft hrun)⟩

lemma goesOn_iff_of_mem (hmem : ∃ e ∈ logs, e.term = term) :
    GoesOn logs term ↔
      (∃ e ∈ logs.dropLast, term < e.term) ∨ ∀ e ∈ logs.tail, e.term ≠ term := by
  refine ⟨fun hg => hg.found hmem, fun hg => ⟨fun _ => hg, fun hnot => ?_⟩⟩
  obtain ⟨e, he, hterm⟩ := hmem
  exact absurd hterm (hnot e he)

/-- `isContainTerm` finds the last entry of a term: in a log whose terms do not decrease, it looks
only inside the log, says whether the term is there and gives its last position, exactly if the log
goes on far enough behind the term. -/
theorem isContainTerm_finds_iff (hs : TermsSorted logs) :
    (∃ flag index, isContainTerm logs term = some (flag, index) ∧
        FindsLast logs term flag index) ↔ GoesOn logs term := by
  generalize hr : isContainTerm logs term = r
  have hout := hr ▸ containTerm_isContainTerm hs
  cases hout with
  | @found left index hleft hscan =>
    have hmem := positions_nonempty_iff.mp ⟨left, hleft⟩
    rw [goesOn_iff_of_mem hmem, ← hscan.isGreatest_iff hs hleft]
    constructor
    · rintro ⟨_, _, heq, hf⟩
      cases heq
      exact hf.isGreatest rfl
    · intro hgreatest
      exact ⟨true, index, rfl, by simp [hmem], fun _ => hgreatest⟩
  | missing hnot hnew =>
    have hmem : ¬∃ e ∈ logs, e.term = term := by
      rintro ⟨e, he, hterm⟩
      exact hnot e he hterm
    have hgoes : GoesOn logs term := ⟨fun hex => absurd hex hmem, fun _ => hnew⟩
    have hfinds : FindsLast logs term false 0 := ⟨by simpa using hnot, by simp⟩
    exact ⟨fun _ => hgoes, fun _ => ⟨false, 0, rfl, hfinds⟩⟩
  | behind hold =>
    -- the search has ended behind the last entry
    constructor
    · rintro ⟨_, _, heq, -⟩
      cases heq
    · intro hg
      obtain ⟨e, he, hlt⟩ := hg.missing fun e he => Nat.ne_of_lt (hold e he)
      exact absurd hlt (Nat.not_lt_of_gt (hold e he))

/-- A log of entries with the given terms. -/
def logOfTerms (terms : List ℕ) : List (LogEntry ℕ) :=
  terms.zipIdx.map fun p => ⟨p.1, p.2, none⟩

/-- Two newer entries are behind the run of term 1. -/
theorem isContainTerm_finds_run :
    TermsSorted (logOfTerms [0, 1, 1, 2, 3]) ∧ GoesOn (logOfTerms [0, 1, 1, 2, 3]) 1 ∧
      ∃ flag index, isContainTerm (logOfTerms [0, 1, 1, 2, 3]) 1 = some (flag, index) ∧
        FindsLast (logOfTerms [0, 1, 1, 2, 3]) 1 flag index := by
  have hs : TermsSorted (logOfTerms [0, 1, 1, 2, 3]) := by
    unfold TermsSorted
    decide
  have hgoes : GoesOn (logOfTerms [0, 1, 1, 2, 3]) 1 := ⟨by decide, by decide⟩
  exact ⟨hs, hgoes, (isContainTerm_finds_iff hs).mpr hgoes⟩

/-- A run that goes to the end of the log is reported at position 0, and a term above all others
makes the function look behind the end of the log. -/
theorem isContainTerm_end_of_log :
    (TermsSorted (logOfTerms [0, 1, 1]) ∧ isContainTerm (logOfTerms [0, 1, 1]) 1 = some (true, 0) ∧
        ¬FindsLast (logOfTerms [0, 1, 1]) 1 true 0) ∧
      TermsSorted (logOfTerms [0]) ∧ isContainTerm (logOfTerms [0]) 1 = none := by
  have hs : TermsSorted (logOfTerms [0, 1, 1]) ∧ TermsSorted (logOfTerms [0]) := by
    unfold TermsSorted
    decide
  refine ⟨⟨hs.1, by decide, fun h => ?_⟩, hs.2, by decide⟩
  have htwo : 2 ∈ positions (logOfTerms [0, 1, 1]) 1 := ⟨⟨1, 2, none⟩, rfl, rfl⟩
  exact absurd ((h.isGreatest rfl).2 htwo) (by decide)

end Raft

end DistLabs
