import DistLabs.Lib.Quorum
import Mathlib.Tactic.SplitIfs

/-!
# Asking every peer and counting the answers

`election` and `appendEntries` are built alike: one goroutine for every other peer, which makes
RPCs until it has a verdict and then sends one boolean on an unbuffered channel, and one goroutine
that receives these, counts the `true` ones and acts once, when the count reaches half of the
peers. A `Poll` is the state of such a group of goroutines. That the count is the number of
peers a `true` was received from is part of the type.
-/

namespace DistLabs

/-- Where the goroutine for one peer stands: it has not been started, it is about to make a call,
it waits for call `k`, it offers its verdict on the channel, or the verdict was received. -/
inductive Phase (ℓ : Type*) where
  | absent
  | ready (l : ℓ)
  | calling (l : ℓ) (k : ℕ)
  | sending (b : Bool)
  | finished (b : Bool)
  deriving DecidableEq

namespace Phase

variable {ℓ : Type*}

/-- The goroutine is still in its loop. -/
def running : Phase ℓ → Bool
  | ready _ | calling _ _ => true
  | _ => false

/-- The goroutine's `true` was received. -/
def counted : Phase ℓ → Bool
  | finished true => true
  | _ => false

/-- A request was built in this round, and it has not failed. -/
def engaged : Phase ℓ → Bool
  | calling _ _ | sending true | finished true => true
  | _ => false

lemma counted_of_running {ph : Phase ℓ} (h : ph.running = true) : ph.counted = false := by
  cases ph <;> simp_all [running, counted]

lemma counted_iff {ph : Phase ℓ} : ph.counted = true ↔ ph = .finished true := by
  cases ph with
  | finished b => cases b <;> simp [counted]
  | _ => simp [counted]

end Phase

section Tally

variable {n : ℕ} {ℓ : Type*} {phase : ℕ → Phase ℓ} {p : ℕ}

/-- The peers whose `true` was received. -/
def yesPeers (n : ℕ) (phase : ℕ → Phase ℓ) : Finset ℕ :=
  (Finset.range n).filter fun p => (phase p).counted

lemma yesPeers_update {ph : Phase ℓ} (hp : (phase p).counted = false) (h : ph.counted = false) :
    yesPeers n (Function.update phase p ph) = yesPeers n phase := by
  refine Finset.filter_congr fun q _ => ?_
  by_cases hq : q = p
  · subst hq
    simp [hp, h]
  · rw [Function.update_of_ne hq]

lemma card_yesPeers_update_finished (hn : p < n) (hp : (phase p).counted = false) :
    (yesPeers n (Function.update phase p (.finished true))).card =
      (yesPeers n phase).card + 1 := by
  have hmem : p ∉ yesPeers n phase := by simp [yesPeers, hp]
  rw [← Finset.card_insert_of_notMem hmem]
  congr 1
  ext q
  by_cases hq : q = p
  · subst hq
    simp [yesPeers, hn, Phase.counted_iff]
  · simp [yesPeers, hq]

end Tally

/-- The goroutines that ask `n` peers, and the one that counts. `flag` is cleared when the count
has been acted upon; `deciding` means the count was found to reach half of the peers and the
lock is waited for. -/
structure Poll (n : ℕ) (ℓ : Type*) where
  phase : ℕ → Phase ℓ
  count : ℕ
  flag : Bool
  deciding : Bool
  absent_of_le : ∀ p, n ≤ p → phase p = .absent
  count_eq : count = (yesPeers n phase).card
  quorum : deciding = true → 0 < count ∧ n / 2 ≤ count

namespace Poll

variable {n : ℕ} {ℓ : Type*} {P P' : Poll n ℓ} {p : ℕ}

/-- The peers counted so far. -/
def yes (P : Poll n ℓ) : Finset ℕ := yesPeers n P.phase

lemma mem_yes : p ∈ P.yes ↔ p < n ∧ P.phase p = .finished true := by
  simp [yes, yesPeers, Phase.counted_iff]

lemma lt_of_phase_ne (h : P.phase p ≠ .absent) : p < n := by
  by_contra hp
  exact h (P.absent_of_le p (Nat.not_lt.mp hp))

/-- Start one goroutine for every peer but `me`. -/
def launch (n me : ℕ) (l : ℓ) : Poll n ℓ where
  phase p := if p < n ∧ p ≠ me then .ready l else .absent
  count := 0
  flag := true
  deciding := false
  absent_of_le p hp := if_neg fun h => absurd h.1 (Nat.not_lt.mpr hp)
  count_eq := by
    symm
    rw [Finset.card_eq_zero, yesPeers, Finset.filter_eq_empty_iff]
    intro p _
    by_cases hp : p < n ∧ p ≠ me <;> simp [hp, Phase.counted]
  quorum h := by simp at h

/-- Move a goroutine that is in its loop to another phase, short of a received verdict. -/
def move (P : Poll n ℓ) (p : ℕ) (ph : Phase ℓ) : Option (Poll n ℓ) :=
  if h : (P.phase p).running = true ∧ ph.counted = false then
    some
      { P with
        phase := Function.update P.phase p ph
        absent_of_le := fun q hq => by
          have hne : q ≠ p := by
            rintro rfl
            simp [P.absent_of_le q hq, Phase.running] at h
          rw [Function.update_of_ne hne, P.absent_of_le q hq]
        count_eq := by
          rw [yesPeers_update (Phase.counted_of_running h.1) h.2, P.count_eq] }
  else none

/-- The counting goroutine receives the verdict of peer `p`. -/
def recv (P : Poll n ℓ) (p : ℕ) : Option (Poll n ℓ) :=
  match h : P.phase p with
  | .sending b =>
    if P.deciding then none
    else
      some
        { phase := Function.update P.phase p (.finished b)
          count := if b then P.count + 1 else P.count
          flag := P.flag
          deciding := b && decide (n / 2 ≤ P.count + 1) && P.flag
          absent_of_le := fun q hq => by
            have hne : q ≠ p := by
              rintro rfl
              simp [P.absent_of_le q hq] at h
            rw [Function.update_of_ne hne, P.absent_of_le q hq]
          count_eq := by
            have hp : (P.phase p).counted = false := by simp [h, Phase.counted]
            cases b with
            | false =>
              rw [yesPeers_update hp rfl, ← P.count_eq]
              rfl
            | true =>
              have hn : p < n := P.lt_of_phase_ne (by simp [h])
              simp [card_yesPeers_update_finished hn hp, P.count_eq]
          quorum := by
            cases b <;> simp +contextual }
  | _ => none

/-- The counting goroutine has acted. -/
def decided (P : Poll n ℓ) : Poll n ℓ :=
  { P with flag := false, deciding := false, quorum := by simp }

/-! ### What the operations do -/

lemma count_eq_card_yes (P : Poll n ℓ) : P.count = P.yes.card := P.count_eq

/-- The counting goroutine only acts after it has received a `true`. -/
lemma exists_mem_yes (h : P.deciding = true) : ∃ p, p ∈ P.yes := by
  have hpos := (P.quorum h).1
  rw [P.count_eq_card_yes] at hpos
  exact Finset.card_pos.mp hpos

/-- When the counting goroutine acts, `me` and the peers counted are a majority. -/
lemma isMajority_insert (P : Poll n ℓ) {me : ℕ} (hme : me < n) (habsent : P.phase me = .absent)
    (h : P.deciding = true) : IsMajority n (insert me P.yes) := by
  refine IsMajority.insert hme ?_ ?_ ?_
  · simp [mem_yes, habsent]
  · exact fun v hv => Finset.mem_range.mpr (mem_yes.mp hv).1
  · rw [← P.count_eq_card_yes]
    exact (P.quorum h).2

lemma launch_phase {me : ℕ} {l : ℓ} {ph : Phase ℓ} (h : (launch n me l).phase p = ph)
    (hne : ph ≠ .absent) : ph = .ready l ∧ p < n ∧ p ≠ me := by
  simp only [launch] at h
  split_ifs at h with hp
  · exact ⟨h.symm, hp⟩
  · exact absurd h.symm hne

lemma phase_of_move {ph : Phase ℓ} (h : P.move p ph = some P') :
    P'.phase = Function.update P.phase p ph := by
  unfold move at h
  split_ifs at h
  cases h
  rfl

lemma phase_of_recv (h : P.recv p = some P') :
    ∃ b, P.phase p = .sending b ∧ P'.phase = Function.update P.phase p (.finished b) := by
  unfold recv at h
  split at h
  · rename_i b hb
    by_cases hd : P.deciding = true
    · simp [hd] at h
    · rw [if_neg hd] at h
      cases h
      exact ⟨b, hb, rfl⟩
  · cases h

end Poll

end DistLabs
