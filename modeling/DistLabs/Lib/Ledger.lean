import Mathlib.Algebra.Order.Group.Multiset

/-!
# Ledgers

A ledger keeps tokens that are open and tokens that are closed. A token is entered once, as open,
and may be closed once; nothing else changes a ledger. So no token is ever in the ledger twice, a
closed token stays closed, and the open tokens of some kind can be counted by a counter that goes up
when one is entered and down when one is closed.
-/

namespace DistLabs

@[ext]
structure Ledger (τ : Type*) where
  opened : Multiset τ
  closed : Multiset τ

namespace Ledger

variable {τ : Type*} {L L' : Ledger τ} {t : τ}

def total (L : Ledger τ) : Multiset τ := L.opened + L.closed

/-- Enter the token `t`. -/
def enter (L : Ledger τ) (t : τ) : Ledger τ := { L with opened := t ::ₘ L.opened }

/-- `L'` is `L` with the open token `t` closed. -/
def Closes (L : Ledger τ) (t : τ) (L' : Ledger τ) : Prop :=
  L.opened = t ::ₘ L'.opened ∧ L'.closed = t ::ₘ L.closed

inductive Moves (L : Ledger τ) : Ledger τ → Prop
  | keep : Moves L L
  | enter (t : τ) (h : t ∉ L.total) : Moves L (L.enter t)
  | close {L' : Ledger τ} (t : τ) (h : L.Closes t L') : Moves L L'

lemma total_enter (L : Ledger τ) (t : τ) : (L.enter t).total = t ::ₘ L.total :=
  Multiset.cons_add t L.opened L.closed

lemma Closes.total_eq (h : L.Closes t L') : L'.total = L.total := by
  rw [total, total, h.1, h.2, Multiset.add_cons, Multiset.cons_add]

lemma Moves.closed_le (h : L.Moves L') : L.closed ≤ L'.closed := by
  cases h with
  | keep => exact le_rfl
  | enter t h => exact le_rfl
  | close t h => exact h.2 ▸ Multiset.le_cons_self L.closed t

lemma Moves.nodup (h : L.Moves L') (hL : L.total.Nodup) : L'.total.Nodup := by
  cases h with
  | keep => exact hL
  | enter t h =>
    rw [total_enter]
    exact Multiset.nodup_cons.mpr ⟨h, hL⟩
  | close t h => exact h.total_eq ▸ hL

/-! ### Counting the open tokens of a kind -/

section Pending

variable (p : τ → Prop) [DecidablePred p]

def pending (L : Ledger τ) : ℕ := L.opened.countP p

lemma pending_enter_of_pos (L : Ledger τ) (h : p t) : (L.enter t).pending p = L.pending p + 1 :=
  Multiset.countP_cons_of_pos L.opened h

lemma pending_enter_of_neg (L : Ledger τ) (h : ¬p t) : (L.enter t).pending p = L.pending p :=
  Multiset.countP_cons_of_neg L.opened h

lemma Closes.pending_of_pos (hc : L.Closes t L') (h : p t) : L.pending p = L'.pending p + 1 := by
  rw [pending, hc.1, Multiset.countP_cons_of_pos L'.opened h, pending]

lemma Closes.pending_of_neg (hc : L.Closes t L') (h : ¬p t) : L.pending p = L'.pending p := by
  rw [pending, hc.1, Multiset.countP_cons_of_neg L'.opened h, pending]

variable {p}

/-- With none pending, a token of the kind that has been entered is closed. -/
lemma mem_closed (h : L.pending p = 0) (ht : t ∈ L.total) (hp : p t) : t ∈ L.closed := by
  refine (Multiset.mem_add.mp ht).resolve_left fun hmem => ?_
  have hpos : 0 < L.opened.countP p := Multiset.countP_pos.mpr ⟨t, hmem, hp⟩
  exact hpos.ne' h

lemma notMem_opened (h : L.pending p = 0) (hp : p t) : t ∉ L.opened := fun hmem =>
  (Multiset.countP_pos.mpr ⟨t, hmem, hp⟩).ne' h

/-- The open tokens are those that have been entered and not closed. -/
lemma countP_notMem_closed [DecidableEq τ] (p : τ → Prop) [DecidablePred p] (h : L.total.Nodup) :
    L.total.countP (fun t => p t ∧ t ∉ L.closed) = L.pending p := by
  have hdisj := (Multiset.nodup_add.mp h).2.2
  have hclosed : L.closed.countP (fun t => p t ∧ t ∉ L.closed) = 0 :=
    Multiset.countP_eq_zero.mpr fun t ht hp => hp.2 ht
  rw [total, Multiset.countP_add, hclosed, add_zero, pending]
  refine Multiset.countP_congr rfl fun t ht => ?_
  exact propext (and_iff_left (Multiset.disjoint_left.mp hdisj ht))

end Pending

end Ledger

end DistLabs
