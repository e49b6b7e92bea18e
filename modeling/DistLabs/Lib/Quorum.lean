import Mathlib.Data.Finset.Card
import Mathlib.Data.Finset.Range

/-!
# Quorum systems

A quorum system is a family of sets any two of which meet. The one used throughout is the family
of strict majorities of `{0, …, n - 1}`.
-/

namespace DistLabs

/-- Sets of servers, any two of which have a server in common. -/
structure QuorumSystem (σ : Type*) where
  IsQuorum : Finset σ → Prop
  inter : ∀ {A B : Finset σ}, IsQuorum A → IsQuorum B → ∃ v ∈ A, v ∈ B

/-- A strict majority of the first `n` numbers. -/
def IsMajority (n : ℕ) (A : Finset ℕ) : Prop := A ⊆ Finset.range n ∧ n < 2 * A.card

lemma IsMajority.inter {n : ℕ} {A B : Finset ℕ} (hA : IsMajority n A) (hB : IsMajority n B) :
    ∃ v ∈ A, v ∈ B := by
  by_contra! hne
  have hdisj : Disjoint A B := Finset.disjoint_left.mpr hne
  have hsub : A ∪ B ⊆ Finset.range n := Finset.union_subset hA.1 hB.1
  have hcard := Finset.card_le_card hsub
  rw [Finset.card_union_of_disjoint hdisj, Finset.card_range] at hcard
  have := hA.2
  have := hB.2
  omega

/-- Majorities form a quorum system. -/
def majority (n : ℕ) : QuorumSystem ℕ where
  IsQuorum := IsMajority n
  inter := IsMajority.inter

@[simp] lemma majority_isQuorum (n : ℕ) (A : Finset ℕ) :
    (majority n).IsQuorum A ↔ IsMajority n A := Iff.rfl

/-- One server together with at least `n / 2` others is a majority. -/
lemma IsMajority.insert {n s : ℕ} {A : Finset ℕ} (hs : s < n) (hsA : s ∉ A)
    (hA : A ⊆ Finset.range n) (hcard : n / 2 ≤ A.card) : IsMajority n (insert s A) := by
  refine ⟨Finset.insert_subset (Finset.mem_range.mpr hs) hA, ?_⟩
  rw [Finset.card_insert_of_notMem hsA]
  omega

end DistLabs
