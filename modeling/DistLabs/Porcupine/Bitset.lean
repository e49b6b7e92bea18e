import Mathlib.Data.Finset.Basic
import Mathlib.Data.List.Basic

/-!
# Bitsets

The sets of operations that the checker keeps in words of 64 bits.
-/

namespace DistLabs

namespace Porcupine

/-- Bits 0-63 are in the first word, the next ones in the second, and so on. -/
abbrev Bitset := List (BitVec 64)

namespace Bitset

/-- The number of words. -/
def chunks (bits : ℕ) : ℕ := bits / 64 + if bits % 64 ≠ 0 then 1 else 0

def newBitset (bits : ℕ) : Bitset := List.replicate (chunks bits) 0

def bitsetIndex (pos : ℕ) : ℕ × ℕ := (pos / 64, pos % 64)

/-- Rewrite the word that holds a position; an index out of range panics. -/
def modify (b : Bitset) (pos : ℕ) (f : BitVec 64 → BitVec 64 → BitVec 64) : Option Bitset :=
  let (major, minor) := bitsetIndex pos
  match b[major]? with
  | none => none
  | some w => some (List.set b major (f w (1#64 <<< minor)))

def set (b : Bitset) (pos : ℕ) : Option Bitset := b.modify pos fun w bit => w ||| bit

def clear (b : Bitset) (pos : ℕ) : Option Bitset := b.modify pos fun w bit => w &&& ~~~bit

/-- `bits.OnesCount64` -/
def onesCount (w : BitVec 64) : ℕ := (List.range 64).countP fun j => w.getLsbD j

def popcnt (b : Bitset) : ℕ := b.foldl (fun total v => total + onesCount v) 0

def hash (b : Bitset) : BitVec 64 := b.foldl (fun hash v => hash ^^^ v) (BitVec.ofNat 64 b.popcnt)

def equals (b b2 : Bitset) : Bool :=
  if b.length ≠ b2.length then false
  else (List.range b.length).all fun i => b[i]? == b2[i]?

lemma equals_iff {b b2 : Bitset} : b.equals b2 = true ↔ b = b2 := by
  unfold equals
  split_ifs with hlen
  · simp only [false_iff]
    rintro rfl
    exact hlen rfl
  · simp only [List.all_eq_true, List.mem_range, beq_iff_eq]
    constructor
    · intro h
      refine List.ext_getElem? fun i => ?_
      rcases Nat.lt_or_ge i b.length with hi | hi
      · exact h i hi
      · rw [List.getElem?_eq_none hi, List.getElem?_eq_none (by omega)]
    · rintro rfl i _
      rfl

/-- A bitset for `bits` positions that holds the set `s`. -/
structure Holds (bits : ℕ) (b : Bitset) (s : Finset ℕ) : Prop where
  length : b.length = chunks bits
  bit : ∀ k w, b[k]? = some w → ∀ j < 64, w.getLsbD j = decide (64 * k + j ∈ s)
  lt : ∀ pos ∈ s, pos < bits

variable {bits pos : ℕ} {b b' : Bitset} {s s' : Finset ℕ}

lemma holds_newBitset (bits : ℕ) : Holds bits (newBitset bits) ∅ where
  length := by simp [newBitset]
  bit k w hw j _ := by
    obtain ⟨-, rfl⟩ := List.getElem?_eq_some_iff.mp hw
    simp [newBitset]
  lt := by simp

lemma div_lt_chunks (h : pos < bits) : pos / 64 < chunks bits := by
  unfold chunks
  split_ifs <;> omega

/-- A word with one bit changed. -/
lemma Holds.modify (h : Holds bits b s) (hpos : pos < bits)
    (f : BitVec 64 → BitVec 64 → BitVec 64) (hs : ∀ p ∈ s', p < bits)
    (hf : ∀ w : BitVec 64, ∀ j < 64, (∀ i < 64, w.getLsbD i = decide (64 * (pos / 64) + i ∈ s)) →
      (f w (1#64 <<< (pos % 64))).getLsbD j = decide (64 * (pos / 64) + j ∈ s'))
    (hother : ∀ p, p ≠ pos → (p ∈ s' ↔ p ∈ s)) :
    ∃ b', b.modify pos f = some b' ∧ Holds bits b' s' := by
  have hlt : pos / 64 < b.length := h.length ▸ div_lt_chunks hpos
  have heq : b.modify pos f =
      some (List.set b (pos / 64) (f b[pos / 64] (1#64 <<< (pos % 64)))) := by
    simp [Bitset.modify, bitsetIndex, List.getElem?_eq_getElem hlt]
  refine ⟨_, heq, ?_, ?_, hs⟩
  · simp [h.length]
  · intro k w hw j hj
    rcases eq_or_ne k (pos / 64) with rfl | hk
    · rw [List.getElem?_set_self hlt] at hw
      cases hw
      exact hf _ j hj fun i hi => h.bit _ _ (List.getElem?_eq_getElem hlt) i hi
    · rw [List.getElem?_set_ne hk.symm] at hw
      rw [h.bit k w hw j hj, decide_eq_decide]
      exact (hother _ (by omega)).symm

lemma getLsbD_bit {m j : ℕ} (hj : j < 64) : (1#64 <<< m).getLsbD j = decide (j = m) := by
  rw [BitVec.getLsbD_shiftLeft, BitVec.getLsbD_one]
  simp only [hj, decide_true, Bool.true_and]
  grind

lemma Holds.set (h : Holds bits b s) (hpos : pos < bits) :
    ∃ b', b.set pos = some b' ∧ Holds bits b' (insert pos s) := by
  refine h.modify hpos _ ?_ ?_ fun p hp => by simp [hp]
  · intro p hp
    rcases Finset.mem_insert.mp hp with rfl | hp
    · exact hpos
    · exact h.lt p hp
  · intro w j hj hw
    rw [BitVec.getLsbD_or, getLsbD_bit hj, hw j hj]
    have : j = pos % 64 ↔ 64 * (pos / 64) + j = pos := by omega
    simp [this, Bool.or_comm]

lemma Holds.clear (h : Holds bits b s) (hpos : pos < bits) :
    ∃ b', b.clear pos = some b' ∧ Holds bits b' (s.erase pos) := by
  refine h.modify hpos _ (fun p hp => h.lt p (Finset.mem_of_mem_erase hp)) ?_
    fun p hp => by simp [hp]
  · intro w j hj hw
    rw [BitVec.getLsbD_and, BitVec.getLsbD_not, getLsbD_bit hj, hw j hj]
    have : j = pos % 64 ↔ 64 * (pos / 64) + j = pos := by omega
    simp [this, hj, Bool.and_comm]

/-- The words are determined by the set. -/
lemma Holds.unique (h : Holds bits b s) (h' : Holds bits b' s) : b = b' := by
  refine List.ext_getElem (h.length.trans h'.length.symm) fun k hk hk' => ?_
  refine BitVec.eq_of_getLsbD_eq fun j hj => ?_
  rw [h.bit k _ (List.getElem?_eq_getElem hk) j hj, h'.bit k _ (List.getElem?_eq_getElem hk') j hj]

/-- The set is determined by the words. -/
lemma Holds.eq (h : Holds bits b s) (h' : Holds bits b s') : s = s' := by
  have hsub : ∀ {s s' : Finset ℕ}, Holds bits b s → Holds bits b s' → s ⊆ s' := by
    intro s s' h h' pos hpos
    have hlt : pos / 64 < b.length := h.length ▸ div_lt_chunks (h.lt pos hpos)
    have hbit := h.bit _ _ (List.getElem?_eq_getElem hlt) (pos % 64) (Nat.mod_lt _ (by omega))
    have hbit' := h'.bit _ _ (List.getElem?_eq_getElem hlt) (pos % 64) (Nat.mod_lt _ (by omega))
    rw [Nat.div_add_mod] at hbit hbit'
    simpa [hpos] using hbit'.symm.trans hbit
  exact Finset.Subset.antisymm (hsub h h') (hsub h' h)

end Bitset

end Porcupine

end DistLabs
