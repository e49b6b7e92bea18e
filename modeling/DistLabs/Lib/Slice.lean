import Mathlib.Data.List.Basic
import Mathlib.Data.Int.Basic
import Mathlib.Tactic.Tauto

/-!
# Go slices

A slice is a window on a backing array: `elems` is what `len` counts and indexing reaches, and
`spare` is the rest of the array up to `cap`. Cutting a slice short leaves the cut elements in
the array, appending within the capacity overwrites them in place, and re-slicing up to the
capacity exposes them again.
-/

namespace DistLabs

/-- A slice together with the part of its backing array behind its length. -/
structure Slice (α : Type*) where
  elems : List α
  spare : List α
  deriving DecidableEq

namespace Slice

variable {α : Type*}

/-- A slice that fills its backing array. -/
def ofList (l : List α) : Slice α := ⟨l, []⟩

def len (s : Slice α) : ℕ := s.elems.length

def cap (s : Slice α) : ℕ := s.elems.length + s.spare.length

/-- The whole backing array. -/
def array (s : Slice α) : List α := s.elems ++ s.spare

/-- `s[i]`; an index outside the length panics. -/
def get? (s : Slice α) (i : ℤ) : Option α := if 0 ≤ i then s.elems[i.toNat]? else none

/-- `s[:i]` for `i ≤ len s`. -/
def upto (s : Slice α) (i : ℕ) : Slice α := ⟨s.elems.take i, s.elems.drop i ++ s.spare⟩

/-- The elements of `s[a:]`; bounds outside the length panic. -/
def from? (s : Slice α) (a : ℤ) : Option (List α) :=
  if 0 ≤ a ∧ a ≤ s.len then some (s.elems.drop a.toNat) else none

/-- The elements of `s[a:b]`; only bounds outside the capacity panic. -/
def reslice? (s : Slice α) (a b : ℤ) : Option (List α) :=
  if 0 ≤ a ∧ a ≤ b ∧ b ≤ s.cap then some ((s.array.drop a.toNat).take (b - a).toNat) else none

/-- `append(s, es...)`: in place while the capacity lasts, else in a new array whose size the
runtime's growth policy `grow` picks and whose unused part is zeroed. -/
def append [Inhabited α] (grow : ℕ → ℕ → ℕ) (s : Slice α) (es : List α) : Slice α :=
  if es.length ≤ s.spare.length then ⟨s.elems ++ es, s.spare.drop es.length⟩
  else
    let newLen := s.len + es.length
    ⟨s.elems ++ es, List.replicate (grow s.cap newLen - newLen) default⟩

@[simp] lemma elems_ofList (l : List α) : (ofList l).elems = l := rfl

@[simp] lemma elems_upto (s : Slice α) (i : ℕ) : (s.upto i).elems = s.elems.take i := rfl

@[simp] lemma elems_append [Inhabited α] (grow : ℕ → ℕ → ℕ) (s : Slice α) (es : List α) :
    (s.append grow es).elems = s.elems ++ es := by
  unfold append
  split_ifs <;> rfl

lemma len_append [Inhabited α] (grow : ℕ → ℕ → ℕ) (s : Slice α) (es : List α) :
    (s.append grow es).len = s.len + es.length := by
  simp [len]

@[simp] lemma array_upto (s : Slice α) (i : ℕ) : (s.upto i).array = s.array := by
  simp [array, upto, ← List.append_assoc]

lemma get?_eq_some {s : Slice α} {i : ℤ} {a : α} :
    s.get? i = some a ↔ 0 ≤ i ∧ s.elems[i.toNat]? = some a := by
  unfold get?
  split_ifs with h <;> simp [h]

lemma get?_natCast (s : Slice α) (i : ℕ) : s.get? (i : ℤ) = s.elems[i]? := by
  simp [get?]

lemma from?_eq_some {s : Slice α} {a : ℤ} {rest : List α} :
    s.from? a = some rest ↔ 0 ≤ a ∧ a ≤ s.len ∧ rest = s.elems.drop a.toNat := by
  unfold from?
  by_cases h : 0 ≤ a ∧ a ≤ s.len
  · simp [h, eq_comm]
  · simp only [h, if_false, reduceCtorEq, false_iff]
    tauto

lemma reslice?_eq_some {s : Slice α} {a b : ℤ} {es : List α} :
    s.reslice? a b = some es ↔ 0 ≤ a ∧ a ≤ b ∧ b ≤ s.cap ∧
      es = (s.array.drop a.toNat).take (b - a).toNat := by
  unfold reslice?
  by_cases h : 0 ≤ a ∧ a ≤ b ∧ b ≤ s.cap
  · simp [h, eq_comm]
  · simp only [h, if_false, reduceCtorEq, false_iff]
    tauto

lemma reslice?_natCast {s : Slice α} {a b : ℕ} {es : List α} :
    s.reslice? a b = some es ↔ a ≤ b ∧ b ≤ s.cap ∧ es = (s.array.take b).drop a := by
  rw [reslice?_eq_some, List.drop_take, show ((b : ℤ) - a).toNat = b - a by omega]
  simp

/-- Appending keeps every element of the array that it does not overwrite. -/
lemma array_append_getElem? [Inhabited α] (grow : ℕ → ℕ → ℕ) (s : Slice α) (es : List α) {k : ℕ}
    (hk : k < s.array.length) :
    k < (s.elems ++ es).length ∧ (s.append grow es).array[k]? = (s.elems ++ es)[k]? ∨
      (s.append grow es).array[k]? = s.array[k]? := by
  unfold append array at *
  split_ifs with h
  · by_cases hlt : k < (s.elems ++ es).length
    · exact .inl ⟨hlt, List.getElem?_append_left hlt⟩
    · right
      simp only [List.length_append] at hlt hk
      rw [List.getElem?_append_right (by simp; omega), List.getElem?_append_right (by omega),
        List.getElem?_drop, List.length_append]
      congr 1
      omega
  · have hlt : k < (s.elems ++ es).length := by
      simp only [List.length_append] at hk ⊢
      omega
    exact .inl ⟨hlt, List.getElem?_append_left hlt⟩

/-! ### Known parts of the backing array -/

/-- The first `m` places of the backing array hold elements that satisfy `Q`. -/
def Filled (Q : ℕ → α → Prop) (s : Slice α) (m : ℕ) : Prop :=
  ∀ i < m, ∃ a, s.array[i]? = some a ∧ Q i a

variable {Q : ℕ → α → Prop} {s : Slice α} {m : ℕ}

lemma array_getElem?_of_lt {i : ℕ} (hi : i < s.len) : s.array[i]? = s.elems[i]? :=
  List.getElem?_append_left hi

lemma filled_len_iff : s.Filled Q s.len ↔ ∀ i a, s.elems[i]? = some a → Q i a := by
  constructor
  · intro h i a ha
    have hi : i < s.len := (List.getElem?_eq_some_iff.mp ha).1
    obtain ⟨a', ha', hQ⟩ := h i hi
    rw [array_getElem?_of_lt hi, ha] at ha'
    exact Option.some.inj ha' ▸ hQ
  · intro h i hi
    have ha : s.elems[i]? = some s.elems[i] := List.getElem?_eq_getElem hi
    exact ⟨_, (array_getElem?_of_lt hi).trans ha, h i _ ha⟩

lemma Filled.upto (h : s.Filled Q m) (i : ℕ) : (s.upto i).Filled Q m := by
  unfold Filled
  rwa [array_upto]

lemma Filled.append [Inhabited α] (h : s.Filled Q m) (grow : ℕ → ℕ → ℕ) {es : List α}
    (hes : ∀ i a, (s.elems ++ es)[i]? = some a → Q i a) : (s.append grow es).Filled Q m := by
  intro i hi
  obtain ⟨a, ha, hQ⟩ := h i hi
  have hk : i < s.array.length := (List.getElem?_eq_some_iff.mp ha).1
  rcases array_append_getElem? grow s es hk with ⟨hlt, heq⟩ | heq
  · have hb := List.getElem?_eq_getElem hlt
    exact ⟨_, heq.trans hb, hes i _ hb⟩
  · exact ⟨a, heq.trans ha, hQ⟩

/-- The elements of `s[a:b]` when the array is known up to `b`. -/
lemma Filled.reslice {a b : ℕ} {es : List α} (h : s.Filled Q b)
    (hes : s.reslice? a b = some es) : ∀ j x, es[j]? = some x → Q (a + j) x := by
  obtain ⟨-, -, rfl⟩ := reslice?_natCast.mp hes
  intro j x hx
  rw [List.getElem?_drop, List.getElem?_take] at hx
  split_ifs at hx with hj
  obtain ⟨y, hy, hQ⟩ := h (a + j) hj
  rw [hy] at hx
  exact Option.some.inj hx ▸ hQ

end Slice

end DistLabs
