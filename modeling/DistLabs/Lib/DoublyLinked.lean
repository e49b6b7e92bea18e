import Mathlib.Data.List.Nodup
import Mathlib.Logic.Function.Basic

/-!
# Doubly linked lists

The fields `next` and `prev` of a set of nodes, and what it is for them to link a list behind a
node. A node that is taken out keeps its own fields. If nodes are put back in the opposite order in
which they were taken out, all fields are as they were before.
-/

namespace DistLabs

/-- The fields `next` and `prev` of nodes. -/
@[ext]
structure Links (α : Type*) where
  next : α → Option α
  prev : α → Option α

namespace Links

variable {α : Type*} {L L' : Links α} {a b x : α} {l : List α}

/-- Behind node `a` there are the nodes of `l`, in this order. -/
def Linked (L : Links α) : α → List α → Prop
  | a, [] => L.next a = none
  | a, b :: l => L.next a = some b ∧ L.prev b = some a ∧ Linked L b l

lemma Linked.next_eq (h : L.Linked a l) : L.next a = l.head? := by
  cases l with
  | nil => exact h
  | cons b l => exact h.1

/-- Only the fields that point from one node of the list to another matter. -/
lemma Linked.congr (h : L.Linked a l) (hnext : ∀ y ∈ a :: l, L'.next y = L.next y)
    (hprev : ∀ y ∈ l, L'.prev y = L.prev y) : L'.Linked a l := by
  induction l generalizing a with
  | nil => exact (hnext a List.mem_cons_self).trans h
  | cons b l ih =>
    obtain ⟨hn, hp, hrest⟩ := h
    refine ⟨(hnext a List.mem_cons_self).trans hn, (hprev b List.mem_cons_self).trans hp, ?_⟩
    exact ih hrest (fun y hy => hnext y (List.mem_cons_of_mem _ hy))
      fun y hy => hprev y (List.mem_cons_of_mem _ hy)

lemma Linked.drop {pre post : List α} (h : L.Linked a (pre ++ x :: post)) : L.Linked x post := by
  induction pre generalizing a with
  | nil => exact h.2.2
  | cons b pre ih => exact ih h.2.2

/-- The node before a node of the list. -/
lemma Linked.exists_prev (h : L.Linked a l) (hx : x ∈ l) :
    ∃ p ∈ a :: l, L.prev x = some p ∧ L.next p = some x := by
  induction l generalizing a with
  | nil => cases hx
  | cons b l ih =>
    obtain ⟨hn, hp, hrest⟩ := h
    rcases List.mem_cons.mp hx with rfl | hx
    · exact ⟨a, List.mem_cons_self, hp, hn⟩
    · obtain ⟨p, hp, hpx⟩ := ih hrest hx
      exact ⟨p, List.mem_cons_of_mem _ hp, hpx⟩

/-- The node behind a node of the list, if there is one. -/
lemma Linked.prev_of_next (h : L.Linked a l) (hx : x ∈ a :: l) {q : α} (hq : L.next x = some q) :
    q ∈ l ∧ L.prev q = some x := by
  induction l generalizing a with
  | nil =>
    obtain rfl := List.mem_singleton.mp hx
    cases h.symm.trans hq
  | cons b l ih =>
    obtain ⟨hn, hp, hrest⟩ := h
    rcases List.mem_cons.mp hx with rfl | hx
    · cases hn.symm.trans hq
      exact ⟨List.mem_cons_self, hp⟩
    · obtain ⟨hmem, hprev⟩ := ih hrest hx
      exact ⟨List.mem_cons_of_mem _ hmem, hprev⟩

lemma Linked.next_ne_self (h : L.Linked a l) (hnd : (a :: l).Nodup) (hx : x ∈ a :: l) :
    L.next x ≠ some x := by
  induction l generalizing a with
  | nil =>
    obtain rfl := List.mem_singleton.mp hx
    simp [h.next_eq]
  | cons b l ih =>
    rcases List.mem_cons.mp hx with rfl | hx
    · rw [h.1]
      rintro ⟨rfl⟩
      exact (List.nodup_cons.mp hnd).1 List.mem_cons_self
    · exact ih h.2.2 (List.nodup_cons.mp hnd).2 hx

lemma Linked.exists_prev_ne (h : L.Linked a l) (hnd : (a :: l).Nodup) (hx : x ∈ l) :
    ∃ p, p ≠ x ∧ L.prev x = some p ∧ L.next p = some x := by
  obtain ⟨p, -, hprev, hnext⟩ := h.exists_prev hx
  refine ⟨p, ?_, hprev, hnext⟩
  rintro rfl
  exact h.next_ne_self hnd (List.mem_cons_of_mem _ hx) hnext

variable [DecidableEq α]

def setNext (L : Links α) (a : α) (b : Option α) : Links α :=
  { L with next := Function.update L.next a b }

def setPrev (L : Links α) (a : α) (b : Option α) : Links α :=
  { L with prev := Function.update L.prev a b }

/-- Take `x` out: the nodes around it are joined. -/
def unlink (L : Links α) (x : α) : Links α :=
  match L.prev x, L.next x with
  | none, _ => L
  | some p, none => L.setNext p none
  | some p, some q => (L.setNext p (some q)).setPrev q (some p)

/-- Put `x` back between the nodes its own fields point at. -/
def relink (L : Links α) (x : α) : Links α :=
  match L.prev x, L.next x with
  | none, _ => L
  | some p, none => L.setNext p (some x)
  | some p, some q => (L.setNext p (some x)).setPrev q (some x)

lemma relink_of_next_none {p : α} (hp : L.prev x = some p) (hq : L.next x = none) :
    L.relink x = L.setNext p (some x) := by
  rw [relink, hp, hq]

lemma relink_of_next {p q : α} (hp : L.prev x = some p) (hq : L.next x = some q) :
    L.relink x = (L.setNext p (some x)).setPrev q (some x) := by
  rw [relink, hp, hq]

lemma next_unlink_of_ne {p y : α} (hp : L.prev x = some p) (hy : y ≠ p) :
    (L.unlink x).next y = L.next y := by
  unfold unlink
  cases hq : L.next x <;> simp [hp, setNext, setPrev, hy]

lemma prev_unlink_of_ne {y : α} (hy : L.next x ≠ some y) : (L.unlink x).prev y = L.prev y := by
  unfold unlink
  cases hp : L.prev x with
  | none => rfl
  | some p =>
    cases hq : L.next x with
    | none => rfl
    | some q =>
      have hne : y ≠ q := fun heq => hy (heq ▸ hq)
      simp [setNext, setPrev, hne]

/-- A list without one of its nodes. -/
lemma Linked.unlink (h : L.Linked a l) (hnd : (a :: l).Nodup) (hx : x ∈ l) :
    (L.unlink x).Linked a (l.erase x) := by
  induction l generalizing a with
  | nil => cases hx
  | cons b l ih =>
    obtain ⟨hn, hp, hrest⟩ := id h
    have hab : a ∉ b :: l := (List.nodup_cons.mp hnd).1
    have hnd' : (b :: l).Nodup := (List.nodup_cons.mp hnd).2
    have hbl : b ∉ l := (List.nodup_cons.mp hnd').1
    rcases eq_or_ne b x with rfl | hne
    · -- the node right behind `a` is taken out
      rw [List.erase_cons_head]
      cases l with
      | nil =>
        have hnone : L.next b = none := hrest
        simp [Linked, Links.unlink, hp, hnone, setNext]
      | cons c l =>
        obtain ⟨hnb, hpc, hrest'⟩ := hrest
        have hcl : c ∉ l := (List.nodup_cons.mp (List.nodup_cons.mp hnd').2).1
        refine ⟨by simp [Links.unlink, hp, hnb, setNext, setPrev],
          by simp [Links.unlink, hp, hnb, setNext, setPrev], hrest'.congr ?_ ?_⟩
        · intro y hy
          refine next_unlink_of_ne hp ?_
          rintro rfl
          exact hab (List.mem_cons_of_mem _ hy)
        · intro y hy
          refine prev_unlink_of_ne ?_
          rw [hnb]
          rintro ⟨rfl⟩
          exact hcl hy
    · rw [List.erase_cons_tail (by simpa using hne)]
      have hxl : x ∈ l := (List.mem_cons.mp hx).resolve_left hne.symm
      obtain ⟨p, hpl, hpx, -⟩ := hrest.exists_prev hxl
      refine ⟨?_, ?_, ih hrest hnd' hxl⟩
      · rw [next_unlink_of_ne hpx, hn]
        rintro rfl
        exact hab hpl
      · rw [prev_unlink_of_ne, hp]
        intro hq
        exact hbl (hrest.prev_of_next (List.mem_cons_of_mem _ hxl) hq).1

/-- A node that has been taken out keeps its own fields. -/
lemma Linked.next_unlink_self (h : L.Linked a l) (hnd : (a :: l).Nodup) (hx : x ∈ l) :
    (L.unlink x).next x = L.next x := by
  obtain ⟨p, -, hp, hpn⟩ := h.exists_prev hx
  refine next_unlink_of_ne hp ?_
  rintro rfl
  exact h.next_ne_self hnd (List.mem_cons_of_mem _ hx) hpn

lemma Linked.prev_unlink_self (h : L.Linked a l) (hnd : (a :: l).Nodup) (hx : x ∈ l) :
    (L.unlink x).prev x = L.prev x :=
  prev_unlink_of_ne (h.next_ne_self hnd (List.mem_cons_of_mem _ hx))

/-- Putting a node back restores all fields. -/
lemma Linked.relink_unlink (h : L.Linked a l) (hnd : (a :: l).Nodup) (hx : x ∈ l) :
    (L.unlink x).relink x = L := by
  obtain ⟨p, -, hp, hpn⟩ := h.exists_prev hx
  unfold relink
  rw [h.prev_unlink_self hnd hx, h.next_unlink_self hnd hx, hp]
  cases hq : L.next x with
  | none =>
    refine Links.ext ?_ ?_
    · simp [Links.unlink, hp, hq, setNext, ← hpn]
    · simp [Links.unlink, hp, hq, setNext]
  | some q =>
    have hqx : L.prev q = some x := (h.prev_of_next (List.mem_cons_of_mem _ hx) hq).2
    refine Links.ext ?_ ?_
    · simp [Links.unlink, hp, hq, setNext, setPrev, ← hpn]
    · simp [Links.unlink, hp, hq, setNext, setPrev, ← hqx]

end Links

end DistLabs
