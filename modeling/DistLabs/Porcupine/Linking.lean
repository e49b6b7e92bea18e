import DistLabs.Lib.HistorySearch
import DistLabs.Porcupine.Checker

/-!
# The list of entries

What `makeLinkedEntries` builds for a history in which every operation has returned: the nodes are
linked in the order of the entries, and a call points at its return. `lift` and `unlift` take a call
and its return out of such a list and put them back.
-/

namespace DistLabs

namespace Porcupine

open scoped List

variable {I O S : Type}

def Entry.event (e : Entry I O) : DistLabs.Event ℕ I O :=
  match e.value with
  | .inl i => .call e.id i
  | .inr o => .ret e.id o

lemma Entry.id_event (e : Entry I O) : e.event.id = e.id := by
  unfold Entry.event
  split <;> rfl

lemma Entry.isCall_event (e : Entry I O) : e.event.isCall = !e.isReturn := by
  unfold Entry.event Entry.isReturn
  split <;> simp [DistLabs.Event.isCall, *]

/-! ### Building the list -/

/-- The addresses below `n`, the newest first. -/
def descending (n : ℕ) : List ℕ := (List.range n).reverse

@[simp]
lemma mem_descending {n p : ℕ} : p ∈ descending n ↔ p < n := by simp [descending]

@[simp]
lemma length_descending (n : ℕ) : (descending n).length = n := by simp [descending]

lemma descending_succ (n : ℕ) : descending (n + 1) = n :: descending n := by
  simp [descending, List.range_succ]

lemma nodup_descending (n : ℕ) : (descending n).Nodup := List.nodup_reverse.mpr List.nodup_range

/-- Each of the `n` nodes is linked to the one that was allocated before it. -/
structure Chained (l : LinkedEntries I O) (n : ℕ) : Prop where
  length : l.heap.nodes.length = n
  root : l.root = (descending n).head?
  linked : ∀ k, n = k + 1 → l.heap.links.Linked k (descending k) ∧ l.heap.links.prev k = none
  fresh : ∀ p, n ≤ p → l.heap.links.next p = none ∧ l.heap.links.prev p = none

lemma Chained.add {l : LinkedEntries I O} {n : ℕ} (h : Chained l n) (node : Node I O) :
    Chained (l.add node) (n + 1) where
  length := by simp [LinkedEntries.add, h.length]
  root := by simp [LinkedEntries.add, h.length, descending_succ]
  linked := by
    rintro k ⟨⟩
    have hlen := h.length
    cases n with
    | zero =>
      have hroot : l.root = none := h.root
      simpa [LinkedEntries.add, hlen, hroot, insertBefore, descending, Links.Linked]
        using h.fresh 0 le_rfl
    | succ k =>
      obtain ⟨hlinked, hprev⟩ := h.linked k rfl
      have hroot : l.root = some k := by simp [h.root, descending_succ]
      simp only [LinkedEntries.add, hlen, hroot, insertBefore, hprev, descending_succ]
      refine ⟨⟨by simp [Links.setNext], by simp [Links.setNext, Links.setPrev], ?_⟩, ?_⟩
      · refine hlinked.congr (fun y hy => ?_) fun y hy => ?_
        · have hne : y ≠ k + 1 := by
            rintro rfl
            simp at hy
          simp [Links.setNext, Links.setPrev, hne]
        · have hne : y ≠ k := by
            rintro rfl
            simp at hy
          simp [Links.setNext, Links.setPrev, hne]
      · simpa [Links.setNext, Links.setPrev] using (h.fresh (k + 1) le_rfl).2
  fresh p hp := by
    have hlen := h.length
    have hfresh := h.fresh p (by omega)
    cases n with
    | zero =>
      have hroot : l.root = none := h.root
      simpa [LinkedEntries.add, insertBefore, hroot] using hfresh
    | succ k =>
      have hroot : l.root = some k := by simp [h.root, descending_succ]
      have hprev := (h.linked k rfl).2
      have hne : p ≠ k ∧ p ≠ k + 1 := by omega
      simpa [LinkedEntries.add, insertBefore, hroot, hlen, hprev, Links.setNext, Links.setPrev, hne]
        using hfresh

lemma chained_makeLinkedEntries (entries : List (Entry I O)) :
    Chained (makeLinkedEntries entries) entries.length := by
  induction entries with
  | nil =>
    refine ⟨rfl, rfl, ?_, fun p _ => ⟨rfl, rfl⟩⟩
    rintro k ⟨⟩
  | cons e entries ih =>
    unfold makeLinkedEntries
    split_ifs
    · have h := ih.add ⟨some e.value, none, e.id⟩
      exact ⟨h.length, h.root, h.linked, h.fresh⟩
    · exact ih.add _

/-- Every call is followed by its return. -/
def Matched (entries : List (Entry I O)) : Prop :=
  ∀ pre e post, entries = pre ++ e :: post → e.isReturn = false →
    ∃ r ∈ post, r.isReturn = true ∧ r.id = e.id

/-- The node at address `q` is a return of operation `n`. -/
def ReturnAt (entries : List (Entry I O)) (n q : ℕ) : Prop :=
  ∃ r, entries.reverse[q]? = some r ∧ r.isReturn = true ∧ r.id = n

lemma ReturnAt.cons {entries : List (Entry I O)} {n q : ℕ} (h : ReturnAt entries n q)
    (e : Entry I O) : ReturnAt (e :: entries) n q := by
  obtain ⟨r, hr, hrest⟩ := h
  refine ⟨r, ?_, hrest⟩
  rw [List.reverse_cons, List.getElem?_append_left (List.getElem?_eq_some_iff.mp hr).1, hr]

/-- The node of an entry, and the return that a call points at. -/
structure Laid (entries : List (Entry I O)) (l : LinkedEntries I O) : Prop where
  node : ∀ (p : ℕ) (e : Entry I O), entries.reverse[p]? = some e →
    ∃ m, l.heap.nodes[p]? = some ⟨some e.value, m, e.id⟩ ∧ (e.isReturn = true → m = none) ∧
      (e.isReturn = false → ∃ q, m = some q ∧ ReturnAt entries e.id q)
  match_ : ∀ r ∈ entries, r.isReturn = true → ∃ q, l.match_ r.id = some q ∧ ReturnAt entries r.id q

/-- A node for one more entry. -/
lemma Laid.add {entries : List (Entry I O)} {l : LinkedEntries I O} {e : Entry I O} {m : Option ℕ}
    (h : Laid entries l) (hlen : l.heap.nodes.length = entries.length)
    (hret : e.isReturn = true → m = none)
    (hcall : e.isReturn = false → ∃ q, m = some q ∧ ReturnAt entries e.id q)
    (p : ℕ) (x : Entry I O) (hx : (e :: entries).reverse[p]? = some x) :
    ∃ m', (l.add ⟨some e.value, m, e.id⟩).heap.nodes[p]? = some ⟨some x.value, m', x.id⟩ ∧
      (x.isReturn = true → m' = none) ∧
      (x.isReturn = false → ∃ q, m' = some q ∧ ReturnAt (e :: entries) x.id q) := by
  rw [List.reverse_cons] at hx
  rcases Nat.lt_or_ge p entries.length with hp | hp
  · rw [List.getElem?_append_left (by simpa using hp)] at hx
    obtain ⟨m', hm', hret', hcall'⟩ := h.node p x hx
    refine ⟨m', ?_, hret', fun hxr => ?_⟩
    · rw [LinkedEntries.add, List.getElem?_append_left (by omega), hm']
    · obtain ⟨q, hq, hqr⟩ := hcall' hxr
      exact ⟨q, hq, hqr.cons e⟩
  · rw [List.getElem?_append_right (by simpa using hp), List.getElem?_singleton] at hx
    split_ifs at hx with hz
    cases hx
    obtain rfl : p = l.heap.nodes.length := by
      simp only [List.length_reverse] at hz
      omega
    refine ⟨m, by simp [LinkedEntries.add], hret, fun hxr => ?_⟩
    obtain ⟨q, hq, hqr⟩ := hcall hxr
    exact ⟨q, hq, hqr.cons e⟩

lemma laid_makeLinkedEntries {entries : List (Entry I O)} (hm : Matched entries) :
    Laid entries (makeLinkedEntries entries) := by
  induction entries with
  | nil => exact ⟨by simp, by simp⟩
  | cons e entries ih =>
    replace ih := ih fun pre x post heq => hm (e :: pre) x post (by rw [heq, List.cons_append])
    have hlen : (makeLinkedEntries entries).heap.nodes.length = entries.length :=
      (chained_makeLinkedEntries entries).length
    unfold makeLinkedEntries
    split_ifs with he
    · refine ⟨ih.add hlen (fun _ => rfl) (fun hf => absurd he (by simp [hf])), fun r hr hret => ?_⟩
      by_cases hid : r.id = e.id
      · exact ⟨entries.length, by simp [hid, hlen], e, by simp, he, hid.symm⟩
      · have hr' : r ∈ entries := (List.mem_cons.mp hr).resolve_left fun heq => hid (heq ▸ rfl)
        obtain ⟨q, hq, hqr⟩ := ih.match_ r hr' hret
        exact ⟨q, by simpa [hid] using hq, hqr.cons e⟩
    · rw [Bool.not_eq_true] at he
      refine ⟨ih.add hlen (fun ht => absurd he (by simp [ht])) fun _ => ?_, fun r hr hret => ?_⟩
      · obtain ⟨r, hr, hret, hid⟩ := hm [] e entries rfl he
        obtain ⟨q, hq, hqr⟩ := ih.match_ r hr hret
        exact ⟨q, hid ▸ hq, hid ▸ hqr⟩
      · have hr' : r ∈ entries := by
          refine (List.mem_cons.mp hr).resolve_left ?_
          rintro rfl
          cases he.symm.trans hret
        obtain ⟨q, hq, hqr⟩ := ih.match_ r hr' hret
        exact ⟨q, hq, hqr.cons e⟩

/-! ### Nodes and events -/

def idAt (nodes : List (Node I O)) (p : ℕ) : ℕ := (nodes[p]?.map fun x => x.id.toNat).getD 0

/-- A node is taken for a call if it points at a return. -/
def callAt (nodes : List (Node I O)) (p : ℕ) : Bool := (nodes[p]?.bind Node.match_).isSome

/-- The node of an event. -/
def NodeOf (nodes : List (Node I O)) (p : ℕ) (e : DistLabs.Event ℕ I O) : Prop :=
  idAt nodes p = e.id ∧ callAt nodes p = e.isCall

/-- The call at `p` and the return at `q` are those of an operation. -/
structure PairAt (h : List (DistLabs.Event ℕ I O)) (nodes : List (Node I O)) (addrs : List ℕ)
    (p q : ℕ) (x : DistLabs.Operation ℕ I O) : Prop where
  call : nodes[p]? = some ⟨some (.inl x.input), some q, x.id⟩
  ret : nodes[q]? = some ⟨some (.inr x.output), none, x.id⟩
  operation : History.operationOf h x.id = some x
  pair : (addrs.filter fun r => idAt nodes r = x.id) = [p, q]

/-- The nodes at some addresses are the events of a history, and its operations are pairs of nodes
that belong together. -/
structure Layout (h : List (DistLabs.Event ℕ I O)) (nodes : List (Node I O)) (addrs : List ℕ) :
    Prop where
  nodup : addrs.Nodup
  events : List.Forall₂ (NodeOf nodes) addrs h
  call : ∀ p ∈ addrs, callAt nodes p = true → ∃ q x, PairAt h nodes addrs p q x
  ret : ∀ p ∈ addrs, callAt nodes p = false → ∃ node, nodes[p]? = some node ∧ node.match_ = none

section Layout

variable {h : List (DistLabs.Event ℕ I O)} {nodes : List (Node I O)} {addrs : List ℕ}
  {L : Finset ℕ}

/-- The nodes of the operations that are not in a set. -/
def left (nodes : List (Node I O)) (addrs : List ℕ) (L : Finset ℕ) : List ℕ :=
  addrs.filter fun p => idAt nodes p ∉ L

lemma forall₂_takeWhile {α β : Type*} {R : α → β → Prop} {p : α → Bool} {q : β → Bool}
    (hpq : ∀ a b, R a b → p a = q b) {l : List α} {l' : List β} (h : List.Forall₂ R l l') :
    List.Forall₂ R (l.takeWhile p) (l'.takeWhile q) := by
  induction h with
  | nil => exact .nil
  | @cons a b l l' hab _ ih =>
    simp only [List.takeWhile_cons, hpq a b hab]
    split
    · exact .cons hab ih
    · exact .nil

lemma Layout.events_left (hl : Layout h nodes addrs) (L : Finset ℕ) :
    List.Forall₂ (NodeOf nodes) (left nodes addrs L) (History.rest h L) := by
  refine List.rel_filter ?_ hl.events
  rintro p e ⟨hid, -⟩
  simp [hid]

lemma map_idAt_of_forall₂ {l : List ℕ} (hl : List.Forall₂ (NodeOf nodes) l h) :
    l.map (idAt nodes) = h.map DistLabs.Event.id := by
  induction hl with
  | nil => rfl
  | cons hpe _ ih => rw [List.map_cons, List.map_cons, hpe.1, ih]

lemma Layout.exists_event (hl : Layout h nodes addrs) {p : ℕ} (hp : p ∈ addrs) :
    ∃ e ∈ h, e.id = idAt nodes p := by
  have hmem : idAt nodes p ∈ addrs.map (idAt nodes) := List.mem_map_of_mem hp
  rw [map_idAt_of_forall₂ hl.events] at hmem
  exact List.mem_map.mp hmem

lemma Layout.moves_eq (hl : Layout h nodes addrs) (M : DistLabs.Model I O S)
    (c : History.Config ℕ S) :
    (History.space M h).moves c =
      ((left nodes addrs c.linearized).takeWhile (callAt nodes)).map (idAt nodes) := by
  have hall := forall₂_takeWhile (fun p e hpe => And.right hpe) (hl.events_left c.linearized)
  exact (map_idAt_of_forall₂ hall).symm

lemma Layout.done_iff (hl : Layout h nodes addrs) (M : DistLabs.Model I O S)
    (c : History.Config ℕ S) :
    (History.space M h).done c ↔ left nodes addrs c.linearized = [] := by
  have hlen := (hl.events_left c.linearized).length_eq
  simp only [History.space, ← List.length_eq_zero_iff, hlen]

/-- Two nodes are left out. -/
lemma Layout.left_insert (hl : Layout h nodes addrs) {p q n : ℕ}
    (hpq : (addrs.filter fun r => idAt nodes r = n) = [p, q]) :
    left nodes addrs (insert n L) = ((left nodes addrs L).erase p).erase q := by
  have hnd : (left nodes addrs L).Nodup := hl.nodup.filter _
  rw [hnd.erase_eq_filter, (hnd.filter _).erase_eq_filter, left, left, List.filter_filter,
    List.filter_filter]
  refine List.filter_congr fun r hr => ?_
  have hrpq : idAt nodes r = n ↔ r = p ∨ r = q := by
    have : r ∈ addrs.filter (fun r => idAt nodes r = n) ↔ r ∈ [p, q] := by rw [hpq]
    simpa [hr] using this
  simp only [Finset.mem_insert, hrpq, not_or]
  by_cases hp : r = p <;> by_cases hq : r = q <;> simp [hp, hq]

end Layout

section MakeLinkedEntries

variable {entries : List (Entry I O)}

lemma matched_of_complete (hc : History.Complete (entries.map Entry.event)) : Matched entries := by
  rintro pre e post rfl he
  obtain ⟨i, o, hio⟩ := hc e.event (List.mem_map_of_mem (by simp))
  rw [List.filter_map, List.filter_append, List.filter_cons_of_pos (by simp), List.map_append,
    List.map_cons] at hio
  cases hpre : pre.filter ((fun x => decide (x.id = e.event.id)) ∘ Entry.event) with
  | nil =>
    rw [hpre, List.map_nil, List.nil_append, List.cons.injEq] at hio
    obtain ⟨r, hr, hre⟩ := List.mem_map.mp (hio.2 ▸ List.mem_singleton_self _)
    have hret : r.isReturn = true := by
      have := r.isCall_event
      rw [hre] at this
      simpa [DistLabs.Event.isCall] using this
    have hid : r.id = e.id := by
      rw [← r.id_event, hre, ← e.id_event]
      rfl
    exact ⟨r, List.mem_of_mem_filter hr, hret, hid⟩
  | cons c pre' =>
    -- then the call would be the return
    rw [hpre, List.map_cons, List.cons_append, List.cons.injEq] at hio
    have heq : e.event = .ret e.event.id o := List.mem_singleton.mp (hio.2 ▸ by simp)
    have := e.isCall_event
    rw [heq, he] at this
    cases this

lemma forall₂_descending {α : Type*} {R : ℕ → α → Prop} {l : List α}
    (h : ∀ p x, l.reverse[p]? = some x → R p x) : List.Forall₂ R (descending l.length) l := by
  induction l with
  | nil => exact .nil
  | cons x l ih =>
    rw [List.length_cons, descending_succ]
    refine .cons (h _ _ (by simp)) (ih fun p y hy => h p y ?_)
    rw [List.reverse_cons, List.getElem?_append_left (List.getElem?_eq_some_iff.mp hy).1, hy]

/-- The list behind the head of a history in which every operation has returned. -/
lemma layout_makeLinkedEntries (hc : History.Complete (entries.map Entry.event))
    (nodes' : List (Node I O)) :
    Layout (entries.map Entry.event) ((makeLinkedEntries entries).heap.nodes ++ nodes')
      (descending entries.length) := by
  set nodes := (makeLinkedEntries entries).heap.nodes ++ nodes' with hnodes
  have hlen : (makeLinkedEntries entries).heap.nodes.length = entries.length :=
    (chained_makeLinkedEntries entries).length
  have hnode : ∀ (p : ℕ) (e : Entry I O), entries.reverse[p]? = some e →
      ∃ m, nodes[p]? = some ⟨some e.value, m, e.id⟩ ∧ (e.isReturn = true → m = none) ∧
        (e.isReturn = false → ∃ q, m = some q ∧ ReturnAt entries e.id q) := by
    intro p e he
    obtain ⟨m, hm, hrest⟩ := (laid_makeLinkedEntries (matched_of_complete hc)).node p e he
    have hp := (List.getElem?_eq_some_iff.mp hm).1
    exact ⟨m, by rw [hnodes, List.getElem?_append_left hp, hm], hrest⟩
  have hof : ∀ (p : ℕ) (e : Entry I O), entries.reverse[p]? = some e → NodeOf nodes p e.event := by
    intro p e he
    obtain ⟨m, hm, hret, hcall⟩ := hnode p e he
    refine ⟨by simp [idAt, hm, e.id_event], ?_⟩
    cases hr : e.isReturn with
    | true => simp [callAt, hm, hret hr, e.isCall_event, hr]
    | false =>
      obtain ⟨q, rfl, -⟩ := hcall hr
      simp [callAt, hm, e.isCall_event, hr]
  have hevents : List.Forall₂ (NodeOf nodes) (descending entries.length)
      (entries.map Entry.event) := List.forall₂_map_right_iff.mpr (forall₂_descending hof)
  have hget : ∀ p ∈ descending entries.length, ∃ e, entries.reverse[p]? = some e := by
    intro p hp
    exact ⟨_, List.getElem?_eq_getElem (by simpa using hp)⟩
  refine ⟨nodup_descending _, hevents, ?_, ?_⟩
  · intro p hp hcallAt
    obtain ⟨e, he⟩ := hget p hp
    obtain ⟨m, hm, -, hcall⟩ := hnode p e he
    have her : e.isReturn = false := by
      have := (hof p e he).2
      rw [hcallAt, e.isCall_event] at this
      simpa using this
    obtain ⟨q, rfl, r, hr, hrr, hid⟩ := hcall her
    obtain ⟨m', hm', hret', -⟩ := hnode q r hr
    cases hret' hrr
    obtain ⟨i, hi⟩ := Sum.isLeft_iff.mp (show e.value.isLeft = true by
      simpa [Entry.isReturn] using her)
    obtain ⟨o, ho⟩ := Sum.isRight_iff.mp hrr
    have hei : e.event = .call e.id i := by simp [Entry.event, hi]
    have hro : r.event = .ret e.id o := by simp [Entry.event, ho, hid]
    have hop : History.operationOf (entries.map Entry.event) e.id = some ⟨e.id, i, o⟩ := by
      refine hc.operationOf_eq (x := ⟨e.id, i, o⟩) (hei ▸ List.mem_map_of_mem ?_)
        (hro ▸ List.mem_map_of_mem ?_)
      · exact List.mem_reverse.mp (List.mem_of_getElem? he)
      · exact List.mem_reverse.mp (List.mem_of_getElem? hr)
    refine ⟨q, ⟨e.id, i, o⟩, by rw [hm, hi], by rw [hm', ho, hid], hop, ?_⟩
    have hq : q ∈ descending entries.length := by
      simpa using (List.getElem?_eq_some_iff.mp hr).1
    -- these are the only two nodes of the operation
    have hpair : List.Forall₂ (NodeOf nodes)
        ((descending entries.length).filter fun r => idAt nodes r = e.id)
        [.call e.id i, .ret e.id o] := by
      rw [← (History.operationOf_eq_some.mp hop).2]
      refine List.rel_filter ?_ hevents
      rintro p' e' ⟨hid', -⟩
      simp [hid']
    have hpmem : p ∈ (descending entries.length).filter fun r => idAt nodes r = e.id :=
      List.mem_filter.mpr ⟨hp, by simp [(hof p e he).1, e.id_event]⟩
    have hqmem : q ∈ (descending entries.length).filter fun r => idAt nodes r = e.id :=
      List.mem_filter.mpr ⟨hq, by simp [(hof q r hr).1, r.id_event, hid]⟩
    have hqcall : callAt nodes q = false := by simp [(hof q r hr).2, r.isCall_event, hrr]
    generalize (descending entries.length).filter (fun r => idAt nodes r = e.id) = pair at *
    cases hpair with
    | @cons p' _ _ _ hp' hrest =>
      cases hrest with
      | @cons q' _ _ _ hq' hnil =>
        cases hnil
        have hpp : p = p' := by
          rcases List.mem_pair.mp hpmem with rfl | rfl
          · rfl
          · cases hcallAt.symm.trans hq'.2
        have hqq : q = q' := by
          rcases List.mem_pair.mp hqmem with rfl | rfl
          · cases hqcall.symm.trans hp'.2
          · rfl
        rw [hpp, hqq]
  · intro p hp hcallAt
    obtain ⟨e, he⟩ := hget p hp
    obtain ⟨m, hm, hret, -⟩ := hnode p e he
    refine ⟨_, hm, hret ?_⟩
    have := (hof p e he).2
    rw [hcallAt, e.isCall_event] at this
    simpa using this

end MakeLinkedEntries

/-! ### Lifting -/

section Lift

variable {heap : Heap I O} {a p q : ℕ} {l : List ℕ} {node : Node I O}

lemma exists_next_of_sublist {links : Links ℕ} (hl : links.Linked a l) (hpq : [p, q] <+ l) :
    ∃ r, links.next p = some r := by
  induction l generalizing a with
  | nil => cases hpq
  | cons b l ih =>
    cases hpq with
    | cons _ hpq => exact ih hl.2.2 hpq
    | cons_cons _ hq =>
      cases l with
      | nil => cases hq
      | cons c l => exact ⟨c, hl.2.2.1⟩

/-- What `lift` needs to know of the list: a call and its return are in it, in this order. -/
structure Liftable (heap : Heap I O) (a : ℕ) (l : List ℕ) (p q : ℕ) : Prop where
  linked : heap.links.Linked a l
  nodup : (a :: l).Nodup
  pair : [p, q] <+ l
  node : ∃ node, heap.nodes[p]? = some node ∧ node.match_ = some q

lemma Liftable.mem_erase (h : Liftable heap a l p q) : q ∈ l.erase p := by
  have hnd := (List.nodup_cons.mp h.nodup).2
  have hne : p ≠ q := by
    have := h.pair.nodup hnd
    simpa using this
  exact (List.mem_erase_of_ne hne.symm).mpr (h.pair.subset (by simp))

/-- The list without the call. -/
lemma Liftable.unlink (h : Liftable heap a l p q) :
    (heap.links.unlink p).Linked a (l.erase p) ∧ (a :: l.erase p).Nodup := by
  refine ⟨h.linked.unlink h.nodup (h.pair.subset (by simp)), ?_⟩
  exact h.nodup.sublist (List.erase_sublist.cons_cons a)

lemma Liftable.linked_unlink (h : Liftable heap a l p q) :
    ((heap.links.unlink p).unlink q).Linked a ((l.erase p).erase q) :=
  h.unlink.1.unlink h.unlink.2 h.mem_erase

lemma Liftable.lift_eq (h : Liftable heap a l p q) :
    lift heap p = some { heap with links := (heap.links.unlink p).unlink q } := by
  obtain ⟨node, hnode, hmatch⟩ := h.node
  have hp : p ∈ l := h.pair.subset (by simp)
  obtain ⟨pp, hpp, hprev, -⟩ := h.linked.exists_prev_ne h.nodup hp
  obtain ⟨pn, hnext⟩ := exists_next_of_sublist h.linked h.pair
  have hunlink : (heap.links.setNext pp (some pn)).setPrev pn (some pp) = heap.links.unlink p := by
    simp [Links.unlink, hprev, hnext]
  obtain ⟨qp, hqp, hqprev, -⟩ := h.unlink.1.exists_prev_ne h.unlink.2 h.mem_erase
  have hkeep : (heap.links.setNext pp (some pn)).next p = some pn := by
    simp [Links.setNext, hpp.symm, hnext]
  have hkeep' : (heap.links.setNext pp (some pn)).prev p = some pp := hprev
  have hqnext : ((heap.links.unlink p).setNext qp ((heap.links.unlink p).next q)).next q =
      (heap.links.unlink p).next q := by
    simp [Links.setNext, hqp.symm]
  simp only [lift, hnode, hprev, hnext, hkeep, hkeep', hunlink, hmatch, hqprev, hqnext,
    Option.bind_eq_bind, Option.bind_some]
  generalize heap.links.unlink p = links at *
  cases hqn : links.next q with
  | none => simp [Links.unlink, hqprev, hqn]
  | some qn => simp [Links.unlink, Links.setNext, hqprev, hqn]

/-- `unlift` undoes `lift`: the fields of a lifted node still say where it was. -/
lemma Liftable.unlift_eq (h : Liftable heap a l p q) :
    unlift { heap with links := (heap.links.unlink p).unlink q } p = some heap := by
  obtain ⟨node, hnode, hmatch⟩ := h.node
  have hp : p ∈ l := h.pair.subset (by simp)
  obtain ⟨pp, hpp, hprev, -⟩ := h.linked.exists_prev_ne h.nodup hp
  obtain ⟨pn, hnext⟩ := exists_next_of_sublist h.linked h.pair
  obtain ⟨qp, hqp, hqprev, -⟩ := h.unlink.1.exists_prev_ne h.unlink.2 h.mem_erase
  have hrelinkp := h.linked.relink_unlink h.nodup hp
  have hrelinkq := h.unlink.1.relink_unlink h.unlink.2 h.mem_erase
  have hprev' := (h.linked.prev_unlink_self h.nodup hp).trans hprev
  have hnext' := (h.linked.next_unlink_self h.nodup hp).trans hnext
  have hqprev' := (h.unlink.1.prev_unlink_self h.unlink.2 h.mem_erase).trans hqprev
  generalize heap.links.unlink p = links at *
  generalize links.unlink q = links' at *
  have hcall : ((links.prev p).bind fun prev =>
      ((links.setNext prev (some p)).next p).bind fun next =>
        some { heap with links := (links.setNext prev (some p)).setPrev next (some p) }) =
      some heap := by
    have hkeep : (links.setNext pp (some p)).next p = some pn := by
      simp [Links.setNext, hpp.symm, hnext']
    rw [hprev', Option.bind_some, hkeep, Option.bind_some, ← Links.relink_of_next hprev' hnext',
      hrelinkp]
  have hqnext : (links'.setNext qp (some q)).next q = links'.next q := by
    simp [Links.setNext, hqp.symm]
  simp only [unlift, hnode, hmatch, hqprev', hqnext, Option.bind_eq_bind, Option.bind_some]
  cases hqn : links'.next q with
  | none =>
    rw [← hrelinkq, Links.relink_of_next_none hqprev' hqn] at hcall
    exact hcall
  | some qn =>
    rw [← hrelinkq, Links.relink_of_next hqprev' hqn] at hcall
    exact hcall

end Lift

end Porcupine

end DistLabs
