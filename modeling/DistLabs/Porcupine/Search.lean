import DistLabs.Porcupine.Linking

/-!
# The loop of the checker as a search

The variables of the loop stand for a state of the depth-first search for a linearization: the
calls that have been lifted are its stack, and the cache holds the configurations it has entered.
Every iteration that goes on is a step of that search (`Related.iterate`).
-/

namespace DistLabs

namespace Porcupine

open scoped List

variable {I O S : Type} {model : FilledModel I O S} {h : List (DistLabs.Event ℕ I O)}
  {heap : Heap I O} {head bits : ℕ} {addrs : List ℕ} {computePartial : Bool}

/-- The search for a linearization of a history. -/
abbrev FilledModel.space (model : FilledModel I O S) (h : List (DistLabs.Event ℕ I O)) :
    SearchSpace (History.Config ℕ S) ℕ :=
  History.space model.toModel h

/-- The same operations have been taken, and `Equal` does not tell the states apart. -/
abbrev FilledModel.Similar (model : FilledModel I O S) : History.Config ℕ S → History.Config ℕ S →
    Prop :=
  History.Similar fun s s' => model.equal s s' = true

/-- What the search starts with: a list of all events of a history. -/
structure Setting (h : List (DistLabs.Event ℕ I O)) (heap : Heap I O) (head : ℕ) (addrs : List ℕ)
    (bits : ℕ) : Prop where
  layout : Layout h heap.nodes addrs
  nodup : (head :: addrs).Nodup
  linked : heap.links.Linked head addrs
  lt_iff : ∀ i, i < bits ↔ ∃ e ∈ h, e.id = i

lemma Setting.lt (hset : Setting h heap head addrs bits) {p : ℕ} (hp : p ∈ addrs) :
    idAt heap.nodes p < bits :=
  (hset.lt_iff _).mpr (hset.layout.exists_event hp)

section Pairs

variable {nodes : List (Node I O)} {p q : ℕ} {x : DistLabs.Operation ℕ I O} {L : Finset ℕ}

lemma mem_left {r : ℕ} : r ∈ left nodes addrs L ↔ r ∈ addrs ∧ idAt nodes r ∉ L := by
  simp [left]

lemma PairAt.idAt_eq (hpq : PairAt h nodes addrs p q x) : idAt nodes p = x.id := by
  simp [idAt, hpq.call]

lemma PairAt.callAt_eq (hpq : PairAt h nodes addrs p q x) : callAt nodes p = true := by
  simp [callAt, hpq.call]

/-- With a call its return is left. -/
lemma PairAt.sublist_left (hpq : PairAt h nodes addrs p q x) (hx : x.id ∉ L) :
    [p, q] <+ left nodes addrs L := by
  have hid : ∀ r ∈ [p, q], idAt nodes r = x.id := by
    rw [← hpq.pair]
    simp
  have hsub := (hpq.pair ▸ List.filter_sublist : [p, q] <+ addrs).filter
    fun r => decide (idAt nodes r ∉ L)
  rwa [List.filter_eq_self.mpr fun r hr => by simpa [hid r hr] using hx] at hsub

lemma PairAt.liftable {links : Links ℕ} (hpq : PairAt h nodes addrs p q x)
    (hnd : (head :: addrs).Nodup) (hl : links.Linked head (left nodes addrs L)) (hx : x.id ∉ L) :
    Liftable ⟨nodes, links⟩ head (left nodes addrs L) p q where
  linked := hl
  nodup := hnd.sublist (List.filter_sublist.cons_cons head)
  pair := hpq.sublist_left hx
  node := ⟨_, hpq.call, rfl⟩

/-- Some return is left if anything is. -/
lemma Layout.exists_return (hl : Layout h nodes addrs) (hne : left nodes addrs L ≠ []) :
    ∃ r ∈ left nodes addrs L, callAt nodes r = false := by
  obtain ⟨p, hp⟩ := List.exists_mem_of_ne_nil _ hne
  obtain ⟨hpa, hpL⟩ := mem_left.mp hp
  cases hcall : callAt nodes p with
  | false => exact ⟨p, hp, hcall⟩
  | true =>
    obtain ⟨q, x, hpq⟩ := hl.call p hpa hcall
    refine ⟨q, (hpq.sublist_left (hpq.idAt_eq ▸ hpL)).subset (by simp), ?_⟩
    simp [callAt, hpq.ret]

end Pairs

/-! ### The calls that have been lifted -/

/-- The calls, the links of the list without them, the configuration they have led to, and the
configurations before. -/
inductive Stacked (model : FilledModel I O S) (h : List (DistLabs.Event ℕ I O)) (heap : Heap I O)
    (addrs : List ℕ) : List (CallsEntry S) → Links ℕ → History.Config ℕ S →
      List (SearchSpace.Frame (History.Config ℕ S) ℕ) → Prop
  | nil : Stacked model h heap addrs [] heap.links ⟨∅, model.init⟩ []
  | cons {calls : List (CallsEntry S)} {links : Links ℕ} {c c' : History.Config ℕ S}
      {fs : List (SearchSpace.Frame (History.Config ℕ S) ℕ)} {pre post : List ℕ} {p q : ℕ}
      {x : DistLabs.Operation ℕ I O} (hs : Stacked model h heap addrs calls links c fs)
      (hleft : left heap.nodes addrs c.linearized = pre ++ p :: post)
      (hpre : ∀ r ∈ pre, callAt heap.nodes r = true) (hpq : PairAt h heap.nodes addrs p q x)
      (hstep : (model.space h).step c x.id = some c') :
      Stacked model h heap addrs (⟨p, c.state⟩ :: calls) ((links.unlink p).unlink q) c'
        (⟨c, pre.map (idAt heap.nodes),
          x.id :: (post.takeWhile (callAt heap.nodes)).map (idAt heap.nodes)⟩ :: fs)

section Stacked

variable {calls : List (CallsEntry S)} {links : Links ℕ} {c : History.Config ℕ S}
  {fs : List (SearchSpace.Frame (History.Config ℕ S) ℕ)}

/-- The linked nodes are those that are left. -/
lemma Stacked.linked (hset : Setting h heap head addrs bits)
    (hs : Stacked model h heap addrs calls links c fs) :
    links.Linked head (left heap.nodes addrs c.linearized) := by
  induction hs with
  | nil => simpa [left] using hset.linked
  | @cons calls links c c' fs pre post p q x _ hleft _ hpq hstep ih =>
    obtain ⟨y, -, -, rfl⟩ := History.step_eq_some.mp hstep
    have hx : x.id ∉ c.linearized := by
      have hp : p ∈ left heap.nodes addrs c.linearized := by simp [hleft]
      exact hpq.idAt_eq ▸ (mem_left.mp hp).2
    rw [hset.layout.left_insert hpq.pair]
    exact (hpq.liftable hset.nodup ih hx).linked_unlink

lemma Stacked.path (hset : Setting h heap head addrs bits)
    (hs : Stacked model h heap addrs calls links c fs) :
    (model.space h).Path (calls.map fun v => idAt heap.nodes v.entry) c := by
  induction hs with
  | nil => exact .nil
  | cons _ hleft hpre hpq hstep ih =>
    rw [List.map_cons, hpq.idAt_eq]
    refine .cons ih ?_ hstep
    rw [hset.layout.moves_eq, hleft, List.takeWhile_append_of_pos hpre,
      List.takeWhile_cons_of_pos hpq.callAt_eq]
    simp [hpq.idAt_eq]

lemma mapM_eq_some_map {α β : Type} {f : α → Option β} {g : α → β} {l : List α}
    (hf : ∀ v ∈ l, f v = some (g v)) : l.mapM f = some (l.map g) := by
  induction l with
  | nil => rfl
  | cons v l ih =>
    rw [List.mapM_cons, hf v List.mem_cons_self, ih fun w hw => hf w (List.mem_cons_of_mem _ hw)]
    rfl

/-- The ids of the calls. -/
lemma Stacked.seq_eq (hs : Stacked model h heap addrs calls links c fs) :
    (calls.reverse.mapM fun v => heap.nodes[v.entry]?.map Node.id) =
      some ((calls.map fun v => idAt heap.nodes v.entry).reverse.map Nat.cast) := by
  have hmem : ∀ v ∈ calls,
      heap.nodes[v.entry]?.map Node.id = some (idAt heap.nodes v.entry : ℤ) := by
    induction hs with
    | nil => simp
    | cons _ _ _ hpq _ ih =>
      intro v hv
      rcases List.mem_cons.mp hv with rfl | hv
      · simp [hpq.call, hpq.idAt_eq]
      · exact ih v hv
  rw [mapM_eq_some_map fun v hv => hmem v (List.mem_reverse.mp hv)]
  simp

end Stacked

/-! ### The cache -/

/-- The cache holds these configurations. -/
def Caches (bits : ℕ) (cache : Cache S) (C : Set (History.Config ℕ S)) : Prop :=
  ∀ c, c ∈ C ↔ ∃ b, Bitset.Holds bits b c.linearized ∧ ⟨b, c.state⟩ ∈ cache b.hash

section Cache

variable {cache : Cache S} {C : Set (History.Config ℕ S)} {c : History.Config ℕ S} {b : Bitset}

lemma caches_empty : Caches bits (fun _ => [] : Cache S) ∅ := by
  simp [Caches]

lemma Caches.contains_iff (hC : Caches bits cache C) (hb : b.Holds bits c.linearized) :
    cacheContains model cache ⟨b, c.state⟩ = true ↔ SearchSpace.Covered model.Similar C c := by
  simp only [cacheContains, List.any_eq_true, Bool.and_eq_true, Bitset.equals_iff]
  constructor
  · rintro ⟨⟨b', st⟩, hmem, rfl, heq⟩
    exact ⟨⟨c.linearized, st⟩, (hC _).mpr ⟨b, hb, hmem⟩, rfl, heq⟩
  · rintro ⟨d, hd, hlin, heq⟩
    obtain ⟨b', hb', hmem⟩ := (hC d).mp hd
    obtain rfl : b = b' := hb.unique (hlin ▸ hb')
    exact ⟨_, hmem, rfl, heq⟩

lemma Caches.insert (hC : Caches bits cache C) (hb : b.Holds bits c.linearized) :
    Caches bits (Function.update cache b.hash (cache b.hash ++ [⟨b, c.state⟩])) (insert c C) := by
  intro d
  rw [Set.mem_insert_iff, hC d]
  constructor
  · rintro (rfl | ⟨b', hb', hmem⟩)
    · exact ⟨b, hb, by simp⟩
    · refine ⟨b', hb', ?_⟩
      rw [Function.update_apply]
      split_ifs with heq
      · exact List.mem_append_left _ (heq ▸ hmem)
      · exact hmem
  · rintro ⟨b', hb', hmem⟩
    rw [Function.update_apply] at hmem
    split_ifs at hmem with heq
    · rcases List.mem_append.mp hmem with hmem | hmem
      · exact .inr ⟨b', hb', heq ▸ hmem⟩
      · obtain ⟨rfl, hst⟩ := CacheEntry.mk.inj (List.mem_singleton.mp hmem)
        obtain ⟨L, st⟩ := d
        obtain rfl : L = c.linearized := hb'.eq hb
        exact .inl (congrArg _ hst)
    · exact .inr ⟨b', hb', hmem⟩

end Cache

/-! ### The longest sequences -/

/-- A sequence of at least `k` operations is kept for operation `i`. -/
def Keeps (longest : Longest) (i k : ℕ) : Prop := ∃ m, longest[i]? = some (some m) ∧ k ≤ m.length

/-- A sequence has been recorded for the operations in `l`. -/
structure Recorded (longest longest' : Longest) (seq : List ℤ) (l : List ℕ) : Prop where
  length : longest'.length = longest.length
  keeps : ∀ i ∈ l, Keeps longest' i seq.length
  mono : ∀ i k, Keeps longest i k → Keeps longest' i k
  origin : ∀ (i : ℕ) (m : List ℤ), longest'[i]? = some (some m) →
    longest[i]? = some (some m) ∨ i ∈ l ∧ m = seq

lemma exists_recordFor {longest : Longest} {i : ℕ} (hi : i < longest.length) (seq : List ℤ) :
    ∃ longest', Search.recordFor seq longest i = some longest' ∧
      Recorded longest longest' seq [i] := by
  have hget := List.getElem?_eq_getElem hi
  simp only [Search.recordFor, Int.mem_toNat?.mpr rfl, hget, Option.bind_eq_bind, Option.bind_some]
  split_ifs with hlt
  · refine ⟨_, rfl, by simp, ?_, fun j k hk => ?_, fun j m hm => ?_⟩
    · intro j hj
      obtain rfl := List.mem_singleton.mp hj
      exact ⟨seq, by simp [hi], le_rfl⟩
    · obtain ⟨m, hm, hkm⟩ := hk
      rcases eq_or_ne i j with rfl | hne
      · have hm' : longest[i] = some m := Option.some.inj (hget.symm.trans hm)
        have : m.length < seq.length := by simpa [hm'] using hlt
        exact ⟨seq, by simp [hi], by omega⟩
      · exact ⟨m, by rwa [List.getElem?_set_ne hne], hkm⟩
    · rcases eq_or_ne i j with rfl | hne
      · rw [List.getElem?_set_self hi] at hm
        cases hm
        exact .inr ⟨by simp, rfl⟩
      · rw [List.getElem?_set_ne hne] at hm
        exact .inl hm
  · refine ⟨_, rfl, rfl, ?_, fun _ _ => id, fun _ _ => .inl⟩
    intro j hj
    obtain rfl := List.mem_singleton.mp hj
    cases hl : longest[j] with
    | none => simp [hl] at hlt
    | some m => exact ⟨m, by rw [hget, hl], by simpa [hl] using hlt⟩

lemma Recorded.trans {longest longest' longest'' : Longest} {seq : List ℤ} {l l' : List ℕ}
    (h : Recorded longest longest' seq l) (h' : Recorded longest' longest'' seq l') :
    Recorded longest longest'' seq (l ++ l') where
  length := h'.length.trans h.length
  keeps i hi := by
    rcases List.mem_append.mp hi with hi | hi
    · exact h'.mono _ _ (h.keeps i hi)
    · exact h'.keeps i hi
  mono i k hk := h'.mono i k (h.mono i k hk)
  origin i m hm := by
    rcases h'.origin i m hm with hm | ⟨hi, rfl⟩
    · exact (h.origin i m hm).imp_right fun ⟨hi, hm⟩ => ⟨List.mem_append_left _ hi, hm⟩
    · exact .inr ⟨List.mem_append_right _ hi, rfl⟩

lemma exists_recordLongest {longest : Longest} {l : List ℕ} (hl : ∀ i ∈ l, i < longest.length)
    (seq : List ℤ) :
    ∃ longest', (l.map Nat.cast).foldlM (Search.recordFor seq) longest = some longest' ∧
      Recorded longest longest' seq l := by
  induction l generalizing longest with
  | nil => exact ⟨longest, rfl, rfl, by simp, fun _ _ => id, fun _ _ => .inl⟩
  | cons i l ih =>
    obtain ⟨longest₁, hfor, hfirst⟩ := exists_recordFor (hl i List.mem_cons_self) seq
    obtain ⟨longest', hfold, hrest⟩ := ih fun j hj =>
      hfirst.length ▸ hl j (List.mem_cons_of_mem _ hj)
    refine ⟨longest', ?_, hfirst.trans hrest⟩
    rw [List.map_cons, List.foldlM_cons, hfor]
    exact hfold

/-- What is kept for the operations: sequences of moves, one as long as any that has been left. -/
structure Records (P : SearchSpace (History.Config ℕ S) ℕ)
    (t : SearchSpace.State (History.Config ℕ S) ℕ) (longest : Longest) : Prop where
  sound : ∀ (i : ℕ) (m : List ℤ), longest[i]? = some (some m) →
    ∃ l c, P.Path l c ∧ m = l.reverse.map Nat.cast ∧ i ∈ l
  keeps : ∀ c ∈ t.cache, (∃ f ∈ t.stack, f.config = c) ∨
    ∀ i ∈ c.linearized, Keeps longest i c.linearized.card

/-! ### The variables of the loop -/

/-- Where the loop is: it has gone over the calls in `pre` and looks at the first node of `post`. -/
structure Position (model : FilledModel I O S) (h : List (DistLabs.Event ℕ I O)) (heap : Heap I O)
    (head : ℕ) (addrs : List ℕ) (bits : ℕ) (s : Search I O S) (c : History.Config ℕ S)
    (pre post : List ℕ) (fs : List (SearchSpace.Frame (History.Config ℕ S) ℕ)) : Prop where
  nodes : s.heap.nodes = heap.nodes
  head : s.headEntry = head
  stacked : Stacked model h heap addrs s.calls s.heap.links c fs
  left_eq : left heap.nodes addrs c.linearized = pre ++ post
  calls : ∀ r ∈ pre, callAt heap.nodes r = true
  entry : s.entry = post.head?
  state : s.state = c.state
  linearized : s.linearized.Holds bits c.linearized
  length : s.longest.length = bits

/-- The topmost configuration of the search. -/
def topFrame (nodes : List (Node I O)) (c : History.Config ℕ S) (pre post : List ℕ) :
    SearchSpace.Frame (History.Config ℕ S) ℕ :=
  ⟨c, pre.map (idAt nodes), (post.takeWhile (callAt nodes)).map (idAt nodes)⟩

/-- The variables of the loop and a state of the search. -/
structure Related (model : FilledModel I O S) (h : List (DistLabs.Event ℕ I O)) (heap : Heap I O)
    (head : ℕ) (addrs : List ℕ) (bits : ℕ) (computePartial : Bool) (s : Search I O S)
    (t : SearchSpace.State (History.Config ℕ S) ℕ) : Prop where
  position : ∃ c pre post fs, Position model h heap head addrs bits s c pre post fs ∧
    t.stack = topFrame heap.nodes c pre post :: fs
  cache : Caches bits s.cache t.cache
  records : computePartial = true → Records (model.space h) t s.longest

section Loop

variable {s s' : Search I O S} {t t' : SearchSpace.State (History.Config ℕ S) ℕ}
  {c c' : History.Config ℕ S} {pre post : List ℕ}
  {fs : List (SearchSpace.Frame (History.Config ℕ S) ℕ)} {p q : ℕ}
  {x : DistLabs.Operation ℕ I O}

lemma Position.linked (hset : Setting h heap head addrs bits)
    (hpos : Position model h heap head addrs bits s c pre post fs) :
    s.heap.links.Linked s.headEntry (pre ++ post) := by
  rw [hpos.head, ← hpos.left_eq]
  exact hpos.stacked.linked hset

lemma Position.next_head (hset : Setting h heap head addrs bits)
    (hpos : Position model h heap head addrs bits s c pre post fs) :
    s.heap.links.next s.headEntry = (pre ++ post).head? :=
  (hpos.linked hset).next_eq

lemma Position.done_iff (hset : Setting h heap head addrs bits)
    (hpos : Position model h heap head addrs bits s c pre post fs) :
    (model.space h).done c ↔ s.heap.links.next s.headEntry = none := by
  rw [hset.layout.done_iff, hpos.next_head hset, hpos.left_eq, List.head?_eq_none_iff]

/-- The loop looks at a node as long as one is left. -/
lemma Position.exists_cons (hset : Setting h heap head addrs bits)
    (hpos : Position model h heap head addrs bits s c pre post fs)
    (hne : s.heap.links.next s.headEntry ≠ none) : ∃ p post', post = p :: post' := by
  cases post with
  | cons p post' => exact ⟨p, post', rfl⟩
  | nil =>
    rw [hpos.next_head hset, ← hpos.left_eq, ne_eq, List.head?_eq_none_iff] at hne
    obtain ⟨r, hr, hret⟩ := hset.layout.exists_return hne
    rw [hpos.left_eq, List.append_nil] at hr
    cases (hpos.calls r hr).symm.trans hret

/-- A call is passed over. -/
lemma Position.skip (hset : Setting h heap head addrs bits)
    (hpos : Position model h heap head addrs bits s c pre (p :: post) fs)
    (hcall : callAt heap.nodes p = true) :
    Position model h heap head addrs bits { s with entry := s.heap.links.next p } c (pre ++ [p])
      post fs where
  __ := hpos
  left_eq := by rw [hpos.left_eq, List.append_assoc, List.singleton_append]
  calls r hr := by
    rcases List.mem_append.mp hr with hr | hr
    · exact hpos.calls r hr
    · exact List.mem_singleton.mp hr ▸ hcall
  entry := (hpos.linked hset).drop.next_eq

/-- What the code finds at the cursor. -/
lemma Position.mem (hpos : Position model h heap head addrs bits s c pre (p :: post) fs) :
    p ∈ addrs ∧ idAt heap.nodes p ∉ c.linearized :=
  mem_left.mp (by simp [hpos.left_eq])

/-- A call is lifted. -/
lemma Position.push (hset : Setting h heap head addrs bits)
    (hpos : Position model h heap head addrs bits s c pre (p :: post) fs)
    (hpq : PairAt h heap.nodes addrs p q x) (hstep : (model.space h).step c x.id = some c')
    {b : Bitset} (hb : b.Holds bits c'.linearized) {cache : Cache S} :
    ∃ heap', lift s.heap p = some heap' ∧
      Position model h heap head addrs bits
        { s with
          heap := heap'
          cache := cache
          calls := ⟨p, s.state⟩ :: s.calls
          state := c'.state
          linearized := b
          entry := heap'.links.next s.headEntry }
        c' [] (left heap.nodes addrs c'.linearized)
        (topFrame heap.nodes c pre (p :: post) :: fs) := by
  have hx : x.id ∉ c.linearized := hpq.idAt_eq ▸ hpos.mem.2
  have hlift := hpq.liftable hset.nodup (hpos.stacked.linked hset) hx
  rw [← hpos.nodes] at hlift
  have hframe : topFrame heap.nodes c pre (p :: post) = ⟨c, pre.map (idAt heap.nodes),
      x.id :: (post.takeWhile (callAt heap.nodes)).map (idAt heap.nodes)⟩ := by
    rw [topFrame, List.takeWhile_cons_of_pos hpq.callAt_eq, List.map_cons, hpq.idAt_eq]
  have hstacked := Stacked.cons hpos.stacked hpos.left_eq hpos.calls hpq hstep
  refine ⟨_, hlift.lift_eq, ?_⟩
  exact
    { nodes := hpos.nodes
      head := hpos.head
      stacked := by
        rw [hframe, hpos.state]
        exact hstacked
      left_eq := rfl
      calls := by simp
      entry := by
        rw [hpos.head]
        exact (hstacked.linked hset).next_eq
      state := rfl
      linearized := hb
      length := hpos.length }

/-- The last call is put back. -/
lemma Position.pop (hset : Setting h heap head addrs bits)
    (hpos : Position model h heap head addrs bits s c pre post fs) {callsTop : CallsEntry S}
    {calls : List (CallsEntry S)} (hcalls : s.calls = callsTop :: calls) {longest : Longest}
    (hlen : longest.length = bits) :
    ∃ (node : Node I O) (n : ℕ) (b : Bitset) (heap' : Heap I O) (d : History.Config ℕ S)
      (pre' post' : List ℕ) (fs' : List (SearchSpace.Frame (History.Config ℕ S) ℕ)),
      s.heap.nodes[callsTop.entry]? = some node ∧ node.id = n ∧ s.linearized.clear n = some b ∧
      unlift s.heap callsTop.entry = some heap' ∧ callAt heap.nodes callsTop.entry = true ∧
      fs = topFrame heap.nodes d pre' (callsTop.entry :: post') :: fs' ∧
      Position model h heap head addrs bits
        { s with
          heap := heap'
          longest := longest
          linearized := b
          calls := calls
          state := callsTop.state
          entry := heap'.links.next callsTop.entry }
        d (pre' ++ [callsTop.entry]) post' fs' := by
  have hstacked := hpos.stacked
  rw [hcalls] at hstacked
  generalize hlinks : s.heap.links = links at hstacked
  cases hstacked with
  | @cons _ links d _ fs' pre' post' p q x hst hleft hpre hpq hstep =>
    obtain ⟨y, -, -, rfl⟩ := History.step_eq_some.mp hstep
    have hp := mem_left.mp (show p ∈ left heap.nodes addrs d.linearized by simp [hleft])
    rw [hpq.idAt_eq] at hp
    have hlift := hpq.liftable hset.nodup (hst.linked hset) hp.2
    obtain ⟨b, hclear, hb⟩ := hpos.linearized.clear (hpq.idAt_eq ▸ hset.lt hp.1)
    rw [Finset.erase_insert hp.2] at hb
    have hheap : s.heap = ⟨heap.nodes, (links.unlink p).unlink q⟩ := by
      rw [← hpos.nodes, ← hlinks]
    refine ⟨⟨some (.inl x.input), some q, x.id⟩, x.id, b, ⟨heap.nodes, links⟩, d, pre', post', fs',
      ?_, rfl, hclear, ?_, hpq.callAt_eq, ?_, ?_⟩
    · rw [hpos.nodes, hpq.call]
    · rw [hheap]
      exact hlift.unlift_eq
    · rw [topFrame, List.takeWhile_cons_of_pos hpq.callAt_eq, List.map_cons, hpq.idAt_eq]
    · exact
        { nodes := rfl
          head := hpos.head
          stacked := hst
          left_eq := by rw [hleft, List.append_assoc, List.singleton_append]
          calls := by
            intro r hr
            rcases List.mem_append.mp hr with hr | hr
            · exact hpre r hr
            · exact List.mem_singleton.mp hr ▸ hpq.callAt_eq
          entry := by
            have := hst.linked hset
            rw [hleft] at this
            exact this.drop.next_eq
          state := rfl
          linearized := hb
          length := hlen }

lemma Records.skip {tried todo : List ℕ} {f : SearchSpace.Frame (History.Config ℕ S) ℕ}
    {C : Set (History.Config ℕ S)} {longest : Longest} {P : SearchSpace (History.Config ℕ S) ℕ}
    (hr : Records P ⟨f :: fs, C⟩ longest) :
    Records P ⟨⟨f.config, tried, todo⟩ :: fs, C⟩ longest where
  sound := hr.sound
  keeps d hd := by simpa using hr.keeps d hd

lemma Records.push {f : SearchSpace.Frame (History.Config ℕ S) ℕ}
    {C : Set (History.Config ℕ S)} {longest : Longest} {P : SearchSpace (History.Config ℕ S) ℕ}
    (hr : Records P ⟨fs, C⟩ longest) : Records P ⟨f :: fs, insert f.config C⟩ longest where
  sound := hr.sound
  keeps d hd := by
    rcases Set.mem_insert_iff.mp hd with rfl | hd
    · exact .inl ⟨f, List.mem_cons_self, rfl⟩
    · refine (hr.keeps d hd).imp_left ?_
      rintro ⟨g, hg, rfl⟩
      exact ⟨g, List.mem_cons_of_mem _ hg, rfl⟩

/-- The sequence of a configuration is recorded before it is left. -/
lemma Records.pop {f g : SearchSpace.Frame (History.Config ℕ S) ℕ}
    {C : Set (History.Config ℕ S)} {longest longest' : Longest}
    {P : SearchSpace (History.Config ℕ S) ℕ} {l tried todo : List ℕ}
    (hr : Records P ⟨f :: g :: fs, C⟩ longest) (hp : P.Path l f.config)
    (hl : f.config.linearized = l.toFinset) (hnd : l.Nodup)
    (hrec : Recorded longest longest' (l.reverse.map Nat.cast) l.reverse) :
    Records P ⟨⟨g.config, tried, todo⟩ :: fs, C⟩ longest' where
  sound i m hm := by
    rcases hrec.origin i m hm with hm | ⟨hi, rfl⟩
    · exact hr.sound i m hm
    · exact ⟨l, _, hp, rfl, List.mem_reverse.mp hi⟩
  keeps d hd := by
    rcases hr.keeps d hd with ⟨f', hf', rfl⟩ | hkeeps
    · rcases List.mem_cons.mp hf' with rfl | hf'
      · refine .inr fun i hi => ?_
        rw [hl, List.mem_toFinset, ← List.mem_reverse] at hi
        have := hrec.keeps i hi
        rwa [List.length_map, List.length_reverse, ← List.toFinset_card_of_nodup hnd, ← hl] at this
      · rcases List.mem_cons.mp hf' with rfl | hf'
        · exact .inl ⟨_, List.mem_cons_self, rfl⟩
        · exact .inl ⟨f', List.mem_cons_of_mem _ hf', rfl⟩
    · exact .inr fun i hi => hrec.mono _ _ (hkeeps i hi)

/-- The call at the cursor is tried: it is passed over, or a configuration is entered. -/
lemma Related.tryCall (hset : Setting h heap head addrs bits)
    (hpos : Position model h heap head addrs bits s c pre (p :: post) fs)
    (hpq : PairAt h heap.nodes addrs p q x)
    (hstack : t.stack = topFrame heap.nodes c pre (p :: post) :: fs)
    (hcache : Caches bits s.cache t.cache)
    (hrec : computePartial = true → Records (model.space h) t s.longest) :
    ∃ s' t', s.tryCall model p q ⟨some (.inl x.input), some q, x.id⟩ = some s' ∧
      (model.space h).Step model.Similar t t' ∧
      Related model h heap head addrs bits computePartial s' t' := by
  obtain ⟨stack, C⟩ := t
  subst hstack
  have hframe : topFrame heap.nodes c pre (p :: post) = ⟨c, pre.map (idAt heap.nodes),
      x.id :: (post.takeWhile (callAt heap.nodes)).map (idAt heap.nodes)⟩ := by
    rw [topFrame, List.takeWhile_cons_of_pos hpq.callAt_eq, List.map_cons, hpq.idAt_eq]
  -- the call is passed over
  have hskip (hno : ∀ c', (model.space h).step c x.id = some c' →
      SearchSpace.Covered model.Similar C c') :
      ∃ t', (model.space h).Step model.Similar ⟨topFrame heap.nodes c pre (p :: post) :: fs, C⟩ t' ∧
        Related model h heap head addrs bits computePartial
          { s with entry := s.heap.links.next p } t' := by
    refine ⟨⟨topFrame heap.nodes c (pre ++ [p]) post :: fs, C⟩, ?_, ⟨_, _, _, _,
      hpos.skip hset hpq.callAt_eq, rfl⟩, hcache, fun hp => (hrec hp).skip⟩
    rw [hframe, topFrame, List.map_append, List.map_singleton, hpq.idAt_eq]
    exact .skip hno
  have hstep : (model.space h).step c x.id =
      if (model.step s.state x.input x.output).1 then
        some ⟨insert x.id c.linearized, (model.step s.state x.input x.output).2⟩
      else none := by
    simp only [History.space, hpq.operation, hpos.state]
  have hlt : x.id < bits := hpq.idAt_eq ▸ hset.lt hpos.mem.1
  obtain ⟨b, hbset, hb⟩ := hpos.linearized.set hlt
  cases hok : model.step s.state x.input x.output with
  | mk ok st =>
    rw [hok] at hstep
    have hcode := Search.tryCall.eq_def model s p q ⟨some (.inl x.input), some q, x.id⟩
    simp only [hpos.nodes, hpq.ret, hok, hbset, Option.bind_eq_bind, Option.bind_some,
      Sum.getLeft?, Sum.getRight?, Int.mem_toNat?.mpr rfl] at hcode
    cases ok with
    | false =>
      obtain ⟨t', ht', hr⟩ := hskip (by simp [hstep])
      exact ⟨_, t', hcode, ht', hr⟩
    | true =>
      have hcontains : cacheContains model s.cache ⟨b, st⟩ = true ↔
          SearchSpace.Covered model.Similar C ⟨insert x.id c.linearized, st⟩ :=
        hcache.contains_iff (c := ⟨insert x.id c.linearized, st⟩) hb
      cases hcon : cacheContains model s.cache ⟨b, st⟩ with
      | true =>
        obtain ⟨t', ht', hr⟩ := hskip fun c' hc' => by
          cases hstep.symm.trans hc'
          exact hcontains.mp hcon
        refine ⟨_, t', ?_, ht', hr⟩
        rw [hcode, hcon]
        rfl
      | false =>
        obtain ⟨heap', hlift, hpos'⟩ := hpos.push hset hpq hstep hb
        refine ⟨_, ⟨topFrame heap.nodes _ [] _ :: _, insert _ C⟩, ?_, ?_, ⟨_, _, _, _, hpos', rfl⟩,
          hcache.insert hb, fun hp => (hrec hp).push⟩
        · rw [hcode, hcon, hlift]
          rfl
        · have hmoves := hset.layout.moves_eq model.toModel ⟨insert x.id c.linearized, st⟩
          rw [hframe, topFrame, List.map_nil, ← hmoves]
          exact .push hstep fun hcov => by simp [hcontains.mpr hcov] at hcon

/-- The sequence that is recorded, if it is asked for. -/
lemma Position.exists_newLongest (hset : Setting h heap head addrs bits) (hc : History.Complete h)
    (hpos : Position model h heap head addrs bits s c pre post fs) (computePartial : Bool) :
    ∃ l longest, (model.space h).Path l c ∧ c.linearized = l.toFinset ∧ l.Nodup ∧
      s.seq = some (l.reverse.map Nat.cast) ∧ s.newLongest computePartial = some longest ∧
      longest.length = bits ∧ (computePartial = true →
        Recorded s.longest longest (l.reverse.map Nat.cast) l.reverse) := by
  have hpath := hpos.stacked.path hset
  obtain ⟨ops, hids, hops, -, hlin⟩ := History.beginning_of_path hc hpath
  have hnd := List.nodup_reverse.mp (hids ▸ hops.nodup)
  have hseq : s.seq =
      some ((s.calls.map fun v => idAt heap.nodes v.entry).reverse.map Nat.cast) := by
    rw [Search.seq, hpos.nodes]
    exact hpos.stacked.seq_eq
  generalize (s.calls.map fun v => idAt heap.nodes v.entry) = l at *
  cases computePartial with
  | false => exact ⟨l, s.longest, hpath, hlin, hnd, hseq, rfl, hpos.length, by simp⟩
  | true =>
    have hlt : ∀ i ∈ l.reverse, i < s.longest.length := by
      intro i hi
      refine hpos.length ▸ hpos.linearized.lt i ?_
      rw [hlin, List.mem_toFinset]
      exact List.mem_reverse.mp hi
    obtain ⟨longest, hfold, hr⟩ := exists_recordLongest hlt (l.reverse.map Nat.cast)
    refine ⟨l, longest, hpath, hlin, hnd, hseq, ?_, hr.length.trans hpos.length, fun _ => hr⟩
    rw [Search.newLongest, if_pos rfl, hseq]
    exact hfold

/-- The cursor is at a return: the search goes back. -/
lemma Related.backtrack (hset : Setting h heap head addrs bits) (hc : History.Complete h)
    (hpos : Position model h heap head addrs bits s c pre (p :: post) fs)
    (hret : callAt heap.nodes p = false)
    (hstack : t.stack = topFrame heap.nodes c pre (p :: post) :: fs)
    (hcache : Caches bits s.cache t.cache)
    (hrec : computePartial = true → Records (model.space h) t s.longest)
    (hnd : ¬(model.space h).done c) {callsTop : CallsEntry S} {calls : List (CallsEntry S)}
    (hcalls : s.calls = callsTop :: calls) :
    ∃ s' t', s.backtrack computePartial callsTop calls = some s' ∧
      (model.space h).Step model.Similar t t' ∧
      Related model h heap head addrs bits computePartial s' t' := by
  obtain ⟨stack, C⟩ := t
  subst hstack
  obtain ⟨l, longest, hpath, hlin, hlnd, -, hlongest, hlen, hrecorded⟩ :=
    hpos.exists_newLongest hset hc computePartial
  obtain ⟨node, n, b, heap', d, pre', post', fs', hnode, hid, hclear, hunlift, hcallAt, rfl,
    hpos'⟩ := hpos.pop hset hcalls hlen
  refine ⟨_, ⟨topFrame heap.nodes d (pre' ++ [callsTop.entry]) post' :: fs', C⟩, ?_, ?_,
    ⟨_, _, _, _, hpos', rfl⟩, hcache, fun hp => ?_⟩
  · simp only [Search.backtrack, Option.bind_eq_bind, hlongest, hnode, hid, hclear, hunlift,
      Option.bind_some, Int.mem_toNat?.mpr rfl]
  · have htop : topFrame heap.nodes c pre (p :: post) = ⟨c, pre.map (idAt heap.nodes), []⟩ := by
      rw [topFrame, List.takeWhile_cons_of_neg (by simp [hret]), List.map_nil]
    have hbelow : topFrame heap.nodes d pre' (callsTop.entry :: post') =
        ⟨d, pre'.map (idAt heap.nodes), idAt heap.nodes callsTop.entry ::
          (post'.takeWhile (callAt heap.nodes)).map (idAt heap.nodes)⟩ := by
      rw [topFrame, List.takeWhile_cons_of_pos hcallAt, List.map_cons]
    rw [htop, hbelow, topFrame, List.map_append, List.map_singleton]
    exact .pop hnd
  · exact (hrec hp).pop hpath hlin hlnd (hrecorded hp)

/-- An iteration of the loop. -/
inductive Iteration (model : FilledModel I O S) (h : List (DistLabs.Event ℕ I O)) (heap : Heap I O)
    (head : ℕ) (addrs : List ℕ) (bits : ℕ) (computePartial kill : Bool) (s : Search I O S)
    (t : SearchSpace.State (History.Config ℕ S) ℕ) : Search.Outcome I O S → Prop
  /-- All operations have been taken. -/
  | found {l : List ℕ} {c : History.Config ℕ S} (hp : (model.space h).Path l c)
      (hd : (model.space h).done c) :
      Iteration model h heap head addrs bits computePartial kill s t
        (.returns true (s.longest.map fun _ => some (l.reverse.map Nat.cast)))
  | killed (hk : kill = true) :
      Iteration model h heap head addrs bits computePartial kill s t (.returns false s.longest)
  /-- There is nothing left to try. -/
  | exhausted {tried : List ℕ} (ht : t.stack = [⟨(model.space h).root, tried, []⟩])
      (hnd : ¬(model.space h).done (model.space h).root) :
      Iteration model h heap head addrs bits computePartial kill s t (.returns false s.longest)
  | goesOn {s' : Search I O S} {t' : SearchSpace.State (History.Config ℕ S) ℕ}
      (ht : (model.space h).Step model.Similar t t')
      (hr : Related model h heap head addrs bits computePartial s' t') :
      Iteration model h heap head addrs bits computePartial kill s t (.goesOn s')

/-- An iteration does not panic, and is a step of the search if it goes on. -/
theorem Related.iterate (hset : Setting h heap head addrs bits) (hc : History.Complete h)
    (hr : Related model h heap head addrs bits computePartial s t) (kill : Bool) :
    ∃ r, s.iterate model computePartial kill = some r ∧
      Iteration model h heap head addrs bits computePartial kill s t r := by
  obtain ⟨c, pre, post, fs, hpos, hstack⟩ := hr.position
  unfold Search.iterate
  split_ifs with hnext hk
  · obtain ⟨l, -, hpath, -, -, hseq, -⟩ := hpos.exists_newLongest hset hc false
    rw [hseq]
    exact ⟨_, rfl, .found hpath ((hpos.done_iff hset).mpr hnext)⟩
  · exact ⟨_, rfl, .killed hk⟩
  · obtain ⟨p, post, rfl⟩ := hpos.exists_cons hset hnext
    have hnd : ¬(model.space h).done c := fun hd => hnext ((hpos.done_iff hset).mp hd)
    have hentry : s.entry = some p := hpos.entry
    cases hcall : callAt heap.nodes p with
    | true =>
      obtain ⟨q, x, hpq⟩ := hset.layout.call p hpos.mem.1 hcall
      obtain ⟨s', t', hcode, ht, hr'⟩ := Related.tryCall hset hpos hpq hstack hr.cache hr.records
      refine ⟨.goesOn s', ?_, .goesOn ht hr'⟩
      simp only [hentry, hpos.nodes, hpq.call, hcode, Option.bind_eq_bind, Option.bind_some,
        Option.map_some]
    | false =>
      obtain ⟨node, hnode, hmatch⟩ := hset.layout.ret p hpos.mem.1 hcall
      simp only [hentry, hpos.nodes, hnode, hmatch, Option.bind_eq_bind, Option.bind_some]
      cases hcalls : s.calls with
      | nil =>
        refine ⟨_, rfl, ?_⟩
        have hst := hpos.stacked
        rw [hcalls] at hst
        generalize s.heap.links = links at hst
        cases hst
        rw [topFrame, List.takeWhile_cons_of_neg (by simp [hcall]), List.map_nil] at hstack
        exact .exhausted hstack hnd
      | cons callsTop calls =>
        obtain ⟨s', t', hcode, ht, hr'⟩ := Related.backtrack hset hc hpos hcall hstack hr.cache
          hr.records hnd hcalls
        exact ⟨.goesOn s', by simp only [hcode, Option.map_some], .goesOn ht hr'⟩

end Loop

end Porcupine

end DistLabs
