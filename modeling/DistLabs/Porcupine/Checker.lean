import DistLabs.Lib.DoublyLinked
import DistLabs.Lib.Linearizability
import DistLabs.Porcupine.Bitset

/-!
# The linearizability checker

`checkSingle` looks for a linearization of one history. The entries of the history are nodes of a
doubly linked list. A call whose output is right in the present state is lifted out of the list with
its return, and the search starts again from the head of the list; when it meets a return, it puts
the last call back and goes on behind it. What has been linearized and the state this led to are
kept in a cache, and are not tried a second time.

A node is the number of its allocation, and `none` is `nil`. A function that would panic gives
`none`.
-/

namespace DistLabs

namespace Porcupine

/-! ### Models and histories -/

structure Operation (I O : Type) where
  input : I
  call : ℤ
  output : O
  return_ : ℤ
  deriving DecidableEq

/-- The value of a call event is an input, that of a return event an output. -/
structure Event (ι I O : Type) where
  value : I ⊕ O
  id : ι

/-- A sequential object with the functions a model may leave out. -/
structure Model (I O S : Type) extends DistLabs.Model I O S where
  partition : Option (List (Operation I O) → List (List (Operation I O))) := none
  partitionEvent : Option (List (Event ℤ I O) → List (List (Event ℤ I O))) := none
  equal : Option (S → S → Bool) := none

/-- A model with all functions. -/
structure FilledModel (I O S : Type) extends DistLabs.Model I O S where
  partition : List (Operation I O) → List (List (Operation I O))
  partitionEvent : List (Event ℤ I O) → List (List (Event ℤ I O))
  equal : S → S → Bool

open scoped List

variable {I O S : Type}

def noPartition (history : List (Operation I O)) : List (List (Operation I O)) := [history]

def noPartitionEvent (history : List (Event ℤ I O)) : List (List (Event ℤ I O)) := [history]

def shallowEqual [DecidableEq S] (state1 state2 : S) : Bool := decide (state1 = state2)

def fillDefault [DecidableEq S] (model : Model I O S) : FilledModel I O S where
  toModel := model.toModel
  partition := model.partition.getD noPartition
  partitionEvent := model.partitionEvent.getD noPartitionEvent
  equal := model.equal.getD shallowEqual

/-! ### Entries -/

/-- The kind of an entry is the side on which its value is. -/
structure Entry (I O : Type) where
  value : I ⊕ O
  id : ℕ
  time : ℤ

def Entry.isReturn (e : Entry I O) : Bool := e.value.isRight

/-- `byTime`: of entries with the same time, calls come before returns. -/
def Entry.less (a b : Entry I O) : Bool :=
  if a.time ≠ b.time then decide (a.time < b.time) else !a.isReturn && b.isReturn

/-- The entries of `makeEntries` before they are sorted. -/
def unsortedEntries (history : List (Operation I O)) : List (Entry I O) :=
  history.zipIdx.flatMap fun (elem, id) =>
    [⟨.inl elem.input, id, elem.call⟩, ⟨.inr elem.output, id, elem.return_⟩]

/-- `makeEntries`, with every result that `sort.Sort` may give. -/
structure MakesEntries (history : List (Operation I O)) (entries : List (Entry I O)) : Prop where
  perm : entries ~ unsortedEntries history
  sorted : entries.Pairwise fun a b => b.less a = false

/-- The loop of `renumber`; `m` is the renumbering so far and `id` the next number. -/
def renumberFrom (m : ℤ → Option ℕ) (id : ℕ) : List (Event ℤ I O) → List (Event ℕ I O)
  | [] => []
  | v :: events =>
    match m v.id with
    | some r => ⟨v.value, r⟩ :: renumberFrom m id events
    | none => ⟨v.value, id⟩ :: renumberFrom (Function.update m v.id (some id)) (id + 1) events

def renumber (events : List (Event ℤ I O)) : List (Event ℕ I O) :=
  renumberFrom (fun _ => none) 0 events

/-- The index is used as time. -/
def convertEntries (events : List (Event ℕ I O)) : List (Entry I O) :=
  events.zipIdx.map fun (elem, i) => ⟨elem.value, elem.id, i⟩

/-! ### Linked entries -/

/-- The fields of a node that do not change; `next` and `prev` are in the links of the heap. -/
structure Node (I O : Type) where
  value : Option (I ⊕ O)
  match_ : Option ℕ
  id : ℤ

structure Heap (I O : Type) where
  nodes : List (Node I O)
  links : Links ℕ

def insertBefore (links : Links ℕ) (n : ℕ) (mark : Option ℕ) : Links ℕ :=
  match mark with
  | none => links
  | some mark =>
    let beforeMark := links.prev mark
    let links := (links.setPrev mark (some n)).setNext n (some mark)
    match beforeMark with
    | none => links
    | some beforeMark => (links.setPrev n (some beforeMark)).setNext beforeMark (some n)

/-- The loop of `length`. -/
def length (links : Links ℕ) : ℕ → Option ℕ → Option ℕ
  | _, none => some 0
  | 0, some _ => none
  | fuel + 1, some n => (length links fuel (links.next n)).map (· + 1)

/-- The variables of the loop of `makeLinkedEntries`. -/
structure LinkedEntries (I O : Type) where
  heap : Heap I O
  root : Option ℕ
  match_ : ℕ → Option ℕ

/-- A new node is put before the root. -/
def LinkedEntries.add (l : LinkedEntries I O) (node : Node I O) : LinkedEntries I O where
  heap := ⟨l.heap.nodes ++ [node], insertBefore l.heap.links l.heap.nodes.length l.root⟩
  root := some l.heap.nodes.length
  match_ := l.match_

/-- The loop runs from the last entry to the first. -/
def makeLinkedEntries : List (Entry I O) → LinkedEntries I O
  | [] => ⟨⟨[], ⟨fun _ => none, fun _ => none⟩⟩, none, fun _ => none⟩
  | elem :: entries =>
    let l := makeLinkedEntries entries
    if elem.isReturn then
      { l.add ⟨some elem.value, none, elem.id⟩ with
        match_ := Function.update l.match_ elem.id (some l.heap.nodes.length) }
    else l.add ⟨some elem.value, l.match_ elem.id, elem.id⟩

/-- Take a call and its return out of the list. -/
def lift (h : Heap I O) (entry : ℕ) : Option (Heap I O) := do
  let node ← h.nodes[entry]?
  let prev ← h.links.prev entry
  let links := h.links.setNext prev (h.links.next entry)
  let next ← links.next entry
  let links := links.setPrev next (links.prev entry)
  let m ← node.match_
  let prev ← links.prev m
  let links := links.setNext prev (links.next m)
  match links.next m with
  | none => some { h with links := links }
  | some next => some { h with links := links.setPrev next (links.prev m) }

/-- Put a call and its return back. -/
def unlift (h : Heap I O) (entry : ℕ) : Option (Heap I O) := do
  let node ← h.nodes[entry]?
  let m ← node.match_
  let prev ← h.links.prev m
  let links := h.links.setNext prev (some m)
  let links :=
    match links.next m with
    | none => links
    | some next => links.setPrev next (some m)
  let prev ← links.prev entry
  let links := links.setNext prev (some entry)
  let next ← links.next entry
  some { h with links := links.setPrev next (some entry) }

/-! ### The search -/

structure CacheEntry (S : Type) where
  linearized : Bitset
  state : S

/-- A map from hashes to entries. -/
abbrev Cache (S : Type) := BitVec 64 → List (CacheEntry S)

def cacheContains (model : FilledModel I O S) (cache : Cache S) (entry : CacheEntry S) : Bool :=
  (cache entry.linearized.hash).any fun elem =>
    entry.linearized.equals elem.linearized && model.equal entry.state elem.state

structure CallsEntry (S : Type) where
  entry : ℕ
  state : S

/-- For each operation the longest sequence seen that has it. -/
abbrev Longest := List (Option (List ℤ))

/-- The variables of the loop of `checkSingle`. The last of the calls comes first. -/
structure Search (I O S : Type) where
  heap : Heap I O
  headEntry : ℕ
  entry : Option ℕ
  state : S
  linearized : Bitset
  cache : Cache S
  calls : List (CallsEntry S)
  longest : Longest

namespace Search

/-- The ids of the calls, the first one first. -/
def seq (s : Search I O S) : Option (List ℤ) :=
  s.calls.reverse.mapM fun v => s.heap.nodes[v.entry]?.map Node.id

/-- Keep a sequence for an operation if it is the longest. -/
def recordFor (seq : List ℤ) (longest : Longest) (id : ℤ) : Option Longest := do
  let i ← id.toNat?
  let l ← longest[i]?
  if l.all fun l => l.length < seq.length then some (longest.set i (some seq)) else some longest

/-- Keep a sequence for those of its operations for which it is the longest. -/
def recordLongest (seq : List ℤ) (longest : Longest) : Option Longest :=
  seq.foldlM (recordFor seq) longest

/-- The longest sequences when the search goes back. -/
def newLongest (computePartial : Bool) (s : Search I O S) : Option Longest :=
  if computePartial then s.seq.bind fun seq => recordLongest seq s.longest else some s.longest

/-- What an iteration of the loop leads to. -/
inductive Outcome (I O S : Type) where
  | goesOn (s : Search I O S)
  | returns (ok : Bool) (longest : Longest)

/-- The search before its first iteration. -/
def start (model : FilledModel I O S) (history : List (Entry I O)) : Option (Search I O S) := do
  let l := makeLinkedEntries history
  let n := (← length l.heap.links (l.heap.nodes.length + 1) l.root) / 2
  let l' := l.add ⟨none, none, -1⟩
  some
    { heap := l'.heap
      headEntry := l.heap.nodes.length
      entry := l.root
      state := model.init
      linearized := Bitset.newBitset n
      cache := fun _ => []
      calls := []
      longest := List.replicate n none }

/-- The call at the cursor is linearized next. -/
def tryCall (model : FilledModel I O S) (s : Search I O S) (entry matching : ℕ) (node : Node I O) :
    Option (Search I O S) := do
  let ret ← s.heap.nodes[matching]?
  let input ← node.value.bind Sum.getLeft?
  let output ← ret.value.bind Sum.getRight?
  let (ok, newState) := model.step s.state input output
  if ok then
    let newLinearized ← s.linearized.set (← node.id.toNat?)
    let newCacheEntry : CacheEntry S := ⟨newLinearized, newState⟩
    if !cacheContains model s.cache newCacheEntry then
      let hash := newLinearized.hash
      let heap ← lift s.heap entry
      some
        { s with
          heap := heap
          cache := Function.update s.cache hash (s.cache hash ++ [newCacheEntry])
          calls := ⟨entry, s.state⟩ :: s.calls
          state := newState
          linearized := newLinearized
          entry := heap.links.next s.headEntry }
    else some { s with entry := s.heap.links.next entry }
  else some { s with entry := s.heap.links.next entry }

/-- The last call is put back. -/
def backtrack (computePartial : Bool) (s : Search I O S) (callsTop : CallsEntry S)
    (calls : List (CallsEntry S)) : Option (Search I O S) := do
  let longest ← s.newLongest computePartial
  let node ← s.heap.nodes[callsTop.entry]?
  let linearized ← s.linearized.clear (← node.id.toNat?)
  let heap ← unlift s.heap callsTop.entry
  some
    { s with
      heap := heap
      longest := longest
      linearized := linearized
      calls := calls
      state := callsTop.state
      entry := heap.links.next callsTop.entry }

/-- One iteration of the loop, or what comes after it. -/
def iterate (model : FilledModel I O S) (computePartial kill : Bool) (s : Search I O S) :
    Option (Outcome I O S) :=
  if s.heap.links.next s.headEntry = none then do
    let seq ← s.seq
    some (.returns true (s.longest.map fun _ => some seq))
  else if kill then some (.returns false s.longest)
  else do
    let entry ← s.entry
    let node ← s.heap.nodes[entry]?
    match node.match_ with
    | some matching => (s.tryCall model entry matching node).map .goesOn
    | none =>
      match s.calls with
      | [] => some (.returns false s.longest)
      | callsTop :: calls => (s.backtrack computePartial callsTop calls).map .goesOn

/-- The loop, undisturbed. -/
def loop (model : FilledModel I O S) (computePartial : Bool) :
    ℕ → Search I O S → Option (Bool × Longest)
  | 0, _ => none
  | fuel + 1, s =>
    match s.iterate model computePartial false with
    | none => none
    | some (.returns ok longest) => some (ok, longest)
    | some (.goesOn s') => loop model computePartial fuel s'

end Search

def checkSingle (model : FilledModel I O S) (history : List (Entry I O)) (computePartial : Bool)
    (fuel : ℕ) : Option (Bool × Longest) := do
  let s ← Search.start model history
  s.loop model computePartial fuel

end Porcupine

end DistLabs
