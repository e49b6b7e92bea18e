import DistLabs.Lib.ReduceByKey
import DistLabs.MapReduce.Coordinator
import Mathlib.Data.List.TakeDrop
import Mathlib.Data.String.Basic

/-!
# The MapReduce worker and the sequential program

What a worker computes for a map and for a reduce task, the names of the files it leaves, and the
program of `mrsequential`. Where the order of goroutines decides, the result is given by a relation
that allows every order.

The names are what the coordinator groups the files by, so a file must be found again under the
number of its bucket, and files of different attempts or buckets must have different names.
-/

namespace DistLabs

namespace MapReduce

/-- The fields `Key` and `Value`. -/
abbrev KeyValue := String × String

abbrev MapFunc := String → String → List KeyValue

abbrev ReduceFunc := String → List String → String

/-! ### Map tasks -/

/-- The hash of `fnv.New32a`. -/
def fnv32a (bytes : List UInt8) : UInt32 :=
  bytes.foldl (fun h b => (h ^^^ b.toUInt32) * 16777619) 2166136261

def ihash (key : String) : ℕ := (fnv32a key.toUTF8.data.toList &&& 0x7fffffff).toNat

/-- What is sent on each channel of `hashC`. -/
def mapTempFilesProducer (nReduce : ℕ) (items : List KeyValue) : ℕ → List KeyValue :=
  items.foldl (fun hashC item =>
    let hashValue := ihash item.1 % nReduce
    Function.update hashC hashValue (hashC hashValue ++ [item])) fun _ => []

/-- The name of the intermediate file of bucket `i` of the attempt `id`. -/
def mapTempFile (id i : ℕ) : String := s!"mr-{id}-{i}.json"

/-- The file of every channel of `hashC`, with its contents. -/
def mapTempFilesConsumer (id nReduce : ℕ) (hashC : ℕ → List KeyValue) :
    List (String × List KeyValue) :=
  (List.range nReduce).map fun i => (mapTempFile id i, hashC i)

/-- The files of an attempt with their contents. -/
def processMapIntermediate (id nReduce : ℕ) (items : List KeyValue) :
    List (String × List KeyValue) :=
  mapTempFilesConsumer id nReduce (mapTempFilesProducer nReduce items)

/-! ### Reduce tasks -/

/-- What `sort.Sort(ByKey(items))` may make of the items. Go compares strings by their bytes, which
for UTF-8 is the order of the characters. -/
def Sorts (items sorted : List KeyValue) : Prop :=
  sorted.Perm items ∧ sorted.Pairwise fun a b => a.1 ≤ b.1

instance (items sorted : List KeyValue) : Decidable (Sorts items sorted) :=
  inferInstanceAs (Decidable (_ ∧ _))

def partition (items : List KeyValue) (reducef : ReduceFunc) : List KeyValue :=
  reduceRuns reducef items

/-- The batch `readJson` sends, if any. -/
def readJson (disk : String → Option (List KeyValue)) (file : String) : List KeyValue :=
  (disk file).getD []

/-- What `reduce` may return: the batches arrive in any order. -/
def Reduces (disk : String → Option (List KeyValue)) (reducef : ReduceFunc) (files : List String)
    (result : List KeyValue) : Prop :=
  ∃ (order : List String) (sorted : List KeyValue), order.Perm files ∧
    Sorts (order.flatMap (readJson disk)) sorted ∧
    result = partition sorted reducef

/-- The name of the file `saveReduceResult` writes to. -/
def reduceOutFile (id : ℕ) : String := s!"mr-out{id}.txt"

/-- Write a file: `os.Rename` puts it under its name as a whole. -/
def writeFile (disk : String → Option (List KeyValue)) (p : String × List KeyValue) :
    String → Option (List KeyValue) :=
  Function.update disk p.1 (some p.2)

/-! ### The sequential program -/

/-- What `mrsequential` may write for a list of files with their contents. -/
def Sequential (mapf : MapFunc) (reducef : ReduceFunc) (inputs : List (String × String))
    (out : List KeyValue) : Prop :=
  ∃ intermediate, Sorts (inputs.flatMap fun p => mapf p.1 p.2) intermediate ∧
    out = reduceRuns reducef intermediate

/-! ### Buckets -/

lemma mapTempFilesProducer_eq (nReduce : ℕ) (items : List KeyValue) (i : ℕ) :
    mapTempFilesProducer nReduce items i = items.filter fun p => ihash p.1 % nReduce = i := by
  have hfold : ∀ (items : List KeyValue) (hashC : ℕ → List KeyValue),
      items.foldl (fun hashC item =>
        let hashValue := ihash item.1 % nReduce
        Function.update hashC hashValue (hashC hashValue ++ [item])) hashC i =
      hashC i ++ items.filter fun p => ihash p.1 % nReduce = i := by
    intro items
    induction items with
    | nil => simp
    | cons item items ih =>
      intro hashC
      rw [List.foldl_cons, ih]
      by_cases hi : ihash item.1 % nReduce = i
      · simp [hi]
      · simp [hi, Function.update_of_ne (Ne.symm hi)]
  exact hfold items _

/-! ### Names -/

lemma toList_mapTempFile (id i : ℕ) :
    (mapTempFile id i).toList =
      'm' :: 'r' :: '-' ::
        (Nat.toDigits 10 id ++ '-' :: (Nat.toDigits 10 i ++ ".json".toList)) := by
  simp [mapTempFile]
  rfl

lemma toDigits_injective : Function.Injective (Nat.toDigits 10) := by
  intro m n h
  rw [← Nat.ofDigitChars_ten_toDigits (n := m), h, Nat.ofDigitChars_ten_toDigits]

/-- Digits in front of another character are found by the longest match. -/
lemma span_isDigit_toDigits (n : ℕ) {c : Char} (hc : c.isDigit = false) (rest : List Char) :
    (Nat.toDigits 10 n ++ c :: rest).span Char.isDigit = (Nat.toDigits 10 n, c :: rest) := by
  have hall : ∀ d ∈ Nat.toDigits 10 n, d.isDigit = true :=
    fun d hd => Nat.isDigit_of_mem_toDigits (by decide) (by decide) hd
  rw [List.span_eq_takeWhile_dropWhile, List.takeWhile_append_of_pos hall,
    List.dropWhile_append_of_pos hall]
  simp [hc]

lemma findSubmatch_mapTempFile (id i : ℕ) :
    findSubmatch (mapTempFile id i) = some (String.ofList (Nat.toDigits 10 i)) := by
  obtain ⟨d, ds, hid⟩ := List.exists_cons_of_ne_nil (Nat.toDigits_ne_nil (b := 10) (n := id))
  obtain ⟨e, es, hi⟩ := List.exists_cons_of_ne_nil (Nat.toDigits_ne_nil (b := 10) (n := i))
  have hspan := span_isDigit_toDigits id (c := '-') rfl (Nat.toDigits 10 i ++ ".json".toList)
  have hspan' := span_isDigit_toDigits i (c := '.') rfl ['j', 's', 'o', 'n']
  have hjson : ".json".toList = ['.', 'j', 's', 'o', 'n'] := rfl
  rw [hid, hi, hjson] at hspan
  rw [hi] at hspan'
  simp only [findSubmatch, toList_mapTempFile, hid, hi, hjson, hspan, hspan']

lemma atoi_ofList_toDigits (i : ℕ) : atoi (String.ofList (Nat.toDigits 10 i)) = i := by
  rw [atoi, String.toList_ofList]
  exact Nat.ofDigitChars_ten_toDigits

lemma mapTempFile_injective {id id' i i' : ℕ} (h : mapTempFile id i = mapTempFile id' i') :
    id = id' ∧ i = i' := by
  have hlist := congrArg String.toList h
  simp only [toList_mapTempFile, List.cons.injEq, true_and] at hlist
  -- the digits of the id end at the second dash
  have hspan := congrArg (List.span Char.isDigit) hlist
  rw [span_isDigit_toDigits id rfl, span_isDigit_toDigits id' rfl] at hspan
  simp only [Prod.mk.injEq, List.cons.injEq, true_and, List.append_cancel_right_eq] at hspan
  exact ⟨toDigits_injective hspan.1, toDigits_injective hspan.2⟩

/-- The number of the bucket in a name. -/
def bucketOf (file : String) : ℕ := atoi ((findSubmatch file).getD "")

@[simp]
lemma bucketOf_mapTempFile (id i : ℕ) : bucketOf (mapTempFile id i) = i := by
  rw [bucketOf, findSubmatch_mapTempFile, Option.getD_some, atoi_ofList_toDigits]

/-- Files named by workers are grouped by the number of their bucket. -/
lemma groupIntermediateFiles_eq {files : List String}
    (h : ∀ file ∈ files, ∃ id i, file = mapTempFile id i) (i : ℕ) :
    groupIntermediateFiles files i = files.filter fun file => bucketOf file = i := by
  have hfold : ∀ acc, (files.foldl groupFile acc).1 i =
      acc.1 i ++ files.filter fun file => bucketOf file = i := by
    induction files with
    | nil => simp
    | cons file files ih =>
      intro acc
      obtain ⟨id, j, rfl⟩ := h file List.mem_cons_self
      have hgroup : (groupFile acc (mapTempFile id j)).1 =
          Function.update acc.1 j (acc.1 j ++ [mapTempFile id j]) := by
        simp only [groupFile, findSubmatch_mapTempFile, Option.getD_some, atoi_ofList_toDigits]
      rw [List.foldl_cons, ih fun file hf => h file (List.mem_cons_of_mem _ hf), hgroup]
      by_cases hj : j = i
      · simp [hj]
      · simp [hj, Function.update_of_ne (Ne.symm hj)]
  exact hfold _

end MapReduce

end DistLabs
