import DistLabs.MapReduce.Worker

/-!
# The distributed result is the sequential one

If the buckets of every map task and the output of every partition are taken once, the outputs of
all partitions together are what `mrsequential` writes, in whatever order files are named, written
and read and whatever the unstable sorts do with equal keys.
-/

namespace DistLabs

namespace MapReduce

section Sequential

variable {mapf : MapFunc} {reducef : ReduceFunc} {nReduce : ℕ} {inputs : List (String × String)}
  {ids : List ℕ} {writes : List (String × List KeyValue)}

/-- The disk after the files have been written in turn. -/
def storeFiles (writes : List (String × List KeyValue)) : String → Option (List KeyValue) :=
  writes.foldl writeFile fun _ => none

lemma foldl_writeFile_of_notMem {file : String} (hf : file ∉ writes.map Prod.fst)
    (disk : String → Option (List KeyValue)) : writes.foldl writeFile disk file = disk file := by
  induction writes generalizing disk with
  | nil => rfl
  | cons q writes ih =>
    rw [List.map_cons, List.mem_cons, not_or] at hf
    rw [List.foldl_cons, ih hf.2, writeFile, Function.update_of_ne hf.1]

lemma foldl_writeFile_of_mem (hnd : (writes.map Prod.fst).Nodup) {p : String × List KeyValue}
    (hp : p ∈ writes) (disk : String → Option (List KeyValue)) :
    writes.foldl writeFile disk p.1 = some p.2 := by
  induction writes generalizing disk with
  | nil => cases hp
  | cons q writes ih =>
    obtain ⟨hq, hnd⟩ := List.nodup_cons.mp hnd
    rw [List.foldl_cons]
    rcases List.mem_cons.mp hp with rfl | hp
    · rw [foldl_writeFile_of_notMem hq, writeFile, Function.update_self]
    · exact ih hnd hp _

lemma readJson_storeFiles (hnd : (writes.map Prod.fst).Nodup) {p : String × List KeyValue}
    (hp : p ∈ writes) : readJson (storeFiles writes) p.1 = p.2 := by
  rw [readJson, storeFiles, foldl_writeFile_of_mem hnd hp, Option.getD_some]

/-- The files of all map tasks, of one attempt each, with their contents. -/
def allWrites (mapf : MapFunc) (nReduce : ℕ) (ids : List ℕ) (inputs : List (String × String)) :
    List (String × List KeyValue) :=
  (ids.zip inputs).flatMap fun p => processMapIntermediate p.1 nReduce (mapf p.2.1 p.2.2)

lemma exists_mapTempFile (h : writes.Perm (allWrites mapf nReduce ids inputs)) :
    ∀ file ∈ writes.map Prod.fst, ∃ id i, file = mapTempFile id i := by
  intro file hf
  obtain ⟨p, hp, rfl⟩ := List.mem_map.mp hf
  obtain ⟨q, _, hq⟩ := List.mem_flatMap.mp (h.mem_iff.mp hp)
  obtain ⟨i, _, rfl⟩ := List.mem_map.mp hq
  exact ⟨q.1, i, rfl⟩

lemma nodup_allWrites (hids : ids.Nodup) (hlen : ids.length = inputs.length) :
    ((allWrites mapf nReduce ids inputs).map Prod.fst).Nodup := by
  rw [allWrites, List.map_flatMap]
  refine List.nodup_flatMap.mpr ⟨fun p _ => ?_, ?_⟩
  · simp only [processMapIntermediate, mapTempFilesConsumer, List.map_map]
    exact List.nodup_range.map fun i j h => (mapTempFile_injective h).2
  · have hfst : ((ids.zip inputs).map Prod.fst).Nodup := by
      rwa [List.map_fst_zip hlen.le]
    refine (List.pairwise_map.mp hfst).imp fun {p q} hne file hp hq => hne ?_
    simp only [processMapIntermediate, mapTempFilesConsumer, List.map_map, List.mem_map] at hp hq
    obtain ⟨i, _, rfl⟩ := hp
    obtain ⟨j, _, heq⟩ := hq
    exact (mapTempFile_injective heq).1.symm

/-- The bucket of one attempt with the number `i`. -/
lemma filter_processMapIntermediate (id : ℕ) (items : List KeyValue) {i : ℕ} (hi : i < nReduce) :
    ((processMapIntermediate id nReduce items).filter fun p => bucketOf p.1 = i).flatMap Prod.snd =
      items.filter fun p => ihash p.1 % nReduce = i := by
  have hone : (List.range nReduce).filter (fun j => j = i) = [i] := by
    have hrep := List.filter_beq (l := List.range nReduce) i
    rw [List.nodup_range.count, if_pos (List.mem_range.mpr hi)] at hrep
    exact hrep
  rw [processMapIntermediate, mapTempFilesConsumer, List.filter_map, List.flatMap_map]
  simp only [Function.comp_def, bucketOf_mapTempFile, hone, List.flatMap_singleton,
    mapTempFilesProducer_eq]

/-- The buckets of all attempts with the number `i`. -/
lemma filter_allWrites (hlen : ids.length = inputs.length) {i : ℕ} (hi : i < nReduce) :
    ((allWrites mapf nReduce ids inputs).filter fun p => bucketOf p.1 = i).flatMap Prod.snd =
      (inputs.flatMap fun p => mapf p.1 p.2).filter fun p => ihash p.1 % nReduce = i := by
  rw [allWrites, List.filter_flatMap, List.flatMap_assoc, List.filter_flatMap]
  simp only [filter_processMapIntermediate _ _ hi]
  have hsnd : (ids.zip inputs).map Prod.snd = inputs := List.map_snd_zip hlen.ge
  conv_rhs => rw [← hsnd, List.flatMap_map]

/-- Whatever the orders, the items of a partition are those of all files that hash to it. -/
lemma perm_items (hids : ids.Nodup) (hlen : ids.length = inputs.length)
    (hw : writes.Perm (allWrites mapf nReduce ids inputs)) {tempFiles order : List String}
    (ht : tempFiles.Perm (writes.map Prod.fst)) {i : ℕ} (hi : i < nReduce)
    (ho : order.Perm (groupIntermediateFiles tempFiles i)) :
    (order.flatMap (readJson (storeFiles writes))).Perm
      ((inputs.flatMap fun p => mapf p.1 p.2).filter fun p => ihash p.1 % nReduce = i) := by
  have hnd : (writes.map Prod.fst).Nodup := (hw.map _).nodup_iff.mpr (nodup_allWrites hids hlen)
  have hnames : ∀ file ∈ tempFiles, ∃ id i, file = mapTempFile id i :=
    fun file hf => exists_mapTempFile hw file (ht.mem_iff.mp hf)
  rw [groupIntermediateFiles_eq hnames] at ho
  have hread : ((writes.map Prod.fst).filter fun file => bucketOf file = i).flatMap
      (readJson (storeFiles writes)) =
        (writes.filter fun p => bucketOf p.1 = i).flatMap Prod.snd := by
    rw [List.filter_map, List.flatMap_map]
    refine List.flatMap_congr fun p hp => readJson_storeFiles hnd (List.mem_filter.mp hp).1
  refine ((ho.trans (ht.filter _)).flatMap_right _).trans ?_
  rw [hread]
  refine ((hw.filter _).flatMap_right _).trans ?_
  rw [filter_allWrites hlen hi]

/-- The distributed program computes the sequential result: for every list of files with their
contents, every map function, every reduce function that does not depend on the order of the values
of a key and every number of partitions, if the files of one attempt of every map task are written
and named to the coordinator, in any order, and every partition is reduced once, in any order of the
batches, then the results of all partitions are those of `mrsequential`, up to order, and every key
is in exactly one partition. -/
theorem distributed_eq_sequential (hf : OrderFree reducef) (hn : 0 < nReduce)
    (hids : ids.Nodup) (hlen : ids.length = inputs.length)
    (hw : writes.Perm (allWrites mapf nReduce ids inputs)) {tempFiles : List String}
    (ht : tempFiles.Perm (writes.map Prod.fst)) {result : ℕ → List KeyValue}
    (hr : ∀ i < nReduce, Reduces (storeFiles writes) reducef
      (groupIntermediateFiles tempFiles i) (result i))
    {out : List KeyValue} (hs : Sequential mapf reducef inputs out) :
    ((List.range nReduce).flatMap result).Perm out ∧
      ∀ key ∈ (inputs.flatMap fun p => mapf p.1 p.2).map Prod.fst,
        ∃! i, i < nReduce ∧ key ∈ (result i).map Prod.fst := by
  have hpart : ∀ i < nReduce, IsReduction reducef
      ((inputs.flatMap fun p => mapf p.1 p.2).filter fun p => ihash p.1 % nReduce = i)
      (result i) := by
    intro i hi
    obtain ⟨order, sorted, ho, ⟨hperm, hsorted⟩, hres⟩ := hr i hi
    rw [hres]
    exact (isReduction_reduceRuns hsorted).perm_left hf
      (hperm.trans (perm_items hids hlen hw ht hi ho))
  refine ⟨?_, ?_⟩
  · obtain ⟨sorted, ⟨hperm, hsorted⟩, rfl⟩ := hs
    have hall := IsReduction.flatMap (c := fun key => ihash key % nReduce)
      (fun p _ => Nat.mod_lt _ hn) hpart
    exact hall.unique ((isReduction_reduceRuns hsorted).perm_left hf hperm)
  · intro key hkey
    obtain ⟨p, hp, rfl⟩ := List.mem_map.mp hkey
    have hlt : ihash p.1 % nReduce < nReduce := Nat.mod_lt _ hn
    refine ⟨ihash p.1 % nReduce, ⟨hlt, ((hpart _ hlt).mem_iff p.1).mpr ?_⟩, ?_⟩
    · exact List.mem_map_of_mem (List.mem_filter.mpr ⟨hp, decide_eq_true rfl⟩)
    · rintro j ⟨hj, hkj⟩
      exact ((hpart j hj).class_eq (c := fun key => ihash key % nReduce) hkj).symm

/-- A job with one key: every file maps to a pair of its contents and its name. -/
def contentsOf : MapFunc := fun file contents => [(contents, file)]

/-- The number of values, as in the word count application. -/
def countValues : ReduceFunc := fun _ values => toString values.length

lemma orderFree_countValues : OrderFree countValues := fun _ _ _ h => by
  rw [countValues, countValues, h.length_eq]

/-- The files of the attempts 4 and 7 of two inputs with the same contents, written in reverse
order. -/
def twoFiles : List (String × List KeyValue) :=
  (allWrites contentsOf 2 [4, 7] [("a.txt", "word"), ("b.txt", "word")]).reverse

/-- The items of partition `i` when the batches arrive as the files are grouped. -/
def twoFilesItems (i : ℕ) : List KeyValue :=
  (groupIntermediateFiles (twoFiles.map Prod.fst) i).flatMap (readJson (storeFiles twoFiles))

theorem distributed_eq_sequential_twoFiles :
    ((List.range 2).flatMap fun i => partition (twoFilesItems i) countValues).Perm
      [("word", "2")] := by
  have hsorted : ∀ i < 2, (twoFilesItems i).Pairwise fun a b => a.1 ≤ b.1 := by decide +kernel
  exact (@distributed_eq_sequential contentsOf countValues 2
    [("a.txt", "word"), ("b.txt", "word")] [4, 7] twoFiles orderFree_countValues (by decide)
    (by decide) rfl (List.reverse_perm _) _ (.refl _) _
    (fun i hi => ⟨_, twoFilesItems i, .refl _, ⟨.refl _, hsorted i hi⟩, rfl⟩) _
    ⟨[("word", "a.txt"), ("word", "b.txt")], ⟨.refl _, by decide⟩, rfl⟩).1

end Sequential

end MapReduce

end DistLabs
