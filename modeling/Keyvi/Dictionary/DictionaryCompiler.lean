import Mathlib
import Keyvi.Dictionary.DictionaryCompilerCommon
import Keyvi.Dictionary.DictionaryMergerQueue

/-!
# The dictionary compiler

`DictionaryCompiler` sorts in memory while the keys fit; otherwise it writes chunks, each sorted and
compiled, and merges them. Of equal keys the generator takes the first in the sorted list, which may be
any of them, and the merge takes the newest chunk.
-/

namespace Keyvi.Dictionary

open SortedRuns

variable {V : Type} {W : ValueStoreWriter V}

/-- The members of `DictionaryCompiler`; `chunks` are the files of the chunks with their keys and the
index of each value. -/
structure DictionaryCompiler (W : ValueStoreWriter V) where
  keyValues : List KeyValue
  valueStore : W.State
  generator : Option Generator
  memoryLimit : Nat
  memoryEstimate : Nat
  chunks : List (List (Key × Nat))
  sizeOfKeys : Nat
  parallelSortThreshold : Nat

/-- The iterator at the start of a chunk. The iterator of a chunk without keys is at its end, with an
empty key. -/
def chunkIterator (chunk : List (Key × Nat)) (segmentIndex : Nat) : SegmentIterator :=
  (SegmentIterator.ofEntries chunk segmentIndex).getD ⟨[], 0, [], segmentIndex⟩

/-- The loop that merges the chunks. -/
def mergeChunks (getMergeWeight : Nat → Nat) (segmentsPqueue : SegmentQueue)
    (generator : Generator) : Generator :=
  match _h : segmentsPqueue.top with
  | none => generator
  | some segmentIt =>
    mergeChunks getMergeWeight
      ((segmentsPqueue.pop.passOver segmentIt.key).pushNext segmentIt)
      (generator.add segmentIt.key
        ⟨segmentIt.valueId, getMergeWeight segmentIt.valueId, false, false⟩)
termination_by segmentsPqueue.size
decreasing_by
  have := Merging.size_pop _h
  have := SegmentQueue.size_passOver segmentIt.key segmentsPqueue.pop
  rw [Merging.size_pushNext]
  omega

/-- All sorted key value pairs are added to a generator. -/
def feedSorted (keyValues : List KeyValue) : Generator :=
  keyValues.foldl (fun generator keyValue => generator.add keyValue.key keyValue.value) Generator.new

/-- The file of a chunk. -/
def chunkFile (keyValues : List KeyValue) : List (Key × Nat) :=
  (feedSorted keyValues).entries.map fun e => (e.1, e.2.valueIdx)

namespace DictionaryCompiler

def new (W : ValueStoreWriter V) (memoryLimit parallelSortThreshold : Nat) :
    Except CompilerError (DictionaryCompiler W) :=
  if memoryLimit < 1024 * 1024 then .error .memoryLimitMustBeAtLeast1MB
  else .ok ⟨[], W.new, none, memoryLimit, 0, [], 0, parallelSortThreshold⟩

section Compile

variable (stdSort blockIndirectSort : List KeyValue → List KeyValue) (estimateMemory : Key → Nat)

/-- `Sort`. -/
def sort (c : DictionaryCompiler W) : List KeyValue :=
  if c.parallelSortThreshold < c.keyValues.length ∧ c.parallelSortThreshold ≠ 0 then
    blockIndirectSort c.keyValues
  else stdSort c.keyValues

/-- `CreateChunk`. -/
def createChunk (c : DictionaryCompiler W) : DictionaryCompiler W :=
  { c with
    chunks := c.chunks ++ [chunkFile (c.sort stdSort blockIndirectSort)]
    keyValues := []
    memoryEstimate := 0 }

/-- `TriggerSortAndChunkGenerationIfNeeded`. -/
def triggerSortAndChunkGenerationIfNeeded (c : DictionaryCompiler W) : DictionaryCompiler W :=
  if c.memoryEstimate < c.memoryLimit then c else c.createChunk stdSort blockIndirectSort

/-- `Add`. -/
def add (c : DictionaryCompiler W) (inputKey : Key) (value : V) :
    Except CompilerError (DictionaryCompiler W) :=
  if c.generator.isSome then .error .noMoreDataOnceCompilationIsDone
  else
    let (valueStore, handle) := W.registerValue c.valueStore value
    .ok (triggerSortAndChunkGenerationIfNeeded stdSort blockIndirectSort { c with
      sizeOfKeys := c.sizeOfKeys + inputKey.length
      memoryEstimate := c.memoryEstimate + estimateMemory inputKey
      valueStore := valueStore
      keyValues := c.keyValues ++ [⟨inputKey, handle⟩] })

/-- `CompileSingleChunk`. -/
def compileSingleChunk (c : DictionaryCompiler W) : DictionaryCompiler W :=
  { c with generator := some (feedSorted (c.sort stdSort blockIndirectSort)), keyValues := [] }

/-- `CompileByMergingChunks`. -/
def compileByMergingChunks (c : DictionaryCompiler W) : DictionaryCompiler W :=
  let c := if c.keyValues.length > 0 then c.createChunk stdSort blockIndirectSort else c
  let segmentsPqueue :=
    c.chunks.foldl (fun q chunk => SegmentQueue.push q (chunkIterator chunk q.length)) []
  { c with
    generator := some (mergeChunks W.getMergeWeight segmentsPqueue Generator.new)
    chunks := [] }

/-- `Compile`. -/
def compile (c : DictionaryCompiler W) : DictionaryCompiler W :=
  if c.generator.isSome then c
  else if c.chunks.length = 0 then c.compileSingleChunk stdSort blockIndirectSort
  else c.compileByMergingChunks stdSort blockIndirectSort

/-- `Add` for every key and value in turn. -/
def addAll (c : DictionaryCompiler W) :
    List (Key × V) → Except CompilerError (DictionaryCompiler W)
  | [] => .ok c
  | f :: fs =>
    match c.add stdSort blockIndirectSort estimateMemory f.1 f.2 with
    | .error e => .error e
    | .ok c => c.addAll fs

/-- A compiler that gets all keys and compiles. -/
def build (W : ValueStoreWriter V) (memoryLimit parallelSortThreshold : Nat) (fs : List (Key × V)) :
    Except CompilerError (DictionaryCompiler W) :=
  match new W memoryLimit parallelSortThreshold with
  | .error e => .error e
  | .ok c =>
    match c.addAll stdSort blockIndirectSort estimateMemory fs with
    | .error e => .error e
    | .ok c => .ok (c.compile stdSort blockIndirectSort)

end Compile

end DictionaryCompiler

/-! ## The value of a key -/

/-- The value that a dictionary has for a key, where `resolve` reads the value store. -/
def Generator.value {α : Type} (resolve : Nat → α) (g : Generator) (k : Key) : Option α :=
  (g.entries.find? fun e => e.1 = k).map fun e => resolve e.2.valueIdx

theorem Generator.value_eq {α : Type} {resolve : Nat → α} {g : Generator} {k : Key} {v : Option Nat}
    (h : ∀ i, (∃ e ∈ g.entries, e.1 = k ∧ e.2.valueIdx = i) ↔ v = some i) :
    g.value resolve k = v.map resolve := by
  unfold Generator.value
  cases hf : g.entries.find? fun e => e.1 = k with
  | none =>
    cases v with
    | none => rfl
    | some i =>
      obtain ⟨e, he, hek, -⟩ := (h i).mpr rfl
      exact absurd hek (by simpa using List.find?_eq_none.mp hf e he)
  | some e =>
    have hek : e.1 = k := by simpa using List.find?_some hf
    rw [(h e.2.valueIdx).mp ⟨e, List.mem_of_find?_eq_some hf, hek, rfl⟩]
    rfl

/-- The pair that a chunk keeps for a key. -/
def chosen (sort : List KeyValue → List KeyValue) (k : Key) (chunk : List KeyValue) :
    Option KeyValue :=
  if k = [] then none else (run KeyValue.key k (sort chunk)).head?

theorem chosen_mem {sort : List KeyValue → List KeyValue} (hsort : IsSort KeyValue.less sort)
    {k : Key} {chunk : List KeyValue} {e : KeyValue} (h : chosen sort k chunk = some e) :
    k ≠ [] ∧ e ∈ chunk ∧ e.key = k := by
  unfold chosen at h
  split at h
  · cases h
  · next hk =>
    obtain ⟨hmem, hek⟩ := mem_run.mp (List.mem_of_mem_head? h)
    exact ⟨hk, (hsort.perm chunk).mem_iff.mp hmem, hek⟩

theorem chosen_isSome {sort : List KeyValue → List KeyValue} (hsort : IsSort KeyValue.less sort)
    {chunk : List KeyValue} {e : KeyValue} (he : e ∈ chunk) (hne : e.key ≠ []) :
    ∃ e', chosen sort e.key chunk = some e' := by
  unfold chosen
  rw [if_neg hne]
  have hmem : e ∈ run KeyValue.key e.key (sort chunk) :=
    mem_run.mpr ⟨(hsort.perm chunk).mem_iff.mpr he, rfl⟩
  cases hrun : run KeyValue.key e.key (sort chunk) with
  | nil =>
    rw [hrun] at hmem
    cases hmem
  | cons e' l => exact ⟨e', rfl⟩

section Feed

variable {sort : List KeyValue → List KeyValue} {chunk : List KeyValue}

/-- The keys of `key_value_t` and of an entry are the same. -/
theorem firsts_map (l : List KeyValue) (previous : Key) :
    firsts Prod.fst previous (l.map fun e => (e.key, e.value)) =
      (firsts KeyValue.key previous l).map fun e => (e.key, e.value) := by
  induction l generalizing previous with
  | nil => rfl
  | cons e l ih =>
    rw [List.map_cons, firsts, firsts, ih, ih]
    split <;> rfl

theorem feedSorted_entries (l : List KeyValue) :
    (feedSorted l).entries = (firsts KeyValue.key [] l).map fun e => (e.key, e.value) := by
  have h := Generator.foldl_add (l.map fun e => (e.key, e.value)) Generator.new
  rw [List.foldl_map] at h
  unfold feedSorted
  rw [h, ← firsts_map]
  exact List.nil_append _

theorem feedSorted_ascending (hsort : IsSort KeyValue.less sort) :
    (feedSorted (sort chunk)).entries.Pairwise fun a b => a.1 < b.1 := by
  rw [feedSorted_entries, List.pairwise_map]
  exact firsts_ascending (hsort.pairwise_le KeyValue.less_iff chunk) fun x _ => nil_le_key x.key

/-- The first pair of every key is kept, unless the key is empty. -/
theorem mem_feedSorted (hsort : IsSort KeyValue.less sort) {k : Key} {h : ValueHandle} :
    (k, h) ∈ (feedSorted (sort chunk)).entries ↔
      ∃ e, chosen sort k chunk = some e ∧ e.value = h := by
  have hmem : ∀ e, e ∈ firsts KeyValue.key [] (sort chunk) ↔ chosen sort e.key chunk = some e := by
    intro e
    rw [mem_firsts (hsort.pairwise_le KeyValue.less_iff chunk) fun x _ => nil_le_key x.key]
    unfold chosen
    by_cases hk : e.key = []
    · rw [if_pos hk, hk]
      simp
    · rw [if_neg hk]
      exact and_iff_right (lt_of_le_of_ne (nil_le_key e.key) (Ne.symm hk))
  rw [feedSorted_entries, List.mem_map]
  constructor
  · rintro ⟨e, he, heq⟩
    obtain ⟨rfl, rfl⟩ := Prod.mk.inj heq
    exact ⟨e, (hmem e).mp he, rfl⟩
  · rintro ⟨e, he, rfl⟩
    obtain ⟨-, -, rfl⟩ := chosen_mem hsort he
    exact ⟨e, (hmem e).mpr he, rfl⟩

/-- **What is sorted in memory** has the value of the first pair. -/
theorem feedSorted_value {α : Type} {resolve : Nat → α} (hsort : IsSort KeyValue.less sort) (k : Key) :
    (feedSorted (sort chunk)).value resolve k =
      (chosen sort k chunk).map fun e => resolve e.value.valueIdx := by
  rw [Generator.value_eq (v := (chosen sort k chunk).map fun e => e.value.valueIdx), Option.map_map]
  · rfl
  · intro i
    rw [Option.map_eq_some_iff]
    constructor
    · rintro ⟨⟨k', h⟩, he, rfl, rfl⟩
      obtain ⟨e, hc, rfl⟩ := (mem_feedSorted hsort).mp he
      exact ⟨e, hc, rfl⟩
    · rintro ⟨e, hc, rfl⟩
      exact ⟨(k, e.value), (mem_feedSorted hsort).mpr ⟨e, hc, rfl⟩, rfl, rfl⟩

end Feed

/-! ## Merging the chunks -/

/-- The merge is a fold over what the queue visits. -/
theorem mergeChunks_eq (w : Nat → Nat) (q : SegmentQueue) (g : Generator) :
    mergeChunks w q g =
      (q.survivors.map fun it => (it.key, (⟨it.valueId, w it.valueId, false, false⟩ :
        ValueHandle))).foldl (fun g e => g.add e.1 e.2) g := by
  fun_induction mergeChunks w q g with
  | case1 q g h =>
    rw [SegmentQueue.survivors]
    split <;> simp_all
  | case2 q g it h ih =>
    have hsurv : q.survivors = it :: ((q.pop.passOver it.key).pushNext it).survivors := by
      rw [SegmentQueue.survivors]
      split <;> simp_all
    rw [ih, hsurv, List.map_cons, List.foldl_cons]

/-- The queue of the chunks. -/
def chunkQueue (chunks : List (List (Key × Nat))) : SegmentQueue :=
  chunks.foldl (fun q chunk => SegmentQueue.push q (chunkIterator chunk q.length)) []

theorem chunkIterator_entries (chunk : List (Key × Nat)) (i : Nat) :
    (chunkIterator chunk i).segmentIndex = i ∧
    (chunkIterator chunk i).entries = if chunk = [] then [([], 0)] else chunk := by
  cases chunk with
  | nil => exact ⟨rfl, rfl⟩
  | cons e chunk => exact ⟨rfl, rfl⟩

/-- The queue has one iterator for each chunk. -/
theorem chunkQueue_ordered (chunks : List (List (Key × Nat)))
    (hasc : ∀ chunk ∈ chunks, chunk.Pairwise fun a b => a.1 < b.1) :
    (chunkQueue chunks).length = chunks.length ∧ (chunkQueue chunks).Ordered ∧
    (∀ it ∈ chunkQueue chunks, it.segmentIndex < chunks.length) ∧
    ∀ i k v, k ≠ [] → ((chunkQueue chunks).Pending i k v ↔
      ∃ chunk, chunks[i]? = some chunk ∧ (k, v) ∈ chunk) := by
  induction chunks using List.reverseRecOn with
  | nil =>
    refine ⟨rfl, ⟨List.nodup_nil, ?_⟩, ?_, fun i k v _ => ?_⟩
    · simp [chunkQueue]
    · simp [chunkQueue]
    · simp [chunkQueue, SegmentQueue.Pending]
  | append_singleton chunks chunk ih =>
    obtain ⟨hlen, hord, hlt, hpend⟩ := ih fun c hc => hasc c (List.mem_append_left _ hc)
    have hpush : chunkQueue (chunks ++ [chunk]) =
        (chunkQueue chunks).push (chunkIterator chunk chunks.length) := by
      unfold chunkQueue at hlen ⊢
      rw [List.foldl_append, List.foldl_cons, List.foldl_nil, hlen]
    obtain ⟨hidx, hentries⟩ := chunkIterator_entries chunk chunks.length
    rw [hpush]
    refine ⟨?_, hord.push ?_ ?_, ?_, ?_⟩
    · show (chunkQueue chunks).length + 1 = _
      rw [hlen, List.length_append, List.length_singleton]
    · intro it hit
      rw [hidx]
      exact (hlt it hit).ne
    · rw [hentries]
      split
      · exact List.pairwise_singleton _ _
      · exact hasc chunk (by simp)
    · intro it hit
      rw [List.length_append, List.length_singleton]
      rcases List.mem_cons.mp hit with rfl | hit
      · rw [hidx]
        exact Nat.lt_succ_self _
      · exact Nat.lt_succ_of_lt (hlt it hit)
    · intro i k v hk
      have hnew : (k, v) ∈ (chunkIterator chunk chunks.length).entries ↔ (k, v) ∈ chunk := by
        rw [hentries]
        split
        · next h => simp [h, hk]
        · exact Iff.rfl
      rw [SegmentQueue.pending_push, hpend i k v hk, hidx, hnew]
      constructor
      · rintro (⟨rfl, hmem⟩ | ⟨c, hc, hmem⟩)
        · exact ⟨chunk, by simp, hmem⟩
        · exact ⟨c, by rw [List.getElem?_append_left (List.getElem?_eq_some_iff.mp hc).1]; exact hc,
            hmem⟩
      · rintro ⟨c, hc, hmem⟩
        rcases lt_trichotomy i chunks.length with hi | rfl | hi
        · rw [List.getElem?_append_left hi] at hc
          exact .inr ⟨c, hc, hmem⟩
        · rw [List.getElem?_concat_length] at hc
          obtain rfl := Option.some.inj hc
          exact .inl ⟨rfl, hmem⟩
        · rw [List.getElem?_eq_none (by simp; omega)] at hc
          cases hc

/-- The dictionary of chunks that are compiled separately and merged. -/
def mergedChunks (w : Nat → Nat) (sort : List KeyValue → List KeyValue)
    (chunks : List (List KeyValue)) : Generator :=
  mergeChunks w (chunkQueue (chunks.map fun chunk => chunkFile (sort chunk))) Generator.new

/-- The pair that the newest chunk keeps for a key. -/
def newestChosen (sort : List KeyValue → List KeyValue) (k : Key) (chunks : List (List KeyValue)) :
    Option KeyValue :=
  (chunks.filterMap (chosen sort k)).getLast?

theorem newestChosen_append (sort : List KeyValue → List KeyValue) (k : Key)
    (chunks : List (List KeyValue)) (chunk : List KeyValue) :
    newestChosen sort k (chunks ++ [chunk]) =
      (chosen sort k chunk).or (newestChosen sort k chunks) := by
  unfold newestChosen
  rw [List.filterMap_append, List.filterMap_cons, List.filterMap_nil]
  cases chosen sort k chunk with
  | none => rw [List.append_nil]; rfl
  | some e => rw [List.getLast?_concat]; rfl

/-- The newest chunk that keeps a pair for the key, by its index. -/
theorem newestChosen_eq_some {sort : List KeyValue → List KeyValue} {k : Key} {e : KeyValue} :
    ∀ {chunks : List (List KeyValue)}, newestChosen sort k chunks = some e →
      ∃ (i : Nat) (chunk : List KeyValue), chunks[i]? = some chunk ∧ chosen sort k chunk = some e ∧
        ∀ (j : Nat) chunk', i < j → chunks[j]? = some chunk' → chosen sort k chunk' = none := by
  intro chunks
  induction chunks using List.reverseRecOn with
  | nil => intro h; cases h
  | append_singleton chunks chunk ih =>
    intro h
    rw [newestChosen_append, Option.or_eq_some_iff] at h
    rcases h with h | ⟨hnone, h⟩
    · refine ⟨chunks.length, chunk, List.getElem?_concat_length, h, fun j chunk' hj hc => ?_⟩
      rw [List.getElem?_eq_none (by simp; omega)] at hc
      cases hc
    · obtain ⟨i, c, hc, hch, hlater⟩ := ih h
      have hi := (List.getElem?_eq_some_iff.mp hc).1
      refine ⟨i, c, by rw [List.getElem?_append_left hi]; exact hc, hch, fun j c' hj hc' => ?_⟩
      rcases lt_trichotomy j chunks.length with hjl | rfl | hjl
      · rw [List.getElem?_append_left hjl] at hc'
        exact hlater j c' hj hc'
      · rw [List.getElem?_concat_length] at hc'
        obtain rfl := Option.some.inj hc'
        exact hnone
      · rw [List.getElem?_eq_none (by simp; omega)] at hc'
        cases hc'

/-- A chunk's file has the entry that the chunk chooses. -/
theorem mem_chunkFile_sort {sort : List KeyValue → List KeyValue} (hsort : IsSort KeyValue.less sort)
    {chunk : List KeyValue} {k : Key} {v : Nat} :
    (k, v) ∈ chunkFile (sort chunk) ↔ ∃ e, chosen sort k chunk = some e ∧ e.value.valueIdx = v := by
  unfold chunkFile
  rw [List.mem_map]
  constructor
  · rintro ⟨⟨k', h⟩, he, heq⟩
    obtain ⟨rfl, rfl⟩ := Prod.mk.inj heq
    obtain ⟨e, hc, rfl⟩ := (mem_feedSorted hsort).mp he
    exact ⟨e, hc, rfl⟩
  · rintro ⟨e, hc, rfl⟩
    exact ⟨(k, e.value), (mem_feedSorted hsort).mpr ⟨e, hc, rfl⟩, rfl⟩

/-- The queue of the chunks' files, and what it shows of a chunk. -/
theorem chunkQueue_chosen {sort : List KeyValue → List KeyValue} (hsort : IsSort KeyValue.less sort)
    (chunks : List (List KeyValue)) :
    (chunkQueue (chunks.map fun chunk => chunkFile (sort chunk))).Ordered ∧
    ∀ k ≠ [], ∀ i v, (chunkQueue (chunks.map fun chunk => chunkFile (sort chunk))).Pending i k v ↔
      ∃ chunk, chunks[i]? = some chunk ∧ ∃ e, chosen sort k chunk = some e ∧ e.value.valueIdx = v := by
  obtain ⟨-, hord, -, hpend⟩ := chunkQueue_ordered
    (chunks.map fun chunk => chunkFile (sort chunk)) (fun file hf => by
      obtain ⟨chunk, -, rfl⟩ := List.mem_map.mp hf
      exact List.pairwise_map.mpr (feedSorted_ascending hsort))
  refine ⟨hord, fun k hk i v => ?_⟩
  rw [hpend i k v hk, List.getElem?_map]
  simp only [Option.map_eq_some_iff, exists_exists_and_eq_and, mem_chunkFile_sort hsort]

/-- The entries of the merged chunks: of every key what survives in the queue. -/
theorem mem_mergedChunks {w : Nat → Nat} {sort : List KeyValue → List KeyValue}
    (hsort : IsSort KeyValue.less sort) (chunks : List (List KeyValue)) (e : Key × ValueHandle) :
    e ∈ (mergedChunks w sort chunks).entries ↔
      e ∈ (chunkQueue (chunks.map fun chunk => chunkFile (sort chunk))).survivors.map
        (fun it => (it.key, (⟨it.valueId, w it.valueId, false, false⟩ : ValueHandle))) ∧
      e.1 ≠ [] := by
  have hstrict : ((chunkQueue (chunks.map fun chunk => chunkFile (sort chunk))).survivors.map
      fun it => (it.key, (⟨it.valueId, w it.valueId, false, false⟩ : ValueHandle))).Pairwise
        fun a b => a.1 < b.1 := by
    rw [List.pairwise_map]
    exact (chunkQueue_chosen hsort chunks).1.survivors_ascending
  unfold mergedChunks
  rw [mergeChunks_eq, Generator.foldl_add]
  exact mem_firsts_of_lt hstrict fun x _ => nil_le_key x.1

/-- **What is merged** has the value of the newest chunk. -/
theorem mergedChunks_value {α : Type} {resolve : Nat → α} {w : Nat → Nat}
    {sort : List KeyValue → List KeyValue} (hsort : IsSort KeyValue.less sort)
    (chunks : List (List KeyValue)) (k : Key) :
    (mergedChunks w sort chunks).value resolve k =
      (newestChosen sort k chunks).map fun e => resolve e.value.valueIdx := by
  obtain ⟨hord, hpending⟩ := chunkQueue_chosen hsort chunks
  rw [Generator.value_eq (v := (newestChosen sort k chunks).map fun e => e.value.valueIdx),
    Option.map_map]
  · rfl
  intro i
  have hentries := mem_mergedChunks (w := w) hsort chunks
  by_cases hk : k = []
  · have hnone : newestChosen sort k chunks = none := by
      unfold newestChosen
      rw [List.filterMap_eq_nil_iff.mpr fun chunk _ => by unfold chosen; rw [if_pos hk]]
      rfl
    rw [hnone]
    simp only [Option.map_none, reduceCtorEq, iff_false]
    rintro ⟨e, he, hek, -⟩
    exact ((hentries e).mp he).2 (hek.trans hk)
  -- The entry of the key comes from the newest chunk that has it.
  have hentry : (∃ e ∈ (mergedChunks w sort chunks).entries, e.1 = k ∧ e.2.valueIdx = i) ↔
      ∃ n, (chunkQueue (chunks.map fun chunk => chunkFile (sort chunk))).Pending n k i ∧
        ∀ j v, (chunkQueue (chunks.map fun chunk => chunkFile (sort chunk))).Pending j k v →
          j ≤ n := by
    constructor
    · rintro ⟨e, he, rfl, rfl⟩
      obtain ⟨it, hit, rfl⟩ := List.mem_map.mp ((hentries e).mp he).1
      exact ⟨it.segmentIndex, (hord.mem_survivors _ _ _).mp ⟨it, hit, rfl, rfl, rfl⟩⟩
    · rintro ⟨n, hn⟩
      obtain ⟨it, hit, -, rfl, rfl⟩ := (hord.mem_survivors _ _ _).mpr hn
      exact ⟨_, (hentries _).mpr ⟨List.mem_map_of_mem hit, hk⟩, rfl, rfl⟩
  rw [hentry]
  simp only [hpending k hk]
  cases hnew : newestChosen sort k chunks with
  | none =>
    have hall : ∀ chunk ∈ chunks, chosen sort k chunk = none := by
      unfold newestChosen at hnew
      exact List.filterMap_eq_nil_iff.mp (List.getLast?_eq_none_iff.mp hnew)
    simp only [Option.map_none, reduceCtorEq, iff_false]
    rintro ⟨n, ⟨chunk, hc, e, he, -⟩, -⟩
    rw [hall chunk (List.mem_of_getElem? hc)] at he
    cases he
  | some e =>
    obtain ⟨n, chunk, hc, he, hlater⟩ := newestChosen_eq_some hnew
    rw [Option.map_some, Option.some.injEq]
    constructor
    · rintro ⟨n', ⟨chunk', hc', e', he', rfl⟩, hmax⟩
      have hle : n ≤ n' := hmax n e.value.valueIdx ⟨chunk, hc, e, he, rfl⟩
      rcases hle.lt_or_eq with hlt | rfl
      · rw [hlater n' chunk' hlt hc'] at he'
        cases he'
      · rw [hc] at hc'
        obtain rfl := Option.some.inj hc'
        rw [he] at he'
        rw [Option.some.inj he']
    · rintro rfl
      refine ⟨n, ⟨chunk, hc, e, he, rfl⟩, fun j v hj => ?_⟩
      obtain ⟨chunk', hc', e', he', -⟩ := hj
      by_contra hlt
      rw [hlater j chunk' (by omega) hc'] at he'
      cases he'

/-! ## One value for every key -/

/-- All values that are added for a key are the same. -/
def SingleValued {α : Type} (resolve : Nat → α) (keyValues : List KeyValue) : Prop :=
  ∀ a ∈ keyValues, ∀ b ∈ keyValues, a.key = b.key → a.key ≠ [] →
    resolve a.value.valueIdx = resolve b.value.valueIdx

section Chunks

variable {α : Type} {resolve : Nat → α} {w : Nat → Nat} {keyValues : List KeyValue}

theorem newestChosen_single (sort : List KeyValue → List KeyValue) (k : Key) :
    newestChosen sort k [keyValues] = chosen sort k keyValues := by
  have h := newestChosen_append sort k [] keyValues
  rw [List.nil_append, show newestChosen sort k [] = none from rfl, Option.or_none] at h
  exact h

theorem newestChosen_mem {sort : List KeyValue → List KeyValue} (hsort : IsSort KeyValue.less sort)
    {chunks : List (List KeyValue)} {k : Key} {e : KeyValue}
    (h : newestChosen sort k chunks = some e) : k ≠ [] ∧ e ∈ chunks.flatten ∧ e.key = k := by
  obtain ⟨i, chunk, hc, he, -⟩ := newestChosen_eq_some h
  obtain ⟨hk, hmem, hek⟩ := chosen_mem hsort he
  exact ⟨hk, List.mem_flatten.mpr ⟨chunk, List.mem_of_getElem? hc, hmem⟩, hek⟩

theorem newestChosen_isSome {sort : List KeyValue → List KeyValue}
    (hsort : IsSort KeyValue.less sort) {chunks : List (List KeyValue)} {e : KeyValue}
    (he : e ∈ chunks.flatten) (hne : e.key ≠ []) : ∃ e', newestChosen sort e.key chunks = some e' := by
  obtain ⟨chunk, hc, he⟩ := List.mem_flatten.mp he
  obtain ⟨e', he'⟩ := chosen_isSome hsort he hne
  cases h : newestChosen sort e.key chunks with
  | some e'' => exact ⟨e'', rfl⟩
  | none =>
    have := List.filterMap_eq_nil_iff.mp (List.getLast?_eq_none_iff.mp h) chunk hc
    rw [this] at he'
    cases he'

/-- **With one value for every key** the cuts and the sort make no difference. -/
theorem SingleValued.value_eq {sort sort' : List KeyValue → List KeyValue}
    (h : SingleValued resolve keyValues) (hsort : IsSort KeyValue.less sort)
    (hsort' : IsSort KeyValue.less sort') {chunks chunks' : List (List KeyValue)}
    (hflat : chunks.flatten = keyValues) (hflat' : chunks'.flatten = keyValues) (k : Key) :
    (newestChosen sort k chunks).map (fun e => resolve e.value.valueIdx) =
      (newestChosen sort' k chunks').map fun e => resolve e.value.valueIdx := by
  cases hc : newestChosen sort k chunks with
  | some e =>
    obtain ⟨hk, he, rfl⟩ := newestChosen_mem hsort hc
    rw [hflat, ← hflat'] at he
    obtain ⟨e', he'⟩ := newestChosen_isSome hsort' he hk
    obtain ⟨-, hmem, hek⟩ := newestChosen_mem hsort' he'
    rw [he', Option.map_some, Option.map_some,
      h e (hflat' ▸ he) e' (hflat' ▸ hmem) hek.symm hk]
  | none =>
    cases hc' : newestChosen sort' k chunks' with
    | none => rfl
    | some e =>
      obtain ⟨hk, he, rfl⟩ := newestChosen_mem hsort' hc'
      rw [hflat', ← hflat] at he
      obtain ⟨e', he'⟩ := newestChosen_isSome hsort he hk
      rw [hc] at he'
      cases he'

/-- A sort that puts `a` in front of the elements with its key, for one list only. -/
def preferring (a : KeyValue) (keyValues l : List KeyValue) : List KeyValue :=
  (if l = keyValues ∧ a ∈ l then a :: l.erase a else l).insertionSort fun x y => x.key ≤ y.key

theorem isSort_preferring (a : KeyValue) (keyValues : List KeyValue) :
    IsSort KeyValue.less (preferring a keyValues) := by
  have hins := (isStableSort_insertionSort KeyValue.less_iff).toIsSort
  refine ⟨fun l => ?_, fun l => hins.ordered _⟩
  unfold preferring
  split
  · next h => exact (hins.perm _).trans (List.perm_cons_erase h.2).symm
  · exact hins.perm l

theorem chosen_preferring {a : KeyValue} (ha : a ∈ keyValues) (hne : a.key ≠ []) :
    chosen (preferring a keyValues) a.key keyValues = some a := by
  unfold chosen preferring
  rw [if_neg hne, if_pos ⟨rfl, ha⟩,
    (isStableSort_insertionSort KeyValue.less_iff).run_sort KeyValue.less_iff, run_cons, if_pos rfl]
  rfl

theorem chosen_preferring_of_ne {a : KeyValue} {k : Key} {chunk : List KeyValue}
    (h : chunk ≠ keyValues) :
    chosen (preferring a keyValues) k chunk =
      chosen (List.insertionSort fun x y => x.key ≤ y.key) k chunk := by
  have hif : (if chunk = keyValues ∧ a ∈ chunk then a :: chunk.erase a else chunk) = chunk :=
    if_neg fun hc => h hc.1
  unfold chosen preferring
  rw [hif]

/-- **Real cuts need one value for every key**: the sort of all pairs may prefer any of them, whatever
the chunks keep. -/
theorem singleValued_of_chunks (chunks : List (List KeyValue))
    (hcut : ∀ chunk ∈ chunks, chunk ≠ keyValues)
    (h : ∀ sort, IsSort KeyValue.less sort → ∀ k,
      (chosen sort k keyValues).map (fun e => resolve e.value.valueIdx) =
        (newestChosen sort k chunks).map fun e => resolve e.value.valueIdx) :
    SingleValued resolve keyValues := by
  have hall : ∀ a ∈ keyValues, a.key ≠ [] → some (resolve a.value.valueIdx) =
      (newestChosen (List.insertionSort fun x y => x.key ≤ y.key) a.key chunks).map
        fun e => resolve e.value.valueIdx := by
    intro a ha hne
    have hsame : newestChosen (preferring a keyValues) a.key chunks =
        newestChosen (List.insertionSort fun x y => x.key ≤ y.key) a.key chunks := by
      unfold newestChosen
      rw [List.filterMap_congr fun chunk hc => chosen_preferring_of_ne (hcut chunk hc)]
    rw [← hsame, ← h _ (isSort_preferring a keyValues), chosen_preferring ha hne]
    rfl
  intro a ha b hb hab hne
  have ha' := hall a ha hne
  have hb' := hall b hb (hab ▸ hne)
  rw [hab] at ha'
  exact Option.some.inj (ha'.trans hb'.symm)

end Chunks

/-! ## The run of the compiler -/

namespace DictionaryCompiler

/-- The pairs that are registered for some calls, from a state of the value store on. -/
def registered (W : ValueStoreWriter V) : W.State → List (Key × V) → W.State × List KeyValue
  | valueStore, [] => (valueStore, [])
  | valueStore, f :: fs =>
    let (valueStore, handle) := W.registerValue valueStore f.2
    let (valueStore, rest) := registered W valueStore fs
    (valueStore, ⟨f.1, handle⟩ :: rest)

/-- The memory that is estimated for some pairs. -/
def estimate (estimateMemory : Key → Nat) (keyValues : List KeyValue) : Nat :=
  (keyValues.map fun e => estimateMemory e.key).sum

theorem estimate_append (estimateMemory : Key → Nat) (l l' : List KeyValue) :
    estimate estimateMemory (l ++ l') = estimate estimateMemory l + estimate estimateMemory l' := by
  unfold estimate
  rw [List.map_append, List.sum_append]

variable {stdSort blockIndirectSort : List KeyValue → List KeyValue} {estimateMemory : Key → Nat}

/-- The sort of a compiler. -/
def sortOf (stdSort blockIndirectSort : List KeyValue → List KeyValue) (parallelSortThreshold : Nat)
    (l : List KeyValue) : List KeyValue :=
  if parallelSortThreshold < l.length ∧ parallelSortThreshold ≠ 0 then blockIndirectSort l
  else stdSort l

theorem isSort_sortOf (hstd : IsSort KeyValue.less stdSort)
    (hblock : IsSort KeyValue.less blockIndirectSort) (parallelSortThreshold : Nat) :
    IsSort KeyValue.less (sortOf stdSort blockIndirectSort parallelSortThreshold) := by
  refine ⟨fun l => ?_, fun l => ?_⟩ <;> unfold sortOf <;> split
  · exact hblock.perm l
  · exact hstd.perm l
  · exact hblock.ordered l
  · exact hstd.ordered l

/-- How one more pair is cut: the chunks that are written and the pairs in memory. -/
def cutStep (estimateMemory : Key → Nat) (memoryLimit : Nat)
    (s : List (List KeyValue) × List KeyValue) (x : KeyValue) :
    List (List KeyValue) × List KeyValue :=
  if estimate estimateMemory (s.2 ++ [x]) < memoryLimit then (s.1, s.2 ++ [x])
  else (s.1 ++ [s.2 ++ [x]], [])

/-- All cuts: the chunks and, behind them, the pairs that are left. -/
def allCuts (s : List (List KeyValue) × List KeyValue) : List (List KeyValue) :=
  if s.2 = [] then s.1 else s.1 ++ [s.2]

/-- Every chunk was cut with the pair that reached the limit. -/
structure Cuts (estimateMemory : Key → Nat) (memoryLimit : Nat)
    (s : List (List KeyValue) × List KeyValue) (keyValues : List KeyValue) : Prop where
  flatten : s.1.flatten ++ s.2 = keyValues
  below : estimate estimateMemory s.2 < memoryLimit
  reached : ∀ chunk ∈ s.1, chunk ≠ [] ∧ memoryLimit ≤ estimate estimateMemory chunk ∧
    estimate estimateMemory chunk.dropLast < memoryLimit

section Cuts

variable {memoryLimit : Nat} {s : List (List KeyValue) × List KeyValue} {keyValues : List KeyValue}

theorem Cuts.step (h : Cuts estimateMemory memoryLimit s keyValues) (hlimit : 0 < memoryLimit)
    (x : KeyValue) :
    Cuts estimateMemory memoryLimit (cutStep estimateMemory memoryLimit s x) (keyValues ++ [x]) := by
  unfold cutStep
  split
  · next hlt => exact ⟨by rw [← List.append_assoc, h.flatten], hlt, h.reached⟩
  · next hlt =>
    refine ⟨?_, hlimit, fun chunk hc => ?_⟩
    · rw [List.append_nil, List.flatten_append, List.flatten_singleton, ← List.append_assoc,
        h.flatten]
    · rcases List.mem_append.mp hc with hc | hc
      · exact h.reached chunk hc
      · obtain rfl := List.mem_singleton.mp hc
        refine ⟨by simp, not_lt.mp hlt, ?_⟩
        rw [List.dropLast_concat]
        exact h.below

theorem Cuts.run (hlimit : 0 < memoryLimit) : ∀ {l : List KeyValue}
    {s : List (List KeyValue) × List KeyValue} {keyValues : List KeyValue},
    Cuts estimateMemory memoryLimit s keyValues →
    Cuts estimateMemory memoryLimit (l.foldl (cutStep estimateMemory memoryLimit) s) (keyValues ++ l)
  | [], _, _, h => by simpa using h
  | x :: l, _, _, h => by
    have := Cuts.run hlimit (l := l) (h.step hlimit x)
    rwa [List.append_assoc] at this

theorem Cuts.flatten_allCuts (h : Cuts estimateMemory memoryLimit s keyValues) :
    (allCuts s).flatten = keyValues := by
  unfold allCuts
  rw [← h.flatten]
  split
  · next hnil => rw [hnil, List.append_nil]
  · rw [List.flatten_append, List.flatten_singleton]

theorem Cuts.nonempty (h : Cuts estimateMemory memoryLimit s keyValues) :
    ∀ chunk ∈ allCuts s, chunk ≠ [] := by
  intro chunk hc
  unfold allCuts at hc
  split at hc
  · exact (h.reached chunk hc).1
  · next hne =>
    rcases List.mem_append.mp hc with hc | hc
    · exact (h.reached chunk hc).1
    · rw [List.mem_singleton.mp hc]
      exact hne

theorem estimate_dropLast_le (estimateMemory : Key → Nat) (l : List KeyValue) :
    estimate estimateMemory l.dropLast ≤ estimate estimateMemory l := by
  rcases List.eq_nil_or_concat l with rfl | ⟨l, x, rfl⟩
  · exact le_rfl
  · rw [List.concat_eq_append, List.dropLast_concat, estimate_append]
    exact Nat.le_add_right _ _

/-- A first chunk that is not everything needs the limit without the last pair. -/
theorem Cuts.eq_of_small (h : Cuts estimateMemory memoryLimit s keyValues)
    (hsmall : estimate estimateMemory keyValues.dropLast < memoryLimit) :
    allCuts s = [] ∧ keyValues = [] ∨ allCuts s = [keyValues] := by
  obtain ⟨cuts, rest⟩ := s
  have hflat := h.flatten
  cases cuts with
  | nil =>
    have hrest : rest = keyValues := by simpa using hflat
    subst hrest
    unfold allCuts
    by_cases hnil : rest = []
    · exact .inl ⟨if_pos hnil, hnil⟩
    · exact .inr (if_neg hnil)
  | cons chunk cuts =>
    right
    obtain ⟨-, hreach, -⟩ := h.reached chunk List.mem_cons_self
    rw [List.flatten_cons, List.append_assoc] at hflat
    have hnil : cuts.flatten ++ rest = [] := by
      by_contra hne
      rw [← hflat, List.dropLast_append_of_ne_nil hne, estimate_append] at hsmall
      omega
    obtain ⟨hcuts, rfl⟩ := List.append_eq_nil_iff.mp hnil
    have hno : cuts = [] := by
      cases cuts with
      | nil => rfl
      | cons c cuts =>
        have hc := (h.reached c (by simp)).1
        rw [List.flatten_cons] at hcuts
        exact absurd (List.append_eq_nil_iff.mp hcuts).1 hc
    subst hno
    unfold allCuts
    rw [if_pos rfl, ← hflat]
    simp

/-- Where the limit is reached before the last pair, no chunk is everything. -/
theorem Cuts.ne_of_large (h : Cuts estimateMemory memoryLimit s keyValues)
    (hlarge : memoryLimit ≤ estimate estimateMemory keyValues.dropLast) :
    ∀ chunk ∈ allCuts s, chunk ≠ keyValues := by
  have hchunk : ∀ chunk ∈ s.1, chunk ≠ keyValues := by
    rintro chunk hc rfl
    have := (h.reached chunk hc).2.2
    omega
  intro chunk hc
  unfold allCuts at hc
  split at hc
  · exact hchunk chunk hc
  · rcases List.mem_append.mp hc with hc | hc
    · exact hchunk chunk hc
    · rintro rfl
      have hest := estimate_dropLast_le estimateMemory chunk
      have hbelow := h.below
      rw [← List.mem_singleton.mp hc] at hbelow
      omega

end Cuts

/-- What holds between the calls. -/
structure Holds (stdSort blockIndirectSort : List KeyValue → List KeyValue)
    (estimateMemory : Key → Nat) (c : DictionaryCompiler W)
    (s : List (List KeyValue) × List KeyValue) : Prop where
  generator : c.generator = none
  chunks : c.chunks = s.1.map fun chunk =>
    chunkFile (sortOf stdSort blockIndirectSort c.parallelSortThreshold chunk)
  keyValues : c.keyValues = s.2
  memoryEstimate : c.memoryEstimate = estimate estimateMemory s.2

/-- **One call.** -/
theorem Holds.add {c : DictionaryCompiler W} {s : List (List KeyValue) × List KeyValue}
    (h : Holds stdSort blockIndirectSort estimateMemory c s) (inputKey : Key) (value : V) :
    ∃ c', c.add stdSort blockIndirectSort estimateMemory inputKey value = .ok c' ∧
      Holds stdSort blockIndirectSort estimateMemory c' (cutStep estimateMemory c.memoryLimit s
        ⟨inputKey, (W.registerValue c.valueStore value).2⟩) ∧
      c'.valueStore = (W.registerValue c.valueStore value).1 ∧ c'.memoryLimit = c.memoryLimit ∧
      c'.parallelSortThreshold = c.parallelSortThreshold := by
  have hgen : c.generator.isSome = false := by rw [h.generator]; rfl
  have hest : estimate estimateMemory (s.2 ++ [⟨inputKey, (W.registerValue c.valueStore value).2⟩]) =
      c.memoryEstimate + estimateMemory inputKey := by
    rw [estimate_append, ← h.memoryEstimate]
    rfl
  unfold DictionaryCompiler.add
  rw [hgen, if_neg Bool.false_ne_true]
  unfold triggerSortAndChunkGenerationIfNeeded cutStep
  by_cases hlt : c.memoryEstimate + estimateMemory inputKey < c.memoryLimit
  · rw [if_pos (hest ▸ hlt)]
    refine ⟨_, congrArg _ (if_pos hlt), ⟨h.generator, h.chunks, ?_, hest.symm⟩, rfl, rfl, rfl⟩
    show c.keyValues ++ _ = s.2 ++ _
    rw [h.keyValues]
    rfl
  · rw [if_neg (hest ▸ hlt)]
    refine ⟨_, congrArg _ (if_neg hlt), ⟨h.generator, ?_, rfl, rfl⟩, rfl, rfl, rfl⟩
    show c.chunks ++ [chunkFile (sortOf stdSort blockIndirectSort c.parallelSortThreshold
      (c.keyValues ++ _))] = _
    rw [List.map_append, h.chunks, h.keyValues]
    rfl

theorem Holds.addAll : ∀ (fs : List (Key × V)) {c : DictionaryCompiler W}
    {s : List (List KeyValue) × List KeyValue},
    Holds stdSort blockIndirectSort estimateMemory c s → ∃ c',
      c.addAll stdSort blockIndirectSort estimateMemory fs = .ok c' ∧
      Holds stdSort blockIndirectSort estimateMemory c'
        ((registered W c.valueStore fs).2.foldl (cutStep estimateMemory c.memoryLimit) s) ∧
      c'.valueStore = (registered W c.valueStore fs).1 ∧
      c'.parallelSortThreshold = c.parallelSortThreshold
  | [], c, s, h => ⟨c, rfl, h, rfl, rfl⟩
  | f :: fs, c, s, h => by
    obtain ⟨c1, hc1, h1, hs1, hl1, ht1⟩ := h.add f.1 f.2
    obtain ⟨c2, hc2, h2, hs2, ht2⟩ := h1.addAll fs
    refine ⟨c2, ?_, ?_, ?_, ht2.trans ht1⟩
    · rw [DictionaryCompiler.addAll, hc1]
      exact hc2
    · rw [hs1, hl1] at h2
      exact h2
    · rw [hs2, hs1]
      rfl

/-- **Compiling** gives the value that the newest cut keeps. -/
theorem Holds.compile {α : Type} (resolve : Nat → α) {c : DictionaryCompiler W}
    {s : List (List KeyValue) × List KeyValue}
    (hstd : IsSort KeyValue.less stdSort) (hblock : IsSort KeyValue.less blockIndirectSort)
    (h : Holds stdSort blockIndirectSort estimateMemory c s) :
    ∃ g, (c.compile stdSort blockIndirectSort).generator = some g ∧
      (c.compile stdSort blockIndirectSort).valueStore = c.valueStore ∧
      ∀ k, g.value resolve k =
        (newestChosen (sortOf stdSort blockIndirectSort c.parallelSortThreshold) k
          (allCuts s)).map fun e => resolve e.value.valueIdx := by
  have hgen : c.generator.isSome = false := by rw [h.generator]; rfl
  have hsort := isSort_sortOf hstd hblock c.parallelSortThreshold
  unfold DictionaryCompiler.compile
  rw [hgen, if_neg Bool.false_ne_true]
  by_cases hchunks : c.chunks.length = 0
  · have hcuts : s.1 = [] := by
      rw [h.chunks, List.length_map] at hchunks
      exact List.length_eq_zero_iff.mp hchunks
    rw [if_pos hchunks]
    refine ⟨_, rfl, rfl, fun k => ?_⟩
    have hall : newestChosen (sortOf stdSort blockIndirectSort c.parallelSortThreshold) k
        (allCuts s) =
          chosen (sortOf stdSort blockIndirectSort c.parallelSortThreshold) k c.keyValues := by
      unfold allCuts
      rw [hcuts, h.keyValues]
      split
      · next hnil =>
        rw [hnil, chosen, List.perm_nil.mp (hsort.perm [])]
        split <;> rfl
      · exact newestChosen_single _ k
    rw [hall]
    exact feedSorted_value hsort k
  · rw [if_neg hchunks]
    refine ⟨_, rfl, ?_, fun k => ?_⟩
    · unfold compileByMergingChunks
      dsimp only
      split <;> rfl
    · rw [← mergedChunks_value (w := W.getMergeWeight) hsort]
      congr 1
      unfold mergedChunks chunkQueue allCuts
      by_cases hnil : s.2 = []
      · rw [if_neg (by simp [h.keyValues, hnil]), if_pos hnil, h.chunks]
      · rw [if_pos (List.length_pos_iff.mpr (h.keyValues ▸ hnil)), if_neg hnil, List.map_append,
          ← h.chunks, ← h.keyValues]
        rfl

/-- **What a compiler gives**: with an accepted limit it compiles, and a key has the value that the
newest cut keeps. -/
theorem build_value {α : Type} (resolve : W.State → Nat → α) (hstd : IsSort KeyValue.less stdSort)
    (hblock : IsSort KeyValue.less blockIndirectSort) (estimateMemory : Key → Nat) {memoryLimit : Nat}
    (hlimit : 1024 * 1024 ≤ memoryLimit) (parallelSortThreshold : Nat) (fs : List (Key × V)) :
    ∃ d g s, build stdSort blockIndirectSort estimateMemory W memoryLimit parallelSortThreshold fs =
        .ok d ∧ d.generator = some g ∧ d.valueStore = (registered W W.new fs).1 ∧
      s = (registered W W.new fs).2.foldl (cutStep estimateMemory memoryLimit) ([], []) ∧
      Cuts estimateMemory memoryLimit s (registered W W.new fs).2 ∧
      ∀ k, g.value (resolve d.valueStore) k =
        (newestChosen (sortOf stdSort blockIndirectSort parallelSortThreshold) k (allCuts s)).map
          fun e => resolve (registered W W.new fs).1 e.value.valueIdx := by
  have hnew : Holds stdSort blockIndirectSort estimateMemory
      (⟨[], W.new, none, memoryLimit, 0, [], 0, parallelSortThreshold⟩ : DictionaryCompiler W)
      ([], []) := ⟨rfl, rfl, rfl, rfl⟩
  obtain ⟨c, hc, h, hstore, hthreshold⟩ := hnew.addAll fs
  obtain ⟨g, hg, hsame, hvalue⟩ := h.compile (resolve (registered W W.new fs).1) hstd hblock
  have hcuts : Cuts estimateMemory memoryLimit ([], []) [] :=
    ⟨rfl, show 0 < memoryLimit by omega, fun chunk hc => by cases hc⟩
  refine ⟨_, g, _, ?_, hg, hsame.trans hstore, rfl,
    hcuts.run (l := (registered W W.new fs).2) (by omega), fun k => ?_⟩
  · unfold build DictionaryCompiler.new
    rw [if_neg (by omega)]
    dsimp only
    rw [hc]
  · rw [hsame, hstore, hvalue, hthreshold]

/-! ## When the limits make no difference -/

theorem registered_keys (W : ValueStoreWriter V) : ∀ (fs : List (Key × V)) (valueStore : W.State),
    (registered W valueStore fs).2.map KeyValue.key = fs.map Prod.fst
  | [], _ => rfl
  | f :: fs, valueStore => by
    rw [List.map_cons, ← registered_keys W fs (W.registerValue valueStore f.2).1]
    rfl

theorem estimate_registered (W : ValueStoreWriter V) (estimateMemory : Key → Nat)
    (fs : List (Key × V)) :
    estimate estimateMemory (registered W W.new fs).2.dropLast =
      (fs.dropLast.map fun f => estimateMemory f.1).sum := by
  have h : ∀ l : List KeyValue, estimate estimateMemory l =
      ((l.map KeyValue.key).map estimateMemory).sum := fun l => by
    rw [List.map_map]
    rfl
  rw [h, List.map_dropLast, registered_keys, ← List.map_dropLast, List.map_map]
  rfl

/-- Every two limits that are accepted give the same map, whatever the sorts do with equal keys. -/
def LimitsAgree {α : Type} (W : ValueStoreWriter V) (resolve : W.State → Nat → α)
    (estimateMemory : Key → Nat) (parallelSortThreshold : Nat) (fs : List (Key × V)) : Prop :=
  ∀ stdSort blockIndirectSort, IsSort KeyValue.less stdSort →
    IsSort KeyValue.less blockIndirectSort →
    ∀ limit limit', 1024 * 1024 ≤ limit → 1024 * 1024 ≤ limit' → ∃ d d' g g',
      build stdSort blockIndirectSort estimateMemory W limit parallelSortThreshold fs = .ok d ∧
      build stdSort blockIndirectSort estimateMemory W limit' parallelSortThreshold fs = .ok d' ∧
      d.generator = some g ∧ d'.generator = some g' ∧
      ∀ k, g.value (resolve d.valueStore) k = g'.value (resolve d'.valueStore) k

/-- Cutting at any points gives the map that sorting in memory gives, whatever the sort does with equal
keys. -/
def CutsAgree {α : Type} (resolve : Nat → α) (w : Nat → Nat) (keyValues : List KeyValue) : Prop :=
  ∀ sort, IsSort KeyValue.less sort → ∀ chunks : List (List KeyValue), chunks.flatten = keyValues →
    ∀ k, (feedSorted (sort keyValues)).value resolve k = (mergedChunks w sort chunks).value resolve k

theorem singleValued_of_limits {α : Type} {W : ValueStoreWriter V} {resolve : W.State → Nat → α}
    {estimateMemory : Key → Nat} {parallelSortThreshold : Nat} {fs : List (Key × V)}
    (hlarge : 1024 * 1024 ≤ (fs.dropLast.map fun f => estimateMemory f.1).sum)
    (h : LimitsAgree W resolve estimateMemory parallelSortThreshold fs) :
    SingleValued (resolve (registered W W.new fs).1) (registered W W.new fs).2 := by
  rw [← estimate_registered W] at hlarge
  -- The smallest limit cuts before the end, and a limit above everything does not cut at all.
  have hcuts : Cuts estimateMemory (1024 * 1024)
      ((registered W W.new fs).2.foldl (cutStep estimateMemory (1024 * 1024)) ([], []))
      ([] ++ (registered W W.new fs).2) :=
    Cuts.run (by omega) ⟨rfl, show 0 < 1024 * 1024 by omega, fun chunk hc => by cases hc⟩
  refine singleValued_of_chunks _ (hcuts.ne_of_large hlarge) fun sort hsort k => ?_
  obtain ⟨d, d', g, g', hd, hd', hg, hg', hsame⟩ := h sort sort hsort hsort (1024 * 1024)
    (1024 * 1024 + estimate estimateMemory (registered W W.new fs).2) le_rfl (by omega)
  obtain ⟨e, ge, s, he, hge, -, hs, -, hvalue⟩ := build_value resolve hsort hsort estimateMemory
    (le_refl (1024 * 1024)) parallelSortThreshold fs
  obtain ⟨e', ge', s', he', hge', -, -, hcuts', hvalue'⟩ := build_value resolve hsort hsort
    estimateMemory (Nat.le_add_right (1024 * 1024) (estimate estimateMemory (registered W W.new fs).2))
    parallelSortThreshold fs
  obtain rfl := Except.ok.inj (hd.symm.trans he)
  obtain rfl := Except.ok.inj (hd'.symm.trans he')
  obtain rfl := Option.some.inj (hg.symm.trans hge)
  obtain rfl := Option.some.inj (hg'.symm.trans hge')
  have hsort' : sortOf sort sort parallelSortThreshold = sort := by
    funext l
    unfold sortOf
    split <;> rfl
  have hk := hsame k
  rw [hvalue, hvalue', hs, hsort'] at hk
  rw [hk]
  have hbelow := estimate_dropLast_le estimateMemory (registered W W.new fs).2
  rcases hcuts'.eq_of_small (by omega) with ⟨hnil, hempty⟩ | hone
  · rw [hnil, hempty, chosen, List.perm_nil.mp (hsort.perm [])]
    split <;> rfl
  · rw [hone, newestChosen_single]

theorem limitsAgree_of_singleValued {α : Type} {W : ValueStoreWriter V}
    {resolve : W.State → Nat → α} {estimateMemory : Key → Nat} {parallelSortThreshold : Nat}
    {fs : List (Key × V)}
    (h : SingleValued (resolve (registered W W.new fs).1) (registered W W.new fs).2) :
    LimitsAgree W resolve estimateMemory parallelSortThreshold fs := by
  intro stdSort blockIndirectSort hstd hblock limit limit' hlimit hlimit'
  obtain ⟨d, g, s, hd, hg, -, -, hcuts, hvalue⟩ :=
    build_value resolve hstd hblock estimateMemory hlimit parallelSortThreshold fs
  obtain ⟨d', g', s', hd', hg', -, -, hcuts', hvalue'⟩ :=
    build_value resolve hstd hblock estimateMemory hlimit' parallelSortThreshold fs
  have hsort := isSort_sortOf hstd hblock parallelSortThreshold
  refine ⟨d, d', g, g', hd, hd', hg, hg', fun k => ?_⟩
  rw [hvalue, hvalue',
    h.value_eq hsort hsort hcuts.flatten_allCuts hcuts'.flatten_allCuts]

/-- Where no accepted limit is reached before the last key, no limit cuts. -/
theorem limitsAgree_of_small {α : Type} {W : ValueStoreWriter V} {resolve : W.State → Nat → α}
    {estimateMemory : Key → Nat} {parallelSortThreshold : Nat} {fs : List (Key × V)}
    (hsmall : (fs.dropLast.map fun f => estimateMemory f.1).sum < 1024 * 1024) :
    LimitsAgree W resolve estimateMemory parallelSortThreshold fs := by
  rw [← estimate_registered W] at hsmall
  intro stdSort blockIndirectSort hstd hblock limit limit' hlimit hlimit'
  obtain ⟨d, g, s, hd, hg, -, -, hcuts, hvalue⟩ :=
    build_value resolve hstd hblock estimateMemory hlimit parallelSortThreshold fs
  obtain ⟨d', g', s', hd', hg', -, -, hcuts', hvalue'⟩ :=
    build_value resolve hstd hblock estimateMemory hlimit' parallelSortThreshold fs
  refine ⟨d, d', g, g', hd, hd', hg, hg', fun k => ?_⟩
  have hsame : allCuts s = allCuts s' := by
    rcases hcuts.eq_of_small (by omega) with ⟨h1, h2⟩ | h1 <;>
      rcases hcuts'.eq_of_small (by omega) with ⟨h3, h4⟩ | h3
    · rw [h1, h3]
    · exact absurd h2 (hcuts'.nonempty _ (by rw [h3]; exact List.mem_cons_self))
    · exact absurd h4 (hcuts.nonempty _ (by rw [h1]; exact List.mem_cons_self))
    · rw [h1, h3]
  rw [hvalue, hvalue', hsame]

theorem singleValued_of_cuts {α : Type} {resolve : Nat → α} {w : Nat → Nat}
    {keyValues : List KeyValue} (h : CutsAgree resolve w keyValues) :
    SingleValued resolve keyValues := by
  by_cases hlen : keyValues.length ≤ 1
  · -- Up to one pair there is nothing to choose.
    intro a ha b hb _ _
    obtain ⟨i, hi, rfl⟩ := List.getElem_of_mem ha
    obtain ⟨j, hj, rfl⟩ := List.getElem_of_mem hb
    have hij : i = j := by omega
    subst hij
    rfl
  · have hflat : (keyValues.map fun x => [x]).flatten = keyValues := by
      rw [← List.flatMap_def, List.flatMap_singleton']
    refine singleValued_of_chunks (keyValues.map fun x => [x])
      (fun chunk hc hall => ?_) fun sort hsort k => ?_
    · obtain ⟨x, -, rfl⟩ := List.mem_map.mp hc
      rw [← hall] at hlen
      exact hlen le_rfl
    · rw [← feedSorted_value hsort, ← mergedChunks_value (w := w) hsort]
      exact h sort hsort _ hflat k

/-- **When the compiler gives the same map under every limit.** Cutting at any points makes no
difference exactly when all values that are added for a key are the same; the limits that are accepted
make none also when they are not reached before the last key. -/
theorem limitsAgree_iff {α : Type} (W : ValueStoreWriter V) (resolve : W.State → Nat → α)
    (estimateMemory : Key → Nat) (parallelSortThreshold : Nat) (fs : List (Key × V)) :
    (LimitsAgree W resolve estimateMemory parallelSortThreshold fs ↔
      (fs.dropLast.map fun f => estimateMemory f.1).sum < 1024 * 1024 ∨
        SingleValued (resolve (registered W W.new fs).1) (registered W W.new fs).2) ∧
    (CutsAgree (resolve (registered W W.new fs).1) W.getMergeWeight (registered W W.new fs).2 ↔
      SingleValued (resolve (registered W W.new fs).1) (registered W W.new fs).2) := by
  constructor
  · constructor
    · intro h
      by_cases hsmall : (fs.dropLast.map fun f => estimateMemory f.1).sum < 1024 * 1024
      · exact .inl hsmall
      · exact .inr (singleValued_of_limits (not_lt.mp hsmall) h)
    · rintro (hsmall | h)
      · exact limitsAgree_of_small hsmall
      · exact limitsAgree_of_singleValued h
  · constructor
    · exact singleValued_of_cuts
    · intro h sort hsort chunks hflat k
      rw [feedSorted_value hsort, mergedChunks_value hsort, ← newestChosen_single]
      exact h.value_eq hsort hsort (by simp) hflat k

/-- `61` is added twice, with a key of one megabyte in between. In memory either value may win; a limit of
one megabyte cuts behind the long key, so that the second value wins. -/
theorem not_limitsAgree_twoValues :
    ¬ LimitsAgree plainStore (fun _ i => i) Dictionary.estimateMemory 10000
        [([97], 1), (List.replicate (1024 * 1024) 98, 3), ([97], 2)] ∧
    ¬ CutsAgree (fun i => i) plainStore.getMergeWeight
        (registered plainStore plainStore.new
          [([97], 1), (List.replicate (1024 * 1024) 98, 3), ([97], 2)]).2 := by
  have hlarge : ∀ n, 1024 * 1024 ≤ n → 1024 * 1024 ≤
      (([([97], 1), (List.replicate n 98, 3), ([97], 2)] : List (Key × Nat)).dropLast.map
        fun f => Dictionary.estimateMemory f.1).sum := by
    intro n hn
    show 1024 * 1024 ≤ Dictionary.estimateMemory [97] +
      (Dictionary.estimateMemory (List.replicate n 98) + 0)
    unfold Dictionary.estimateMemory
    simp only [List.length_replicate]
    rw [if_neg (show ¬ n < 16 by omega)]
    omega
  have hvalues : ∀ n, ¬ SingleValued (fun i => i) (registered plainStore plainStore.new
      [([97], 1), (List.replicate n 98, 3), ([97], 2)]).2 := by
    intro n h
    have := h ⟨[97], ⟨1, 0, false, false⟩⟩ (by simp [registered, plainStore,
      ValueStoreWriter.registerValue]) ⟨[97], ⟨2, 0, false, false⟩⟩ (by simp [registered, plainStore,
      ValueStoreWriter.registerValue]) rfl (by simp)
    exact absurd this (by decide)
  exact ⟨fun h => hvalues _ (singleValued_of_limits (hlarge _ le_rfl) h),
    fun h => hvalues _ (singleValued_of_cuts h)⟩

end DictionaryCompiler

end Keyvi.Dictionary
