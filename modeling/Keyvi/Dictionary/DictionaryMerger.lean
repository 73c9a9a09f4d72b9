import Mathlib
import Keyvi.Util.Key
import Keyvi.Dictionary.ValueStoreMerge

/-!
# The dictionary merger

`DictionaryMerger` walks all input dictionaries at once. A priority queue holds one iterator per
dictionary; the iterator with the smallest key is on top, and of two equal keys the one with the
higher index, that is the newer dictionary. The keys deleted in a dictionary come from its `.dk`
file and are consumed from the back of a list that is sorted in reverse order.

An `EntryIterator` is modelled by the entries it has still to visit.
-/

namespace Keyvi.Dictionary

/-! ## Iterators -/

/-- `SegmentIterator`: an entry iterator that is not at its end, and the index of its segment. -/
structure SegmentIterator where
  key : Key
  valueId : Nat
  rest : List (Key × Nat)
  segmentIndex : Nat
  deriving DecidableEq, Repr

namespace SegmentIterator

/-- The iterator at the start of `entries`; none if it is already at the end. -/
def ofEntries (entries : List (Key × Nat)) (segmentIndex : Nat) : Option SegmentIterator :=
  match entries with
  | [] => none
  | (key, valueId) :: rest => some ⟨key, valueId, rest, segmentIndex⟩

/-- `operator++`; none at the end. -/
def next (it : SegmentIterator) : Option SegmentIterator :=
  ofEntries it.rest it.segmentIndex

/-- `operator<`, where `operator>` of the entry iterators is "not less". -/
def less (it rhs : SegmentIterator) : Bool :=
  if it.segmentIndex < rhs.segmentIndex then !entryLess it.key rhs.key
  else entryLess rhs.key it.key

/-- The entries the iterator has still to visit, the current one included. -/
def entries (it : SegmentIterator) : List (Key × Nat) := (it.key, it.valueId) :: it.rest

end SegmentIterator

/-! ## The priority queue -/

/-- `std::priority_queue<SegmentIterator>`: the elements in no particular order. -/
abbrev SegmentQueue := List SegmentIterator

namespace SegmentQueue

/-- `top`: an element that is less than no other. -/
def top : SegmentQueue → Option SegmentIterator
  | [] => none
  | it :: q =>
    match top q with
    | none => some it
    | some t => if it.less t then some t else some it

def push (q : SegmentQueue) (it : SegmentIterator) : SegmentQueue := it :: q

def pop (q : SegmentQueue) : SegmentQueue :=
  match top q with
  | none => q
  | some t => q.erase t

/-- `if (++it) push(it)`. -/
def pushNext (q : SegmentQueue) (it : SegmentIterator) : SegmentQueue :=
  match it.next with
  | some it' => q.push it'
  | none => q

/-- The number of entries that are still to be visited. -/
def size (q : SegmentQueue) : Nat := (q.map fun it => it.entries.length).sum

end SegmentQueue

/-! ## The merger -/

/-- `ValueHandle`. -/
structure ValueHandle where
  valueIdx : Nat
  weight : Nat
  noMinimization : Bool
  deleted : Bool
  deriving DecidableEq, Repr

structure MergeStats where
  numberOfKeys : Nat
  deletedKeys : Nat
  updatedKeys : Nat
  deriving DecidableEq, Repr

/-- An input file: its name, value store type and payload, the entries of its automaton in order,
and the content of its `.dk` file if there is one. -/
structure KeyviFile (V : ValueStore) where
  filename : String
  valueStoreType : Nat
  payload : V.Payload
  entries : List (Key × Nat)
  deletedKeys : Option (List Key)

/-- The entries of an automaton come in strictly ascending order. -/
structure KeyviFile.WellFormed {V : ValueStore} (f : KeyviFile V) : Prop where
  ascending : f.entries.Pairwise fun a b => a.1 < b.1

/-- `TryLoadDeletedKeys`: sorted in reverse order. -/
def tryLoadDeletedKeys (dk : Option (List Key)) : List Key :=
  match dk with
  | none => []
  | some keys => keys.insertionSort (· ≥ ·)

/-- The members of `DictionaryMerger` before the merge. -/
structure DictionaryMerger (V : ValueStore) where
  valueStoreType : Nat
  appendMerge_ : Bool
  dictsToMerge : List V.Payload
  deletedKeys : List (List Key)
  inputFiles : List String
  segmentsPqueue : SegmentQueue

inductive MergerError
  | fileIsAddedAlready (filename : String)
  | dictionariesMustHaveTheSameType
  | valueStoresAreNotCompatible
  deriving DecidableEq, Repr

namespace DictionaryMerger

variable {V : ValueStore}

def new (valueStoreType : Nat) (appendMerge_ : Bool) : DictionaryMerger V :=
  ⟨valueStoreType, appendMerge_, [], [], [], []⟩

/-- `Add`. A dictionary without keys is not recorded at all. -/
def add (m : DictionaryMerger V) (f : KeyviFile V) : Except MergerError (DictionaryMerger V) :=
  if f.filename ∈ m.inputFiles then .error (.fileIsAddedAlready f.filename)
  else if f.valueStoreType ≠ m.valueStoreType then .error .dictionariesMustHaveTheSameType
  else if !m.appendMerge_ && !(m.dictsToMerge.head?.all (V.checkCompatibility · f.payload)) then
    .error .valueStoresAreNotCompatible
  else
    match SegmentIterator.ofEntries f.entries m.segmentsPqueue.length with
    | none => .ok m
    | some it => .ok { m with
        deletedKeys := m.deletedKeys ++ [tryLoadDeletedKeys f.deletedKeys]
        segmentsPqueue := m.segmentsPqueue.push it
        inputFiles := m.inputFiles ++ [f.filename]
        dictsToMerge := m.dictsToMerge ++ [f.payload] }

/-- `Add` for every file in turn. -/
def addAll (m : DictionaryMerger V) : List (KeyviFile V) → Except MergerError (DictionaryMerger V)
  | [] => .ok m
  | f :: fs =>
    match m.add f with
    | .error e => .error e
    | .ok m' => m'.addAll fs

end DictionaryMerger

/-! ## Merging

`CompleteMerge` and `AppendMerge` differ only in the value store they add to: `addValue` gets the
store, the segment index and the value id, and returns the handle and `no_minimization`. -/

/-- The state of a merge; `generator` is what has been added to the generator, in order. -/
structure Merging (S : Type) where
  segmentsPqueue : SegmentQueue
  deletedKeys : List (List Key)
  stats : MergeStats
  valueStore : S
  generator : List (Key × ValueHandle)

namespace Merging

variable {S : Type}

/-- One pass of the loop in `KeyDeleted` that checks the other lists for duplicates. -/
def popDuplicates (key : Key) : List (List Key) → List (List Key) × Nat
  | [] => ([], 0)
  | keys :: rest =>
    let (rest', n) := popDuplicates key rest
    if keys.getLast? = some key then (keys.dropLast :: rest', n + 1) else (keys :: rest', n)

/-- `KeyDeleted`. -/
def keyDeleted (segmentIndex : Nat) (key : Key) (m : Merging S) : Bool × Merging S :=
  if (m.deletedKeys.getD segmentIndex []).getLast? = some key then
    let popped := m.deletedKeys.modify segmentIndex List.dropLast
    let (deletedKeys, n) := popDuplicates key popped
    (true, { m with
      deletedKeys := deletedKeys
      stats := { m.stats with deletedKeys := m.stats.deletedKeys + 1 + n } })
  else (false, m)

theorem size_erase {q : SegmentQueue} {it : SegmentIterator} (h : it ∈ q) :
    (SegmentQueue.size (q.erase it)) + it.entries.length = q.size := by
  have := (List.perm_cons_erase h).map (fun it : SegmentIterator => it.entries.length)
  have := this.sum_eq
  simp only [List.map_cons, List.sum_cons] at this
  simp only [SegmentQueue.size]
  omega

theorem top_mem : ∀ {q : SegmentQueue} {it : SegmentIterator}, q.top = some it → it ∈ q
  | it :: q, t, h => by
    rw [SegmentQueue.top] at h
    cases ht : SegmentQueue.top q with
    | none => simp_all
    | some t' =>
      rw [ht] at h
      have := top_mem ht
      by_cases hl : it.less t' = true <;> simp_all

theorem size_pop {q : SegmentQueue} {it : SegmentIterator} (h : q.top = some it) :
    q.pop.size + it.rest.length + 1 = q.size := by
  rw [SegmentQueue.pop, h, ← size_erase (top_mem h)]
  simp only [SegmentIterator.entries, List.length_cons]
  omega

theorem size_pushNext (q : SegmentQueue) (it : SegmentIterator) :
    (q.pushNext it).size = q.size + it.rest.length := by
  cases hr : it.rest with
  | nil => simp [SegmentQueue.pushNext, SegmentIterator.next, SegmentIterator.ofEntries, hr]
  | cons e es =>
    simp [SegmentQueue.pushNext, SegmentIterator.next, SegmentIterator.ofEntries, hr,
      SegmentQueue.size, SegmentQueue.push, SegmentIterator.entries, Nat.add_comm]

/-- The inner loop: the same key in older segments is passed over. -/
def skipSameKey (topKey : Key) (m : Merging S) : Merging S :=
  match _h : m.segmentsPqueue.top with
  | none => m
  | some toInc =>
    if toInc.key = topKey then
      skipSameKey topKey { m with
        segmentsPqueue := m.segmentsPqueue.pop.pushNext toInc
        stats := { m.stats with updatedKeys := m.stats.updatedKeys + 1 } }
    else m
termination_by m.segmentsPqueue.size
decreasing_by
  have := size_pop _h
  rw [size_pushNext]
  omega

theorem size_skipSameKey (topKey : Key) (m : Merging S) :
    (skipSameKey topKey m).segmentsPqueue.size ≤ m.segmentsPqueue.size := by
  fun_induction skipSameKey topKey m with
  | case1 => exact le_rfl
  | case2 m toInc h hk ih =>
    have := size_pop h
    refine ih.trans ?_
    simp only [size_pushNext]
    omega
  | case3 => exact le_rfl

@[simp] theorem keyDeleted_queue (i : Nat) (key : Key) (m : Merging S) :
    (keyDeleted i key m).2.segmentsPqueue = m.segmentsPqueue := by
  unfold keyDeleted
  split <;> rfl

/-- What a merged key adds to the value store and to the generator. -/
def addKey (getMergeWeight : Nat → Nat) (addValue : S → Nat → Nat → S × Nat × Bool)
    (it : SegmentIterator) (m : Merging S) : Merging S :=
  let (valueStore, valueIdx, noMinimization) := addValue m.valueStore it.segmentIndex it.valueId
  { m with
    valueStore := valueStore
    stats := { m.stats with numberOfKeys := m.stats.numberOfKeys + 1 }
    generator := m.generator ++
      [(it.key, ⟨valueIdx, getMergeWeight it.valueId % 2 ^ 32, noMinimization, false⟩)] }

/-- The body of the outer loop after the top iterator has been taken off and older segments with
the same key have been passed over. -/
def mergeKey (getMergeWeight : Nat → Nat) (addValue : S → Nat → Nat → S × Nat × Bool)
    (it : SegmentIterator) (m : Merging S) : Merging S :=
  let (deleted, m) := keyDeleted it.segmentIndex it.key m
  if deleted then m else addKey getMergeWeight addValue it m

@[simp] theorem mergeKey_queue (w : Nat → Nat) (addValue : S → Nat → Nat → S × Nat × Bool)
    (it : SegmentIterator) (m : Merging S) :
    (mergeKey w addValue it m).segmentsPqueue = m.segmentsPqueue := by
  simp only [mergeKey]
  split
  · exact keyDeleted_queue _ _ _
  · exact keyDeleted_queue _ _ _

/-- The outer loop. -/
def mergeLoop (getMergeWeight : Nat → Nat) (addValue : S → Nat → Nat → S × Nat × Bool)
    (m : Merging S) : Merging S :=
  match _h : m.segmentsPqueue.top with
  | none => m
  | some it =>
    let m' := mergeKey getMergeWeight addValue it
      (skipSameKey it.key { m with segmentsPqueue := m.segmentsPqueue.pop })
    mergeLoop getMergeWeight addValue { m' with segmentsPqueue := m'.segmentsPqueue.pushNext it }
termination_by m.segmentsPqueue.size
decreasing_by
  have := size_pop _h
  have := size_skipSameKey it.key { m with segmentsPqueue := m.segmentsPqueue.pop }
  simp only [size_pushNext, mergeKey_queue] at this ⊢
  omega

end Merging

namespace DictionaryMerger

variable {V : ValueStore}

/-- The state in which a merge starts; the stats start at 0. -/
def start {S : Type} (m : DictionaryMerger V) (valueStore : S) : Merging S :=
  ⟨m.segmentsPqueue, m.deletedKeys, ⟨0, 0, 0⟩, valueStore, []⟩

/-- The value store call of a complete merge. -/
def readd (dictsToMerge : List V.Payload) (store : V.MergeT) (segmentIndex valueId : Nat) :
    V.MergeT × Nat × Bool :=
  match dictsToMerge[segmentIndex]? with
  | some payload => V.addValueMerge store payload valueId
  | none => (store, 0, false)

/-- `CompleteMerge`: every value is added again. -/
def completeMerge (m : DictionaryMerger V) : Merging V.MergeT :=
  Merging.mergeLoop V.getMergeWeight (readd m.dictsToMerge) (m.start V.init)

/-- `AppendMerge`: the payloads are appended, the handles shifted. -/
def appendMerge (m : DictionaryMerger V) : Merging Unit :=
  Merging.mergeLoop V.getMergeWeight
    (fun _ segmentIndex valueId =>
      ((), V.addValueAppendMerge m.dictsToMerge segmentIndex valueId, false))
    (m.start ())

/-- What the merged dictionary holds: its keys, each with the handle given to the generator, and
the payload written to the file. -/
structure Merged (V : ValueStore) where
  entries : List (Key × ValueHandle)
  payload : V.Payload
  stats : MergeStats

/-- `Merge`. -/
def merge (m : DictionaryMerger V) : Merged V :=
  if m.appendMerge_ then
    let r := m.appendMerge
    ⟨r.generator, V.appended m.dictsToMerge, r.stats⟩
  else
    let r := m.completeMerge
    ⟨r.generator, V.written r.valueStore, r.stats⟩

/-- The value a lookup in the merged dictionary reads. -/
def Merged.lookup (d : Merged V) (k : Key) : Option V.Value :=
  (d.entries.find? fun e => e.1 == k).map fun e => V.read d.payload e.2.valueIdx

end DictionaryMerger

end Keyvi.Dictionary
