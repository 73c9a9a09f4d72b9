import Mathlib
import Keyvi.Dictionary.DictionaryMergerSpec
import Keyvi.Fsa.ValueStoreMinimization

/-!
# The append merge

`JsonValueStoreAppendMerge` and `StringValueStoreAppendMerge`. The offsets come from the sizes of the value
stores in the headers, the bytes are copied from the start of the value store to the end of the file. The
merge that adds every value again gives the same values when no file but the last goes on behind its value
store and the comparison tells the values apart.
-/

namespace Keyvi.Dictionary

open Keyvi.Fsa

/-- A file with its bytes, and where the header says its value store is. -/
structure MergeFile where
  file : KeyviFile ValueStore.null
  bytes : List Byte
  offset : Nat
  size : Nat

namespace MergeFile

/-- The part of the file that is mapped by the reader of the value store. -/
def payload (f : MergeFile) : List Byte := (f.bytes.drop f.offset).take f.size

/-- The value store is in the file, and every handle leads to a value. -/
structure Valid (kind : BytesStore) (f : MergeFile) : Prop where
  ascending : f.file.entries.Pairwise fun a b => a.1 < b.1
  size : f.offset + f.size ≤ f.bytes.length
  handles : ∀ e ∈ f.file.entries, ∃ value, MinimizationBase.IsHandle kind f.payload e.2 value

end MergeFile

/-! ## Appending -/

/-- The constructor of `ValueStoreAppendMerge`. -/
def appendOffset (files : List MergeFile) (fileIndex : Nat) : Nat :=
  ((files.take fileIndex).map MergeFile.size).sum

/-- `AddValueAppendMerge`. -/
def addValueAppendMerge (files : List MergeFile) (fileIndex oldIndex : Nat) : Nat :=
  appendOffset files fileIndex + oldIndex

/-- The keys of the new file with their handles, and its bytes from the value store on. Nothing keeps a
reader inside the size that the header gives. -/
structure MergedFile where
  entries : List (Key × ValueHandle)
  payload : List Byte

/-- The files that are recorded: those with keys. -/
def inputFiles (files : List MergeFile) : List MergeFile :=
  files.filter fun f => DictionaryMerger.nonEmpty f.file

/-- The bytes of the value of a key. -/
def MergedFile.lookup (kind : BytesStore) (d : MergedFile) (k : Key) : Option (List Byte) :=
  (d.entries.find? fun e => e.1 == k).map fun e => kind.readValue d.payload e.2.valueIdx

/-! ## What is appended -/

variable {kind : BytesStore} {files : List MergeFile}

/-- The value of a survivor in its file. -/
def valueOf (kind : BytesStore) (files : List MergeFile) (it : SegmentIterator) : Option (List Byte) :=
  files[it.segmentIndex]?.map fun f => kind.readValue f.payload it.valueId

/-- A lookup reads the value of the survivor with the key. -/
theorem lookup_eq {d : MergedFile} {kept : List SegmentIterator}
    {val : SegmentIterator → Option (List Byte)}
    (hall : List.Forall₂ (fun e it => e.1 = it.key ∧
      some (kind.readValue d.payload e.2.valueIdx) = val it) d.entries kept) (k : Key) :
    d.lookup kind k = (kept.find? fun it => it.key == k).bind val := by
  unfold MergedFile.lookup
  revert hall
  generalize d.entries = entries
  intro hall
  induction hall with
  | nil => rfl
  | @cons e it entries kept he _ ih =>
    rw [List.find?_cons, List.find?_cons, he.1]
    cases it.key == k with
    | true => exact he.2
    | false => exact ih

/-- The keys that the merge keeps, each with its newest file. -/
def kept (m : DictionaryMerger ValueStore.null) : List SegmentIterator :=
  sweep (fun j => m.deletedKeys.getD j []) m.segmentsPqueue.survivors

/-- The comparison tells the value of the first key and that of the second apart. -/
def Apart (kind : BytesStore) (memoryLimit : Nat) (files : List MergeFile) (it it' : SegmentIterator) :
    Prop :=
  ∀ w value, valueOf kind files it = some w → valueOf kind files it' = some value →
    MinimizationBase.ToldApart kind memoryLimit w value

end Keyvi.Dictionary
