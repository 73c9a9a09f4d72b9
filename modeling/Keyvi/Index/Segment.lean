import Mathlib
import Keyvi.Util.Key

/-!
# Segments of an index

A segment is a dictionary file with up to two lists of deleted keys next to it: `.dk`, and `.dkm`
for the keys deleted while the segment is being merged. A `Segment` object holds what readers see of
the lists (`deleted_keys_`) and the two sets it writes them from.

A method that writes files returns the file operations in order; `SegmentFileOp.apply` is their
effect. Dictionaries are maps from keys to values; the file a dictionary was loaded from does not
change, so the object carries it.
-/

namespace Keyvi.Index

/-- What the dictionary of a segment answers. -/
abbrev Dictionary (V : Type) := Key → Option V

/-- `deleted_t`. -/
abbrev DeletedKeys := Finset Key

/-! ## Files -/

/-- The files of a segment: the dictionary, `.dk`, `.dkm` and `.dk-swap`. -/
structure SegmentFiles (V : Type) where
  kv : Option (Dictionary V)
  dk : Option DeletedKeys
  dkm : Option DeletedKeys
  dkSwap : Option DeletedKeys

namespace SegmentFiles

variable {V : Type}

def none : SegmentFiles V := ⟨.none, .none, .none, .none⟩

/-- A dictionary without delete lists. -/
def ofKv (d : Dictionary V) : SegmentFiles V := ⟨some d, .none, .none, .none⟩

/-- `LoadAndUnserializeDeletedKeys`: a file that is not there reads as empty. -/
def loadDk (f : SegmentFiles V) : DeletedKeys := f.dk.getD ∅

def loadDkm (f : SegmentFiles V) : DeletedKeys := f.dkm.getD ∅

/-- The keys deleted according to the files. -/
def deleted (f : SegmentFiles V) : DeletedKeys := f.loadDk ∪ f.loadDkm

end SegmentFiles

inductive SegmentFileOp (V : Type)
  | writeKv (d : Dictionary V)
  | writeSwap (keys : DeletedKeys)
  | renameSwapToDk
  | renameSwapToDkm
  | removeKv
  | removeDk
  | removeDkm

namespace SegmentFileOp

variable {V : Type}

/-- The effect of one operation. Removing or renaming a file that is not there does nothing. -/
def apply (f : SegmentFiles V) : SegmentFileOp V → SegmentFiles V
  | writeKv d => { f with kv := some d }
  | writeSwap keys => { f with dkSwap := some keys }
  | renameSwapToDk =>
    match f.dkSwap with
    | some keys => { f with dk := some keys, dkSwap := none }
    | none => f
  | renameSwapToDkm =>
    match f.dkSwap with
    | some keys => { f with dkm := some keys, dkSwap := none }
    | none => f
  | removeKv => { f with kv := none }
  | removeDk => { f with dk := none }
  | removeDkm => { f with dkm := none }

/-- The effect of several operations. -/
def applyAll (f : SegmentFiles V) (ops : List (SegmentFileOp V)) : SegmentFiles V :=
  ops.foldl apply f

end SegmentFileOp

/-! ## Objects -/

/-- `Segment`, and what it inherits from `ReadOnlySegment`. -/
structure Segment (V : Type) where
  dictionary : Dictionary V
  hasDeletedKeys_ : Bool
  deletedKeys : DeletedKeys
  deletedKeysForWrite : DeletedKeys
  deletedKeysDuringMergeForWrite : DeletedKeys
  deletesLoaded : Bool
  inMerge : Bool
  newDelete : Bool

namespace Segment

variable {V : Type}

def contains (s : Segment V) (k : Key) : Bool := (s.dictionary k).isSome

/-- `LoadDeletedKeys`. The members for the last modification times stay at 0, so the lists are read
again whenever one of the files exists. -/
def loadDeletedKeys (f : SegmentFiles V) (s : Segment V) : Segment V :=
  if f.dk.isSome || f.dkm.isSome then
    { s with deletedKeys := f.deleted, hasDeletedKeys_ := true }
  else s

/-- `ReloadDeletedKeys`. -/
def reloadDeletedKeys (f : SegmentFiles V) (s : Segment V) : Segment V := loadDeletedKeys f s

/-- The constructor from a path. -/
def ofPath (f : SegmentFiles V) (d : Dictionary V) (noDeletes : Bool) : Segment V :=
  let s : Segment V := ⟨d, false, ∅, ∅, ∅, noDeletes, false, false⟩
  if noDeletes then s else loadDeletedKeys f s

/-- `LazyLoadDeletedKeys`. -/
def lazyLoadDeletedKeys (f : SegmentFiles V) (s : Segment V) : Segment V :=
  if s.deletesLoaded then s
  else
    let s := loadDeletedKeys f s
    let s :=
      if s.hasDeletedKeys_ then
        if s.inMerge then
          { s with deletedKeysDuringMergeForWrite :=
              s.deletedKeysDuringMergeForWrite ∪ s.deletedKeys }
        else { s with deletedKeysForWrite := s.deletedKeysForWrite ∪ s.deletedKeys }
      else s
    { s with deletesLoaded := true }

/-- `IsDeleted`, and the object after the deleted keys have been loaded. -/
def isDeleted (f : SegmentFiles V) (s : Segment V) (k : Key) : Bool × Segment V :=
  let s := lazyLoadDeletedKeys f s
  (s.hasDeletedKeys_ && decide (k ∈ s.deletedKeys), s)

/-- `HasDeletedKeys`. -/
def hasDeletedKeys (f : SegmentFiles V) (s : Segment V) : Bool × Segment V :=
  let s := lazyLoadDeletedKeys f s
  (decide (0 < s.deletedKeysForWrite.card + s.deletedKeysDuringMergeForWrite.card), s)

/-- `Persist`. -/
def persist (s : Segment V) : Bool × List (SegmentFileOp V) :=
  if !s.newDelete then (false, [])
  else if s.inMerge then
    (true, [.writeSwap s.deletedKeysDuringMergeForWrite, .renameSwapToDkm])
  else (true, [.writeSwap s.deletedKeysForWrite, .renameSwapToDk])

/-- The constructor for a merged segment. -/
def ofParents (d : Dictionary V) (parents : List (Segment V)) :
    Segment V × List (SegmentFileOp V) :=
  let forWrite := parents.foldl (fun acc p => acc ∪ p.deletedKeysDuringMergeForWrite) ∅
  let s : Segment V := ⟨d, false, ∅, forWrite, ∅, true, false, false⟩
  if forWrite.card ≠ 0 then
    let s := { s with newDelete := true }
    (s, s.persist.2)
  else (s, [])

/-- `ElectedForMerge`. -/
def electedForMerge (s : Segment V) : Segment V × List (SegmentFileOp V) :=
  ({ s with inMerge := true }, s.persist.2)

/-- `MergeFailed`. -/
def mergeFailed (s : Segment V) : Segment V × List (SegmentFileOp V) :=
  let s := { s with inMerge := false }
  if s.deletedKeysDuringMergeForWrite.card > 0 then
    let s := { s with
      deletedKeysForWrite := s.deletedKeysForWrite ∪ s.deletedKeysDuringMergeForWrite
      newDelete := true }
    ({ s with deletedKeysDuringMergeForWrite := ∅ }, s.persist.2 ++ [.removeDkm])
  else (s, [])

/-- `MarkedForMerge`. -/
def markedForMerge (s : Segment V) : Bool := s.inMerge

/-- `RemoveFiles`. -/
def removeFiles : List (SegmentFileOp V) := [.removeKv, .removeDkm, .removeDk]

/-- `DeleteKey`. -/
def deleteKey (f : SegmentFiles V) (s : Segment V) (k : Key) : Segment V :=
  if !s.contains k then s
  else
    let s := lazyLoadDeletedKeys f s
    if s.inMerge then
      { s with
        deletedKeysDuringMergeForWrite := insert k s.deletedKeysDuringMergeForWrite
        newDelete := true }
    else { s with deletedKeysForWrite := insert k s.deletedKeysForWrite, newDelete := true }

end Segment

/-- The files after `Persist`. -/
theorem applyAll_persist {V : Type} (f : SegmentFiles V) (s : Segment V) :
    SegmentFileOp.applyAll f s.persist.2 =
      if s.newDelete then
        if s.inMerge then
          { f with dkm := some s.deletedKeysDuringMergeForWrite, dkSwap := none }
        else { f with dk := some s.deletedKeysForWrite, dkSwap := none }
      else f := by
  unfold Segment.persist
  cases s.newDelete <;> cases s.inMerge <;> rfl

end Keyvi.Index
