import Mathlib
import Keyvi.Fsa.MemoryMapManager
import Keyvi.Library.Run
import Keyvi.Util.Key

/-!
# The sparse array while it is built

`sparse_array_persistence.h`. The end of the array is in a buffer; the part before it has been
flushed to external memory, where the cells are in little-endian order. An access outside of the
buffer or of a chunk is undefined and gives `none`.
-/

namespace Keyvi.Fsa

/-- `uint16_t`. -/
abbrev Bucket := Fin 65536

instance instNeZeroBucket : NeZero 65536 := ⟨by decide⟩

/-- The byte order of the host. -/
inductive ByteOrder
  | littleEndian
  | bigEndian
deriving DecidableEq, Repr

namespace Bucket

/-- The low byte. -/
def low (v : Bucket) : Byte := ⟨v.val % 256, Nat.mod_lt _ (by decide)⟩

/-- The high byte. -/
def high (v : Bucket) : Byte := ⟨v.val / 256, by omega⟩

/-- `__builtin_bswap16`. -/
def bswap16 (v : Bucket) : Bucket := ⟨v.val % 256 * 256 + v.val / 256, by omega⟩

/-- `htole16`. -/
def htole16 : ByteOrder → Bucket → Bucket
  | .littleEndian, v => v
  | .bigEndian, v => bswap16 v

/-- `le16toh`. -/
def le16toh : ByteOrder → Bucket → Bucket
  | .littleEndian, v => v
  | .bigEndian, v => bswap16 v

/-- The bytes of a cell in the memory of the host. -/
def bytesInMemory : ByteOrder → Bucket → List Byte
  | .littleEndian, v => [v.low, v.high]
  | .bigEndian, v => [v.high, v.low]

@[simp] theorem le16toh_htole16 (o : ByteOrder) (v : Bucket) : le16toh o (htole16 o v) = v := by
  cases o with
  | littleEndian => rfl
  | bigEndian =>
    have := v.isLt
    refine Fin.ext ?_
    show (v.val % 256 * 256 + v.val / 256) % 256 * 256 + (v.val % 256 * 256 + v.val / 256) / 256 = _
    omega

/-- A converted cell has the low byte first in memory. -/
@[simp] theorem bytesInMemory_htole16 (o : ByteOrder) (v : Bucket) :
    bytesInMemory o (htole16 o v) = [v.low, v.high] := by
  cases o with
  | littleEndian => rfl
  | bigEndian =>
    have hl : (bswap16 v).low = v.high := by
      refine Fin.ext ?_
      show (v.val % 256 * 256 + v.val / 256) % 256 = v.val / 256
      omega
    have hh : (bswap16 v).high = v.low := by
      refine Fin.ext ?_
      show (v.val % 256 * 256 + v.val / 256) / 256 = v.val % 256
      omega
    show [(bswap16 v).high, (bswap16 v).low] = _
    rw [hl, hh]

end Bucket

/-! ## Variable length numbers -/

/-- The loop of `decodeVarShort`. The shift in the sixth round would be wider than the number. -/
def decodeLoop (input : Nat → Option Bucket) : Nat → Nat → Nat → Option Nat
  | 0, _, _ => none
  | fuel + 1, i, ret =>
    (input i).bind fun c =>
      let ret := ret ||| ((c.val &&& 32767) <<< (15 * i)) % 2 ^ 64
      if c.val &&& 32768 = 0 then some ret else decodeLoop input fuel (i + 1) ret

/-- `decodeVarShort`. -/
def decodeVarShort (input : Nat → Option Bucket) : Option Nat := decodeLoop input 5 0 0

/-- The cells that the loop reads. -/
def cellsLoop (input : Nat → Bucket) : Nat → Nat → Nat
  | 0, i => i
  | fuel + 1, i => if (input i).val &&& 32768 = 0 then i + 1 else cellsLoop input fuel (i + 1)

/-- The number of cells that `decodeVarShort` reads. -/
def varShortCells (input : Nat → Bucket) : Nat := cellsLoop input 5 0

theorem le_cellsLoop (input : Nat → Bucket) : ∀ fuel i,
    i ≤ cellsLoop input fuel i ∧ (0 < fuel → i < cellsLoop input fuel i) ∧
      cellsLoop input fuel i ≤ i + fuel
  | 0, i => ⟨le_rfl, fun h => absurd h (lt_irrefl 0), le_rfl⟩
  | fuel + 1, i => by
    obtain ⟨h1, -, h3⟩ := le_cellsLoop input fuel (i + 1)
    rw [cellsLoop]
    split
    · omega
    · omega

theorem decodeLoop_congr {input : Nat → Option Bucket} {cells : Nat → Bucket} :
    ∀ {fuel i ret : Nat}, (∀ j < cellsLoop cells fuel i, i ≤ j → input j = some (cells j)) →
      decodeLoop input fuel i ret = decodeLoop (fun j => some (cells j)) fuel i ret
  | 0, _, _, _ => rfl
  | fuel + 1, i, ret, h => by
    have hi := h i ((le_cellsLoop cells (fuel + 1) i).2.1 (Nat.succ_pos fuel)) le_rfl
    rw [cellsLoop] at h
    rw [decodeLoop, decodeLoop, hi, Option.bind_some, Option.bind_some]
    by_cases hc : (cells i).val &&& 32768 = 0
    · simp only [hc, if_true]
    · simp only [if_neg hc] at h ⊢
      exact decodeLoop_congr fun j hj hij => h j hj (by omega)

/-- **Only the cells that are read matter.** -/
theorem decodeVarShort_congr {input : Nat → Option Bucket} {cells : Nat → Bucket}
    (h : ∀ j < varShortCells cells, input j = some (cells j)) :
    decodeVarShort input = decodeVarShort fun j => some (cells j) :=
  decodeLoop_congr fun j hj _ => h j hj

/-- The value is in another bucket. -/
def UsesOverflow (value : Bucket) : Prop :=
  value.val &&& 0xC000 ≠ 0xC000 ∧ value.val &&& 0x8000 ≠ 0

instance (value : Bucket) : Decidable (UsesOverflow value) := instDecidableAnd

/-- `overflow_bucket`. -/
def overflowBucket (offset : Nat) (value : Bucket) : Nat :=
  (((value.val &&& 0x7FFF) >>> 4) + offset + 2 ^ 64 - 512) % 2 ^ 64

/-- `ResolveTransitionValue`, with the way an overflow bucket is read. -/
def resolve (readBucket : Nat → Option Nat) (offset : Nat) (value : Bucket) : Option Nat :=
  if value.val &&& 0xC000 = 0xC000 then some (value.val &&& 0x3FFF)
  else if value.val &&& 0x8000 ≠ 0 then
    let pt := value.val &&& 0x7FFF
    (readBucket (overflowBucket offset value)).map fun r =>
      let resolvedPtr := ((r <<< 3) + (pt &&& 0x7)) % 2 ^ 64
      if pt &&& 0x8 ≠ 0 then (offset + 2 ^ 64 - resolvedPtr + 512) % 2 ^ 64 else resolvedPtr
  else some ((offset + 2 ^ 64 - value.val + 512) % 2 ^ 64)

theorem resolve_congr {f g : Nat → Option Nat} {offset : Nat} {value : Bucket}
    (h : UsesOverflow value → f (overflowBucket offset value) = g (overflowBucket offset value)) :
    resolve f offset value = resolve g offset value := by
  unfold resolve
  by_cases h1 : value.val &&& 0xC000 = 0xC000
  · rw [if_pos h1, if_pos h1]
  · by_cases h2 : value.val &&& 0x8000 ≠ 0
    · rw [if_neg h1, if_neg h1, if_pos h2, if_pos h2]
      simp only [h ⟨h1, h2⟩]
    · rw [if_neg h1, if_neg h1, if_neg h2, if_neg h2]

/-! ## The persistence -/

/-- `SparseArrayPersistence<uint16_t>`. -/
structure SparseArrayPersistence where
  labels : Nat → Byte
  labelsExtern : MemoryMapManager Byte
  transitions : Nat → Bucket
  transitionsExtern : MemoryMapManager Bucket
  inMemoryBufferOffset : Nat
  bufferSize : Nat
  flushSize : Nat
  highestStateBegin : Nat
  highestRawWriteBucket : Nat
  /-- The buffers have been freed. -/
  flushed : Bool

/-- The memory limit that a generator hands down. -/
def persistenceMemoryLimit (memoryLimit : Nat) : Nat :=
  let memoryLimitMinimization :=
    if 400 * 1024 * 1024 < memoryLimit then memoryLimit - 200 * 1024 * 1024 else memoryLimit / 2
  memoryLimit - memoryLimitMinimization

namespace SparseArrayPersistence

/-- Always a little more. -/
def align (n : Nat) : Nat := n + (16 - n % 16)

/-- The constructor. -/
def new (memoryLimit : Nat) : SparseArrayPersistence :=
  let bufferSize := align (memoryLimit / 3)
  let flushSize := align (bufferSize * 3 / 5)
  let chunkSize := min (flushSize * 2) 1073741824
  let chunkSize := chunkSize - chunkSize % flushSize
  { labels := fun i => if i < 2 then 42 else 0
    labelsExtern := .new chunkSize
    transitions := fun _ => 0
    transitionsExtern := .new chunkSize
    inMemoryBufferOffset := 0
    bufferSize := bufferSize
    flushSize := flushSize
    highestStateBegin := 0
    highestRawWriteBucket := 0
    flushed := false }

/-- `HostOrderToPersistenceOrder`: the length is not used. -/
def hostOrderToPersistenceOrder (o : ByteOrder) (flushSize : Nat) (values : Nat → Bucket)
    (_length : Nat) : Nat → Bucket :=
  match o with
  | .littleEndian => values
  | .bigEndian => fun i => if i < flushSize then Bucket.htole16 o (values i) else values i

/-- `FlushBuffers`. -/
def flushBuffers (o : ByteOrder) (s : SparseArrayPersistence) : SparseArrayPersistence :=
  let overlap := s.bufferSize - s.flushSize
  let transitions := hostOrderToPersistenceOrder o s.flushSize s.transitions s.flushSize
  { s with
    labelsExtern := s.labelsExtern.append s.labels s.flushSize
    transitionsExtern := s.transitionsExtern.append transitions s.flushSize
    labels := fun i => if i < overlap then s.labels (s.flushSize + i) else 0
    transitions := fun i => if i < overlap then transitions (s.flushSize + i) else 0
    inMemoryBufferOffset := s.inMemoryBufferOffset + s.flushSize }

/-- The loop of `BeginNewState`; every flush moves the buffer. -/
def flushLoop (o : ByteOrder) (offset : Nat) : Nat → SparseArrayPersistence →
    SparseArrayPersistence
  | 0, s => s
  | fuel + 1, s =>
    if s.bufferSize + s.inMemoryBufferOffset ≤ offset + 512 + 255 then
      flushLoop o offset fuel (s.flushBuffers o)
    else s

/-- `BeginNewState`. -/
def beginNewState (o : ByteOrder) (s : SparseArrayPersistence) (offset : Nat) :
    SparseArrayPersistence :=
  let s := flushLoop o offset (offset + 768) s
  if s.highestStateBegin < offset then { s with highestStateBegin := offset } else s

/-- The place is in the buffer. -/
def inBuffer (s : SparseArrayPersistence) (i : Nat) : Bool := !s.flushed && i < s.bufferSize

/-- `WriteTransition`. -/
def writeTransition (o : ByteOrder) (s : SparseArrayPersistence) (offset : Nat)
    (transitionId : Byte) (transitionPointer : Bucket) : Option SparseArrayPersistence :=
  let s := { s with highestRawWriteBucket := max s.highestRawWriteBucket offset }
  if s.inMemoryBufferOffset ≤ offset then
    let i := offset - s.inMemoryBufferOffset
    if s.inBuffer i then
      some { s with
        labels := fun j => if j = i then transitionId else s.labels j
        transitions := fun j => if j = i then transitionPointer else s.transitions j }
    else none
  else
    some { s with
      labelsExtern := s.labelsExtern.setAddress offset transitionId
      transitionsExtern :=
        s.transitionsExtern.setAddress offset (Bucket.htole16 o transitionPointer) }

/-- `ReadTransitionLabel`. -/
def readTransitionLabel (s : SparseArrayPersistence) (offset : Nat) : Option Byte :=
  if s.inMemoryBufferOffset ≤ offset then
    let i := offset - s.inMemoryBufferOffset
    if s.inBuffer i then some (s.labels i) else none
  else s.labelsExtern.getAddress offset 0

/-- `ReadTransitionValue`. -/
def readTransitionValue (o : ByteOrder) (s : SparseArrayPersistence) (offset : Nat) :
    Option Bucket :=
  if s.inMemoryBufferOffset ≤ offset then
    let i := offset - s.inMemoryBufferOffset
    if s.inBuffer i then some (s.transitions i) else none
  else (s.transitionsExtern.getAddress offset 0).map (Bucket.le16toh o)

/-- Decoding at a place: in the buffer, in a chunk, or in a copy if a test with a number of bytes
does not exclude that the place is at the border of a chunk. -/
def readVarShort (s : SparseArrayPersistence) (quickTest bufferLength position : Nat) :
    Option Nat :=
  if s.inMemoryBufferOffset ≤ position then
    decodeVarShort fun i =>
      let i := position - s.inMemoryBufferOffset + i
      if s.inBuffer i then some (s.transitions i) else none
  else if s.transitionsExtern.getAddressQuickTestOk 2 position quickTest then
    decodeVarShort (s.transitionsExtern.getAddress position)
  else decodeVarShort (s.transitionsExtern.getBuffer position bufferLength)

/-- `ResolveTransitionValue`. -/
def resolveTransitionValue (s : SparseArrayPersistence) (offset : Nat) (value : Bucket) :
    Option Nat :=
  resolve (s.readVarShort 6 3) offset value

/-- `ReadFinalValue`. -/
def readFinalValue (s : SparseArrayPersistence) (offset : Nat) : Option Nat :=
  s.readVarShort 5 10 (offset + 256)

/-- `GetSize`. -/
def getSize (s : SparseArrayPersistence) : Nat :=
  max (s.highestStateBegin + 261) (s.highestRawWriteBucket + 1)

/-- `Flush`. The length is a `size_t`, so it is too large when the buffer starts behind the last
cell. -/
def flush (o : ByteOrder) (s : SparseArrayPersistence) : Option SparseArrayPersistence :=
  if s.flushed then some s
  else
    let highestWritePosition := max (s.highestStateBegin + 261) (s.highestRawWriteBucket + 1)
    let length := highestWritePosition - s.inMemoryBufferOffset
    if s.inMemoryBufferOffset ≤ highestWritePosition ∧ length ≤ s.bufferSize then
      let transitions := hostOrderToPersistenceOrder o s.flushSize s.transitions length
      some { s with
        labelsExtern := s.labelsExtern.append s.labels length
        transitionsExtern := s.transitionsExtern.append transitions length
        flushed := true }
    else none

/-- `Write`: the labels, then the transitions as they are in memory. -/
def write (o : ByteOrder) (s : SparseArrayPersistence) : Option (List Byte) :=
  (s.labelsExtern.write s.getSize).bind fun labels =>
    (s.transitionsExtern.write s.getSize).map fun transitions =>
      labels ++ transitions.flatMap (Bucket.bytesInMemory o)

/-- What the builder calls. -/
inductive Call
  | beginNewState (offset : Nat)
  | writeTransition (offset : Nat) (transitionId : Byte) (transitionPointer : Bucket)

/-- One call. -/
def call (o : ByteOrder) (s : SparseArrayPersistence) : Call → Option SparseArrayPersistence
  | .beginNewState offset => some (s.beginNewState o offset)
  | .writeTransition offset transitionId transitionPointer =>
    s.writeTransition o offset transitionId transitionPointer

end SparseArrayPersistence

end Keyvi.Fsa
