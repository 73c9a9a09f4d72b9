import Mathlib
import Keyvi.Fsa.MinimizationHash
import Keyvi.Fsa.PersistenceRefinement
import Keyvi.Fsa.PositionTracker
import Keyvi.Util.VintFunctions

/-!
# The sparse array builder

`unpacked_state.h`, `sparse_array_builder.h`. A state is put where its cells are free; what does not
fit into a cell goes to free cells around it. Offsets are of type `OffsetTypeT` with `offsetBits` bits,
hash codes are kept in `hashBits` bits.

The loops that search are bounded by the end of the windows of the trackers. An access outside of the
buffer of the persistence gives `none`.
-/

namespace Keyvi.Fsa

open BitVector PositionTracker

/-! ## Unpacked states -/

theorem RequestedPositions.bounded_set (r : RequestedPositions) (i : Fin 261) :
    (r.vector.set i).Bounded := by
  intro j hj hj'
  rw [BitVector.bit_set, r.bounded j hj hj', Bool.false_or, decide_eq_false]
  omega

/-- A vector with one position more. -/
def RequestedPositions.set (r : RequestedPositions) (i : Fin 261) : RequestedPositions :=
  ⟨r.vector.set i, r.bounded_set i⟩

/-- No positions. -/
def RequestedPositions.new : RequestedPositions := ⟨BitVector.new 261, bounded_new⟩

/-- An element of `outgoing_`. The label 256, `FINAL_OFFSET_TRANSITION`, is that of the value. -/
structure UnpackedTransition where
  label : Nat
  value : BitVec 64
deriving DecidableEq

/-- `UnpackedState`. -/
structure UnpackedState where
  outgoing : List UnpackedTransition
  bitVector : RequestedPositions
  noMinimizationCounter : Nat
  weight : Nat
  zerobyteState : Nat
  zerobyteLabel : Byte
  isFinal : Bool

namespace UnpackedState

/-- `Clear`. -/
def new : UnpackedState := ⟨[], .new, 0, 0, 0, 0xff, false⟩

/-- `Add`. -/
def add (s : UnpackedState) (label : Byte) (value : BitVec 64) : UnpackedState :=
  { s with
    outgoing := s.outgoing ++ [⟨label.val, value⟩]
    bitVector := s.bitVector.set (label.castLE (by decide)) }

/-- `AddFinalState`; a value has at most five units. -/
def addFinalState (s : UnpackedState) (value : BitVec 64) : UnpackedState :=
  { s with
    outgoing := s.outgoing ++ [⟨256, value⟩]
    bitVector := (List.range (Vint.getVarShortLength value.toNat)).foldl
      (fun r i => r.set (Fin.ofNat 261 (256 + i))) s.bitVector
    isFinal := true }

/-- `UpdateWeightIfHigher`. -/
def updateWeightIfHigher (s : UnpackedState) (weight : Nat) : UnpackedState :=
  if s.weight < weight then
    { s with
      weight := weight
      bitVector := s.bitVector.set 260 }
  else s

/-- `IncrementNoMinimizationCounter`. -/
def incrementNoMinimizationCounter (s : UnpackedState) : UnpackedState :=
  { s with noMinimizationCounter := s.noMinimizationCounter + 1 }

/-- `HasLabel`. -/
def hasLabel (s : UnpackedState) (label : Nat) : Bool := s.bitVector.vector.get label

/-- The three numbers of the hash function. -/
structure HashState where
  a : BitVec 64
  b : BitVec 64
  c : BitVec 64

/-- One third of a round: the right shifts are those of signed numbers. -/
def HashState.third (h : HashState) (i j k : Nat) : HashState :=
  let a := (h.a - h.b - h.c) ^^^ h.c.sshiftRight i
  let b := (h.b - h.c - a) ^^^ a <<< j
  let c := (h.c - a - b) ^^^ b.sshiftRight k
  ⟨a, b, c⟩

/-- A round, of two transitions while there are two. -/
def HashState.mix (h : HashState) : HashState :=
  ((h.third 13 8 13).third 12 16 5).third 3 10 15

/-- The loop of `GetHashcode`. -/
def hashLoop : HashState → List UnpackedTransition → HashState
  | h, [] => h
  | h, [t] => HashState.mix { h with
      a := h.a + BitVec.ofNat 64 t.label
      b := h.b + t.value }
  | h, t :: t' :: ts => hashLoop (HashState.mix { h with
      a := h.a + BitVec.ofNat 64 t.label + BitVec.ofNat 64 t'.label <<< 16
      b := h.b + t.value + t'.value <<< 16 }) ts

/-- `GetHashcode`. -/
def getHashcode (s : UnpackedState) : BitVec 64 :=
  (hashLoop ⟨0x9e3779b9, 0x9e3779b9, if 0 < s.weight then 1 else 0⟩ s.outgoing).c

/-- The hash code and the number of transitions of a state as they are kept. -/
def pack (hashBits offset : Nat) (s : UnpackedState) : PackedState :=
  ⟨offset, s.getHashcode.toNat % 2 ^ hashBits, s.outgoing.length % 512⟩

/-- A transition is found in the cells of a state. -/
def equalTransition (o : ByteOrder) (p : SparseArrayPersistence) (offset : Nat)
    (t : UnpackedTransition) : Option Bool := do
  let label ← p.readTransitionLabel (offset + t.label)
  if t.label < 256 then
    if label.val ≠ t.label then some false
    else
      let pt ← p.readTransitionValue o (offset + t.label)
      let target ← p.resolveTransitionValue (offset + t.label) pt
      some (t.value.toNat = target)
  else
    if label.val ≠ 1 then some false
    else
      let value ← p.readFinalValue offset
      some (t.value.toNat = value)

/-- The loop of `operator==`. -/
def equalTransitions (o : ByteOrder) (p : SparseArrayPersistence) (offset : Nat) :
    List UnpackedTransition → Option Bool
  | [] => some true
  | t :: ts => (equalTransition o p offset t).bind fun e =>
      if e then equalTransitions o p offset ts else some false

/-- `operator==`. -/
def equals (o : ByteOrder) (hashBits : Nat) (p : SparseArrayPersistence) (s : UnpackedState)
    (l : PackedState) : Option Bool :=
  if l.hashcode ≠ s.getHashcode.toNat % 2 ^ hashBits ∨ l.numOutgoing ≠ s.outgoing.length then
    some false
  else equalTransitions o p l.offset s.outgoing

end UnpackedState

/-! ## The builder -/

/-- `SparseArrayBuilder<SparseArrayPersistence<uint16_t>>`, without the hash table of its states. -/
structure SparseArrayBuilder where
  numberOfStates : Nat
  highestPersistedState : Nat
  persistence : SparseArrayPersistence
  innerWeight : Bool
  minimize : Bool
  stateStartPositions : PositionTracker
  takenPositions : PositionTracker
  zerobyteScrambling : PositionTracker

namespace SparseArrayBuilder

/-- The constructor. -/
def new (persistence : SparseArrayPersistence) (innerWeight minimize : Bool) : SparseArrayBuilder :=
  ⟨0, 0, persistence, innerWeight, minimize, .new, .new, .new⟩

/-- More rounds than a search has until it is behind all windows. -/
def searchRounds (b : SparseArrayBuilder) : Nat :=
  (b.stateStartPositions.windowStartPosition + b.takenPositions.windowStartPosition +
    b.zerobyteScrambling.windowStartPosition + 3) * 2048

/-- How a round of a search ends: the position of the next round, or what was found. -/
inductive Probe (α : Type)
  | next (startPosition : Nat)
  | found (a : α)

/-- A search, at most `rounds` rounds. -/
def search {α : Type} (round : Nat → Option (Probe α)) : Nat → Nat → Option α
  | 0, _ => none
  | rounds + 1, startPosition => (round startPosition).bind fun
    | .next startPosition => search round rounds startPosition
    | .found a => some a

/-- A round of `FindFreeBucket`. -/
def probeBucket (offsetBits : Nat) (b : SparseArrayBuilder) (u : UnpackedState) (first : Nat)
    (startPosition : Nat) : Option (Probe (Nat × UnpackedState)) := do
  let free ← b.stateStartPositions.nextFreeSlot startPosition
  let start := free % 2 ^ offsetBits
  let next (n : Nat) := some (Probe.next ((start + n) % 2 ^ offsetBits))
  if b.zerobyteScrambling.isSet start then next 1
  else if u.isFinal && b.stateStartPositions.isSet (start + 255) then next 1
  else
    let shift := b.takenPositions.isAvailable u.bitVector start
    if shift = 0 then
      if 255 < start && u.hasLabel 1 && b.stateStartPositions.isSet (start - 255) then next 1
      else if first ≠ 0 ∧ b.takenPositions.isSet start = false ∧ 255 ≤ start then
        let free ← b.stateStartPositions.nextFreeSlot (start - 255)
        let zerobyteState := free % 2 ^ offsetBits
        if start ≤ zerobyteState then next 1
        else
          let zerobyteLabel := Fin.ofNat 256 (start - zerobyteState)
          if zerobyteLabel = 1 && b.stateStartPositions.isSet (start - 255) then next 1
          else some (.found (start, { u with
            zerobyteState := zerobyteState
            zerobyteLabel := zerobyteLabel }))
      else some (.found (start, u))
    else next shift

/-- `FindFreeBucket`: the offset, and the state with its scrambled zero byte. -/
def findFreeBucket (offsetBits : Nat) (b : SparseArrayBuilder) (u : UnpackedState) :
    Option (Nat × UnpackedState) := do
  let first := (← u.outgoing.head?).label
  let start := if 151 < b.highestPersistedState then b.highestPersistedState - 151 else 1
  let free ← b.takenPositions.nextFreeSlot (start % 2 ^ offsetBits + first)
  search (b.probeBucket offsetBits u first) b.searchRounds ((free - first) % 2 ^ offsetBits)

/-- `WriteTransition` of the persistence. -/
def writeCell (o : ByteOrder) (b : SparseArrayBuilder) (offset : Nat) (transitionId : Byte)
    (transitionPointer : Bucket) : Option SparseArrayBuilder :=
  (b.persistence.writeTransition o offset transitionId transitionPointer).map fun p =>
    { b with persistence := p }

/-- Cells one behind the other, with ascending labels. -/
def writeCells (o : ByteOrder) : SparseArrayBuilder → Nat → Byte → List Bucket →
    Option SparseArrayBuilder
  | b, _, _, [] => some b
  | b, offset, label, v :: vs => (b.writeCell o offset label v).bind fun b =>
      writeCells o b (offset + 1) (label + 1) vs

/-- The slots behind the first one that cannot be used, the nearest first. -/
def blockedSlot (b : SparseArrayBuilder) (startPosition vshortSize : Nat) : Option Nat :=
  (List.range' 1 (vshortSize - 1)).find? fun i => b.takenPositions.isSet (startPosition + i) ||
    b.innerWeight && b.stateStartPositions.isSet ((startPosition + i + 2 ^ 64 - 260) % 2 ^ 64)

/-- Where an overflow bucket goes, with the pseudo state that its labels belong to. -/
structure OverflowPlace where
  startPosition : Nat
  zerobyteState : Nat
  zerobyteLabel : Byte

/-- A round of the search for an overflow bucket. -/
def probeOverflow (b : SparseArrayBuilder) (vshortSize : Nat) (startPosition : Nat) :
    Option (Probe OverflowPlace) := do
  let start ← b.takenPositions.nextFreeSlot startPosition
  if b.innerWeight && b.stateStartPositions.isSet (start + 260) then some (.next (start + 1))
  else if b.takenPositions.isSet start then some (.next (start + 1))
  else match b.blockedSlot start vshortSize with
    | some i => some (.next (start + i + 1))
    | none =>
      if 255 ≤ start then
        let zerobyteState ← b.stateStartPositions.nextFreeSlot (start + vshortSize - 255 - 1)
        let zerobyteLabel := Fin.ofNat 256 (start - zerobyteState)
        if start ≤ zerobyteState || zerobyteLabel = 1 then some (.next (start + vshortSize + 1))
        else some (.found ⟨start, zerobyteState, zerobyteLabel⟩)
      else some (.found ⟨start, 0, 0xff⟩)

/-- The search for an overflow bucket. -/
def findOverflow (b : SparseArrayBuilder) (offset vshortSize : Nat) : Option OverflowPlace :=
  search (b.probeOverflow vshortSize) b.searchRounds (offset - 512)

/-- `WriteTransition`. -/
def writeTransition (o : ByteOrder) (b : SparseArrayBuilder) (offset : Nat) (transitionId : Byte)
    (transitionPointer : Nat) : Option SparseArrayBuilder :=
  let difference :=
    if transitionPointer < offset + 512 then offset + 512 - transitionPointer else 2 ^ 64 - 1
  if difference < 32768 then b.writeCell o offset transitionId (Vint.toShort difference)
  else if transitionPointer < 16384 then
    b.writeCell o offset transitionId (Vint.toShort (transitionPointer ||| 0xC000))
  else
    let isRelative := difference < transitionPointer
    let overflowCode := if isRelative then difference else transitionPointer
    let vshortPointer := Vint.shorts (overflowCode >>> 3)
    (b.findOverflow offset vshortPointer.length).bind fun place =>
      let b := { b with
        zerobyteScrambling := b.zerobyteScrambling.set place.zerobyteState
        takenPositions := (List.range vshortPointer.length).foldl
          (fun t i => t.set (place.startPosition + i)) b.takenPositions }
      (writeCells o b place.startPosition place.zerobyteLabel vshortPointer).bind fun b =>
        let overflowBucket := 512 + place.startPosition - offset
        let pt := Vint.toShort ((0x8000 ||| if isRelative then 0x8 else 0) ||| overflowBucket <<< 4)
        b.writeCell o offset transitionId (Vint.toShort (pt.val + (overflowCode &&& 0x7)))

/-- `WriteFinalTransition`. -/
def writeFinalTransition (o : ByteOrder) (b : SparseArrayBuilder) (offset value : Nat) :
    Option SparseArrayBuilder :=
  b.writeCells o (offset + 256) 1 (Vint.shorts value)

/-- `UpdateWeightIfNeeded`. -/
def updateWeightIfNeeded (o : ByteOrder) (b : SparseArrayBuilder) (offset weight : Nat) :
    Option SparseArrayBuilder := do
  let nWeight := min weight 0xffff
  let current ← b.persistence.readTransitionValue o (offset + 260)
  if current.val < nWeight then
    (b.writeCell o (offset + 260) 0 (Vint.toShort nWeight)).map fun b => { b with
      takenPositions := b.takenPositions.set (offset + 260)
      stateStartPositions := b.stateStartPositions.set (offset + 260) }
  else some b

/-- No other state is placed at `offset - 255` when the state has the label 1. -/
def blockBefore (b : SparseArrayBuilder) (offset : Nat) (u : UnpackedState) : SparseArrayBuilder :=
  let labels := u.outgoing.map UnpackedTransition.label
  if (labels.head? = some 1 ∨ labels.take 2 = [0, 1]) ∧ 255 ≤ offset then
    { b with stateStartPositions := b.stateStartPositions.set (offset - 255) }
  else b

/-- The zero byte of a state without one. -/
def writeZerobyte (o : ByteOrder) (b : SparseArrayBuilder) (offset : Nat) (u : UnpackedState) :
    Option SparseArrayBuilder :=
  if (u.outgoing.map UnpackedTransition.label).head? ≠ some 0 ∧
      b.takenPositions.isSet offset = false then
    let b := if 255 ≤ offset then
        { b with zerobyteScrambling := b.zerobyteScrambling.set u.zerobyteState }
      else b
    b.writeTransition o offset u.zerobyteLabel 0
  else some b

/-- The first pass of `WriteState`: the positions are reserved. -/
def reserve (b : SparseArrayBuilder) (offset : Nat) (u : UnpackedState) : SparseArrayBuilder :=
  let starts := if u.isFinal then b.stateStartPositions.set (offset + 255)
    else b.stateStartPositions
  { b with
    takenPositions := b.takenPositions.setVector u.bitVector offset
    stateStartPositions := starts.set offset }

/-- The second pass of `WriteState`. -/
def writeOutgoing (o : ByteOrder) (offset : Nat) : SparseArrayBuilder → List UnpackedTransition →
    Option SparseArrayBuilder
  | b, [] => some b
  | b, t :: ts =>
    (if t.label < 256 then
      b.writeTransition o (offset + t.label) (Fin.ofNat 256 t.label) t.value.toNat
    else b.writeFinalTransition o offset t.value.toNat).bind fun b => writeOutgoing o offset b ts

/-- `BeginNewState` of the persistence, and the highest offset. -/
def beginNewState (o : ByteOrder) (b : SparseArrayBuilder) (offset : Nat) : SparseArrayBuilder :=
  { b with
    highestPersistedState := max b.highestPersistedState offset
    persistence := b.persistence.beginNewState o offset }

/-- `WriteState`. -/
def writeState (o : ByteOrder) (b : SparseArrayBuilder) (offset : Nat) (u : UnpackedState) :
    Option SparseArrayBuilder := do
  let b := (b.beginNewState o offset).blockBefore offset u
  let b ← b.writeZerobyte o offset u
  let b ← writeOutgoing o offset (b.reserve offset u) u.outgoing
  if 0 < u.weight then b.updateWeightIfNeeded o offset u.weight else some b

/-- What `PersistState` does when a state is new. -/
def persistNew (o : ByteOrder) (offsetBits : Nat) (b : SparseArrayBuilder) (u : UnpackedState) :
    Option (Nat × UnpackedState × SparseArrayBuilder) := do
  let (offset, u) ← b.findFreeBucket offsetBits u.incrementNoMinimizationCounter
  let b ← b.writeState o offset u
  some (offset, u, { b with numberOfStates := b.numberOfStates + 1 })

end SparseArrayBuilder

end Keyvi.Fsa
