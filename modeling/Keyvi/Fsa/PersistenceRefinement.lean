import Mathlib
import Keyvi.Fsa.SparseArrayPersistence

/-!
# The persistence and one flat array

What the persistence is for: an array without bounds. Single cells are always those of the flat
array. A number of several cells is, if its cells are all in the buffer, or, on a little-endian host,
all flushed and not cut by the end of a chunk; what is put out is, if the last flush converts all
cells that are left.
-/

namespace Keyvi.Fsa

/-- One array without bounds, with what the size is computed from. -/
structure FlatArray where
  labels : Nat → Byte
  transitions : Nat → Bucket
  highestStateBegin : Nat
  highestRawWriteBucket : Nat

namespace FlatArray

open SparseArrayPersistence (Call)

/-- An empty array; the first two labels are not 0. -/
def new : FlatArray := ⟨fun i => if i < 2 then 42 else 0, fun _ => 0, 0, 0⟩

/-- One call. -/
def call (f : FlatArray) : Call → FlatArray
  | .beginNewState offset => { f with highestStateBegin := max f.highestStateBegin offset }
  | .writeTransition offset transitionId transitionPointer =>
    { f with
      labels := fun i => if i = offset then transitionId else f.labels i
      transitions := fun i => if i = offset then transitionPointer else f.transitions i
      highestRawWriteBucket := max f.highestRawWriteBucket offset }

/-- The variable length number at a place. -/
def readVarShort (f : FlatArray) (position : Nat) : Option Nat :=
  decodeVarShort fun i => some (f.transitions (position + i))

/-- The number of its cells. -/
def cellsAt (f : FlatArray) (position : Nat) : Nat :=
  varShortCells fun i => f.transitions (position + i)

/-- `ReadFinalValue`. -/
def readFinalValue (f : FlatArray) (offset : Nat) : Option Nat := f.readVarShort (offset + 256)

/-- `ResolveTransitionValue`. -/
def resolveTransitionValue (f : FlatArray) (offset : Nat) (value : Bucket) : Option Nat :=
  resolve f.readVarShort offset value

/-- `GetSize`. -/
def size (f : FlatArray) : Nat := max (f.highestStateBegin + 261) (f.highestRawWriteBucket + 1)

/-- The labels, then the transitions with the low byte first. -/
def bytes (f : FlatArray) : List Byte :=
  (List.range f.size).map f.labels ++
    (List.range f.size).flatMap fun i => [(f.transitions i).low, (f.transitions i).high]

/-- The cells from a place on have been written, or are in front of written ones. -/
def Written (f : FlatArray) (position cells : Nat) : Prop :=
  position + cells ≤ f.highestRawWriteBucket + 1

end FlatArray

namespace SparseArrayPersistence

variable {o : ByteOrder} {s : SparseArrayPersistence} {f : FlatArray}

/-- A write lies in the buffer or in front of it. Behind the buffer it is undefined; `BeginNewState`
makes room for the cells of a state, but its overflow buckets may lie further behind. -/
def Fits (s : SparseArrayPersistence) : Call → Prop
  | .beginNewState _ => True
  | .writeTransition offset _ _ => offset < s.inMemoryBufferOffset + s.bufferSize

instance (s : SparseArrayPersistence) : ∀ c : Call, Decidable (s.Fits c)
  | .beginNewState _ => isTrue trivial
  | .writeTransition _ _ _ => Nat.decLt _ _

/-- The writes fit along a run of calls on a new persistence. -/
def WritesFit (o : ByteOrder) (memoryLimit : Nat) (calls : List Call) : Prop :=
  Run.Along (call o) Fits (new (persistenceMemoryLimit memoryLimit)) calls

instance (o : ByteOrder) (memoryLimit : Nat) (calls : List Call) :
    Decidable (WritesFit o memoryLimit calls) := Run.Along.decidable _ _ _ _

/-- **The invariant.** The array is the external part, then the buffer, then nothing. -/
structure Mirrors (o : ByteOrder) (s : SparseArrayPersistence) (f : FlatArray) : Prop where
  flushed : s.flushed = false
  flushPos : 0 < s.flushSize
  flushLe : s.flushSize ≤ s.bufferSize
  chunk : 10 ≤ s.transitionsExtern.chunkSize
  labelsAllocated : s.labelsExtern.Allocated
  transitionsAllocated : s.transitionsExtern.Allocated
  labelsTail : s.labelsExtern.tail = s.inMemoryBufferOffset
  transitionsTail : s.transitionsExtern.tail = s.inMemoryBufferOffset
  labelsExtern : ∀ i < s.inMemoryBufferOffset, s.labelsExtern.cell i = f.labels i
  transitionsExtern : ∀ i < s.inMemoryBufferOffset,
    s.transitionsExtern.cell i = Bucket.htole16 o (f.transitions i)
  labels : ∀ i < s.bufferSize, s.labels i = f.labels (s.inMemoryBufferOffset + i)
  transitions : ∀ i < s.bufferSize, s.transitions i = f.transitions (s.inMemoryBufferOffset + i)
  rest : ∀ i, s.inMemoryBufferOffset + s.bufferSize ≤ i → f.labels i = 0 ∧ f.transitions i = 0
  stateBegin : s.highestStateBegin = f.highestStateBegin
  rawWrite : s.highestRawWriteBucket = f.highestRawWriteBucket
  room : 0 < f.highestStateBegin →
    f.highestStateBegin + 512 + 255 < s.inMemoryBufferOffset + s.bufferSize
  reach : f.highestRawWriteBucket < s.inMemoryBufferOffset + s.bufferSize

/-! ## The constructor -/

theorem persistenceMemoryLimit_le (memoryLimit : Nat) :
    persistenceMemoryLimit memoryLimit ≤ 200 * 1024 * 1024 := by
  unfold persistenceMemoryLimit
  simp only
  split <;> omega

/-- **A new persistence mirrors the empty array**, for every memory limit of a generator. -/
theorem mirrors_new (o : ByteOrder) (memoryLimit : Nat) :
    Mirrors o (new (persistenceMemoryLimit memoryLimit)) FlatArray.new := by
  have hle := persistenceMemoryLimit_le memoryLimit
  generalize persistenceMemoryLimit memoryLimit = limit at hle
  have hbuffer : 16 ≤ align (limit / 3) ∧ align (limit / 3) % 16 = 0 ∧
      align (limit / 3) ≤ limit / 3 + 16 := by
    unfold align
    omega
  have hflush : 16 ≤ align (align (limit / 3) * 3 / 5) ∧
      align (align (limit / 3) * 3 / 5) ≤ align (limit / 3) := by
    generalize align (limit / 3) = b at hbuffer
    unfold align
    omega
  -- A chunk has room for two flushes.
  have hchunk : min (align (align (limit / 3) * 3 / 5) * 2) 1073741824 =
      align (align (limit / 3) * 3 / 5) * 2 := by omega
  have hten : 10 ≤ (new limit).transitionsExtern.chunkSize := by
    show 10 ≤ min (align (align (limit / 3) * 3 / 5) * 2) 1073741824 -
      min (align (align (limit / 3) * 3 / 5) * 2) 1073741824 % align (align (limit / 3) * 3 / 5)
    rw [hchunk, Nat.mul_mod_right]
    omega
  refine ⟨rfl, ?_, hflush.2, hten, ⟨?_, Nat.zero_le _⟩, ⟨?_, Nat.zero_le _⟩, rfl, rfl, ?_, ?_, ?_,
    ?_, ?_, rfl, rfl, ?_, ?_⟩
  · show 0 < align (align (limit / 3) * 3 / 5)
    omega
  · exact lt_of_lt_of_le (by decide) hten
  · exact lt_of_lt_of_le (by decide) hten
  · intro i hi
    exact absurd hi (Nat.not_lt_zero i)
  · intro i hi
    exact absurd hi (Nat.not_lt_zero i)
  · intro i _
    show (if i < 2 then (42 : Byte) else 0) = if 0 + i < 2 then 42 else 0
    rw [Nat.zero_add]
  · intro i _
    rfl
  · intro i hi
    have hi' : 0 + align (limit / 3) ≤ i := hi
    refine ⟨?_, rfl⟩
    show (if i < 2 then (42 : Byte) else 0) = 0
    rw [if_neg (by omega)]
  · intro h
    exact absurd h (lt_irrefl 0)
  · show 0 < 0 + align (limit / 3)
    omega

/-! ## Calls -/

theorem hostOrderToPersistenceOrder_of_lt {flushSize i : Nat} (values : Nat → Bucket) (n : Nat)
    (h : o = .littleEndian ∨ i < flushSize) :
    hostOrderToPersistenceOrder o flushSize values n i = Bucket.htole16 o (values i) := by
  cases o with
  | littleEndian => rfl
  | bigEndian =>
    have hi : i < flushSize := h.resolve_left (by simp)
    show (if i < flushSize then _ else _) = _
    rw [if_pos hi]

theorem hostOrderToPersistenceOrder_of_le {flushSize i : Nat} (values : Nat → Bucket) (n : Nat)
    (h : flushSize ≤ i) : hostOrderToPersistenceOrder o flushSize values n i = values i := by
  cases o with
  | littleEndian => rfl
  | bigEndian =>
    show (if i < flushSize then _ else _) = _
    rw [if_neg (by omega)]

/-- **`FlushBuffers` moves the border.** -/
theorem Mirrors.flushBuffers (h : Mirrors o s f) : Mirrors o (s.flushBuffers o) f := by
  have hle := h.flushLe
  obtain ⟨hla, hlc, hlt, hlcell⟩ :=
    MemoryMapManager.appended_append h.labelsAllocated s.labels s.flushSize
  obtain ⟨hta, htc, htt, htcell⟩ := MemoryMapManager.appended_append h.transitionsAllocated
    (hostOrderToPersistenceOrder o s.flushSize s.transitions s.flushSize) s.flushSize
  refine ⟨h.flushed, h.flushPos, h.flushLe, ?_, hla, hta, ?_, ?_, ?_, ?_, ?_, ?_, ?_,
    h.stateBegin, h.rawWrite, ?_, ?_⟩
  · exact h.chunk.trans_eq htc.symm
  · exact hlt.trans (by rw [h.labelsTail]; rfl)
  · exact htt.trans (by rw [h.transitionsTail]; rfl)
  · intro i hi
    have hi' : i < s.inMemoryBufferOffset + s.flushSize := hi
    refine (hlcell i).trans ?_
    rw [h.labelsTail, Nat.zero_add]
    by_cases hin : s.inMemoryBufferOffset ≤ i
    · rw [if_pos ⟨hin, hi'⟩, h.labels _ (by omega), Nat.add_sub_cancel' hin]
    · rw [if_neg (by omega), h.labelsExtern i (by omega)]
  · intro i hi
    have hi' : i < s.inMemoryBufferOffset + s.flushSize := hi
    refine (htcell i).trans ?_
    rw [h.transitionsTail, Nat.zero_add]
    by_cases hin : s.inMemoryBufferOffset ≤ i
    · rw [if_pos ⟨hin, hi'⟩, hostOrderToPersistenceOrder_of_lt _ _ (.inr (by omega)),
        h.transitions _ (by omega), Nat.add_sub_cancel' hin]
    · rw [if_neg (by omega), h.transitionsExtern i (by omega)]
  · intro i hi
    have hi' : i < s.bufferSize := hi
    show (if i < s.bufferSize - s.flushSize then s.labels (s.flushSize + i) else 0) =
      f.labels (s.inMemoryBufferOffset + s.flushSize + i)
    by_cases hin : i < s.bufferSize - s.flushSize
    · rw [if_pos hin, h.labels _ (by omega), Nat.add_assoc]
    · rw [if_neg hin, (h.rest _ (by omega)).1]
  · intro i hi
    have hi' : i < s.bufferSize := hi
    show (if i < s.bufferSize - s.flushSize then
      hostOrderToPersistenceOrder o s.flushSize s.transitions s.flushSize (s.flushSize + i)
        else 0) = f.transitions (s.inMemoryBufferOffset + s.flushSize + i)
    by_cases hin : i < s.bufferSize - s.flushSize
    · -- The cells that stay in the buffer are not converted.
      rw [if_pos hin, hostOrderToPersistenceOrder_of_le _ _ (Nat.le_add_right _ _),
        h.transitions _ (by omega), Nat.add_assoc]
    · rw [if_neg hin, (h.rest _ (by omega)).2]
  · intro i hi
    have hi' : s.inMemoryBufferOffset + s.flushSize + s.bufferSize ≤ i := hi
    exact h.rest i (by omega)
  · intro hb
    have := h.room hb
    show _ < s.inMemoryBufferOffset + s.flushSize + s.bufferSize
    omega
  · have := h.reach
    show _ < s.inMemoryBufferOffset + s.flushSize + s.bufferSize
    omega

/-- Flushing goes on until there is room for a state. -/
theorem Mirrors.flushLoop (offset : Nat) : ∀ (fuel : Nat) {s : SparseArrayPersistence},
    Mirrors o s f → offset + 768 ≤ fuel + s.inMemoryBufferOffset →
    Mirrors o (flushLoop o offset fuel s) f ∧
      offset + 512 + 255 < (SparseArrayPersistence.flushLoop o offset fuel s).inMemoryBufferOffset +
        (SparseArrayPersistence.flushLoop o offset fuel s).bufferSize
  | 0, s, h, hf => by
    have hpos := h.flushPos
    have hle := h.flushLe
    refine ⟨h, ?_⟩
    show _ < s.inMemoryBufferOffset + s.bufferSize
    omega
  | fuel + 1, s, h, hf => by
    have hpos := h.flushPos
    rw [SparseArrayPersistence.flushLoop]
    by_cases hroom : s.bufferSize + s.inMemoryBufferOffset ≤ offset + 512 + 255
    · rw [if_pos hroom]
      refine Mirrors.flushLoop offset fuel h.flushBuffers ?_
      show _ ≤ fuel + (s.inMemoryBufferOffset + s.flushSize)
      omega
    · rw [if_neg hroom]
      exact ⟨h, by omega⟩

/-- `BeginNewState` makes room. -/
theorem Mirrors.beginNewState (h : Mirrors o s f) (offset : Nat) :
    Mirrors o (s.beginNewState o offset) (f.call (.beginNewState offset)) := by
  obtain ⟨hm, hroom⟩ := h.flushLoop offset (offset + 768) (Nat.le_add_right _ _)
  unfold SparseArrayPersistence.beginNewState
  generalize SparseArrayPersistence.flushLoop o offset (offset + 768) s = t at hm hroom
  have hb : ∀ n, n = max f.highestStateBegin offset →
      Mirrors o { t with highestStateBegin := n } (f.call (.beginNewState offset)) := by
    rintro _ rfl
    refine ⟨hm.flushed, hm.flushPos, hm.flushLe, hm.chunk, hm.labelsAllocated,
      hm.transitionsAllocated, hm.labelsTail, hm.transitionsTail, hm.labelsExtern,
      hm.transitionsExtern, hm.labels, hm.transitions, hm.rest, rfl, hm.rawWrite, fun _ => ?_,
      hm.reach⟩
    show max f.highestStateBegin offset + 512 + 255 < t.inMemoryBufferOffset + t.bufferSize
    rcases Nat.eq_zero_or_pos f.highestStateBegin with h0 | hpos
    · rw [h0, Nat.zero_max]
      exact hroom
    · have := hm.room hpos
      omega
  by_cases hlt : t.highestStateBegin < offset
  · simp only [if_pos hlt]
    refine hb _ ?_
    rw [hm.stateBegin] at hlt
    rw [Nat.max_eq_right hlt.le]
  · simp only [if_neg hlt]
    refine hb _ ?_
    rw [hm.stateBegin] at hlt
    rw [Nat.max_eq_left (by omega), ← hm.stateBegin]

/-- `WriteTransition` writes one cell, on the side of the border where it is. -/
theorem Mirrors.writeTransition (h : Mirrors o s f) {offset : Nat}
    (hoff : offset < s.inMemoryBufferOffset + s.bufferSize) (transitionId : Byte)
    (transitionPointer : Bucket) :
    ∃ s', s.writeTransition o offset transitionId transitionPointer = some s' ∧
      Mirrors o s' (f.call (.writeTransition offset transitionId transitionPointer)) := by
  have hraw : max s.highestRawWriteBucket offset = max f.highestRawWriteBucket offset := by
    rw [h.rawWrite]
  have hreach : max f.highestRawWriteBucket offset < s.inMemoryBufferOffset + s.bufferSize := by
    have := h.reach
    omega
  have hrest : ∀ i, s.inMemoryBufferOffset + s.bufferSize ≤ i →
      (if i = offset then transitionId else f.labels i) = 0 ∧
        (if i = offset then transitionPointer else f.transitions i) = 0 := by
    intro i hi
    rw [if_neg (by omega), if_neg (by omega)]
    exact h.rest i hi
  unfold SparseArrayPersistence.writeTransition
  by_cases hin : s.inMemoryBufferOffset ≤ offset
  · have hbuf : s.inBuffer (offset - s.inMemoryBufferOffset) = true := by
      unfold inBuffer
      rw [h.flushed]
      simp only [Bool.not_false, Bool.true_and, decide_eq_true_eq]
      omega
    simp only [if_pos hin]
    rw [if_pos (by exact hbuf)]
    refine ⟨_, rfl, h.flushed, h.flushPos, h.flushLe, h.chunk, h.labelsAllocated,
      h.transitionsAllocated, h.labelsTail, h.transitionsTail, ?_, ?_, ?_, ?_, hrest,
      h.stateBegin, hraw, h.room, hreach⟩
    · intro i hi
      have hi' : i < s.inMemoryBufferOffset := hi
      show s.labelsExtern.cell i = if i = offset then transitionId else f.labels i
      rw [if_neg (by omega), h.labelsExtern i hi']
    · intro i hi
      have hi' : i < s.inMemoryBufferOffset := hi
      show s.transitionsExtern.cell i =
        Bucket.htole16 o (if i = offset then transitionPointer else f.transitions i)
      rw [if_neg (by omega), h.transitionsExtern i hi']
    · intro i hi
      show (if i = offset - s.inMemoryBufferOffset then transitionId else s.labels i) =
        if s.inMemoryBufferOffset + i = offset then transitionId
          else f.labels (s.inMemoryBufferOffset + i)
      by_cases he : i = offset - s.inMemoryBufferOffset
      · rw [if_pos he, if_pos (by omega)]
      · rw [if_neg he, if_neg (by omega), h.labels i hi]
    · intro i hi
      show (if i = offset - s.inMemoryBufferOffset then transitionPointer else s.transitions i) =
        if s.inMemoryBufferOffset + i = offset then transitionPointer
          else f.transitions (s.inMemoryBufferOffset + i)
      by_cases he : i = offset - s.inMemoryBufferOffset
      · rw [if_pos he, if_pos (by omega)]
      · rw [if_neg he, if_neg (by omega), h.transitions i hi]
  · simp only [if_neg hin]
    refine ⟨_, rfl, h.flushed, h.flushPos, h.flushLe, h.chunk, h.labelsAllocated.setAddress _ _,
      h.transitionsAllocated.setAddress _ _, h.labelsTail, h.transitionsTail, ?_, ?_, ?_, ?_, hrest,
      h.stateBegin, hraw, h.room, hreach⟩
    · intro i hi
      show (s.labelsExtern.setAddress offset transitionId).cell i =
        if i = offset then transitionId else f.labels i
      rw [MemoryMapManager.cell_setAddress, h.labelsExtern i hi]
    · intro i hi
      show (s.transitionsExtern.setAddress offset _).cell i =
        Bucket.htole16 o (if i = offset then transitionPointer else f.transitions i)
      rw [MemoryMapManager.cell_setAddress, h.transitionsExtern i hi]
      exact (apply_ite (Bucket.htole16 o) _ _ _).symm
    · intro i hi
      show s.labels i = if s.inMemoryBufferOffset + i = offset then transitionId
        else f.labels (s.inMemoryBufferOffset + i)
      rw [if_neg (by omega), h.labels i hi]
    · intro i hi
      show s.transitions i = if s.inMemoryBufferOffset + i = offset then transitionPointer
        else f.transitions (s.inMemoryBufferOffset + i)
      rw [if_neg (by omega), h.transitions i hi]

/-- `BeginNewState` makes room for 767 cells behind a state. -/
theorem Mirrors.fits (h : Mirrors o s f) (hb : 0 < f.highestStateBegin) {offset : Nat}
    (hoff : offset ≤ f.highestStateBegin + 512 + 255) (transitionId : Byte)
    (transitionPointer : Bucket) : s.Fits (.writeTransition offset transitionId transitionPointer) :=
  hoff.trans_lt (h.room hb)

/-- **Every run mirrors the flat array**, as long as the writes fit. -/
theorem Mirrors.run : ∀ {calls : List Call} {s : SparseArrayPersistence} {f : FlatArray},
    Mirrors o s f → Run.Along (call o) Fits s calls →
    ∃ s', Run.run (call o) s calls = some s' ∧ Mirrors o s' (calls.foldl FlatArray.call f)
  | [], s, f, h, _ => ⟨s, rfl, h⟩
  | c :: calls, s, f, h, hok => by
    obtain ⟨t, ht, hm⟩ : ∃ t, call o s c = some t ∧ Mirrors o t (f.call c) := by
      cases c with
      | beginNewState offset => exact ⟨_, rfl, h.beginNewState offset⟩
      | writeTransition offset transitionId transitionPointer =>
        exact h.writeTransition hok.1 transitionId transitionPointer
    obtain ⟨s', hs', hm'⟩ := Mirrors.run hm (hok.2 t ht)
    exact ⟨s', Run.run_cons.mpr ⟨t, ht, hs'⟩, hm'⟩

/-! ## Reading -/

theorem Mirrors.inBuffer (h : Mirrors o s f) {i : Nat} (hi : i < s.bufferSize) :
    s.inBuffer i = true := by
  unfold SparseArrayPersistence.inBuffer
  rw [h.flushed]
  simpa using hi

/-- A single label is the one of the flat array. -/
theorem Mirrors.readTransitionLabel (h : Mirrors o s f) {offset : Nat}
    (hoff : offset ≤ f.highestRawWriteBucket) :
    s.readTransitionLabel offset = some (f.labels offset) := by
  have hreach := h.reach
  unfold SparseArrayPersistence.readTransitionLabel
  by_cases hin : s.inMemoryBufferOffset ≤ offset
  · simp only [if_pos hin]
    rw [if_pos (h.inBuffer (by omega)), h.labels _ (by omega), Nat.add_sub_cancel' hin]
  · have hpos := Nat.mod_lt offset h.labelsAllocated.pos
    rw [if_neg hin, MemoryMapManager.getAddress_eq (by omega), Nat.add_zero,
      h.labelsExtern offset (by omega)]

/-- A single transition is the one of the flat array, in both byte orders. -/
theorem Mirrors.readTransitionValue (h : Mirrors o s f) {offset : Nat}
    (hoff : offset ≤ f.highestRawWriteBucket) :
    s.readTransitionValue o offset = some (f.transitions offset) := by
  have hreach := h.reach
  unfold SparseArrayPersistence.readTransitionValue
  by_cases hin : s.inMemoryBufferOffset ≤ offset
  · simp only [if_pos hin]
    rw [if_pos (h.inBuffer (by omega)), h.transitions _ (by omega), Nat.add_sub_cancel' hin]
  · have hpos := Nat.mod_lt offset h.transitionsAllocated.pos
    rw [if_neg hin, MemoryMapManager.getAddress_eq (by omega), Nat.add_zero,
      h.transitionsExtern offset (by omega), Option.map_some, Bucket.le16toh_htole16]

/-- The cells from a place on in its chunk. -/
def chunkRest (s : SparseArrayPersistence) (position : Nat) : Nat :=
  s.transitionsExtern.chunkSize - position % s.transitionsExtern.chunkSize

/-- The cells of a number can be read: they are in the buffer, or, on a little-endian host, flushed
and not more than the copy has at the end of a chunk, or than the chunk has elsewhere. -/
def Readable (o : ByteOrder) (s : SparseArrayPersistence) (position cells bufferLength : Nat) :
    Prop :=
  s.inMemoryBufferOffset ≤ position ∨
    o = .littleEndian ∧ position + cells ≤ s.inMemoryBufferOffset ∧
      cells ≤ if s.chunkRest position < 3 then bufferLength else s.chunkRest position

instance (position cells bufferLength : Nat) : Decidable (s.Readable o position cells bufferLength) :=
  instDecidableOr

/-- **A number of several cells.** -/
theorem Mirrors.readVarShort (h : Mirrors o s f) {quickTest bufferLength position : Nat}
    (hquick : quickTest = 5 ∨ quickTest = 6) (hlen : bufferLength ≤ 10)
    (hw : f.Written position (f.cellsAt position))
    (hr : s.Readable o position (f.cellsAt position) bufferLength) :
    s.readVarShort quickTest bufferLength position = f.readVarShort position := by
  have hreach := h.reach
  have hchunk := h.chunk
  have hw' : position + f.cellsAt position ≤ f.highestRawWriteBucket + 1 := hw
  unfold SparseArrayPersistence.readVarShort FlatArray.readVarShort
  by_cases hin : s.inMemoryBufferOffset ≤ position
  · rw [if_pos hin]
    refine decodeVarShort_congr fun j hj => ?_
    have hj' : j < f.cellsAt position := hj
    simp only
    rw [if_pos (h.inBuffer (by omega)), h.transitions _ (by omega)]
    congr 2
    omega
  · obtain ⟨rfl, hflushed, hcells⟩ := hr.resolve_left hin
    have hcell : ∀ j < f.cellsAt position,
        s.transitionsExtern.cell (position + j) = f.transitions (position + j) := fun j hj =>
      h.transitionsExtern _ (by omega)
    have hmod := Nat.mod_lt position h.transitionsAllocated.pos
    rw [if_neg hin]
    unfold MemoryMapManager.getAddressQuickTestOk
    unfold chunkRest at hcells
    by_cases hrest : s.transitionsExtern.chunkSize - position % s.transitionsExtern.chunkSize < 3
    · -- The copy of the cells is read.
      rw [if_pos hrest] at hcells
      rw [if_neg (by simp only [decide_eq_true_eq]; omega)]
      refine decodeVarShort_congr fun j hj => ?_
      have hj' : j < f.cellsAt position := hj
      rw [MemoryMapManager.getBuffer_eq h.transitionsAllocated.pos (by omega) (by omega),
        hcell j hj']
    · -- The cells are read in the chunk.
      rw [if_neg hrest] at hcells
      rw [if_pos (by simp only [decide_eq_true_eq]; omega)]
      refine decodeVarShort_congr fun j hj => ?_
      have hj' : j < f.cellsAt position := hj
      rw [MemoryMapManager.getAddress_eq (by omega), hcell j hj']

/-! ## Writing out -/

/-- The last flush can be done: the buffer does not start behind the last cell and reaches up to it,
and on a big-endian host all cells that are left are converted. -/
def Flushable (o : ByteOrder) (s : SparseArrayPersistence) : Prop :=
  s.inMemoryBufferOffset ≤ s.getSize ∧ s.getSize ≤ s.inMemoryBufferOffset + s.bufferSize ∧
    (o = .littleEndian ∨ s.getSize ≤ s.inMemoryBufferOffset + s.flushSize)

/-- **`Flush` and `Write` put out the flat array.** -/
theorem Mirrors.write (h : Mirrors o s f) (hf : s.Flushable o) :
    ((s.flush o).bind fun s' => s'.write o) = some f.bytes := by
  obtain ⟨hstart, hstop, horder⟩ := hf
  have hsize : s.getSize = f.size := by
    unfold getSize FlatArray.size
    rw [h.stateBegin, h.rawWrite]
  have hlen : s.inMemoryBufferOffset + (s.getSize - s.inMemoryBufferOffset) = s.getSize :=
    Nat.add_sub_cancel' hstart
  obtain ⟨hla, -, hlt, hlcell⟩ := MemoryMapManager.appended_append h.labelsAllocated s.labels
    (s.getSize - s.inMemoryBufferOffset)
  obtain ⟨hta, -, htt, htcell⟩ := MemoryMapManager.appended_append h.transitionsAllocated
    (hostOrderToPersistenceOrder o s.flushSize s.transitions (s.getSize - s.inMemoryBufferOffset))
    (s.getSize - s.inMemoryBufferOffset)
  rw [h.labelsTail, hlen] at hlt
  rw [h.transitionsTail, hlen] at htt
  have hflush : s.flush o = some { s with
      labelsExtern := s.labelsExtern.append s.labels (s.getSize - s.inMemoryBufferOffset)
      transitionsExtern := s.transitionsExtern.append (hostOrderToPersistenceOrder o s.flushSize
        s.transitions (s.getSize - s.inMemoryBufferOffset)) (s.getSize - s.inMemoryBufferOffset)
      flushed := true } := by
    unfold flush
    rw [if_neg (by simp [h.flushed])]
    exact if_pos ⟨hstart, by unfold getSize at hstop; omega⟩
  rw [hflush, Option.bind_some]
  unfold SparseArrayPersistence.write
  show ((s.labelsExtern.append _ _).write s.getSize).bind (fun labels =>
    ((s.transitionsExtern.append _ _).write s.getSize).map fun transitions =>
      labels ++ transitions.flatMap (Bucket.bytesInMemory o)) = _
  rw [MemoryMapManager.write_eq hla hlt.ge, MemoryMapManager.write_eq hta htt.ge, Option.bind_some,
    Option.map_some, FlatArray.bytes, ← hsize, List.flatMap_map]
  have hlabels : ∀ i ∈ List.range s.getSize,
      (s.labelsExtern.append s.labels (s.getSize - s.inMemoryBufferOffset)).cell i =
        f.labels i := by
    intro i hi
    have hi' := List.mem_range.mp hi
    rw [hlcell, h.labelsTail, Nat.zero_add]
    by_cases hin : s.inMemoryBufferOffset ≤ i
    · rw [if_pos (by omega), h.labels _ (by omega), Nat.add_sub_cancel' hin]
    · rw [if_neg (by omega), h.labelsExtern i (by omega)]
  have htransitions : ∀ i ∈ List.range s.getSize,
      (s.transitionsExtern.append (hostOrderToPersistenceOrder o s.flushSize s.transitions
        (s.getSize - s.inMemoryBufferOffset)) (s.getSize - s.inMemoryBufferOffset)).cell i =
          Bucket.htole16 o (f.transitions i) := by
    intro i hi
    have hi' := List.mem_range.mp hi
    rw [htcell, h.transitionsTail, Nat.zero_add]
    by_cases hin : s.inMemoryBufferOffset ≤ i
    · rw [if_pos (by omega), hostOrderToPersistenceOrder_of_lt _ _
        (horder.imp_right fun hle => by omega), h.transitions _ (by omega),
        Nat.add_sub_cancel' hin]
    · rw [if_neg (by omega), h.transitionsExtern i (by omega)]
  rw [List.map_congr_left hlabels]
  congr 2
  refine List.flatMap_congr fun i hi => ?_
  rw [htransitions i hi, Bucket.bytesInMemory_htole16]

/-! ## The persistence behaves as the flat array -/

/-- **What the persistence shows is what the flat array holds**: every cell that has been written;
every number whose cells can be read; the output if the last flush can be done. -/
structure ActsFlat (o : ByteOrder) (s : SparseArrayPersistence) (f : FlatArray) : Prop where
  label : ∀ offset ≤ f.highestRawWriteBucket,
    s.readTransitionLabel offset = some (f.labels offset)
  value : ∀ offset ≤ f.highestRawWriteBucket,
    s.readTransitionValue o offset = some (f.transitions offset)
  finalValue : ∀ offset, f.Written (offset + 256) (f.cellsAt (offset + 256)) →
    s.Readable o (offset + 256) (f.cellsAt (offset + 256)) 10 →
    s.readFinalValue offset = f.readFinalValue offset
  resolved : ∀ offset value, (UsesOverflow value →
      f.Written (overflowBucket offset value) (f.cellsAt (overflowBucket offset value)) ∧
        s.Readable o (overflowBucket offset value) (f.cellsAt (overflowBucket offset value)) 3) →
    s.resolveTransitionValue offset value = f.resolveTransitionValue offset value
  output : s.Flushable o → ((s.flush o).bind fun s' => s'.write o) = some f.bytes

theorem Mirrors.actsFlat (h : Mirrors o s f) : ActsFlat o s f where
  label _ hoff := h.readTransitionLabel hoff
  value _ hoff := h.readTransitionValue hoff
  finalValue _ hw hr := h.readVarShort (.inl rfl) le_rfl hw hr
  resolved _ _ hov :=
    resolve_congr fun hu => h.readVarShort (.inr rfl) (by omega) (hov hu).1 (hov hu).2
  output hf := h.write hf

/-- **Every run of calls whose writes fit, with every memory limit and in both byte orders.** -/
theorem persistence_actsFlat (o : ByteOrder) (memoryLimit : Nat) (calls : List Call)
    (h : WritesFit o memoryLimit calls) :
    ∃ s, Run.run (call o) (new (persistenceMemoryLimit memoryLimit)) calls = some s ∧
      ActsFlat o s (calls.foldl FlatArray.call FlatArray.new) := by
  obtain ⟨s, hs, hm⟩ := (mirrors_new o memoryLimit).run h
  exact ⟨s, hs, hm.actsFlat⟩

/-- With the default memory limit: a final state with the value 100000, whose two cells are on both
sides of the first border, and a state that is far enough for the flush. -/
def straddling : List Call :=
  [.beginNewState 41942799, .writeTransition 41943055 1 34464, .writeTransition 41943056 2 3,
    .beginNewState 69904305]

theorem persistence_actsFlat_straddling :
    ∃ s, Run.run (call .littleEndian) (new (persistenceMemoryLimit (1024 * 1024 * 1024)))
        straddling = some s ∧
      ActsFlat .littleEndian s (straddling.foldl FlatArray.call FlatArray.new) :=
  persistence_actsFlat .littleEndian _ straddling (by decide +kernel)

/-- Only the flushed cell of the value is read: the flat array holds 100000, the persistence
returns 1696. -/
theorem finalValue_cut :
    ¬ ∀ (o : ByteOrder) (memoryLimit : Nat) (calls : List Call), WritesFit o memoryLimit calls →
      ∃ s, Run.run (call o) (new (persistenceMemoryLimit memoryLimit)) calls = some s ∧
        ∀ offset, (calls.foldl FlatArray.call FlatArray.new).Written (offset + 256)
            ((calls.foldl FlatArray.call FlatArray.new).cellsAt (offset + 256)) →
          s.readFinalValue offset =
            (calls.foldl FlatArray.call FlatArray.new).readFinalValue offset := by
  intro h
  obtain ⟨s, hs, hread⟩ := h .littleEndian (1024 * 1024 * 1024) straddling (by decide +kernel)
  have hcode : ((Run.run (call .littleEndian)
      (new (persistenceMemoryLimit (1024 * 1024 * 1024))) straddling).bind fun s =>
        s.readFinalValue 41942799) = some 1696 := by decide +kernel
  have hflat : (straddling.foldl FlatArray.call FlatArray.new).readFinalValue 41942799 =
      some 100000 := by decide +kernel
  rw [hs, Option.bind_some, hread 41942799 (by unfold FlatArray.Written; decide +kernel),
    hflat] at hcode
  cases hcode

end SparseArrayPersistence

end Keyvi.Fsa
