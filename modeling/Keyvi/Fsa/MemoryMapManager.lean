import Mathlib

/-!
# External memory

`memory_map_manager.h`: an array that is appended to and kept in files of one size, the chunks. All
sizes and offsets here count cells; the source counts bytes, with cells of one or two bytes.
-/

namespace Keyvi.Fsa

/-- `MemoryMapManager`. A new chunk is filled with 0. -/
structure MemoryMapManager (α : Type) where
  chunkSize : Nat
  mappings : Nat → Nat → α
  tail : Nat
  numberOfChunks : Nat

namespace MemoryMapManager

variable {α : Type}

/-- The constructor. -/
def new [OfNat α 0] (chunkSize : Nat) : MemoryMapManager α := ⟨chunkSize, fun _ _ => 0, 0, 0⟩

/-- `GetAddressQuickTestOk`: `length` is in bytes. -/
def getAddressQuickTestOk (m : MemoryMapManager α) (cellSize offset length : Nat) : Bool :=
  length ≤ cellSize * (m.chunkSize - offset % m.chunkSize)

/-- The cell `i` behind `GetAddress`. A pointer does not lead from one chunk to the next. -/
def getAddress (m : MemoryMapManager α) (offset i : Nat) : Option α :=
  let chunkNumber := offset / m.chunkSize
  let chunkOffset := offset % m.chunkSize
  if chunkOffset + i < m.chunkSize then some (m.mappings chunkNumber (chunkOffset + i)) else none

/-- The cell `i` of the copy that `GetBuffer` makes. -/
def getBuffer (m : MemoryMapManager α) (offset bufferLength i : Nat) : Option α :=
  let chunkNumber := offset / m.chunkSize
  let chunkOffset := offset % m.chunkSize
  let firstChunkSize := min bufferLength (m.chunkSize - chunkOffset)
  if i < firstChunkSize then some (m.mappings chunkNumber (chunkOffset + i))
  else if i < bufferLength then some (m.mappings (chunkNumber + 1) (i - firstChunkSize))
  else none

/-- A write through `GetAddress`; `GetChunk` creates the chunk. -/
def setAddress (m : MemoryMapManager α) (offset : Nat) (x : α) : MemoryMapManager α :=
  let chunkNumber := offset / m.chunkSize
  let chunkOffset := offset % m.chunkSize
  { m with
    mappings := fun n i => if n = chunkNumber ∧ i = chunkOffset then x else m.mappings n i
    numberOfChunks := max m.numberOfChunks (chunkNumber + 1) }

/-- One round of the loop of `Append`: what fits into the last chunk. -/
def appendChunk (m : MemoryMapManager α) (buffer : Nat → α) (bufferOffset copySize : Nat) :
    MemoryMapManager α :=
  let chunkNumber := m.tail / m.chunkSize
  let chunkOffset := m.tail % m.chunkSize
  { m with
    mappings := fun n i =>
      if n = chunkNumber ∧ chunkOffset ≤ i ∧ i < chunkOffset + copySize then
        buffer (bufferOffset + (i - chunkOffset))
      else m.mappings n i
    tail := m.tail + copySize
    numberOfChunks := max m.numberOfChunks (chunkNumber + 1) }

/-- The loop of `Append`; every round copies a cell. -/
def appendLoop (buffer : Nat → α) : Nat → Nat → Nat → MemoryMapManager α → MemoryMapManager α
  | 0, _, _, m => m
  | fuel + 1, bufferOffset, remaining, m =>
    if 0 < remaining then
      let copySize := min remaining (m.chunkSize - m.tail % m.chunkSize)
      appendLoop buffer fuel (bufferOffset + copySize) (remaining - copySize)
        (m.appendChunk buffer bufferOffset copySize)
    else m

/-- `Append`. -/
def append (m : MemoryMapManager α) (buffer : Nat → α) (bufferLength : Nat) : MemoryMapManager α :=
  appendLoop buffer bufferLength 0 bufferLength m

/-- `push_back`. -/
def pushBack (m : MemoryMapManager α) (c : α) : MemoryMapManager α :=
  { m.setAddress m.tail c with tail := m.tail + 1 }

/-- `Compare`. What does not fit into the first chunk is compared with the next one, where it fits if the
buffer is not longer than a chunk. -/
def compare [DecidableEq α] (m : MemoryMapManager α) (offset : Nat) (buffer : List α) : Bool :=
  let chunkNumber := offset / m.chunkSize
  let chunkOffset := offset % m.chunkSize
  let firstChunkSize := min buffer.length (m.chunkSize - chunkOffset)
  if (List.range firstChunkSize).map (fun i => m.mappings chunkNumber (chunkOffset + i)) ≠
      buffer.take firstChunkSize then false
  else if buffer.length = firstChunkSize then true
  else
    (List.range (buffer.length - firstChunkSize)).map (m.mappings (chunkNumber + 1)) =
      buffer.drop firstChunkSize

/-- `Write` after `Persist`, which cuts the last file to what was written. -/
def writePersisted (m : MemoryMapManager α) : List α :=
  (List.range m.numberOfChunks).flatMap fun i =>
    (List.range (if i + 1 = m.numberOfChunks then m.tail - i * m.chunkSize else m.chunkSize)).map
      (m.mappings i)

/-- The loop of `Write` from a chunk on. -/
def writeLoop (m : MemoryMapManager α) : Nat → Nat → Nat → Option (List α)
  | 0, _, _ => some []
  | fuel + 1, chunk, remaining =>
    if 0 < remaining then
      if chunk < m.numberOfChunks then
        let cellsInChunk := min m.chunkSize remaining
        (m.writeLoop fuel (chunk + 1) (remaining - cellsInChunk)).map fun out =>
          (List.range cellsInChunk).map (m.mappings chunk) ++ out
      else none
    else some []

/-- `Write` before `Persist`. -/
def write (m : MemoryMapManager α) (stop : Nat) : Option (List α) :=
  if m.numberOfChunks = 0 then some [] else m.writeLoop stop 0 stop

/-! ## The array in the chunks -/

/-- The cell at an offset. -/
def cell (m : MemoryMapManager α) (i : Nat) : α := m.mappings (i / m.chunkSize) (i % m.chunkSize)

/-- The chunks reach as far as the array. -/
structure Allocated (m : MemoryMapManager α) : Prop where
  pos : 0 < m.chunkSize
  reach : m.tail ≤ m.numberOfChunks * m.chunkSize

variable {m : MemoryMapManager α}

theorem div_mod_of_lt {c a i : Nat} (h : a % c + i < c) :
    (a + i) / c = a / c ∧ (a + i) % c = a % c + i := by
  have hc : 0 < c := by omega
  have ha := Nat.div_add_mod a c
  constructor
  · rw [Nat.div_eq_of_lt_le]
    · rw [Nat.mul_comm]
      omega
    · rw [Nat.add_mul, Nat.one_mul, Nat.mul_comm]
      omega
  · rw [← ha, Nat.add_assoc, Nat.mul_add_mod, Nat.mod_eq_of_lt h, ha]

/-- Inside a chunk a pointer sees the array. -/
theorem getAddress_eq {offset i : Nat} (h : offset % m.chunkSize + i < m.chunkSize) :
    m.getAddress offset i = some (m.cell (offset + i)) := by
  unfold getAddress cell
  rw [if_pos h, (div_mod_of_lt h).1, (div_mod_of_lt h).2]

/-- A copy of at most one chunk sees the array. -/
theorem getBuffer_eq {offset n i : Nat} (hc : 0 < m.chunkSize) (hn : n ≤ m.chunkSize) (hi : i < n) :
    m.getBuffer offset n i = some (m.cell (offset + i)) := by
  have hlt := Nat.mod_lt offset hc
  unfold getBuffer
  by_cases h : offset % m.chunkSize + i < m.chunkSize
  · rw [if_pos (show i < min n (m.chunkSize - offset % m.chunkSize) by omega)]
    unfold cell
    rw [(div_mod_of_lt h).1, (div_mod_of_lt h).2]
  · -- The rest lies at the start of the next chunk.
    rw [if_neg (show ¬ i < min n (m.chunkSize - offset % m.chunkSize) by omega), if_pos hi]
    have hrest : offset + i = m.chunkSize * (offset / m.chunkSize + 1) +
        (offset % m.chunkSize + i - m.chunkSize) := by
      have := Nat.div_add_mod offset m.chunkSize
      rw [Nat.mul_add, Nat.mul_one]
      omega
    unfold cell
    rw [hrest, Nat.mul_add_div hc, Nat.mul_add_mod,
      Nat.div_eq_of_lt (show offset % m.chunkSize + i - m.chunkSize < m.chunkSize by omega),
      Nat.mod_eq_of_lt (show offset % m.chunkSize + i - m.chunkSize < m.chunkSize by omega),
      show min n (m.chunkSize - offset % m.chunkSize) = m.chunkSize - offset % m.chunkSize by omega,
      show i - (m.chunkSize - offset % m.chunkSize) = offset % m.chunkSize + i - m.chunkSize by
        omega]

/-- A write changes one cell. -/
theorem cell_setAddress (offset i : Nat) (x : α) :
    (m.setAddress offset x).cell i = if i = offset then x else m.cell i := by
  unfold setAddress cell
  simp only
  by_cases h : i = offset
  · subst h
    simp
  · rw [if_neg h, if_neg]
    rintro ⟨hd, hm⟩
    apply h
    rw [← Nat.div_add_mod i m.chunkSize, hd, hm, Nat.div_add_mod]

/-- One round appends the cells that it copies. -/
theorem cell_appendChunk (buffer : Nat → α) {bufferOffset copySize : Nat}
    (hfit : m.tail % m.chunkSize + copySize ≤ m.chunkSize) (i : Nat) :
    (m.appendChunk buffer bufferOffset copySize).cell i =
      if m.tail ≤ i ∧ i < m.tail + copySize then buffer (bufferOffset + (i - m.tail))
      else m.cell i := by
  unfold appendChunk cell
  simp only
  by_cases h : m.tail ≤ i ∧ i < m.tail + copySize
  · obtain ⟨d, rfl⟩ := Nat.exists_eq_add_of_le h.1
    have hd : m.tail % m.chunkSize + d < m.chunkSize := by omega
    rw [if_pos h, (div_mod_of_lt hd).1, (div_mod_of_lt hd).2, if_pos ⟨rfl, by omega, by omega⟩]
    congr 1
    omega
  · rw [if_neg h, if_neg]
    rintro ⟨hdiv, hle, hlt⟩
    apply h
    have h1 := Nat.div_add_mod i m.chunkSize
    have h2 := Nat.div_add_mod m.tail m.chunkSize
    rw [hdiv] at h1
    omega

theorem Allocated.appendChunk (h : m.Allocated) (buffer : Nat → α) (bufferOffset : Nat)
    {copySize : Nat} (hfit : m.tail % m.chunkSize + copySize ≤ m.chunkSize) :
    (m.appendChunk buffer bufferOffset copySize).Allocated := by
  refine ⟨h.pos, ?_⟩
  show m.tail + copySize ≤ max m.numberOfChunks (m.tail / m.chunkSize + 1) * m.chunkSize
  have h1 : (m.tail / m.chunkSize + 1) * m.chunkSize ≤
      max m.numberOfChunks (m.tail / m.chunkSize + 1) * m.chunkSize :=
    Nat.mul_le_mul_right _ (le_max_right _ _)
  have h2 := Nat.div_add_mod m.tail m.chunkSize
  rw [Nat.add_mul, Nat.one_mul, Nat.mul_comm (m.tail / m.chunkSize)] at h1
  omega

theorem Allocated.setAddress (h : m.Allocated) (offset : Nat) (x : α) :
    (m.setAddress offset x).Allocated :=
  ⟨h.pos, h.reach.trans (Nat.mul_le_mul_right _ (le_max_left _ _))⟩

/-- What an array is after cells were appended. -/
structure Appended (m m' : MemoryMapManager α) (buffer : Nat → α) (bufferOffset n : Nat) :
    Prop where
  allocated : m'.Allocated
  chunkSize : m'.chunkSize = m.chunkSize
  tail : m'.tail = m.tail + n
  cell : ∀ i, m'.cell i =
    if m.tail ≤ i ∧ i < m.tail + n then buffer (bufferOffset + (i - m.tail)) else m.cell i

theorem appended_appendLoop (buffer : Nat → α) : ∀ (fuel bufferOffset remaining : Nat)
    {m : MemoryMapManager α}, m.Allocated → remaining ≤ fuel →
    Appended m (appendLoop buffer fuel bufferOffset remaining m) buffer bufferOffset remaining
  | 0, bufferOffset, remaining, m, h, hf => by
    obtain rfl : remaining = 0 := by omega
    exact ⟨h, rfl, rfl, fun i => by rw [if_neg (by omega)]; rfl⟩
  | fuel + 1, bufferOffset, remaining, m, h, hf => by
    rw [appendLoop]
    by_cases hr : 0 < remaining
    · rw [if_pos hr]
      have hlt := Nat.mod_lt m.tail h.pos
      generalize hcopy : min remaining (m.chunkSize - m.tail % m.chunkSize) = copySize
      have hfit : m.tail % m.chunkSize + copySize ≤ m.chunkSize := by omega
      obtain ⟨ha, hsize, htail, hcell⟩ := appended_appendLoop buffer fuel (bufferOffset + copySize)
        (remaining - copySize) (h.appendChunk buffer bufferOffset hfit) (by omega)
      refine ⟨ha, hsize, ?_, fun i => ?_⟩
      · rw [htail]
        show m.tail + copySize + (remaining - copySize) = _
        omega
      · rw [hcell, cell_appendChunk buffer hfit]
        show (if m.tail + copySize ≤ i ∧ i < m.tail + copySize + (remaining - copySize) then
          buffer (bufferOffset + copySize + (i - (m.tail + copySize))) else _) = _
        by_cases h1 : m.tail ≤ i ∧ i < m.tail + copySize
        · rw [if_neg (by omega), if_pos h1, if_pos (by omega)]
        · rw [if_neg h1]
          by_cases h2 : m.tail + copySize ≤ i ∧ i < m.tail + remaining
          · rw [if_pos (by omega), if_pos (by omega)]
            congr 1
            omega
          · rw [if_neg (by omega), if_neg (by omega)]
    · obtain rfl : remaining = 0 := by omega
      rw [if_neg hr]
      exact ⟨h, rfl, rfl, fun i => by rw [if_neg (by omega)]⟩

/-- **`Append` puts the buffer at the end of the array.** -/
theorem appended_append (h : m.Allocated) (buffer : Nat → α) (n : Nat) :
    Appended m (m.append buffer n) buffer 0 n :=
  appended_appendLoop buffer n 0 n h le_rfl

theorem writeLoop_eq (hc : 0 < m.chunkSize) : ∀ (fuel chunk remaining : Nat), remaining ≤ fuel →
    chunk * m.chunkSize + remaining ≤ m.numberOfChunks * m.chunkSize →
    m.writeLoop fuel chunk remaining =
      some ((List.range remaining).map fun i => m.cell (chunk * m.chunkSize + i))
  | 0, chunk, remaining, hf, _ => by
    obtain rfl : remaining = 0 := by omega
    rfl
  | fuel + 1, chunk, remaining, hf, hreach => by
    rw [writeLoop]
    by_cases hr : 0 < remaining
    · have hchunk : chunk < m.numberOfChunks := by
        by_contra hle
        have := Nat.mul_le_mul_right m.chunkSize (Nat.le_of_not_lt hle)
        omega
      have hsucc : (chunk + 1) * m.chunkSize = chunk * m.chunkSize + m.chunkSize := by
        rw [Nat.add_mul, Nat.one_mul]
      have hnext : (chunk + 1) * m.chunkSize ≤ m.numberOfChunks * m.chunkSize :=
        Nat.mul_le_mul_right _ hchunk
      generalize hcells : min m.chunkSize remaining = n
      rw [if_pos hr, if_pos hchunk]
      show (m.writeLoop fuel (chunk + 1) (remaining - n)).map _ = _
      rw [writeLoop_eq hc fuel (chunk + 1) (remaining - n) (by omega) (by omega), Option.map_some]
      have hsplit : remaining = n + (remaining - n) := by omega
      conv_rhs => rw [hsplit, List.range_add, List.map_append, List.map_map]
      congr 2
      · refine List.map_congr_left fun i hi => ?_
        have hi' : i < m.chunkSize := by
          have := List.mem_range.mp hi
          omega
        unfold cell
        rw [Nat.mul_comm, Nat.mul_add_div hc, Nat.mul_add_mod, Nat.div_eq_of_lt hi',
          Nat.mod_eq_of_lt hi', Nat.add_zero]
      · -- A second chunk is only written when the first one is full.
        refine List.map_congr_left fun i hi => ?_
        have hn : n = m.chunkSize := by
          have := List.mem_range.mp hi
          omega
        show m.cell ((chunk + 1) * m.chunkSize + i) = m.cell (chunk * m.chunkSize + (n + i))
        rw [hsucc, hn, Nat.add_assoc]
    · obtain rfl : remaining = 0 := by omega
      rw [if_neg hr]
      rfl

/-- **`Write` puts out the array.** -/
theorem write_eq (h : m.Allocated) {n : Nat} (hn : n ≤ m.tail) :
    m.write n = some ((List.range n).map m.cell) := by
  unfold write
  by_cases h0 : m.numberOfChunks = 0
  · have hreach := h.reach
    rw [h0, Nat.zero_mul] at hreach
    obtain rfl : n = 0 := by omega
    rw [if_pos h0]
    rfl
  · rw [if_neg h0, writeLoop_eq h.pos n 0 n le_rfl (by have := h.reach; omega), Nat.zero_mul]
    simp

/-! ## What was appended -/

/-- The array is what was appended, and the last chunk was needed for it. -/
structure Contains (m : MemoryMapManager α) (content : List α) : Prop where
  allocated : m.Allocated
  tight : (m.numberOfChunks - 1) * m.chunkSize ≤ m.tail
  tail : m.tail = content.length
  cell : ∀ i, i < content.length → content[i]? = some (m.cell i)

variable {content : List α}

theorem contains_new [OfNat α 0] {chunkSize : Nat} (h : 0 < chunkSize) :
    (new chunkSize : MemoryMapManager α).Contains [] :=
  ⟨⟨h, Nat.zero_le _⟩, by simp [new], rfl, fun i hi => absurd hi (Nat.not_lt_zero i)⟩

theorem tight_succ (m : MemoryMapManager α) (h : (m.numberOfChunks - 1) * m.chunkSize ≤ m.tail) :
    (max m.numberOfChunks (m.tail / m.chunkSize + 1) - 1) * m.chunkSize ≤ m.tail := by
  rcases Nat.le_total m.numberOfChunks (m.tail / m.chunkSize + 1) with hle | hle
  · rw [Nat.max_eq_right hle, Nat.add_sub_cancel]
    exact Nat.div_mul_le_self _ _
  · rw [Nat.max_eq_left hle]
    exact h

theorem tight_appendLoop (buffer : Nat → α) : ∀ (fuel bufferOffset remaining : Nat)
    {m : MemoryMapManager α}, (m.numberOfChunks - 1) * m.chunkSize ≤ m.tail →
    ((appendLoop buffer fuel bufferOffset remaining m).numberOfChunks - 1) *
        (appendLoop buffer fuel bufferOffset remaining m).chunkSize ≤
      (appendLoop buffer fuel bufferOffset remaining m).tail
  | 0, _, _, _, h => h
  | fuel + 1, bufferOffset, remaining, m, h => by
    rw [appendLoop]
    split
    · exact tight_appendLoop buffer fuel _ _ ((tight_succ m h).trans (Nat.le_add_right _ _))
    · exact h

theorem Contains.append (h : m.Contains content) (buffer : Nat → α) (n : Nat) :
    (m.append buffer n).Contains (content ++ (List.range n).map buffer) := by
  have ha := appended_append h.allocated buffer n
  refine ⟨ha.allocated, tight_appendLoop buffer n 0 n h.tight, ?_, fun i hi => ?_⟩
  · rw [ha.tail, h.tail]
    simp
  · rw [ha.cell, h.tail]
    rw [List.length_append, List.length_map, List.length_range] at hi
    by_cases hlt : i < content.length
    · rw [List.getElem?_append_left hlt, if_neg (by omega), h.cell i hlt]
    · rw [List.getElem?_append_right (not_lt.mp hlt), if_pos ⟨not_lt.mp hlt, hi⟩, List.getElem?_map,
        List.getElem?_range (by omega), Option.map_some, Nat.zero_add]

theorem Contains.pushBack (h : m.Contains content) (c : α) :
    (m.pushBack c).Contains (content ++ [c]) := by
  have hpos := h.allocated.pos
  refine ⟨⟨hpos, ?_⟩, (tight_succ m h.tight).trans (Nat.le_succ _), ?_, fun i hi => ?_⟩
  · show m.tail + 1 ≤ max m.numberOfChunks (m.tail / m.chunkSize + 1) * m.chunkSize
    have hmul : (m.tail / m.chunkSize + 1) * m.chunkSize ≤
        max m.numberOfChunks (m.tail / m.chunkSize + 1) * m.chunkSize :=
      Nat.mul_le_mul_right _ (le_max_right _ _)
    have hdiv := Nat.div_add_mod m.tail m.chunkSize
    have hmod := Nat.mod_lt m.tail hpos
    rw [Nat.add_mul, Nat.one_mul, Nat.mul_comm (m.tail / m.chunkSize)] at hmul
    omega
  · show m.tail + 1 = _
    rw [h.tail, List.length_append, List.length_singleton]
  · show _ = some ((m.setAddress m.tail c).cell i)
    rw [cell_setAddress, h.tail]
    rw [List.length_append, List.length_singleton] at hi
    rcases Nat.lt_succ_iff_lt_or_eq.mp hi with hlt | rfl
    · rw [List.getElem?_append_left hlt, if_neg hlt.ne, h.cell i hlt]
    · rw [List.getElem?_concat_length, if_pos rfl]

/-- Cells of one chunk are cells of the array. -/
theorem map_mappings (hc : 0 < m.chunkSize) (chunk : Nat) {n : Nat} (hn : n ≤ m.chunkSize) :
    (List.range n).map (m.mappings chunk) =
      (List.range n).map fun i => m.cell (chunk * m.chunkSize + i) := by
  refine List.map_congr_left fun i hi => ?_
  have hi' : i < m.chunkSize := (List.mem_range.mp hi).trans_le hn
  unfold cell
  rw [Nat.mul_comm, Nat.mul_add_div hc, Nat.mul_add_mod, Nat.div_eq_of_lt hi', Nat.mod_eq_of_lt hi',
    Nat.add_zero]

theorem flatMap_chunks (hc : 0 < m.chunkSize) : ∀ n,
    (List.range n).flatMap (fun i => (List.range m.chunkSize).map (m.mappings i)) =
      (List.range (n * m.chunkSize)).map m.cell
  | 0 => by simp
  | n + 1 => by
    rw [List.range_succ, List.flatMap_append, flatMap_chunks hc n, List.flatMap_singleton,
      map_mappings hc n le_rfl, Nat.add_mul, Nat.one_mul, List.range_add, List.map_append,
      List.map_map]
    rfl

/-- **What is written after `Persist`** is what was appended. -/
theorem Contains.writePersisted_eq (h : m.Contains content) : m.writePersisted = content := by
  have hpos := h.allocated.pos
  have hcells : (List.range m.tail).map m.cell = content := by
    refine List.ext_getElem? fun i => ?_
    by_cases hi : i < content.length
    · rw [List.getElem?_map, List.getElem?_range (h.tail ▸ hi), h.cell i hi]
      rfl
    · rw [List.getElem?_eq_none (by rw [List.length_map, List.length_range, h.tail]; omega),
        List.getElem?_eq_none (not_lt.mp hi)]
  rw [← hcells]
  have hreach := h.allocated.reach
  have htight := h.tight
  unfold writePersisted
  cases hn : m.numberOfChunks with
  | zero =>
    rw [hn, Nat.zero_mul] at hreach
    rw [show m.tail = 0 by omega]
    rfl
  | succ n =>
    rw [hn, Nat.add_sub_cancel] at htight
    rw [hn, Nat.add_mul, Nat.one_mul] at hreach
    -- All chunks but the last are full.
    have hfull : (List.range n).flatMap (fun i => (List.range (if i + 1 = n + 1 then
        m.tail - i * m.chunkSize else m.chunkSize)).map (m.mappings i)) =
          (List.range n).flatMap fun i => (List.range m.chunkSize).map (m.mappings i) := by
      refine List.flatMap_congr fun i hi => ?_
      rw [if_neg (by have := List.mem_range.mp hi; omega)]
    rw [List.range_succ, List.flatMap_append, hfull, flatMap_chunks hpos, List.flatMap_singleton,
      if_pos rfl, map_mappings hpos n (by omega)]
    conv_rhs => rw [show m.tail = n * m.chunkSize + (m.tail - n * m.chunkSize) by omega, List.range_add,
      List.map_append, List.map_map]
    rfl

/-- **`Compare` compares with what was appended**, over the end of one chunk. -/
theorem Contains.compare_iff [DecidableEq α] (h : m.Contains content) {offset : Nat}
    {buffer : List α} (hfit : offset % m.chunkSize + buffer.length ≤ 2 * m.chunkSize)
    (hin : offset + buffer.length ≤ content.length) :
    m.compare offset buffer = true ↔ (content.drop offset).take buffer.length = buffer := by
  have hpos := h.allocated.pos
  have hlt := Nat.mod_lt offset hpos
  have hdiv := Nat.div_add_mod offset m.chunkSize
  have hcells : ∀ a n, a + n ≤ content.length →
      (List.range n).map (fun i => m.cell (a + i)) = (content.drop a).take n := by
    intro a n han
    refine List.ext_getElem? fun i => ?_
    by_cases hi : i < n
    · rw [List.getElem?_map, List.getElem?_range hi, List.getElem?_take_of_lt hi,
        List.getElem?_drop, h.cell (a + i) (by omega)]
      rfl
    · rw [List.getElem?_eq_none (by simp; omega), List.getElem?_eq_none (by simp; omega)]
  generalize hfirst : min buffer.length (m.chunkSize - offset % m.chunkSize) = first
  have hfirst1 : (List.range first).map
      (fun i => m.mappings (offset / m.chunkSize) (offset % m.chunkSize + i)) =
        (content.drop offset).take first := by
    rw [← hcells offset first (by omega)]
    refine List.map_congr_left fun i hi => ?_
    have hi' : offset % m.chunkSize + i < m.chunkSize := by
      have := List.mem_range.mp hi
      omega
    unfold MemoryMapManager.cell
    rw [(div_mod_of_lt hi').1, (div_mod_of_lt hi').2]
  have hsplit : (content.drop offset).take buffer.length = buffer ↔
      (content.drop offset).take first = buffer.take first ∧
        (content.drop (offset + first)).take (buffer.length - first) = buffer.drop first := by
    have hle : first ≤ buffer.length := by omega
    conv_lhs => rw [← List.take_append_drop first buffer, show (buffer.take first ++
      buffer.drop first).length = first + (buffer.length - first) by
        rw [List.take_append_drop]; omega, List.take_add, List.drop_drop]
    refine ⟨fun heq => ?_, fun heq => by rw [heq.1, heq.2]⟩
    exact List.append_inj heq (by simp; omega)
  unfold compare
  simp only [hfirst]
  rw [hsplit, hfirst1]
  by_cases h1 : (content.drop offset).take first = buffer.take first
  · rw [if_neg (not_not_intro h1)]
    by_cases h2 : buffer.length = first
    · rw [if_pos h2, h2, Nat.sub_self, List.take_zero, ← h2, List.drop_length]
      simp [h1, h2]
    · -- The rest lies at the start of the next chunk.
      have hend : offset + first = (offset / m.chunkSize + 1) * m.chunkSize := by
        rw [Nat.add_mul, Nat.one_mul, Nat.mul_comm]
        omega
      rw [if_neg h2, map_mappings hpos _ (by omega), ← hend, hcells _ _ (by omega), decide_eq_true_eq]
      exact (and_iff_right h1).symm
  · rw [if_pos h1]
    simp [h1]

end MemoryMapManager

end Keyvi.Fsa
