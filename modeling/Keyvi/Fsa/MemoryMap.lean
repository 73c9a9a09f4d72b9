import Mathlib
import Keyvi.Fsa.MemoryMapManager
import Keyvi.Library.Run
import Keyvi.Util.Key

/-!
# External memory with its files

`memory_map_manager.h` call by call: the chunks are files, and a mapping shows one of them. An access
without a mapping or behind a chunk is undefined and gives `none`, as do the exceptions.
-/

namespace Keyvi.Fsa

/-- `MemoryMapManager`. A mapping is the number of its file; `number_of_chunks_` counts the files. -/
structure MemoryMap where
  chunkSize : Nat
  files : List (List Byte)
  mappings : List Nat
  tail : Nat
  persisted : Bool
deriving DecidableEq, Repr

namespace MemoryMap

/-- The constructor. -/
def new (chunkSize : Nat) : MemoryMap := ⟨chunkSize, [], [], 0, false⟩

/-- `CreateMapping`: a file of zeros and its mapping. -/
def createMapping (m : MemoryMap) : MemoryMap :=
  { m with
    files := m.files ++ [List.replicate m.chunkSize 0]
    mappings := m.mappings ++ [m.files.length] }

/-- The loop of `GetChunk`. -/
def createMappings : Nat → MemoryMap → MemoryMap
  | 0, m => m
  | n + 1, m => createMappings n m.createMapping

/-- `GetChunk`: the file that the address shows. -/
def getChunk (m : MemoryMap) (chunkNumber : Nat) : Option (MemoryMap × Nat) :=
  let m := m.createMappings (chunkNumber + 1 - m.files.length)
  m.mappings[chunkNumber]?.map fun file => (m, file)

/-- Bytes of a block of memory. -/
def bytesAt (block : List Byte) (offset length : Nat) : List Byte := (block.drop offset).take length

/-- `memcpy` into a block of memory. -/
def copyTo (block : List Byte) (offset : Nat) (bytes : List Byte) : List Byte :=
  block.take offset ++ bytes ++ block.drop (offset + bytes.length)

/-- A read of a chunk. -/
def load (m : MemoryMap) (file offset length : Nat) : Option (List Byte) :=
  m.files[file]?.bind fun block =>
    if offset + length ≤ block.length then some (bytesAt block offset length) else none

/-- A write to a chunk. -/
def store (m : MemoryMap) (file offset : Nat) (bytes : List Byte) : Option MemoryMap :=
  m.files[file]?.bind fun block =>
    if offset + bytes.length ≤ block.length then
      some { m with files := m.files.set file (copyTo block offset bytes) }
    else none

/-- `GetBuffer`. -/
def getBuffer (m : MemoryMap) (offset bufferLength : Nat) : Option (MemoryMap × List Byte) := do
  let chunkNumber := offset / m.chunkSize
  let chunkOffset := offset % m.chunkSize
  let firstChunkSize := min bufferLength (m.chunkSize - chunkOffset)
  let secondChunkSize := bufferLength - firstChunkSize
  let (m, chunkAddress) ← m.getChunk chunkNumber
  let part1 ← m.load chunkAddress chunkOffset firstChunkSize
  if 0 < secondChunkSize then
    let (m, chunkAddressPart2) ← m.getChunk (chunkNumber + 1)
    let part2 ← m.load chunkAddressPart2 0 secondChunkSize
    some (m, part1 ++ part2)
  else some (m, part1)

/-- The loop of `Append`; every round copies at least a byte. -/
def appendLoop : Nat → List Byte → MemoryMap → Option MemoryMap
  | 0, _, m => some m
  | fuel + 1, buffer, m =>
    if buffer = [] then some m
    else do
      let chunkNumber := m.tail / m.chunkSize
      let chunkOffset := m.tail % m.chunkSize
      let (m, chunkAddress) ← m.getChunk chunkNumber
      let copySize := min buffer.length (m.chunkSize - chunkOffset)
      let m ← m.store chunkAddress chunkOffset (buffer.take copySize)
      appendLoop fuel (buffer.drop copySize) { m with tail := m.tail + copySize }

/-- `Append`. -/
def append (m : MemoryMap) (buffer : List Byte) : Option MemoryMap :=
  appendLoop buffer.length buffer m

/-- `push_back`. -/
def pushBack (m : MemoryMap) (c : Byte) : Option MemoryMap := do
  let chunkNumber := m.tail / m.chunkSize
  let chunkOffset := m.tail % m.chunkSize
  let (m, chunkAddress) ← m.getChunk chunkNumber
  let m ← m.store chunkAddress chunkOffset [c]
  some { m with tail := m.tail + 1 }

/-- `Compare`. -/
def compare (m : MemoryMap) (offset : Nat) (buffer : List Byte) : Option (MemoryMap × Bool) := do
  let chunkNumber := offset / m.chunkSize
  let chunkOffset := offset % m.chunkSize
  let (m, chunkAddress) ← m.getChunk chunkNumber
  let firstChunkSize := min buffer.length (m.chunkSize - chunkOffset)
  let part1 ← m.load chunkAddress chunkOffset firstChunkSize
  if part1 ≠ buffer.take firstChunkSize then some (m, false)
  else if buffer.length = firstChunkSize then some (m, true)
  else
    let (m, chunkAddressPart2) ← m.getChunk (chunkNumber + 1)
    let part2 ← m.load chunkAddressPart2 0 (buffer.length - firstChunkSize)
    some (m, part2 = buffer.drop firstChunkSize)

/-- The loop of `Write`; every round writes at least a byte. -/
def writeLoop (m : MemoryMap) : Nat → Nat → Nat → Option (List Byte)
  | 0, _, _ => some []
  | fuel + 1, chunk, remaining =>
    if 0 < remaining then do
      let bytesInChunk := min m.chunkSize remaining
      let file ← m.mappings[chunk]?
      let bytes ← m.load file 0 bytesInChunk
      let rest ← m.writeLoop fuel (chunk + 1) (remaining - bytesInChunk)
      some (bytes ++ rest)
    else some []

/-- `Write`: what goes to the stream. -/
def write (m : MemoryMap) (stop : Nat) : Option (List Byte) :=
  if m.persisted then some m.files.flatten
  else if m.files.length = 0 then some []
  else m.writeLoop stop 0 stop

/-- `resize_file`. -/
def resizeFile (block : List Byte) (size : Nat) : List Byte :=
  block.take size ++ List.replicate (size - block.length) 0

/-- `Persist`. The new size of the last file wraps around below 0, for which no file is large enough. -/
def persist (m : MemoryMap) : Option MemoryMap :=
  if 0 < m.files.length then
    if (m.files.length - 1) * m.chunkSize ≤ m.tail then
      some { m with
        persisted := true
        files := m.files.modify (m.files.length - 1) fun block =>
          resizeFile block (m.tail - (m.files.length - 1) * m.chunkSize)
        mappings := [] }
    else none
  else some { m with persisted := true, mappings := [] }

/-! ## Calls -/

/-- The calls that the manager serves. -/
inductive Call
  | append (buffer : List Byte)
  | pushBack (c : Byte)
  | getBuffer (offset bufferLength : Nat)
  | compare (offset : Nat) (buffer : List Byte)
  | write (stop : Nat)
  | persist
deriving DecidableEq, Repr

/-- What a call gives back. -/
inductive Answer
  | done
  | bytes (bytes : List Byte)
  | equal (equal : Bool)
deriving DecidableEq, Repr

/-- One call. -/
def call (m : MemoryMap) : Call → Option (MemoryMap × Answer)
  | .append buffer => (m.append buffer).map (·, .done)
  | .pushBack c => (m.pushBack c).map (·, .done)
  | .getBuffer offset bufferLength =>
    (m.getBuffer offset bufferLength).map fun (m, bytes) => (m, .bytes bytes)
  | .compare offset buffer => (m.compare offset buffer).map fun (m, equal) => (m, .equal equal)
  | .write stop => (m.write stop).map fun bytes => (m, .bytes bytes)
  | .persist => m.persist.map (·, .done)

/-- The state after a call. -/
def step (m : MemoryMap) (c : Call) : Option MemoryMap := (m.call c).map Prod.fst

/-! ## The flat array -/

/-- What a call appends. -/
def Call.appended : Call → List Byte
  | .append buffer => buffer
  | .pushBack c => [c]
  | _ => []

/-- The answer of a flat array. -/
def Right (content : List Byte) : Call → Answer → Prop
  | .getBuffer offset bufferLength, answer => offset + bufferLength ≤ content.length →
    answer = .bytes (bytesAt content offset bufferLength)
  | .compare offset buffer, answer => offset + buffer.length ≤ content.length →
    answer = .equal (bytesAt content offset buffer.length = buffer)
  | .write stop, answer => stop = content.length → answer = .bytes content
  | _, _ => True

/-! ## Blocks of memory -/

theorem length_bytesAt {block : List Byte} {offset length : Nat}
    (h : offset + length ≤ block.length) : (bytesAt block offset length).length = length := by
  rw [bytesAt, List.length_take, List.length_drop]
  omega

theorem length_copyTo {block bytes : List Byte} {offset : Nat}
    (h : offset + bytes.length ≤ block.length) :
    (copyTo block offset bytes).length = block.length := by
  simp only [copyTo, List.length_append, List.length_take, List.length_drop]
  omega

theorem bytesAt_take {block : List Byte} {n offset length : Nat} (h : offset + length ≤ n) :
    bytesAt (block.take n) offset length = bytesAt block offset length := by
  rw [bytesAt, bytesAt, List.drop_take, List.take_take, Nat.min_eq_left (by omega)]

theorem bytesAt_add (block : List Byte) (offset a b : Nat) :
    bytesAt block offset (a + b) = bytesAt block offset a ++ bytesAt block (offset + a) b := by
  rw [bytesAt, List.take_add, List.drop_drop, bytesAt, bytesAt]

theorem take_copyTo {block bytes : List Byte} {offset : Nat} (h : offset ≤ block.length) :
    (copyTo block offset bytes).take (offset + bytes.length) = block.take offset ++ bytes := by
  rw [copyTo, List.take_left']
  rw [List.length_append, List.length_take, Nat.min_eq_left h]

section Blocks

variable {c : Nat} {files : List (List Byte)} {file : Nat} {block : List Byte}

theorem length_flatten (h : ∀ f ∈ files, f.length = c) : files.flatten.length = files.length * c := by
  induction files with
  | nil => simp
  | cons f files ih =>
    rw [List.flatten_cons, List.length_append, h f List.mem_cons_self,
      ih fun g hg => h g (List.mem_cons_of_mem f hg), List.length_cons, Nat.add_mul, Nat.one_mul,
      Nat.add_comm]

/-- The bytes of a chunk are bytes of the array. -/
theorem bytesAt_flatten (h : ∀ f ∈ files, f.length = c) (hfile : files[file]? = some block)
    {offset length : Nat} (hin : offset + length ≤ c) :
    bytesAt files.flatten (file * c + offset) length = bytesAt block offset length := by
  induction files generalizing file with
  | nil => simp at hfile
  | cons f files ih =>
    have hf : f.length = c := h f List.mem_cons_self
    cases file with
    | zero =>
      rw [List.getElem?_cons_zero, Option.some.injEq] at hfile
      subst hfile
      rw [Nat.zero_mul, Nat.zero_add, List.flatten_cons, bytesAt, List.drop_append_of_le_length
        (by omega), List.take_append_of_le_length (by rw [List.length_drop]; omega), bytesAt]
    | succ file =>
      rw [List.getElem?_cons_succ] at hfile
      rw [← ih (fun g hg => h g (List.mem_cons_of_mem f hg)) hfile, List.flatten_cons, bytesAt,
        Nat.add_mul, Nat.one_mul, Nat.add_comm (file * c), Nat.add_assoc, ← List.drop_drop,
        List.drop_left' hf, bytesAt]

/-- A write to a chunk is a write to the array. -/
theorem flatten_set (h : ∀ f ∈ files, f.length = c) (hfile : files[file]? = some block)
    {offset : Nat} {bytes : List Byte} (hin : offset + bytes.length ≤ c) :
    (files.set file (copyTo block offset bytes)).flatten =
      copyTo files.flatten (file * c + offset) bytes := by
  induction files generalizing file with
  | nil => simp at hfile
  | cons f files ih =>
    have hf : f.length = c := h f List.mem_cons_self
    cases file with
    | zero =>
      rw [List.getElem?_cons_zero, Option.some.injEq] at hfile
      subst hfile
      rw [List.set_cons_zero, List.flatten_cons, List.flatten_cons, Nat.zero_mul, Nat.zero_add,
        copyTo, copyTo, List.take_append_of_le_length (by omega),
        List.drop_append_of_le_length (by omega), List.append_assoc]
    | succ file =>
      rw [List.getElem?_cons_succ] at hfile
      have hpos : (file + 1) * c + offset = f.length + (file * c + offset) := by
        rw [hf, Nat.add_mul, Nat.one_mul]
        omega
      rw [List.set_cons_succ, List.flatten_cons, List.flatten_cons,
        ih (fun g hg => h g (List.mem_cons_of_mem f hg)) hfile, hpos, copyTo, copyTo,
        List.take_length_add_append, Nat.add_assoc f.length, List.drop_length_add_append]
      simp only [List.append_assoc]

end Blocks

/-! ## While the mappings are there -/

/-- The chunks are mapped, and their bytes begin with the content. No chunk lies behind the one that is
appended to next. -/
structure Live (m : MemoryMap) (content : List Byte) : Prop where
  pos : 0 < m.chunkSize
  persisted : m.persisted = false
  blocks : ∀ f ∈ m.files, f.length = m.chunkSize
  mappings : m.mappings = List.range m.files.length
  tail : m.tail = content.length
  reach : m.tail ≤ m.files.length * m.chunkSize
  tight : (m.files.length - 1) * m.chunkSize ≤ m.tail
  content : m.files.flatten.take m.tail = content

variable {m : MemoryMap} {content : List Byte}

theorem live_new {chunkSize : Nat} (h : 0 < chunkSize) : (new chunkSize).Live [] where
  pos := h
  persisted := rfl
  blocks := fun _ hf => absurd hf List.not_mem_nil
  mappings := rfl
  tail := rfl
  reach := Nat.zero_le _
  tight := by simp [new]
  content := rfl

theorem Live.createMapping (h : m.Live content) (hfull : m.files.length * m.chunkSize ≤ m.tail) :
    m.createMapping.Live content where
  pos := h.pos
  persisted := h.persisted
  blocks f hf := by
    rcases List.mem_append.mp hf with hf | hf
    · exact h.blocks f hf
    · rw [List.mem_singleton.mp hf]
      exact List.length_replicate
  mappings := by
    show m.mappings ++ [m.files.length] = List.range (m.files ++ [_]).length
    rw [h.mappings, List.length_append, List.length_singleton, List.range_succ]
  tail := h.tail
  reach := by
    show m.tail ≤ (m.files ++ [_]).length * m.chunkSize
    rw [List.length_append, List.length_singleton, Nat.add_mul]
    exact h.reach.trans (Nat.le_add_right _ _)
  tight := by
    show ((m.files ++ [_]).length - 1) * m.chunkSize ≤ m.tail
    rwa [List.length_append, List.length_singleton, Nat.add_sub_cancel]
  content := by
    show (m.files ++ [_]).flatten.take m.tail = content
    have hlen := length_flatten h.blocks
    rw [List.flatten_append, List.take_append_of_le_length (by have := h.reach; omega), h.content]

/-- The bytes that `GetChunk` shows. -/
def chunkBytes (m : MemoryMap) (chunk : Nat) : List Byte :=
  m.files.getD chunk (List.replicate m.chunkSize 0)

/-- What `GetChunk` does for a chunk that is there, or that is appended to next. -/
structure Got (m m' : MemoryMap) (chunk : Nat) : Prop where
  chunkSize : m'.chunkSize = m.chunkSize
  tail : m'.tail = m.tail
  file : m'.files[chunk]? = some (m.chunkBytes chunk)

theorem Live.getChunk (h : m.Live content) {chunk : Nat} (hchunk : chunk ≤ m.tail / m.chunkSize) :
    ∃ m', m.getChunk chunk = some (m', chunk) ∧ m'.Live content ∧ Got m m' chunk := by
  have hle : m.tail / m.chunkSize ≤ m.files.length := by
    have := Nat.div_le_div_right (c := m.chunkSize) h.reach
    rwa [Nat.mul_div_cancel _ h.pos] at this
  rcases Nat.lt_or_ge chunk m.files.length with hlt | hge
  · refine ⟨m, ?_, h, rfl, rfl, ?_⟩
    · rw [MemoryMap.getChunk, Nat.sub_eq_zero_of_le hlt]
      show m.mappings[chunk]?.map _ = _
      rw [h.mappings, List.getElem?_range hlt]
      rfl
    · rw [chunkBytes, List.getElem?_eq_getElem hlt, List.getD_eq_getElem _ _ hlt]
  · -- The chunk behind the last one: it is created.
    obtain rfl : chunk = m.files.length := by omega
    have hfull : m.files.length * m.chunkSize ≤ m.tail :=
      (Nat.mul_le_mul_right _ hchunk).trans (Nat.div_mul_le_self _ _)
    refine ⟨m.createMapping, ?_, h.createMapping hfull, rfl, rfl, ?_⟩
    · rw [MemoryMap.getChunk, Nat.add_sub_cancel_left]
      show m.createMapping.mappings[m.files.length]?.map _ = _
      rw [(h.createMapping hfull).mappings, List.getElem?_range (by simp [MemoryMap.createMapping])]
      rfl
    · simp [MemoryMap.createMapping, chunkBytes]

theorem Live.length_of_getElem? (h : m.Live content) {file : Nat} {block : List Byte}
    (hfile : m.files[file]? = some block) : block.length = m.chunkSize :=
  h.blocks block (List.mem_of_getElem? hfile)

/-- A read inside a chunk. -/
theorem Live.load (h : m.Live content) {file : Nat} {block : List Byte}
    (hfile : m.files[file]? = some block) {offset length : Nat}
    (hin : offset + length ≤ m.chunkSize) :
    m.load file offset length = some (bytesAt block offset length) ∧
      (file * m.chunkSize + offset + length ≤ content.length →
        bytesAt block offset length = bytesAt content (file * m.chunkSize + offset) length) := by
  constructor
  · rw [MemoryMap.load, hfile, Option.bind_some, if_pos (by rw [h.length_of_getElem? hfile]; exact hin)]
  · intro hwritten
    rw [← bytesAt_flatten h.blocks hfile hin, ← h.content, bytesAt_take (by rw [h.tail]; omega)]

/-- A write at the end of the array. -/
theorem Live.store (h : m.Live content) {block : List Byte} {bytes : List Byte}
    (hfile : m.files[m.tail / m.chunkSize]? = some block)
    (hin : m.tail % m.chunkSize + bytes.length ≤ m.chunkSize) :
    ∃ m', m.store (m.tail / m.chunkSize) (m.tail % m.chunkSize) bytes = some m' ∧
      ({ m' with tail := m.tail + bytes.length } : MemoryMap).Live (content ++ bytes) ∧
      m'.chunkSize = m.chunkSize ∧ m'.tail = m.tail := by
  have hlen := h.length_of_getElem? hfile
  have hlt : m.tail / m.chunkSize < m.files.length := by
    exact (List.getElem?_eq_some_iff.mp hfile).1
  have hpos : m.tail / m.chunkSize * m.chunkSize + m.tail % m.chunkSize = m.tail :=
    Nat.div_add_mod' _ _
  have hchunks : (m.tail / m.chunkSize + 1) * m.chunkSize ≤ m.files.length * m.chunkSize :=
    Nat.mul_le_mul_right _ hlt
  rw [Nat.add_mul, Nat.one_mul] at hchunks
  refine ⟨{ m with
      files := m.files.set (m.tail / m.chunkSize) (copyTo block (m.tail % m.chunkSize) bytes) },
    ?_, ?_, rfl, rfl⟩
  · rw [MemoryMap.store, hfile, Option.bind_some, if_pos (by omega)]
  constructor
  case pos => exact h.pos
  case persisted => exact h.persisted
  case blocks =>
    intro f hf
    rcases List.mem_or_eq_of_mem_set hf with hf | rfl
    · exact h.blocks f hf
    · exact (length_copyTo (by omega)).trans hlen
  case mappings =>
    show m.mappings = List.range (m.files.set _ _).length
    rw [h.mappings, List.length_set]
  case tail =>
    show m.tail + bytes.length = _
    rw [h.tail, List.length_append]
  case reach =>
    show m.tail + bytes.length ≤ (m.files.set _ _).length * m.chunkSize
    rw [List.length_set]
    omega
  case tight =>
    show ((m.files.set _ _).length - 1) * m.chunkSize ≤ m.tail + bytes.length
    rw [List.length_set]
    exact h.tight.trans (Nat.le_add_right _ _)
  case content =>
    show (m.files.set _ _).flatten.take (m.tail + bytes.length) = _
    rw [flatten_set h.blocks hfile hin, hpos, take_copyTo (by
      rw [length_flatten h.blocks]
      exact h.reach), h.content]

theorem Live.appendLoop (fuel : Nat) : ∀ {buffer : List Byte} {m : MemoryMap} {content : List Byte},
    m.Live content → buffer.length ≤ fuel →
    ∃ m', MemoryMap.appendLoop fuel buffer m = some m' ∧ m'.Live (content ++ buffer) := by
  induction fuel with
  | zero =>
    intro buffer m content h hlen
    obtain rfl : buffer = [] := List.length_eq_zero_iff.mp (by omega)
    exact ⟨m, rfl, by rwa [List.append_nil]⟩
  | succ fuel ih =>
    intro buffer m content h hlen
    by_cases hb : buffer = []
    · subst hb
      exact ⟨m, rfl, by rwa [List.append_nil]⟩
    · obtain ⟨m₁, hget, hlive, hgot⟩ := h.getChunk le_rfl
      have hmod := Nat.mod_lt m.tail h.pos
      have hpos : 0 < buffer.length := List.length_pos_of_ne_nil hb
      generalize hcopy : min buffer.length (m.chunkSize - m.tail % m.chunkSize) = copySize
      have htake : (buffer.take copySize).length = copySize := by
        rw [List.length_take]
        omega
      have hfile := hgot.file
      rw [← hgot.tail, ← hgot.chunkSize] at hfile
      obtain ⟨m₂, hstore, hlive₂, hsize, htail⟩ := hlive.store hfile
        (show m₁.tail % m₁.chunkSize + (buffer.take copySize).length ≤ m₁.chunkSize by
          rw [hgot.tail, hgot.chunkSize, htake]
          omega)
      rw [hgot.tail, hgot.chunkSize] at hstore
      rw [htake, ← htail] at hlive₂
      obtain ⟨m₃, hloop, hlive₃⟩ := ih hlive₂ (show (buffer.drop copySize).length ≤ fuel by
        rw [List.length_drop]
        omega)
      refine ⟨m₃, ?_, by rwa [List.append_assoc, List.take_append_drop] at hlive₃⟩
      rw [MemoryMap.appendLoop, if_neg hb]
      simp only [hget, Option.bind_eq_bind, Option.bind_some, hgot.chunkSize, hcopy, hstore, hloop]

/-- **`Append`**, over any number of chunks. -/
theorem Live.append (h : m.Live content) (buffer : List Byte) :
    ∃ m', m.append buffer = some m' ∧ m'.Live (content ++ buffer) :=
  Live.appendLoop _ h le_rfl

/-- **`push_back`.** -/
theorem Live.pushBack (h : m.Live content) (c : Byte) :
    ∃ m', m.pushBack c = some m' ∧ m'.Live (content ++ [c]) := by
  obtain ⟨m₁, hget, hlive, hgot⟩ := h.getChunk le_rfl
  have hfile := hgot.file
  rw [← hgot.tail, ← hgot.chunkSize] at hfile
  have hmod := Nat.mod_lt m₁.tail hlive.pos
  obtain ⟨m₂, hstore, hlive₂, -, htail⟩ := hlive.store hfile
    (show m₁.tail % m₁.chunkSize + [c].length ≤ m₁.chunkSize from hmod)
  rw [hgot.tail, hgot.chunkSize] at hstore
  rw [← htail] at hlive₂
  refine ⟨_, ?_, hlive₂⟩
  rw [MemoryMap.pushBack]
  simp only [hget, Option.bind_eq_bind, Option.bind_some, hstore, List.length_singleton]

/-- A read that starts in a chunk, and ends there or in the next one. -/
def Reads (m : MemoryMap) (offset length : Nat) : Prop :=
  m.chunkSize - offset % m.chunkSize < length →
    offset / m.chunkSize + 1 ≤ m.tail / m.chunkSize ∧ offset % m.chunkSize + length ≤ 2 * m.chunkSize

/-- The first part of a read. -/
theorem Live.firstPart (h : m.Live content) {m₁ : MemoryMap} {offset : Nat} (length : Nat)
    (hlive : m₁.Live content) (hgot : Got m m₁ (offset / m.chunkSize)) :
    m₁.load (offset / m.chunkSize) (offset % m.chunkSize)
        (min length (m.chunkSize - offset % m.chunkSize)) =
      some (bytesAt (m.chunkBytes (offset / m.chunkSize)) (offset % m.chunkSize)
        (min length (m.chunkSize - offset % m.chunkSize))) ∧
      (offset + length ≤ content.length →
        bytesAt (m.chunkBytes (offset / m.chunkSize)) (offset % m.chunkSize)
          (min length (m.chunkSize - offset % m.chunkSize)) =
        bytesAt content offset (min length (m.chunkSize - offset % m.chunkSize))) := by
  have hmod := Nat.mod_lt offset h.pos
  have hpos : offset / m.chunkSize * m.chunkSize + offset % m.chunkSize = offset :=
    Nat.div_add_mod' _ _
  obtain ⟨hload, hbytes⟩ := hlive.load hgot.file (show offset % m.chunkSize +
    min length (m.chunkSize - offset % m.chunkSize) ≤ m₁.chunkSize by rw [hgot.chunkSize]; omega)
  refine ⟨hload, fun hwritten => ?_⟩
  rw [hbytes (by rw [hgot.chunkSize]; omega), hgot.chunkSize, hpos]

/-- The second part. -/
theorem Live.secondPart (h : m.Live content) {offset length : Nat} (hreads : m.Reads offset length)
    (hlt : m.chunkSize - offset % m.chunkSize < length) :
    ∃ m' bytes, m.getChunk (offset / m.chunkSize + 1) = some (m', offset / m.chunkSize + 1) ∧
      m'.Live content ∧
      m'.load (offset / m.chunkSize + 1) 0 (length - (m.chunkSize - offset % m.chunkSize)) =
        some bytes ∧
      (offset + length ≤ content.length → bytes = bytesAt content
        (offset + (m.chunkSize - offset % m.chunkSize))
          (length - (m.chunkSize - offset % m.chunkSize))) := by
  obtain ⟨hchunk, hfit⟩ := hreads hlt
  have hmod := Nat.mod_lt offset h.pos
  have hpos : offset / m.chunkSize * m.chunkSize + offset % m.chunkSize = offset :=
    Nat.div_add_mod' _ _
  have hnext : (offset / m.chunkSize + 1) * m.chunkSize + 0 =
      offset + (m.chunkSize - offset % m.chunkSize) := by
    rw [Nat.add_mul, Nat.one_mul]
    omega
  obtain ⟨m', hget, hlive, hgot⟩ := h.getChunk hchunk
  obtain ⟨hload, hbytes⟩ := hlive.load hgot.file (show 0 +
    (length - (m.chunkSize - offset % m.chunkSize)) ≤ m'.chunkSize by rw [hgot.chunkSize]; omega)
  refine ⟨m', _, hget, hlive, hload, fun hwritten => ?_⟩
  rw [hgot.chunkSize, hnext] at hbytes
  exact hbytes (by omega)

/-- **`GetBuffer`.** -/
theorem Live.getBuffer (h : m.Live content) {offset length : Nat}
    (hchunk : offset / m.chunkSize ≤ m.tail / m.chunkSize) (hreads : m.Reads offset length) :
    ∃ m' bytes, m.getBuffer offset length = some (m', bytes) ∧ m'.Live content ∧
      (offset + length ≤ content.length → bytes = bytesAt content offset length) := by
  obtain ⟨m₁, hget, hlive, hgot⟩ := h.getChunk hchunk
  obtain ⟨hload, hbytes⟩ := h.firstPart length hlive hgot
  rw [MemoryMap.getBuffer]
  simp only [hget, Option.bind_eq_bind, Option.bind_some, hload]
  by_cases hlt : m.chunkSize - offset % m.chunkSize < length
  · have hmin : min length (m.chunkSize - offset % m.chunkSize) =
      m.chunkSize - offset % m.chunkSize := Nat.min_eq_right hlt.le
    have hreads₁ : m₁.Reads offset length := by
      rw [Reads, hgot.tail, hgot.chunkSize]
      exact hreads
    obtain ⟨m₂, part2, hget₂, hlive₂, hload₂, hbytes₂⟩ := hlive.secondPart hreads₁
      (by rwa [hgot.chunkSize])
    rw [hgot.chunkSize] at hget₂ hload₂ hbytes₂
    rw [if_pos (by omega)]
    refine ⟨m₂, _, by rw [hget₂, Option.bind_some, hmin, hload₂, Option.bind_some], hlive₂,
      fun hwritten => ?_⟩
    rw [hmin] at hbytes
    rw [hbytes hwritten, hbytes₂ hwritten, ← bytesAt_add]
    congr 1
    omega
  · have hmin : min length (m.chunkSize - offset % m.chunkSize) = length :=
      Nat.min_eq_left (not_lt.mp hlt)
    rw [hmin, Nat.sub_self, if_neg (Nat.lt_irrefl 0)]
    rw [hmin] at hbytes
    exact ⟨m₁, _, rfl, hlive, hbytes⟩

/-- The first part of the buffer is in the chunk. -/
def FirstEqual (m : MemoryMap) (offset : Nat) (buffer : List Byte) : Prop :=
  bytesAt (m.chunkBytes (offset / m.chunkSize)) (offset % m.chunkSize)
      (min buffer.length (m.chunkSize - offset % m.chunkSize)) =
    buffer.take (min buffer.length (m.chunkSize - offset % m.chunkSize))

theorem bytesAt_eq_iff {offset n : Nat} {buffer : List Byte} (hn : n ≤ buffer.length)
    (h : offset + buffer.length ≤ content.length) :
    bytesAt content offset buffer.length = buffer ↔ bytesAt content offset n = buffer.take n ∧
      bytesAt content (offset + n) (buffer.length - n) = buffer.drop n := by
  have hsplit := bytesAt_add content offset n (buffer.length - n)
  rw [Nat.add_sub_cancel' hn] at hsplit
  rw [hsplit]
  constructor
  · intro heq
    refine List.append_inj (heq.trans (List.take_append_drop n buffer).symm) ?_
    rw [length_bytesAt (by omega), List.length_take, Nat.min_eq_left hn]
  · rintro ⟨h1, h2⟩
    rw [h1, h2, List.take_append_drop]

/-- **`Compare`.** -/
theorem Live.compare (h : m.Live content) {offset : Nat} {buffer : List Byte}
    (hchunk : offset / m.chunkSize ≤ m.tail / m.chunkSize)
    (hreads : m.FirstEqual offset buffer → m.Reads offset buffer.length) :
    ∃ m' equal, m.compare offset buffer = some (m', equal) ∧ m'.Live content ∧
      (offset + buffer.length ≤ content.length →
        equal = decide (bytesAt content offset buffer.length = buffer)) := by
  obtain ⟨m₁, hget, hlive, hgot⟩ := h.getChunk hchunk
  obtain ⟨hload, hbytes⟩ := h.firstPart buffer.length hlive hgot
  have hle : min buffer.length (m.chunkSize - offset % m.chunkSize) ≤ buffer.length :=
    Nat.min_le_left _ _
  rw [MemoryMap.compare]
  simp only [hget, Option.bind_eq_bind, Option.bind_some, hgot.chunkSize, hload]
  unfold FirstEqual at hreads
  generalize hmin : min buffer.length (m.chunkSize - offset % m.chunkSize) = first at *
  by_cases hfirst : bytesAt (m.chunkBytes (offset / m.chunkSize)) (offset % m.chunkSize) first =
    buffer.take first
  · rw [if_neg (not_not_intro hfirst)]
    by_cases hlt : m.chunkSize - offset % m.chunkSize < buffer.length
    · obtain rfl : first = m.chunkSize - offset % m.chunkSize := by omega
      have hreads₁ : m₁.Reads offset buffer.length := by
        rw [Reads, hgot.tail, hgot.chunkSize]
        exact hreads hfirst
      obtain ⟨m₂, part2, hget₂, hlive₂, hload₂, hbytes₂⟩ := hlive.secondPart hreads₁
        (by rwa [hgot.chunkSize])
      rw [hgot.chunkSize] at hget₂ hload₂ hbytes₂
      rw [if_neg (by omega)]
      refine ⟨m₂, _, by rw [hget₂, Option.bind_some, hload₂, Option.bind_some], hlive₂,
        fun hwritten => ?_⟩
      rw [decide_eq_decide, bytesAt_eq_iff hle hwritten, ← hbytes hwritten, ← hbytes₂ hwritten]
      exact (and_iff_right hfirst).symm
    · obtain rfl : first = buffer.length := by omega
      rw [if_pos rfl]
      refine ⟨m₁, true, rfl, hlive, fun hwritten => ?_⟩
      rw [eq_comm, decide_eq_true_eq, ← hbytes hwritten, hfirst, List.take_length]
  · -- A difference in the first chunk ends the comparison.
    rw [if_pos hfirst]
    refine ⟨m₁, false, rfl, hlive, fun hwritten => ?_⟩
    rw [eq_comm, decide_eq_false_iff_not, bytesAt_eq_iff hle hwritten, ← hbytes hwritten]
    exact fun heq => hfirst heq.1

/-! ## Writing and persisting -/

/-- The loop of `Write` puts out the bytes from a chunk on. -/
theorem Live.writeLoop (h : m.Live content) : ∀ (fuel chunk remaining : Nat), remaining ≤ fuel →
    chunk * m.chunkSize + remaining ≤ m.tail →
    m.writeLoop fuel chunk remaining = some (bytesAt content (chunk * m.chunkSize) remaining)
  | 0, chunk, remaining, hf, _ => by
    obtain rfl : remaining = 0 := by omega
    rfl
  | fuel + 1, chunk, remaining, hf, hreach => by
    rw [MemoryMap.writeLoop]
    by_cases hr : 0 < remaining
    · have hchunk : chunk < m.files.length := by
        by_contra hle
        have := Nat.mul_le_mul_right m.chunkSize (Nat.le_of_not_lt hle)
        have := h.reach
        omega
      have hsucc : (chunk + 1) * m.chunkSize = chunk * m.chunkSize + m.chunkSize := by
        rw [Nat.add_mul, Nat.one_mul]
      have hpos := h.pos
      generalize hcells : min m.chunkSize remaining = n
      obtain ⟨hload, hbytes⟩ := h.load (List.getElem?_eq_getElem hchunk)
        (show 0 + n ≤ m.chunkSize by omega)
      have hmap : m.mappings[chunk]? = some chunk := by
        rw [h.mappings, List.getElem?_range hchunk]
      rw [if_pos hr]
      simp only [hmap, hload, Option.bind_eq_bind, Option.bind_some]
      rw [hbytes (by rw [← h.tail]; omega), Nat.add_zero (chunk * m.chunkSize)]
      by_cases hlast : remaining ≤ m.chunkSize
      · -- The last chunk of the output.
        obtain rfl : n = remaining := by omega
        rw [Nat.sub_self]
        cases fuel <;> simp [MemoryMap.writeLoop]
      · obtain rfl : n = m.chunkSize := by omega
        rw [h.writeLoop fuel (chunk + 1) (remaining - m.chunkSize) (by omega) (by omega),
          Option.bind_some, hsucc, ← bytesAt_add, Nat.add_sub_cancel' (by omega)]
    · obtain rfl : remaining = 0 := by omega
      rw [if_neg hr]
      rfl

/-- **`Write` before `Persist`.** -/
theorem Live.write (h : m.Live content) {stop : Nat} (hstop : stop ≤ m.tail) :
    m.write stop = some (content.take stop) := by
  rw [MemoryMap.write, h.persisted, if_neg Bool.false_ne_true]
  by_cases h0 : m.files.length = 0
  · have hreach := h.reach
    rw [h0, Nat.zero_mul] at hreach
    obtain rfl : stop = 0 := by omega
    rw [if_pos h0]
    rfl
  · rw [if_neg h0, h.writeLoop stop 0 stop le_rfl (by omega), Nat.zero_mul, bytesAt, List.drop_zero]

theorem modify_concat {α : Type} (init : List α) (last : α) (f : α → α) :
    (init ++ [last]).modify init.length f = init ++ [f last] := by
  induction init with
  | nil => rfl
  | cons a init ih => rw [List.cons_append, List.length_cons, List.modify_succ_cons, ih]; rfl

/-- The files are full up to the last one, and begin with the content. -/
structure Filled (m : MemoryMap) (content : List Byte) : Prop where
  blocks : ∀ f ∈ m.files.dropLast, f.length = m.chunkSize
  tight : (m.files.length - 1) * m.chunkSize ≤ m.tail
  tail : m.tail = content.length
  content : m.files.flatten.take m.tail = content

/-- The files hold the content and nothing else; nothing is mapped. -/
structure Stored (m : MemoryMap) (content : List Byte) : Prop where
  filled : m.Filled content
  persisted : m.persisted = true
  whole : m.files.flatten = content

theorem Live.filled (h : m.Live content) : m.Filled content where
  blocks f hf := h.blocks f (List.mem_of_mem_dropLast hf)
  tight := h.tight
  tail := h.tail
  content := h.content

/-- **`Persist`** cuts the last file. -/
theorem Filled.persist (h : m.Filled content) : ∃ m', m.persist = some m' ∧ m'.Stored content := by
  obtain ⟨hblocks, htight, htail, hcontent⟩ := h
  rw [MemoryMap.persist]
  rcases List.eq_nil_or_concat m.files with hnil | ⟨init, last, hfiles⟩
  · rw [if_neg (by rw [hnil]; exact Nat.lt_irrefl 0)]
    refine ⟨_, rfl, ⟨hblocks, htight, htail, hcontent⟩, rfl, ?_⟩
    rw [hnil, List.flatten_nil, List.take_nil] at hcontent
    rw [← hcontent]
    exact congrArg List.flatten hnil
  · rw [List.concat_eq_append] at hfiles
    rw [hfiles, List.dropLast_concat] at hblocks
    rw [hfiles, List.length_append, List.length_singleton, Nat.add_sub_cancel] at htight
    have hinit := length_flatten hblocks
    rw [hfiles, List.length_append, List.length_singleton, if_pos (Nat.succ_pos _),
      Nat.add_sub_cancel, if_pos htight]
    have hmodify := fun f => modify_concat init last f
    rw [hfiles, List.flatten_append, List.flatten_singleton, List.take_append,
      List.take_of_length_le (by omega), hinit] at hcontent
    have hlen : m.tail - init.length * m.chunkSize ≤ last.length := by
      have := congrArg List.length hcontent
      rw [List.length_append, List.length_take] at this
      omega
    have hwhole : (init ++ [resizeFile last (m.tail - init.length * m.chunkSize)]).flatten =
        content := by
      rw [List.flatten_append, List.flatten_singleton, resizeFile, Nat.sub_eq_zero_of_le hlen,
        List.replicate_zero, List.append_nil, hcontent]
    refine ⟨_, rfl, ⟨?_, ?_, htail, ?_⟩, rfl, ?_⟩
    · rw [hmodify, List.dropLast_concat]
      exact hblocks
    · rw [hmodify, List.length_append, List.length_singleton, Nat.add_sub_cancel]
      exact htight
    · rw [hmodify, hwhole, htail, List.take_length]
    · rw [hmodify, hwhole]

/-! ## Whole runs -/

/-- The condition on a call. Appending and reading come before `Persist`; a read begins at most in the
chunk that is appended to next and goes at most into the chunk behind it; `Write` asks for no more than
the size. -/
def Ok (m : MemoryMap) : Call → Prop
  | .append buffer => m.persisted = false ∨ buffer = []
  | .pushBack _ => m.persisted = false
  | .getBuffer offset bufferLength => m.persisted = false ∧
    offset / m.chunkSize ≤ m.tail / m.chunkSize ∧ m.Reads offset bufferLength
  | .compare offset buffer => m.persisted = false ∧ offset / m.chunkSize ≤ m.tail / m.chunkSize ∧
    (m.FirstEqual offset buffer → m.Reads offset buffer.length)
  | .write stop => m.persisted = true ∨ stop ≤ m.tail
  | .persist => True

instance decidableReads (m : MemoryMap) (offset length : Nat) : Decidable (m.Reads offset length) :=
  inferInstanceAs (Decidable (_ → _))

instance decidableFirstEqual (m : MemoryMap) (offset : Nat) (buffer : List Byte) :
    Decidable (m.FirstEqual offset buffer) :=
  inferInstanceAs (Decidable (_ = _))

instance decidableOk (m : MemoryMap) : ∀ c, Decidable (m.Ok c)
  | .append _ => inferInstanceAs (Decidable (_ ∨ _))
  | .pushBack _ => inferInstanceAs (Decidable (_ = _))
  | .getBuffer _ _ => inferInstanceAs (Decidable (_ ∧ _))
  | .compare _ _ => inferInstanceAs (Decidable (_ ∧ _))
  | .write _ => inferInstanceAs (Decidable (_ ∨ _))
  | .persist => inferInstanceAs (Decidable True)

/-- The array between two calls. -/
def Holds (m : MemoryMap) (content : List Byte) : Prop := m.Live content ∨ m.Stored content

/-- **One call.** -/
theorem Holds.call (h : m.Holds content) {c : Call} (hok : m.Ok c) :
    ∃ m' answer, m.call c = some (m', answer) ∧ m'.Holds (content ++ c.appended) ∧
      Right content c answer := by
  rcases h with h | h
  · cases c with
    | append buffer =>
      obtain ⟨m', heq, hlive⟩ := h.append buffer
      exact ⟨m', .done, by rw [MemoryMap.call, heq]; rfl, .inl hlive, trivial⟩
    | pushBack c =>
      obtain ⟨m', heq, hlive⟩ := h.pushBack c
      exact ⟨m', .done, by rw [MemoryMap.call, heq]; rfl, .inl hlive, trivial⟩
    | getBuffer offset length =>
      obtain ⟨m', bytes, heq, hlive, hbytes⟩ := h.getBuffer hok.2.1 hok.2.2
      exact ⟨m', .bytes bytes, by rw [MemoryMap.call, heq]; rfl, .inl (by simpa [Call.appended] using hlive),
        fun hwritten => by rw [hbytes hwritten]⟩
    | compare offset buffer =>
      obtain ⟨m', equal, heq, hlive, hequal⟩ := h.compare hok.2.1 hok.2.2
      exact ⟨m', .equal equal, by rw [MemoryMap.call, heq]; rfl, .inl (by simpa [Call.appended] using hlive),
        fun hwritten => by rw [hequal hwritten]⟩
    | write stop =>
      have hstop : stop ≤ m.tail := hok.resolve_left (by rw [h.persisted]; exact Bool.false_ne_true)
      exact ⟨m, .bytes (content.take stop), by rw [MemoryMap.call, h.write hstop]; rfl,
        .inl (by simpa [Call.appended] using h), fun hwhole => by rw [hwhole, List.take_length]⟩
    | persist =>
      obtain ⟨m', heq, hstored⟩ := h.filled.persist
      exact ⟨m', .done, by rw [MemoryMap.call, heq]; rfl,
        .inr (by simpa [Call.appended] using hstored), trivial⟩
  · have hpersisted : ¬m.persisted = false := by rw [h.persisted]; decide
    cases c with
    | append buffer =>
      obtain rfl := hok.resolve_left hpersisted
      exact ⟨m, .done, rfl, .inr (by simpa [Call.appended] using h), trivial⟩
    | pushBack c => exact absurd hok hpersisted
    | getBuffer offset length => exact absurd hok.1 hpersisted
    | compare offset buffer => exact absurd hok.1 hpersisted
    | write stop =>
      have hwrite : m.write stop = some content := by
        rw [MemoryMap.write, if_pos h.persisted, h.whole]
      exact ⟨m, .bytes content, by rw [MemoryMap.call, hwrite]; rfl,
        .inr (by simpa [Call.appended] using h), fun _ => rfl⟩
    | persist =>
      obtain ⟨m', heq, hstored⟩ := h.filled.persist
      exact ⟨m', .done, by rw [MemoryMap.call, heq]; rfl,
        .inr (by simpa [Call.appended] using hstored), trivial⟩

theorem Holds.run : ∀ {calls : List Call} {m : MemoryMap} {content : List Byte}, m.Holds content →
    Run.Along step Ok m calls →
    ∃ m', Run.run step m calls = some m' ∧ m'.Holds (content ++ calls.flatMap Call.appended)
  | [], m, content, h, _ => ⟨m, rfl, by rwa [List.flatMap_nil, List.append_nil]⟩
  | c :: calls, m, content, h, hok => by
    obtain ⟨m₁, answer, heq, hholds, -⟩ := h.call hok.1
    have hstep : m.step c = some m₁ := by rw [step, heq]; rfl
    obtain ⟨m₂, hrun, hholds₂⟩ := Holds.run hholds (hok.2 m₁ hstep)
    exact ⟨m₂, Run.run_cons.mpr ⟨m₁, hstep, hrun⟩, by
      rwa [List.flatMap_cons, ← List.append_assoc]⟩

/-- The manager answers as the flat array of the content. -/
def Flat (m : MemoryMap) (content : List Byte) : Prop :=
  m.tail = content.length ∧ ∀ c, m.Ok c → ∃ m' answer, m.call c = some (m', answer) ∧
    Right content c answer

/-- **The manager is one flat array** in every run whose calls meet the condition. -/
theorem flat_run {chunkSize : Nat} (h : 0 < chunkSize) {calls : List Call}
    (hok : Run.Along step Ok (new chunkSize) calls) :
    ∃ m, Run.run step (new chunkSize) calls = some m ∧ m.Flat (calls.flatMap Call.appended) := by
  obtain ⟨m, hrun, hholds⟩ := Holds.run (.inl (live_new h)) hok
  rw [List.nil_append] at hholds
  refine ⟨m, hrun, ?_, fun c hc => ?_⟩
  · rcases hholds with hlive | hstored
    · exact hlive.tail
    · exact hstored.filled.tail
  · obtain ⟨m', answer, heq, -, hright⟩ := hholds.call hc
    exact ⟨m', answer, heq, hright⟩

theorem flat_run_twoChunks :
    ∃ m, Run.run step (new 2) [.append [1, 2, 3], .getBuffer 1 2, .compare 0 [1, 2, 3], .persist,
      .write 3] = some m ∧ m.Flat [1, 2, 3] :=
  have hok : Run.Along step Ok (new 2) [.append [1, 2, 3], .getBuffer 1 2, .compare 0 [1, 2, 3],
    .persist, .write 3] := by decide
  flat_run (by decide) hok

/-- Five bytes over three chunks cannot be read at once. -/
theorem not_flat_threeChunks : ¬ ∀ calls : List Call, ∃ m, Run.run step (new 2) calls = some m ∧
    ∀ offset length, offset + length ≤ (calls.flatMap Call.appended).length →
      ∃ m', m.call (.getBuffer offset length) =
        some (m', .bytes (bytesAt (calls.flatMap Call.appended) offset length)) := by
  intro h
  obtain ⟨m, hrun, hread⟩ := h [.append [1, 2, 3, 4, 5]]
  have hm : Run.run step (new 2) [.append [1, 2, 3, 4, 5]] =
      some ⟨2, [[1, 2], [3, 4], [5, 0]], [0, 1, 2], 5, false⟩ := by decide
  rw [hm, Option.some.injEq] at hrun
  subst hrun
  obtain ⟨m', hget⟩ := hread 0 5 (by decide)
  have hnone : (⟨2, [[1, 2], [3, 4], [5, 0]], [0, 1, 2], 5, false⟩ : MemoryMap).call
    (.getBuffer 0 5) = none := by decide
  rw [hnone] at hget
  cases hget

end MemoryMap

end Keyvi.Fsa
