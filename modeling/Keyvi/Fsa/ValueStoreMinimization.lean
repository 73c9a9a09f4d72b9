import Mathlib
import Keyvi.Util.Vint
import Keyvi.Fsa.StringValueStore

/-!
# Merging values one by one

`StringValueStoreMerge` and `JsonValueStoreMerge`. A value of a payload is looked for in a cache of the
values that are already there, and written if it is not found: a string with a zero byte behind it, a JSON
value with its length in front.
-/

namespace Keyvi.Fsa

/-- The value stores that keep bytes behind their handles. -/
inductive BytesStore
  | json
  | string
  deriving DecidableEq

/-- `decodeVarIntString`. The length is put together from numbers of 32 bits. -/
def decodeVarIntString (input : List Byte) : Option (List Byte) :=
  match decodeLength input with
  | some (length, rest) => if length ≤ rest.length ∧ length < 2 ^ 31 then some (rest.take length) else none
  | none => none

namespace BytesStore

/-- The bytes of the value behind a handle: `GetRawValueAsString`, `GetValueAsString`. -/
def readValue (kind : BytesStore) (payload : List Byte) (fsaValue : Nat) : List Byte :=
  match kind with
  | json => (decodeVarIntString (payload.drop fsaValue)).getD []
  | string => getValueAsString payload fsaValue

/-- How a value is written. -/
def record (kind : BytesStore) (value : List Byte) : List Byte :=
  match kind with
  | json => encodeVarInt value.length ++ value
  | string => value ++ [0]

/-- What can be written and read back. -/
def Valid (kind : BytesStore) (value : List Byte) : Prop :=
  match kind with
  | json => value.length < 2 ^ 31
  | string => 0 ∉ value

/-- **A value is read back** where it was written. -/
theorem readValue_record {kind : BytesStore} {value : List Byte} (h : kind.Valid value)
    (before after : List Byte) :
    kind.readValue (before ++ (kind.record value ++ after)) before.length = value := by
  cases kind with
  | json =>
    unfold readValue record decodeVarIntString
    dsimp only
    rw [List.drop_left, List.append_assoc, decodeLength_encodeVarInt]
    dsimp only
    rw [if_pos ⟨by simp, h⟩, List.take_left]
    rfl
  | string =>
    unfold readValue record getValueAsString
    dsimp only
    rw [List.drop_left, List.append_assoc, List.takeWhile_append_of_pos]
    · simp
    · intro c hc
      exact decide_eq_true fun h0 => h (h0 ▸ hc)

end BytesStore

/-! ## The comparison of JSON values -/

/-- The length that is stored at an offset, from at most eight bytes. -/
def storedLength (persistence : MemoryMapManager Byte) (offset : Nat) : Nat :=
  if persistence.getAddressQuickTestOk 1 offset 8 then
    decodeVarInt 8 fun i => (persistence.getAddress offset i).getD 0
  else decodeVarInt 8 fun i => (persistence.getBuffer offset 8 i).getD 0

/-- `operator==` of `RawPointerForCompare`. -/
def rawPointerForCompare (value : List Byte) (persistence : MemoryMapManager Byte) (l : RawPointer) :
    Bool :=
  if l.hashcode ≠ hashcode value then false
  else
    let length := l.length
    if length < RawPointer.maxLength then
      if length ≠ value.length then false
      else persistence.compare (l.offset + getVarIntLength length) value
    else
      -- The length is not known, it stands in front of the value.
      let length := storedLength persistence l.offset
      if length ≠ value.length then false
      else persistence.compare (l.offset + getVarIntLength length) value

/-! ## The store -/

/-- The members of `JsonValueStoreMinimizationBase` and of `StringValueStoreMinimizationBase`; `hash` are
the pointers that were added to the cache. -/
structure MinimizationBase where
  valuesExtern : MemoryMapManager Byte
  hash : List RawPointer
  valuesBufferSize : Nat

namespace MinimizationBase

/-- The constructor; the memory limit is also the size of the chunks. -/
def new (memoryLimit : Nat) : MinimizationBase := ⟨MemoryMapManager.new memoryLimit, [], 0⟩

/-- Whether a pointer is equal to a value. -/
def equal (kind : BytesStore) (value : List Byte) (s : MinimizationBase) (p : RawPointer) : Bool :=
  match kind with
  | .json => rawPointerForCompare value s.valuesExtern p
  | .string => rawPointerForCompareString value s.valuesExtern p

/-- `hash_.Get`, with what the tables of the cache answer: a pointer that was not added, or is not equal to
the value, cannot be found. -/
def get (kind : BytesStore) (value : List Byte) (s : MinimizationBase) (answer : Option RawPointer) :
    Option RawPointer :=
  answer.filter fun p => p ∈ s.hash ∧ p.isEmpty = false ∧ s.equal kind value p = true

/-- What is appended for a value: the bytes of the payload with the length, or the string and a zero
byte. -/
def appendValue (kind : BytesStore) (payload : List Byte) (fsaValue : Nat) (s : MinimizationBase) :
    MemoryMapManager Byte :=
  match kind with
  | .json =>
    let fullBuf := payload.drop fsaValue
    match decodeLength fullBuf with
    | some (length, rest) =>
      s.valuesExtern.append (fun i => fullBuf.getD i 0) (fullBuf.length - rest.length + length)
    | none => s.valuesExtern
  | .string =>
    let value := getValueAsString payload fsaValue
    (s.valuesExtern.append (fun i => value.getD i 0) value.length).pushBack 0

/-- `AddValueMerge`: the store, the offset, and whether the minimization is switched off. -/
def addValueMerge (kind : BytesStore) (s : MinimizationBase) (payload : List Byte) (fsaValue : Nat)
    (answer : Option RawPointer) : MinimizationBase × Nat × Bool :=
  let value := kind.readValue payload fsaValue
  match s.get kind value answer with
  | some p => (s, p.offset, false)
  | none =>
    let pt := s.valuesBufferSize
    (⟨s.appendValue kind payload fsaValue, s.hash ++ [RawPointer.new pt (hashcode value) value.length],
      s.valuesBufferSize + (kind.record value).length⟩, pt, true)

/-- `Write` after `CloseFeeding`. -/
def write (s : MinimizationBase) : List Byte := s.valuesExtern.writePersisted

/-! ## What is stored -/

/-- The bytes of the values one behind the other. -/
def bytesOf (kind : BytesStore) (stored : List (List Byte)) : List Byte := stored.flatMap kind.record

/-- What holds between the calls: the values that are stored, and pointers to some of them. -/
structure Holds (kind : BytesStore) (memoryLimit : Nat) (s : MinimizationBase)
    (stored : List (List Byte)) : Prop where
  contains : s.valuesExtern.Contains (bytesOf kind stored)
  chunkSize : s.valuesExtern.chunkSize = memoryLimit
  size : s.valuesBufferSize = (bytesOf kind stored).length
  hash : ∀ p ∈ s.hash, ∃ before w after, stored = before ++ w :: after ∧
    p = RawPointer.new (bytesOf kind before).length (hashcode w) w.length
  valid : ∀ w ∈ stored, kind.Valid w

/-- The comparison tells a value that is stored and one that is added apart: JSON values of one length and
one hash code are no longer than a chunk; a string of the highest length does not begin a longer one with
its hash code. -/
def ToldApart (kind : BytesStore) (memoryLimit : Nat) (w value : List Byte) : Prop :=
  match kind with
  | .json => hashcode w = hashcode value → w.length = value.length → value.length ≤ memoryLimit
  | .string => ¬ (value.length = RawPointer.maxLength ∧ RawPointer.maxLength < w.length ∧
      value <+: w ∧ hashcode w = hashcode value)

variable {kind : BytesStore} {memoryLimit : Nat} {s : MinimizationBase} {stored : List (List Byte)}

theorem new_length (offset : Nat) (h : BitVec 32) (length : Nat) :
    (RawPointer.new offset h length).length = min length RawPointer.maxLength := by
  unfold RawPointer.new
  dsimp only
  split
  · rw [Nat.min_eq_right (by omega)]
  · rw [Nat.min_eq_left (by omega)]

theorem bytesOf_split (before after : List (List Byte)) (w : List Byte) :
    bytesOf kind (before ++ w :: after) =
      bytesOf kind before ++ (kind.record w ++ bytesOf kind after) := by
  unfold bytesOf
  rw [List.flatMap_append, List.flatMap_cons]

/-- The length in front of a value is read, also over the end of a chunk. -/
theorem storedLength_eq {m : MemoryMapManager Byte} {before after w : List Byte}
    (h : m.Contains (before ++ (encodeVarInt w.length ++ w) ++ after)) (hchunk : 8 ≤ m.chunkSize)
    (hw : w.length < 2 ^ 31) : storedLength m before.length = w.length := by
  have hlen : (encodeVarInt w.length).length ≤ 8 := by
    rw [encodeVarInt_eq_map, List.length_map]
    exact Varlen.length_encode_le (by decide) 7 _ (hw.trans (by decide))
  have hcell : ∀ i (hi : i < (encodeVarInt w.length).length),
      m.cell (before.length + i) = (encodeVarInt w.length)[i] := by
    intro i hi
    have hin := h.cell (before.length + i) (by simp only [List.length_append]; omega)
    rw [List.append_assoc, List.append_assoc, List.getElem?_append_right (Nat.le_add_right _ _),
      Nat.add_sub_cancel_left, List.getElem?_append_left hi, List.getElem?_eq_getElem hi] at hin
    exact (Option.some.inj hin).symm
  unfold storedLength
  split
  · next hquick =>
    refine decodeVarInt_eq hlen fun i hi => ?_
    have hquick' : 8 ≤ m.chunkSize - before.length % m.chunkSize := by
      unfold MemoryMapManager.getAddressQuickTestOk at hquick
      simpa using hquick
    rw [MemoryMapManager.getAddress_eq (by omega), Option.getD_some]
    exact hcell i hi
  · refine decodeVarInt_eq hlen fun i hi => ?_
    rw [MemoryMapManager.getBuffer_eq h.allocated.pos hchunk (by omega), Option.getD_some]
    exact hcell i hi

/-- A comparison with the bytes of a value behind others. -/
theorem prefix_of_compare {m : MemoryMapManager Byte} {before after w value : List Byte}
    (h : m.Contains (before ++ (w ++ after)))
    (hfit : before.length % m.chunkSize + value.length ≤ 2 * m.chunkSize)
    (hlen : value.length ≤ w.length) (hc : m.compare before.length value = true) : value <+: w := by
  have hin : before.length + value.length ≤ (before ++ (w ++ after)).length := by
    simp only [List.length_append]
    omega
  have htake := (h.compare_iff hfit hin).mp hc
  rw [List.drop_left, List.take_append_of_le_length hlen] at htake
  exact htake ▸ List.take_prefix _ _

/-- Whether `Compare` is called for a pointer of a JSON value: the hash codes and the lengths are equal. -/
def Compared (value : List Byte) (persistence : MemoryMapManager Byte) (p : RawPointer) : Prop :=
  p.hashcode = hashcode value ∧ value.length =
    if p.length < RawPointer.maxLength then p.length else storedLength persistence p.offset

/-- The range that `Compare` reads ends at most in the second chunk. -/
def Fits (value : List Byte) (persistence : MemoryMapManager Byte) (p : RawPointer) : Prop :=
  (p.offset + getVarIntLength value.length) % persistence.chunkSize + value.length ≤
    2 * persistence.chunkSize

/-- The length of a value that is stored. -/
theorem Holds.storedLength_eq (h : Holds .json memoryLimit s stored)
    (hlimit : RawPointer.maxLength ≤ memoryLimit) {w : List Byte} {before after : List (List Byte)}
    (hstored : stored = before ++ w :: after) :
    storedLength s.valuesExtern (bytesOf .json before).length = w.length := by
  have hcontains := h.contains
  rw [hstored, bytesOf_split, ← List.append_assoc] at hcontains
  refine MinimizationBase.storedLength_eq hcontains ?_ (h.valid w (by rw [hstored]; simp))
  rw [h.chunkSize]
  exact (show 8 ≤ RawPointer.maxLength by decide).trans hlimit

/-- **A pointer that is equal to a JSON value** leads to it. -/
theorem Holds.eq_of_equal_json (h : Holds .json memoryLimit s stored)
    (hlimit : RawPointer.maxLength ≤ memoryLimit) {value w : List Byte}
    {before after : List (List Byte)} (hstored : stored = before ++ w :: after)
    (hfit : Compared value s.valuesExtern
        (RawPointer.new (bytesOf .json before).length (hashcode w) w.length) →
      Fits value s.valuesExtern (RawPointer.new (bytesOf .json before).length (hashcode w) w.length))
    (he : s.equal .json value
      (RawPointer.new (bytesOf .json before).length (hashcode w) w.length) = true) : w = value := by
  have hcontains := h.contains
  rw [hstored, bytesOf_split] at hcontains
  have hw : w.length < 2 ^ 31 := h.valid w (by rw [hstored]; simp)
  have hall : s.valuesExtern.Contains (bytesOf .json before ++
      (encodeVarInt w.length ++ w) ++ bytesOf .json after) := by
    rw [List.append_assoc]
    exact hcontains
  have hlength := h.storedLength_eq hlimit hstored
  unfold equal rawPointerForCompare at he
  unfold Compared at hfit
  dsimp only at he hfit
  rw [new_length] at he hfit
  -- Whichever length is used is the length of the stored value.
  have hbytes : ∀ length, length = w.length →
      (hashcode w = hashcode value → value.length = length → Fits value s.valuesExtern
        (RawPointer.new (bytesOf .json before).length (hashcode w) w.length)) →
      hashcode w = hashcode value →
      (if length ≠ value.length then false
        else s.valuesExtern.compare ((bytesOf .json before).length + getVarIntLength length) value) =
          true → w = value := by
    rintro length rfl hfit hhash hcmp
    split at hcmp
    · cases hcmp
    · next hlen =>
      have hlen' : w.length = value.length := not_not.mp hlen
      have hfits := hfit hhash hlen'.symm
      unfold Fits RawPointer.new at hfits
      rw [List.append_assoc, List.append_assoc, ← List.append_assoc] at hall
      rw [getVarIntLength_eq (hw.trans (by decide)), ← List.length_append] at hcmp
      rw [← hlen', getVarIntLength_eq (hw.trans (by decide)), ← List.length_append] at hfits
      exact ((prefix_of_compare hall (by omega) hlen'.ge hcmp).eq_of_length hlen'.symm).symm
  split at he
  · cases he
  · next hhash =>
    have hhash' : hashcode w = hashcode value := not_not.mp hhash
    split at he
    · next hshort =>
      rw [if_pos hshort] at hfit
      exact hbytes _ (by omega) (fun h1 h2 => hfit ⟨h1, h2⟩) hhash' he
    · next hlong =>
      rw [if_neg hlong] at hfit
      exact hbytes _ hlength (fun h1 h2 => hfit ⟨h1, h2⟩) hhash' he

/-- **A pointer that is equal to a value** leads to it. -/
theorem Holds.eq_of_equal (h : Holds kind memoryLimit s stored)
    (hlimit : StringValueStore.minMemoryLimit ≤ memoryLimit) {value w : List Byte}
    {before after : List (List Byte)} (hstored : stored = before ++ w :: after)
    (htold : ToldApart kind memoryLimit w value)
    (he : s.equal kind value (RawPointer.new (bytesOf kind before).length (hashcode w) w.length) =
      true) : w = value := by
  have hmax : RawPointer.maxLength ≤ memoryLimit :=
    (show RawPointer.maxLength ≤ StringValueStore.minMemoryLimit by decide).trans hlimit
  have hcontains := h.contains
  rw [hstored, bytesOf_split] at hcontains
  have hvalid := h.valid w (by rw [hstored]; simp)
  cases kind with
  | string =>
    unfold equal rawPointerForCompareString at he
    dsimp only at he
    rw [new_length] at he
    split at he
    · cases he
    · next hhash =>
      split at he
      · cases he
      · next hlen =>
        have hlen' : min w.length RawPointer.maxLength = value.length := not_not.mp hlen
        have hhash' : hashcode w = hashcode value := not_not.mp hhash
        unfold BytesStore.record at hcontains
        dsimp only at hcontains
        rw [List.append_assoc] at hcontains
        have hmod := Nat.mod_lt (bytesOf .string before).length h.contains.allocated.pos
        have hbegin := prefix_of_compare hcontains (by rw [h.chunkSize] at hmod ⊢; omega) (by omega) he
        by_cases hshort : w.length ≤ RawPointer.maxLength
        · rw [Nat.min_eq_left hshort] at hlen'
          exact (hbegin.eq_of_length hlen'.symm).symm
        · rw [Nat.min_eq_right (by omega)] at hlen'
          exact absurd ⟨hlen'.symm, by omega, hbegin, hhash'⟩ htold
  | json =>
    refine h.eq_of_equal_json hmax hstored (fun hcompared => ?_) he
    have hlength := h.storedLength_eq hmax hstored
    unfold Compared at hcompared
    have hsame : w.length = value.length := by
      have hlen := hcompared.2
      rw [new_length] at hlen
      split at hlen
      · omega
      · exact (hlen.trans hlength).symm
    have hshort : value.length ≤ memoryLimit := htold hcompared.1 hsame
    have hmod := Nat.mod_lt ((bytesOf .json before).length + getVarIntLength value.length)
      h.contains.allocated.pos
    unfold Fits RawPointer.new
    rw [h.chunkSize] at hmod ⊢
    show ((bytesOf .json before).length + getVarIntLength value.length) % memoryLimit + _ ≤ _
    omega

/-- The handle of a value in a payload. -/
def IsHandle (kind : BytesStore) (payload : List Byte) (fsaValue : Nat) (value : List Byte) : Prop :=
  kind.Valid value ∧ ∃ after, payload.drop fsaValue = kind.record value ++ after

theorem IsHandle.readValue {payload value : List Byte} {fsaValue : Nat}
    (h : IsHandle kind payload fsaValue value) : kind.readValue payload fsaValue = value := by
  obtain ⟨hvalid, after, hdrop⟩ := h
  have hread := BytesStore.readValue_record hvalid [] after
  rw [List.nil_append, ← hdrop] at hread
  cases kind with
  | json =>
    unfold BytesStore.readValue at hread ⊢
    exact hread
  | string =>
    unfold BytesStore.readValue getValueAsString at hread ⊢
    exact hread

theorem map_getD_range (l : List Byte) (n : Nat) (hn : n ≤ l.length) :
    (List.range n).map (fun i => l.getD i 0) = l.take n := by
  refine List.ext_getElem (by simp [hn]) fun i hi hi' => ?_
  rw [List.length_map, List.length_range] at hi
  rw [List.getElem_map, List.getElem_range, List.getElem_take, List.getD_eq_getElem]

/-- **The record of a value** is appended. -/
theorem Holds.appendValue (h : Holds kind memoryLimit s stored) {payload value : List Byte}
    {fsaValue : Nat} (hh : IsHandle kind payload fsaValue value) :
    (s.appendValue kind payload fsaValue).Contains (bytesOf kind stored ++ kind.record value) ∧
      (s.appendValue kind payload fsaValue).chunkSize = memoryLimit := by
  have hread := hh.readValue
  obtain ⟨hvalid, after, hdrop⟩ := hh
  cases kind with
  | json =>
    unfold MinimizationBase.appendValue BytesStore.record
    unfold BytesStore.record at hdrop
    dsimp only at hdrop ⊢
    rw [hdrop, List.append_assoc, decodeLength_encodeVarInt]
    dsimp only
    have hcopy := h.contains.append (fun i => (encodeVarInt value.length ++ (value ++ after)).getD i 0)
      ((encodeVarInt value.length ++ (value ++ after)).length - (value ++ after).length + value.length)
    rw [map_getD_range _ _ (by simp only [List.length_append]; omega)] at hcopy
    have htake : (encodeVarInt value.length ++ (value ++ after)).take
        ((encodeVarInt value.length ++ (value ++ after)).length - (value ++ after).length +
          value.length) = encodeVarInt value.length ++ value := by
      rw [← List.append_assoc, List.take_append_of_le_length (by
        simp only [List.length_append]; omega)]
      refine List.take_of_length_le ?_
      simp only [List.length_append]
      omega
    rw [htake] at hcopy
    refine ⟨hcopy, ?_⟩
    unfold MemoryMapManager.append
    rw [StringValueStore.chunkSize_appendLoop]
    exact h.chunkSize
  | string =>
    have hvalue : getValueAsString payload fsaValue = value := hread
    unfold MinimizationBase.appendValue BytesStore.record
    dsimp only
    rw [hvalue]
    have hcopy := (h.contains.append (fun i => value.getD i 0) value.length).pushBack 0
    rw [map_getD_range _ _ le_rfl, List.take_length, List.append_assoc] at hcopy
    refine ⟨hcopy, ?_⟩
    show (s.valuesExtern.append _ _).chunkSize = memoryLimit
    unfold MemoryMapManager.append
    rw [StringValueStore.chunkSize_appendLoop]
    exact h.chunkSize

/-- The value that is stored at an offset. -/
def StoredAt (kind : BytesStore) (stored : List (List Byte)) (offset : Nat) (w : List Byte) : Prop :=
  ∃ before after, stored = before ++ w :: after ∧ offset = (bytesOf kind before).length

theorem StoredAt.append {offset : Nat} {w : List Byte} (h : StoredAt kind stored offset w)
    (stored' : List (List Byte)) : StoredAt kind (stored ++ stored') offset w := by
  obtain ⟨before, after, rfl, rfl⟩ := h
  exact ⟨before, after ++ stored', by simp, rfl⟩

theorem StoredAt.read {offset : Nat} {w : List Byte} (h : StoredAt kind stored offset w)
    (hs : Holds kind memoryLimit s stored) : kind.readValue s.write offset = w := by
  have hvalid := hs.valid w
  have hwrite := hs.contains.writePersisted_eq
  obtain ⟨before, after, rfl, rfl⟩ := h
  unfold write
  rw [hwrite, bytesOf_split]
  exact BytesStore.readValue_record (hvalid (by simp)) _ _

/-- A new value behind the others. -/
theorem Holds.added (h : Holds kind memoryLimit s stored) {value : List Byte}
    (hvalid : kind.Valid value) {valuesExtern : MemoryMapManager Byte} {hash : List RawPointer}
    (hcontains : valuesExtern.Contains (bytesOf kind stored ++ kind.record value))
    (hchunk : valuesExtern.chunkSize = memoryLimit)
    (hhash : ∀ p ∈ hash, p ∈ s.hash ∨
      p = RawPointer.new s.valuesBufferSize (hashcode value) value.length) :
    Holds kind memoryLimit
        ⟨valuesExtern, hash, s.valuesBufferSize + (kind.record value).length⟩ (stored ++ [value]) ∧
      StoredAt kind (stored ++ [value]) s.valuesBufferSize value := by
  have hbytes : bytesOf kind (stored ++ [value]) = bytesOf kind stored ++ kind.record value := by
    rw [bytesOf_split]
    unfold bytesOf
    rw [List.flatMap_nil, List.append_nil]
  refine ⟨⟨?_, hchunk, ?_, fun p hp => ?_, fun w hw => ?_⟩, stored, [], rfl, h.size⟩
  · rw [hbytes]
    exact hcontains
  · rw [hbytes, List.length_append, ← h.size]
  · rcases hhash p hp with hp | rfl
    · obtain ⟨before, w, after, rfl, rfl⟩ := h.hash p hp
      exact ⟨before, w, after ++ [value], by simp, rfl⟩
    · exact ⟨stored, value, [], rfl, by rw [h.size]⟩
  · rcases List.mem_append.mp hw with hw | hw
    · exact h.valid w hw
    · exact List.mem_singleton.mp hw ▸ hvalid

/-- **One call** of `AddValueMerge`: the value is stored at the offset, the others stay where they are. -/
theorem Holds.addValueMerge (h : Holds kind memoryLimit s stored)
    (hlimit : StringValueStore.minMemoryLimit ≤ memoryLimit) {payload value : List Byte}
    {fsaValue : Nat} (hh : IsHandle kind payload fsaValue value)
    (htold : ∀ w ∈ stored, ToldApart kind memoryLimit w value) (answer : Option RawPointer) :
    ∃ more, Holds kind memoryLimit (s.addValueMerge kind payload fsaValue answer).1 (stored ++ more) ∧
      (∀ w ∈ more, w = value) ∧
      StoredAt kind (stored ++ more) (s.addValueMerge kind payload fsaValue answer).2.1 value := by
  have hread := hh.readValue
  unfold MinimizationBase.addValueMerge
  dsimp only
  rw [hread]
  cases hg : s.get kind value answer with
  | some p =>
    unfold MinimizationBase.get at hg
    obtain ⟨-, hp⟩ := Option.filter_eq_some_iff.mp hg
    obtain ⟨hmem, -, hequal⟩ := of_decide_eq_true hp
    obtain ⟨before, w, after, hstored, rfl⟩ := h.hash p hmem
    have hw : w = value :=
      h.eq_of_equal hlimit hstored (htold w (by rw [hstored]; simp)) hequal
    refine ⟨[], ?_, fun w hw => (List.not_mem_nil hw).elim, ?_⟩
    · rw [List.append_nil]
      exact h
    · rw [List.append_nil]
      exact ⟨before, after, hw ▸ hstored, rfl⟩
  | none =>
    obtain ⟨hcontains, hchunk⟩ := h.appendValue hh
    obtain ⟨hnext, hstored⟩ := h.added hh.1 hcontains hchunk fun p hp =>
      (List.mem_append.mp hp).imp_right List.mem_singleton.mp
    exact ⟨[value], hnext, fun w hw => List.mem_singleton.mp hw, hstored⟩

theorem holds_new (kind : BytesStore) (hlimit : StringValueStore.minMemoryLimit ≤ memoryLimit) :
    Holds kind memoryLimit (new memoryLimit) [] := by
  have hpos : 0 < StringValueStore.minMemoryLimit := by decide
  exact ⟨MemoryMapManager.contains_new (by omega), rfl, rfl,
    fun p hp => (List.not_mem_nil hp).elim, fun w hw => (List.not_mem_nil hw).elim⟩

end MinimizationBase

end Keyvi.Fsa
