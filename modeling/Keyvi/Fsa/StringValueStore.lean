import Mathlib
import Keyvi.Util.Key
import Keyvi.Fsa.MemoryMapManager

/-!
# The string value store

`string_value_store.h` and `value_store_persistence.h`. Strings are appended with a zero byte behind each,
and a cache of hash values, lengths and offsets finds a string that is already there. The length is kept
in 16 bits and cut to the highest value, so that for a longer string only its first bytes are compared.
-/

namespace Keyvi.Fsa

/-- The hash code: arithmetic of 32 bits with the bytes as signed numbers. -/
def hashcodeFrom (h : BitVec 32) (value : List Byte) : BitVec 32 :=
  value.foldl (fun h c => (h * 54059) ^^^ ((BitVec.ofNat 8 c.val).signExtend 32 * 76963)) h

def hashcode (value : List Byte) : BitVec 32 := hashcodeFrom 31 value

/-- `RawPointer`, without the cookie of the hash table. -/
structure RawPointer where
  offset : Nat
  hashcode : BitVec 32
  length : Nat
  deriving DecidableEq

namespace RawPointer

/-- The highest number of 16 bits. -/
def maxLength : Nat := 65535

/-- The constructor. -/
def new (offset : Nat) (hashcode : BitVec 32) (length : Nat) : RawPointer :=
  ⟨offset, hashcode, if maxLength < length then maxLength else length⟩

def isEmpty (p : RawPointer) : Bool := p.offset = 0 ∧ p.hashcode = 0 ∧ p.length = 0

end RawPointer

/-- `operator==` of `RawPointerForCompareString`. -/
def rawPointerForCompareString (value : List Byte) (persistence : MemoryMapManager Byte)
    (l : RawPointer) : Bool :=
  if l.hashcode ≠ hashcode value then false
  else if l.length ≠ value.length then false
  else persistence.compare l.offset value

/-- `StringValueStore`; `hash` are the pointers that were added to the cache. -/
structure StringValueStore where
  valuesExtern : MemoryMapManager Byte
  hash : List RawPointer
  valuesBufferSize : Nat

namespace StringValueStore

/-- The least memory limit the cache accepts: three generations of the second table size, each with a
quarter for the overflow, with 16 bytes an entry. -/
def minMemoryLimit : Nat := (2029 + 2029 / 4) * 16 * 3

/-- The constructor; the memory limit is also the size of the chunks. -/
def new (memoryLimit : Nat) : Option StringValueStore :=
  if memoryLimit < minMemoryLimit then none
  else some ⟨MemoryMapManager.new memoryLimit, [], 0⟩

/-- What `Get` may answer: a pointer that was added and is equal to the value, or an empty one. Which of
them is found depends on the tables of the cache, which drop entries and keep equal ones. -/
def Answers (s : StringValueStore) (value : List Byte) (found : Option RawPointer) : Prop :=
  ∀ p ∈ found, p ∈ s.hash ∧ p.isEmpty = false ∧
    rawPointerForCompareString value s.valuesExtern p = true

/-- `AddValue`, with what the cache answers: the offset, whether the minimization is switched off, and the
store. -/
def addValue (s : StringValueStore) (value : List Byte) (found : Option RawPointer) :
    Nat × Bool × StringValueStore :=
  match found with
  | some p => (p.offset, false, s)
  | none =>
    let pt := s.valuesBufferSize
    let valuesExtern := s.valuesExtern.append (fun i => value.getD i 0) value.length
    let valuesBufferSize := s.valuesBufferSize + value.length
    let valuesExtern := valuesExtern.pushBack 0
    let valuesBufferSize := valuesBufferSize + 1
    (pt, true, ⟨valuesExtern, s.hash ++ [RawPointer.new pt (hashcode value) value.length],
      valuesBufferSize⟩)

/-- A sequence of `AddValue` calls and the offsets they return. -/
inductive Adds : StringValueStore → List (List Byte) → List Nat → StringValueStore → Prop
  | nil (s : StringValueStore) : Adds s [] [] s
  | cons {s s' : StringValueStore} {value : List Byte} {found : Option RawPointer}
      {values : List (List Byte)} {offsets : List Nat} (h : s.Answers value found)
      (hs : Adds (s.addValue value found).2.2 values offsets s') :
      Adds s (value :: values) ((s.addValue value found).1 :: offsets) s'

/-- `Write` after `CloseFeeding`. -/
def write (s : StringValueStore) : List Byte := s.valuesExtern.writePersisted

end StringValueStore

/-- `GetValueAsString`: the bytes up to the next zero byte. -/
def getValueAsString (strings : List Byte) (fsaValue : Nat) : List Byte :=
  (strings.drop fsaValue).takeWhile (· ≠ 0)

/-! ## What is stored -/

namespace StringValueStore

/-- Strings one behind the other, each with a zero byte. -/
def bytesOf (stored : List (List Byte)) : List Byte := stored.flatMap (· ++ [0])

theorem bytesOf_append (stored stored' : List (List Byte)) :
    bytesOf (stored ++ stored') = bytesOf stored ++ bytesOf stored' := List.flatMap_append

theorem bytesOf_cons (w : List Byte) (stored : List (List Byte)) :
    bytesOf (w :: stored) = w ++ 0 :: bytesOf stored := by
  unfold bytesOf
  rw [List.flatMap_cons, List.append_assoc]
  rfl

/-- A string is read up to its first zero byte. -/
theorem getValueAsString_bytesOf (before after : List (List Byte)) (w : List Byte) :
    getValueAsString (bytesOf (before ++ w :: after)) (bytesOf before).length =
      w.takeWhile (· ≠ 0) := by
  unfold getValueAsString
  rw [bytesOf_append, List.drop_left, bytesOf_cons]
  induction w with
  | nil => rfl
  | cons c w ih =>
    rw [List.cons_append, List.takeWhile_cons, List.takeWhile_cons, ih]

theorem takeWhile_eq_self_iff (w : List Byte) : w.takeWhile (· ≠ 0) = w ↔ 0 ∉ w := by
  rw [List.takeWhile_eq_self_iff]
  simp only [ne_eq, decide_not, Bool.not_eq_true', decide_eq_false_iff_not]
  exact ⟨fun h hw => h 0 hw rfl, fun h c hc hc0 => h (hc0 ▸ hc)⟩

/-- The pointer of a string behind others. -/
def pointerOf (before : List (List Byte)) (w : List Byte) : RawPointer :=
  RawPointer.new (bytesOf before).length (hashcode w) w.length

theorem pointerOf_not_isEmpty (before : List (List Byte)) (w : List Byte) :
    (pointerOf before w).isEmpty = false := by
  unfold RawPointer.isEmpty pointerOf RawPointer.new
  rw [decide_eq_false_iff_not]
  rintro ⟨-, hhash, hlen⟩
  -- Only the empty string has no length, and its hash code is not 0.
  cases w with
  | nil => exact absurd hhash (show hashcode [] ≠ 0 by decide)
  | cons c w =>
    dsimp only at hlen
    split at hlen
    · exact absurd hlen (by decide)
    · cases hlen

/-- What holds between the calls: the strings that are stored, and a pointer for each. -/
structure Holds (s : StringValueStore) (stored : List (List Byte)) : Prop where
  contains : s.valuesExtern.Contains (bytesOf stored)
  chunkSize : minMemoryLimit ≤ s.valuesExtern.chunkSize
  size : s.valuesBufferSize = (bytesOf stored).length
  hash : ∀ p, p ∈ s.hash ↔ ∃ before w after, stored = before ++ w :: after ∧ p = pointerOf before w

variable {s s' : StringValueStore} {stored : List (List Byte)} {value : List Byte}

theorem chunkSize_appendLoop {α : Type} (buffer : Nat → α) : ∀ (fuel bufferOffset remaining : Nat)
    (m : MemoryMapManager α),
    (MemoryMapManager.appendLoop buffer fuel bufferOffset remaining m).chunkSize = m.chunkSize
  | 0, _, _, _ => rfl
  | fuel + 1, bufferOffset, remaining, m => by
    rw [MemoryMapManager.appendLoop]
    split
    · exact chunkSize_appendLoop buffer fuel _ _ _
    · rfl

/-- **A new string** is stored behind the others. -/
theorem Holds.addValue_none (h : Holds s stored) (value : List Byte) :
    (s.addValue value none).1 = (bytesOf stored).length ∧
    Holds (s.addValue value none).2.2 (stored ++ [value]) := by
  have hbytes : bytesOf (stored ++ [value]) = bytesOf stored ++
      (List.range value.length).map (fun i => value.getD i 0) ++ [0] := by
    rw [bytesOf_append, bytesOf_cons]
    have hvalue : (List.range value.length).map (fun i => value.getD i 0) = value := by
      refine List.ext_getElem (by simp) fun i hi hi' => ?_
      rw [List.getElem_map, List.getElem_range, List.getD_eq_getElem _ _ hi']
    rw [hvalue, List.append_assoc]
    rfl
  refine ⟨h.size, ?_, ?_, ?_, fun p => ?_⟩
  · rw [hbytes]
    exact (h.contains.append _ value.length).pushBack 0
  · show minMemoryLimit ≤ (s.valuesExtern.append _ value.length).chunkSize
    unfold MemoryMapManager.append
    rw [chunkSize_appendLoop]
    exact h.chunkSize
  · show s.valuesBufferSize + value.length + 1 = _
    rw [hbytes, h.size]
    simp only [List.length_append, List.length_map, List.length_range, List.length_singleton]
  · show p ∈ s.hash ++ [_] ↔ _
    rw [List.mem_append, List.mem_singleton, h.hash, h.size]
    constructor
    · rintro (⟨before, w, after, rfl, rfl⟩ | rfl)
      · exact ⟨before, w, after ++ [value], by simp, rfl⟩
      · exact ⟨stored, value, [], rfl, rfl⟩
    · rintro ⟨before, w, after, hstored, rfl⟩
      rcases List.eq_nil_or_concat after with rfl | ⟨after, x, rfl⟩
      · obtain ⟨rfl, hw⟩ := List.append_inj' hstored rfl
        obtain rfl := List.singleton_inj.mp hw
        exact .inr rfl
      · rw [List.concat_eq_append, ← List.cons_append, ← List.append_assoc] at hstored
        obtain ⟨rfl, -⟩ := List.append_inj' hstored rfl
        exact .inl ⟨before, w, after, rfl, rfl⟩

/-- When the cache finds a string for a value: the hash codes and the lengths, up to the highest length,
are the same, and so are as many bytes as the value has. -/
theorem Holds.compare_iff (h : Holds s stored) {before after : List (List Byte)} {w : List Byte}
    (hstored : stored = before ++ w :: after) :
    rawPointerForCompareString value s.valuesExtern (pointerOf before w) = true ↔
      hashcode w = hashcode value ∧ min w.length RawPointer.maxLength = value.length ∧
        value <+: w := by
  have hlength : (pointerOf before w).length = min w.length RawPointer.maxLength := by
    unfold pointerOf RawPointer.new
    dsimp only
    split
    · rw [Nat.min_eq_right (by omega)]
    · rw [Nat.min_eq_left (by omega)]
  unfold rawPointerForCompareString
  rw [hlength, show (pointerOf before w).hashcode = hashcode w from rfl]
  by_cases hhash : hashcode w = hashcode value
  · by_cases hlen : min w.length RawPointer.maxLength = value.length
    · rw [if_neg (not_not_intro hhash), if_neg (not_not_intro hlen)]
      have hchunk : (pointerOf before w).offset % s.valuesExtern.chunkSize + value.length ≤
          2 * s.valuesExtern.chunkSize := by
        have hmax : RawPointer.maxLength ≤ minMemoryLimit := by decide
        have := h.chunkSize
        have hmod := Nat.mod_lt (pointerOf before w).offset h.contains.allocated.pos
        omega
      have hin : (pointerOf before w).offset + value.length ≤ (bytesOf stored).length := by
        show (bytesOf before).length + value.length ≤ _
        rw [hstored, bytesOf_append, bytesOf_cons]
        simp only [List.length_append, List.length_cons]
        omega
      rw [h.contains.compare_iff hchunk hin, hstored, bytesOf_append,
        show (pointerOf before w).offset = (bytesOf before).length from rfl, List.drop_left,
        bytesOf_cons, List.take_append_of_le_length (by omega)]
      constructor
      · intro htake
        exact ⟨hhash, hlen, htake ▸ List.take_prefix _ _⟩
      · rintro ⟨-, -, hbegin⟩
        exact List.prefix_iff_eq_take.mp hbegin |>.symm
    · rw [if_neg (not_not_intro hhash), if_pos hlen]
      simp [hlen]
  · rw [if_pos hhash]
    simp [hhash]

/-! ## Reading back -/

/-- No string of the highest length begins a longer one that was added before and has its hash code. -/
def NoCollision (values : List (List Byte)) : Prop :=
  values.Pairwise fun w value => ¬ (value.length = RawPointer.maxLength ∧
    RawPointer.maxLength < w.length ∧ value <+: w ∧ hashcode w = hashcode value)

/-- Every offset reads back the string that was added, whatever the cache answers. -/
def ReadsBack (memoryLimit : Nat) (values : List (List Byte)) : Prop :=
  ∀ s offsets s', new memoryLimit = some s → Adds s values offsets s' →
    offsets.map (getValueAsString s'.write) = values

/-- The string that is stored at an offset. -/
def StoredAt (stored : List (List Byte)) (offset : Nat) (w : List Byte) : Prop :=
  ∃ before after, stored = before ++ w :: after ∧ offset = (bytesOf before).length

theorem StoredAt.append {offset : Nat} {w : List Byte} (h : StoredAt stored offset w)
    (stored' : List (List Byte)) : StoredAt (stored ++ stored') offset w := by
  obtain ⟨before, after, rfl, rfl⟩ := h
  exact ⟨before, after ++ stored', by simp, rfl⟩

theorem StoredAt.read {offset : Nat} {w : List Byte} (h : StoredAt stored offset w)
    (hs : Holds s stored) : getValueAsString s.write offset = w.takeWhile (· ≠ 0) := by
  obtain ⟨before, after, rfl, rfl⟩ := h
  unfold write
  rw [hs.contains.writePersisted_eq]
  exact getValueAsString_bytesOf before after w

/-- **One call**: what is stored at the offset is the value, or a longer string of which the value is the
beginning. -/
theorem Holds.addValue {found : Option RawPointer} (h : Holds s stored)
    (ha : s.Answers value found) : ∃ stored', Holds (s.addValue value found).2.2 stored' ∧
      stored <+: stored' ∧ (∀ w ∈ stored', w ∈ stored ∨ w = value) ∧
      ∃ w, StoredAt stored' (s.addValue value found).1 w ∧
        (w = value ∨ w ∈ stored ∧ value.length = RawPointer.maxLength ∧
          RawPointer.maxLength < w.length ∧ value <+: w ∧ hashcode w = hashcode value) := by
  cases found with
  | none =>
    obtain ⟨hoff, hnew⟩ := h.addValue_none value
    refine ⟨stored ++ [value], hnew, List.prefix_append _ _, fun w hw => ?_, value,
      ⟨stored, [], rfl, hoff⟩, .inl rfl⟩
    rcases List.mem_append.mp hw with hw | hw
    · exact .inl hw
    · exact .inr (List.mem_singleton.mp hw)
  | some p =>
    obtain ⟨hp, -, hcompare⟩ := ha p rfl
    obtain ⟨before, w, after, hstored, rfl⟩ := (h.hash p).mp hp
    obtain ⟨hhash, hlen, hbegin⟩ := (h.compare_iff hstored).mp hcompare
    refine ⟨stored, h, List.prefix_rfl, fun _ => .inl, w, ⟨before, after, hstored, rfl⟩, ?_⟩
    by_cases hshort : w.length ≤ RawPointer.maxLength
    · left
      rw [Nat.min_eq_left hshort] at hlen
      exact (hbegin.eq_of_length hlen.symm).symm
    · right
      rw [Nat.min_eq_right (by omega)] at hlen
      exact ⟨hstored ▸ by simp, hlen.symm, by omega, hbegin, hhash⟩

/-- **A run without collisions** stores every value at its offset. -/
theorem Adds.storedAt {values : List (List Byte)} {offsets : List Nat} (hadds : Adds s values offsets s') :
    ∀ {stored : List (List Byte)} (earlier : List (List Byte)), Holds s stored →
    (∀ w ∈ stored, w ∈ earlier) →
    NoCollision (earlier ++ values) → ∃ stored', Holds s' stored' ∧ stored <+: stored' ∧
      List.Forall₂ (StoredAt stored') offsets values := by
  induction hadds with
  | nil s => exact fun _ h _ _ => ⟨_, h, List.prefix_rfl, .nil⟩
  | @cons s s' value found values offsets ha hs ih =>
    intro stored earlier h hsub hno
    obtain ⟨stored1, h1, hpre, hmem, w, hat, hw⟩ := h.addValue ha
    have hw' : w = value := by
      rcases hw with rfl | ⟨hw, hcol⟩
      · rfl
      · have := List.pairwise_append.mp hno
        exact absurd hcol (this.2.2 w (hsub w hw) value List.mem_cons_self)
    subst hw'
    obtain ⟨stored2, h2, hpre2, hall⟩ := ih (earlier ++ [w]) h1 (fun x hx => by
      rcases hmem x hx with hx | rfl
      · exact List.mem_append_left _ (hsub x hx)
      · simp) (by rw [List.append_assoc]; exact hno)
    obtain ⟨rest, rfl⟩ := hpre2
    exact ⟨_, h2, hpre.trans (List.prefix_append _ _), .cons (hat.append rest) hall⟩

theorem holds_new {memoryLimit : Nat} (h : new memoryLimit = some s) : Holds s [] := by
  unfold new at h
  split at h
  · cases h
  · next hlimit =>
    obtain rfl := Option.some.inj h
    have hpos : 0 < minMemoryLimit := by decide
    exact ⟨MemoryMapManager.contains_new (by omega), not_lt.mp hlimit, rfl, fun p => by simp⟩

/-- A cache that finds nothing. -/
theorem adds_none : ∀ (values : List (List Byte)) {s : StringValueStore} {stored : List (List Byte)},
    Holds s stored → ∃ offsets s', Adds s values offsets s' ∧ Holds s' (stored ++ values) ∧
      List.Forall₂ (StoredAt (stored ++ values)) offsets values
  | [], s, stored, h => ⟨[], s, .nil s, by simpa using h, .nil⟩
  | value :: values, s, stored, h => by
    obtain ⟨hoff, hnew⟩ := h.addValue_none value
    obtain ⟨offsets, s', hadds, h', hall⟩ := adds_none values hnew
    rw [List.append_assoc] at h' hall
    exact ⟨_, s', .cons (fun p hp => by cases hp) hadds, h', .cons ⟨stored, values, rfl, hoff⟩ hall⟩

theorem Adds.append {values values' : List (List Byte)} {offsets offsets' : List Nat}
    {s'' : StringValueStore} (h : Adds s values offsets s') (h' : Adds s' values' offsets' s'') :
    Adds s (values ++ values') (offsets ++ offsets') s'' := by
  induction h with
  | nil => exact h'
  | cons ha _ ih => exact .cons ha (ih h')

theorem map_read_eq_iff {offsets : List Nat} {values : List (List Byte)} (hs : Holds s stored)
    (hall : List.Forall₂ (StoredAt stored) offsets values) :
    offsets.map (getValueAsString s.write) = values ↔ ∀ value ∈ values, 0 ∉ value := by
  induction hall with
  | nil => simp
  | cons h _ ih =>
    rw [List.map_cons, List.cons.injEq, ih, h.read hs, takeWhile_eq_self_iff, List.forall_mem_cons]

/-- **A zero byte ends the string that is read**, when the cache finds nothing. -/
theorem readsBack_no_zero {memoryLimit : Nat} {values : List (List Byte)}
    (hnew : new memoryLimit = some s) (h : ReadsBack memoryLimit values) :
    ∀ value ∈ values, 0 ∉ value := by
  obtain ⟨offsets, s', hadds, hs', hall⟩ := adds_none values (holds_new hnew)
  exact (map_read_eq_iff hs' hall).mp (h _ _ _ hnew hadds)

/-- **A longer string is found in place of its beginning**, when the hash codes are the same. -/
theorem readsBack_no_collision {memoryLimit : Nat} {values before after : List (List Byte)}
    {w : List Byte} (hnew : new memoryLimit = some s) (h : ReadsBack memoryLimit values)
    (hzero : ∀ value ∈ values, 0 ∉ value) (hvalues : values = before ++ value :: after)
    (hw : w ∈ before) (hlen : value.length = RawPointer.maxLength)
    (hlong : RawPointer.maxLength < w.length) (hbegin : value <+: w)
    (hhash : hashcode w = hashcode value) : False := by
  obtain ⟨front, back, hbefore⟩ := List.append_of_mem hw
  -- Up to the value nothing is found, then the longer string, then nothing again.
  obtain ⟨offsets1, s1, hadds1, hs1, hall1⟩ := adds_none before (holds_new hnew)
  rw [List.nil_append] at hs1 hall1
  have ha : s1.Answers value (some (pointerOf front w)) := by
    intro p hp
    obtain rfl := Option.some.inj hp
    refine ⟨(hs1.hash _).mpr ⟨front, w, back, hbefore, rfl⟩, pointerOf_not_isEmpty front w, ?_⟩
    rw [hs1.compare_iff hbefore, Nat.min_eq_right hlong.le]
    exact ⟨hhash, hlen.symm, hbegin⟩
  obtain ⟨offsets2, s2, hadds2, hs2, -⟩ := adds_none after hs1
  have hread := h _ _ _ hnew (hvalues ▸ hadds1.append (.cons ha hadds2))
  rw [hvalues, List.map_append, List.map_cons] at hread
  have hlength : (offsets1.map (getValueAsString s2.write)).length = before.length := by
    rw [List.length_map]
    exact hall1.length_eq
  obtain ⟨-, hcons⟩ := List.append_inj hread hlength
  have hvalue := (List.cons.inj hcons).1
  have hat : StoredAt (before ++ after) (s1.addValue value (some (pointerOf front w))).1 w :=
    (show StoredAt before (bytesOf front).length w from ⟨front, back, hbefore, rfl⟩).append after
  rw [hat.read hs2, (takeWhile_eq_self_iff w).mpr (hzero w (by rw [hvalues]; simp [hw]))] at hvalue
  rw [hvalue] at hlong
  omega

/-- **When every string reads back.** No string has a zero byte, and no string of the highest length begins
a longer one with its hash code that was added before. -/
theorem readsBack_iff {memoryLimit : Nat} (hlimit : minMemoryLimit ≤ memoryLimit)
    (values : List (List Byte)) :
    ReadsBack memoryLimit values ↔ (∀ value ∈ values, 0 ∉ value) ∧ NoCollision values := by
  have hnew : new memoryLimit = some ⟨MemoryMapManager.new memoryLimit, [], 0⟩ :=
    if_neg (not_lt.mpr hlimit)
  constructor
  · intro h
    have hzero := readsBack_no_zero hnew h
    refine ⟨hzero, ?_⟩
    unfold NoCollision
    rw [List.pairwise_iff_getElem]
    rintro i j hi hj hij ⟨hlen, hlong, hbegin, hhash⟩
    have hsplit : values = values.take j ++ values[j] :: values.drop (j + 1) := by
      rw [List.cons_getElem_drop_succ, List.take_append_drop]
    have hw : values[i] ∈ values.take j := List.mem_take_iff_getElem.mpr ⟨i, by omega, rfl⟩
    exact readsBack_no_collision hnew h hzero hsplit hw hlen hlong hbegin hhash
  · rintro ⟨hzero, hno⟩ s offsets s' hs hadds
    obtain ⟨stored, hs', -, hall⟩ := hadds.storedAt [] (holds_new hs) (by simp) hno
    exact (map_read_eq_iff hs' hall).mpr hzero

/-- The string `61` twice. -/
theorem readsBack_iff_repeated : minMemoryLimit ≤ 1024 * 1024 ∧
    (ReadsBack (1024 * 1024) [[97], [97]] ↔
      (∀ value ∈ ([[97], [97]] : List (List Byte)), 0 ∉ value) ∧ NoCollision [[97], [97]]) :=
  ⟨by decide, readsBack_iff (by decide) [[97], [97]]⟩

/-- Five bytes that lead the hash code back to where it starts. -/
def cycle : List Byte := [52, 114, 66, 49, 29]

theorem hashcode_cycles : ∀ n, hashcode (List.replicate n cycle).flatten = 31
  | 0 => rfl
  | n + 1 => by
    have ih := hashcode_cycles n
    have hcycle : hashcodeFrom 31 cycle = 31 := by decide
    unfold hashcode hashcodeFrom at ih hcycle ⊢
    rw [List.replicate_succ, List.flatten_cons, List.foldl_append, hcycle, ih]

/-- `61 00 62` reads back as `61`. A string of 13108 cycles and then one of 13107, which has the highest
length, have the same hash code: the second reads back as the first. -/
theorem not_readsBack :
    ¬ ReadsBack (1024 * 1024) [[97, 0, 98]] ∧
    ¬ ReadsBack (1024 * 1024)
        [(List.replicate 13108 cycle).flatten, (List.replicate 13107 cycle).flatten] := by
  have hnew : new (1024 * 1024) = some ⟨MemoryMapManager.new (1024 * 1024), [], 0⟩ :=
    if_neg (by decide)
  refine ⟨fun h => absurd (readsBack_no_zero hnew h _ List.mem_cons_self) (by decide), fun h => ?_⟩
  have hzero : ∀ n, (0 : Byte) ∉ (List.replicate n cycle).flatten := by
    intro n hmem
    obtain ⟨l, hl, h0⟩ := List.mem_flatten.mp hmem
    rw [List.eq_of_mem_replicate hl] at h0
    exact absurd h0 (by decide)
  have hlength : ∀ n, (List.replicate n cycle).flatten.length = n * 5 := by
    intro n
    rw [List.length_flatten, List.map_replicate, List.sum_replicate, smul_eq_mul]
    rfl
  have hbegin : ∀ n, (List.replicate n cycle).flatten <+: (List.replicate (n + 1) cycle).flatten := by
    intro n
    rw [List.replicate_succ', List.flatten_append]
    exact List.prefix_append _ _
  refine readsBack_no_collision hnew h ?_ (List.singleton_append).symm List.mem_cons_self (hlength 13107)
    ?_ (hbegin 13107) ?_
  · intro value hv
    rcases List.mem_cons.mp hv with rfl | hv
    · exact hzero _
    · rw [List.mem_singleton.mp hv]
      exact hzero _
  · rw [hlength]
    decide
  · rw [hashcode_cycles, hashcode_cycles]

end StringValueStore

end Keyvi.Fsa
