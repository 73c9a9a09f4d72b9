import Mathlib
import Keyvi.Fsa.PersistState
import Keyvi.Fsa.PersistenceRefinement

/-!
# The code of a pointer

`WriteTransition` of `sparse_array_builder.h` codes a pointer in 16 bits, if need be with an overflow
bucket, and `ResolveTransitionValue` of the persistence reads it back.
-/

namespace Keyvi.Fsa

open SparseArrayPersistence (Mirrors mirrors_new)

/-! ## Variable length numbers -/

theorem and_two_pow_ne_zero (v i : Nat) : v &&& 2 ^ i ≠ 0 ↔ v / 2 ^ i % 2 = 1 := by
  rw [Nat.and_two_pow, Nat.testBit_eq_decide_div_mod_eq]
  by_cases h : v / 2 ^ i % 2 = 1 <;> simp [h]

theorem and_C000 (v : Nat) :
    v &&& 0xC000 = 0xC000 ↔ v / 32768 % 2 = 1 ∧ v / 16384 % 2 = 1 := by
  have h15 := Nat.testBit_eq_decide_div_mod_eq (x := v) (i := 15)
  have h14 := Nat.testBit_eq_decide_div_mod_eq (x := v) (i := 14)
  constructor
  · intro h
    have h15' := congrArg (Nat.testBit · 15) h
    have h14' := congrArg (Nat.testBit · 14) h
    simp only [Nat.testBit_and] at h15' h14'
    rw [show Nat.testBit 0xC000 15 = true by decide, Bool.and_true, h15] at h15'
    rw [show Nat.testBit 0xC000 14 = true by decide, Bool.and_true, h14] at h14'
    exact ⟨by simpa using h15', by simpa using h14'⟩
  · rintro ⟨h1, h2⟩
    rw [show (0xC000 : Nat) = 2 ^ 15 ||| 2 ^ 14 by decide, Nat.and_or_distrib_left, Nat.and_two_pow,
      Nat.and_two_pow, h15, h14]
    simp [h1, h2]

/-- A difference below 32768 is read relative to where it stands. -/
theorem resolve_relative (readBucket : Nat → Option Nat) {offset difference : Nat}
    (h : difference < 32768) : resolve readBucket offset (Vint.toShort difference) =
      some ((offset + 2 ^ 64 - difference + 512) % 2 ^ 64) := by
  have hval : (Vint.toShort difference).val = difference := Nat.mod_eq_of_lt (by omega)
  rw [resolve, hval, if_neg (by rw [and_C000]; omega), if_neg]
  rw [not_not]
  by_contra hne
  have := (and_two_pow_ne_zero difference 15).mp hne
  omega

/-- A pointer below 16384 is read as it is. -/
theorem resolve_absolute (readBucket : Nat → Option Nat) {offset pointer : Nat}
    (h : pointer < 16384) :
    resolve readBucket offset (Vint.toShort (pointer ||| 0xC000)) = some pointer := by
  have hor : pointer ||| 0xC000 = 0xC000 + pointer := by
    rw [Nat.or_comm]
    exact (Nat.two_pow_add_eq_or_of_lt (i := 14) h 3).symm
  have hval : (Vint.toShort (pointer ||| 0xC000)).val = 0xC000 + pointer := by
    rw [hor]
    exact Nat.mod_eq_of_lt (by omega)
  rw [resolve, hval, if_pos ((and_C000 _).mpr (by omega))]
  have hmod := Nat.and_two_pow_sub_one_eq_mod (0xC000 + pointer) 14
  rw [show (2 : Nat) ^ 14 - 1 = 0x3FFF by decide] at hmod
  rw [hmod]
  congr 1
  omega

/-- The code of an overflow bucket with the low bits of what it holds. -/
def overflowCell (isRelative : Prop) [Decidable isRelative] (overflowBucket overflowCode : Nat) :
    Bucket :=
  Vint.toShort ((Vint.toShort ((0x8000 ||| if isRelative then 0x8 else 0) |||
    overflowBucket <<< 4)).val + (overflowCode &&& 0x7))

variable (isRelative : Prop) [Decidable isRelative]

theorem overflowCell_val {overflowBucket : Nat} (h : overflowBucket < 2048) (overflowCode : Nat) :
    (overflowCell isRelative overflowBucket overflowCode).val =
      0x8000 + (overflowBucket * 16 + if isRelative then 8 else 0) + overflowCode % 8 := by
  have hlow : overflowCode &&& 0x7 = overflowCode % 8 :=
    Nat.and_two_pow_sub_one_eq_mod overflowCode 3
  obtain ⟨flag, hflag⟩ : ∃ flag, (if isRelative then 8 else 0) = flag := ⟨_, rfl⟩
  have hle : flag ≤ 8 := by
    rw [← hflag]
    split <;> omega
  have hinner : flag ||| overflowBucket <<< 4 = overflowBucket * 16 + flag := by
    rw [Nat.or_comm, ← Nat.shiftLeft_add_eq_or_of_lt (show flag < 2 ^ 4 by omega), Nat.shiftLeft_eq]
  have hor : (0x8000 ||| flag) ||| overflowBucket <<< 4 = 0x8000 + (overflowBucket * 16 + flag) := by
    rw [Nat.or_assoc, hinner]
    exact (Nat.two_pow_add_eq_or_of_lt (i := 15) (show _ < 2 ^ 15 by omega) 1).symm
  rw [overflowCell, hlow, hflag, hor]
  show ((0x8000 + (overflowBucket * 16 + flag)) % 65536 + overflowCode % 8) % 65536 = _
  omega

/-- What is read through an overflow bucket in the window. -/
theorem resolve_overflow {readBucket : Nat → Option Nat} {offset start code : Nat}
    (hoffset : offset < 2 ^ 63) (hlow : offset ≤ start + 512) (hhigh : start < offset + 512)
    (hcode : code < 2 ^ 64) (hread : readBucket start = some (code >>> 3)) :
    resolve readBucket offset (overflowCell isRelative (512 + start - offset) code) =
      some (if isRelative then (offset + 2 ^ 64 - code + 512) % 2 ^ 64 else code) := by
  have hval := overflowCell_val isRelative (show 512 + start - offset < 2048 by omega) code
  generalize overflowCell isRelative (512 + start - offset) code = value at hval
  obtain ⟨flag, hflag⟩ : ∃ flag, (if isRelative then 8 else 0) = flag := ⟨_, rfl⟩
  have hle : flag = 8 ∨ flag = 0 := by
    rw [← hflag]
    split <;> simp
  rw [hflag] at hval
  have hpt : value.val &&& 0x7FFF = (512 + start - offset) * 16 + flag + code % 8 := by
    rw [show value.val &&& 0x7FFF = value.val % 2 ^ 15 from Nat.and_two_pow_sub_one_eq_mod _ 15]
    omega
  have hbucket : overflowBucket offset value = start := by
    rw [overflowBucket, hpt, Nat.shiftRight_eq_div_pow]
    omega
  have hlower : ((512 + start - offset) * 16 + flag + code % 8) &&& 0x7 = code % 8 := by
    rw [show ((512 + start - offset) * 16 + flag + code % 8) &&& 0x7 = _ % 2 ^ 3 from
      Nat.and_two_pow_sub_one_eq_mod _ 3]
    omega
  have hresolved : ((code >>> 3) <<< 3 + code % 8) % 2 ^ 64 = code := by
    rw [Nat.shiftRight_eq_div_pow, Nat.shiftLeft_eq]
    omega
  have hrelative : ((512 + start - offset) * 16 + flag + code % 8) &&& 0x8 ≠ 0 ↔ isRelative := by
    rw [show (0x8 : Nat) = 2 ^ 3 by decide, and_two_pow_ne_zero, ← not_iff_not]
    by_cases hrel : isRelative
    · rw [if_pos hrel] at hflag
      simp only [hrel, not_true_eq_false, iff_false]
      omega
    · rw [if_neg hrel] at hflag
      simp only [hrel, not_false_eq_true, iff_true]
      omega
  rw [resolve, if_neg (by rw [and_C000]; omega),
    if_pos (show value.val &&& 0x8000 ≠ 0 from (and_two_pow_ne_zero _ 15).mpr (by omega))]
  dsimp only
  rw [hpt, hbucket, hread, Option.map_some, hlower, hresolved]
  simp only [hrelative]

/-- A cell with the same label and the same value. -/
def FlatArray.SameAt (f f' : FlatArray) (i : Nat) : Prop :=
  f'.labels i = f.labels i ∧ f'.transitions i = f.transitions i

theorem FlatArray.SameAt.trans {f f' f'' : FlatArray} {i : Nat} (h : f.SameAt f' i)
    (h' : f'.SameAt f'' i) : f.SameAt f'' i := ⟨h'.1.trans h.1, h'.2.trans h.2⟩

/-- A way to read numbers: what was written one unit behind the other is decoded. -/
def FlatArray.Decodes (f : FlatArray) (readBucket : Nat → Option Nat) : Prop :=
  ∀ start value, value < 2 ^ 64 →
    (∀ j (h : j < (Vint.shorts value).length), f.transitions (start + j) = (Vint.shorts value)[j]) →
      readBucket start = some value

namespace SparseArrayPersistence

variable {o : ByteOrder} {s s' : SparseArrayPersistence} {f : FlatArray} {offset : Nat}

/-- What is written lies in the buffer or in front of it. -/
theorem lt_of_writeTransition {transitionId : Byte} {transitionPointer : Bucket}
    (h : s.writeTransition o offset transitionId transitionPointer = some s') :
    offset < s.inMemoryBufferOffset + s.bufferSize := by
  rw [SparseArrayPersistence.writeTransition] at h
  dsimp only at h
  split at h
  · split at h
    · next hbuffer =>
      rw [inBuffer, Bool.and_eq_true, decide_eq_true_eq] at hbuffer
      have := hbuffer.2
      dsimp only at this
      omega
    · cases h
  · omega

theorem Mirrors.of_writeTransition (hm : Mirrors o s f) {transitionId : Byte}
    {transitionPointer : Bucket}
    (h : s.writeTransition o offset transitionId transitionPointer = some s') :
    Mirrors o s' (f.call (.writeTransition offset transitionId transitionPointer)) := by
  obtain ⟨t, ht, hmirrors⟩ :=
    hm.writeTransition (lt_of_writeTransition h) transitionId transitionPointer
  rwa [Option.some.inj (h.symm.trans ht)]

end SparseArrayPersistence

namespace SparseArrayBuilder

variable {o : ByteOrder} {b b' : SparseArrayBuilder} {f : FlatArray} {offset : Nat}

theorem writeCell_mirrors (hm : Mirrors o b.persistence f) {transitionId : Byte}
    {transitionPointer : Bucket} (h : b.writeCell o offset transitionId transitionPointer = some b') :
    Mirrors o b'.persistence (f.call (.writeTransition offset transitionId transitionPointer)) := by
  obtain ⟨p, hp, rfl⟩ := Option.map_eq_some_iff.mp h
  exact hm.of_writeTransition hp

theorem writeCell_takenPositions {transitionId : Byte} {transitionPointer : Bucket}
    (h : b.writeCell o offset transitionId transitionPointer = some b') :
    b'.takenPositions = b.takenPositions := by
  obtain ⟨p, -, rfl⟩ := Option.map_eq_some_iff.mp h
  rfl

theorem writeCells_takenPositions : ∀ {vs : List Bucket} {b : SparseArrayBuilder} {offset : Nat}
    {label : Byte}, b.writeCells o offset label vs = some b' → b'.takenPositions = b.takenPositions
  | [], _, _, _, h => by rw [Option.some.inj h]
  | v :: vs, _, _, _, h => by
    rw [writeCells] at h
    obtain ⟨b₁, hcell, h⟩ := Option.bind_eq_some_iff.mp h
    exact (writeCells_takenPositions h).trans (writeCell_takenPositions hcell)

/-- The cells hold what is written, all others what they held. -/
theorem writeCells_mirrors : ∀ {vs : List Bucket} {b : SparseArrayBuilder} {f : FlatArray}
    {offset : Nat} {label : Byte}, Mirrors o b.persistence f → b.writeCells o offset label vs = some b' →
      ∃ f', Mirrors o b'.persistence f' ∧ (vs ≠ [] → f'.labels offset = label) ∧
        (∀ j (h : j < vs.length), f'.transitions (offset + j) = vs[j]) ∧
        ∀ i, i < offset ∨ offset + vs.length ≤ i → f.SameAt f' i
  | [], b, f, offset, label, hm, h => by
    obtain rfl := Option.some.inj h
    exact ⟨f, hm, absurd rfl, fun j hj => absurd hj (Nat.not_lt_zero j), fun i _ => ⟨rfl, rfl⟩⟩
  | v :: vs, b, f, offset, label, hm, h => by
    rw [writeCells] at h
    obtain ⟨b₁, hcell, h⟩ := Option.bind_eq_some_iff.mp h
    obtain ⟨f', hm', -, hheld, hrest⟩ := writeCells_mirrors (writeCell_mirrors hm hcell) h
    refine ⟨f', hm', fun _ => (hrest offset (.inl (Nat.lt_succ_self offset))).1.trans (if_pos rfl),
      fun j hj => ?_, fun i hi => ?_⟩
    · cases j with
      | zero =>
        rw [Nat.add_zero, (hrest offset (.inl (Nat.lt_succ_self offset))).2]
        exact if_pos rfl
      | succ j =>
        rw [← Nat.succ_add_eq_add_succ]
        exact hheld j (by simpa using hj)
    · rw [List.length_cons] at hi
      have hne : i ≠ offset := by omega
      obtain ⟨hlabel, htransition⟩ := hrest i (by omega)
      exact ⟨hlabel.trans (if_neg hne), htransition.trans (if_neg hne)⟩

/-- The cells of an overflow bucket were free. -/
theorem findOverflow_free {vshortSize : Nat} {place : OverflowPlace}
    (h : b.findOverflow offset vshortSize = some place) :
    ∀ j < vshortSize, b.takenPositions.isSet (place.startPosition + j) = false := by
  refine search_found (P := fun place => ∀ j < vshortSize,
    b.takenPositions.isSet (place.startPosition + j) = false) (fun start place h => ?_) h
  rw [probeOverflow] at h
  obtain ⟨free, -, h⟩ := Option.bind_eq_some_iff.mp h
  split at h
  · cases h
  split at h
  · cases h
  next hstart =>
  split at h
  · cases h
  next hblocked =>
  have hfree : ∀ j < vshortSize, b.takenPositions.isSet (free + j) = false := by
    intro j hj
    cases j with
    | zero => exact Bool.eq_false_iff.mpr hstart
    | succ j =>
      have := List.find?_eq_none.mp hblocked (j + 1) (List.mem_range'_1.mpr (by omega))
      rw [Bool.or_eq_true, not_or] at this
      exact Bool.eq_false_iff.mpr this.1
  split at h
  · obtain ⟨zerobyteState, -, h⟩ := Option.bind_eq_some_iff.mp h
    dsimp only at h
    split at h
    · cases h
    · cases h
      exact hfree
  · cases h
    exact hfree

/-- What `WriteTransition` writes relative to a place. -/
def difference (offset transitionPointer : Nat) : Nat :=
  if transitionPointer < offset + 512 then offset + 512 - transitionPointer else 2 ^ 64 - 1

/-- Pointers that do not fit in 16 bits. -/
def Overflows (offset transitionPointer : Nat) : Prop :=
  32768 ≤ difference offset transitionPointer ∧ 16384 ≤ transitionPointer

instance decidableOverflows (offset transitionPointer : Nat) :
    Decidable (Overflows offset transitionPointer) := inferInstanceAs (Decidable (_ ∧ _))

/-- What the overflow bucket holds, without the low bits. -/
def overflowCode (offset transitionPointer : Nat) : Nat :=
  if difference offset transitionPointer < transitionPointer then difference offset transitionPointer
  else transitionPointer

/-- The place of the overflow bucket of a pointer. -/
def overflowPlace (b : SparseArrayBuilder) (offset transitionPointer : Nat) : Option OverflowPlace :=
  b.findOverflow offset (Vint.shorts (overflowCode offset transitionPointer >>> 3)).length

/-- The cells of the overflow bucket of a pointer. -/
def overflowCells (b : SparseArrayBuilder) (offset transitionPointer : Nat) : List Nat :=
  if Overflows offset transitionPointer then
    ((b.overflowPlace offset transitionPointer).map fun place => List.range' place.startPosition
      (Vint.shorts (overflowCode offset transitionPointer >>> 3)).length).getD []
  else []

/-- The overflow bucket of a pointer, if it needs one, can be reached. -/
def InWindow (b : SparseArrayBuilder) (offset transitionPointer : Nat) : Prop :=
  ∀ place, Overflows offset transitionPointer → b.overflowPlace offset transitionPointer = some place →
    offset ≤ place.startPosition + 512 ∧ place.startPosition < offset + 512

theorem pointer_of_difference {transitionPointer : Nat} (hoffset : offset < 2 ^ 63)
    (h : difference offset transitionPointer < 2 ^ 64 - 1) :
    (offset + 2 ^ 64 - difference offset transitionPointer + 512) % 2 ^ 64 = transitionPointer := by
  rw [difference] at h ⊢
  by_cases hbehind : transitionPointer < offset + 512
  · rw [if_pos hbehind] at h ⊢
    omega
  · rw [if_neg hbehind] at h
    omega

theorem overflowCells_of_overflows {transitionPointer : Nat} {place : OverflowPlace}
    (hover : Overflows offset transitionPointer)
    (hfound : b.overflowPlace offset transitionPointer = some place) :
    b.overflowCells offset transitionPointer = List.range' place.startPosition
      (Vint.shorts (overflowCode offset transitionPointer >>> 3)).length := by
  rw [overflowCells, if_pos hover, hfound, Option.map_some, Option.getD_some]

theorem overflowCells_free {transitionPointer i : Nat}
    (hi : i ∈ b.overflowCells offset transitionPointer) : b.takenPositions.isSet i = false := by
  by_cases hover : Overflows offset transitionPointer
  · cases hfound : b.overflowPlace offset transitionPointer with
    | none => simp [overflowCells, hfound] at hi
    | some place =>
      rw [overflowCells_of_overflows hover hfound, List.mem_range'_1] at hi
      obtain ⟨j, rfl⟩ := Nat.exists_eq_add_of_le hi.1
      exact findOverflow_free hfound j (by omega)
  · rw [overflowCells, if_neg hover] at hi
    cases hi

/-- A pointer that fits is one cell. -/
theorem fitting_cell {transitionPointer : Nat} {transitionId : Byte}
    (hfits : ¬ Overflows offset transitionPointer)
    (hb : b.writeTransition o offset transitionId transitionPointer = some b') :
    ∃ v, b.writeCell o offset transitionId v = some b' ∧
      (offset < 2 ^ 63 → ∀ readBucket, resolve readBucket offset v = some transitionPointer) := by
  rw [writeTransition] at hb
  change (if difference offset transitionPointer < 32768 then _ else _) = _ at hb
  by_cases hnear : difference offset transitionPointer < 32768
  · rw [if_pos hnear] at hb
    exact ⟨_, hb, fun hoffset readBucket => (resolve_relative _ hnear).trans
      (congrArg some (pointer_of_difference hoffset (by omega)))⟩
  · have hsmall : transitionPointer < 16384 := by
      by_contra hlarge
      exact hfits ⟨not_lt.mp hnear, not_lt.mp hlarge⟩
    rw [if_neg hnear, if_pos hsmall] at hb
    exact ⟨_, hb, fun _ readBucket => resolve_absolute _ hsmall⟩

/-- What `WriteTransition` does for a pointer that does not fit. -/
theorem overflow_cells {transitionPointer : Nat} {transitionId : Byte}
    (hover : Overflows offset transitionPointer)
    (hb : b.writeTransition o offset transitionId transitionPointer = some b') :
    ∃ place b₀ b₁, b.overflowPlace offset transitionPointer = some place ∧
      b₀.persistence = b.persistence ∧
      b₀.takenPositions =
        (b.overflowCells offset transitionPointer).foldl PositionTracker.set b.takenPositions ∧
      writeCells o b₀ place.startPosition place.zerobyteLabel
        (Vint.shorts (overflowCode offset transitionPointer >>> 3)) = some b₁ ∧
      b₁.writeCell o offset transitionId
        (overflowCell (difference offset transitionPointer < transitionPointer)
          (512 + place.startPosition - offset) (overflowCode offset transitionPointer)) = some b' := by
  obtain ⟨hfar, hlarge⟩ := hover
  rw [writeTransition] at hb
  change (if difference offset transitionPointer < 32768 then _ else _) = _ at hb
  rw [if_neg (not_lt.mpr hfar), if_neg (not_lt.mpr hlarge)] at hb
  obtain ⟨place, hfound, hb⟩ := Option.bind_eq_some_iff.mp hb
  obtain ⟨b₁, hcells, hb⟩ := Option.bind_eq_some_iff.mp hb
  refine ⟨place, _, b₁, hfound, ?_, ?_, hcells, hb⟩
  · rfl
  · rw [overflowCells_of_overflows ⟨hfar, hlarge⟩ hfound, List.range'_eq_map_range, List.foldl_map]
    rfl

/-- Only the cells of the overflow bucket are taken. -/
theorem writeTransition_takenPositions {transitionPointer : Nat} {transitionId : Byte}
    (hb : b.writeTransition o offset transitionId transitionPointer = some b') :
    b'.takenPositions =
      (b.overflowCells offset transitionPointer).foldl PositionTracker.set b.takenPositions := by
  by_cases hover : Overflows offset transitionPointer
  · obtain ⟨place, b₀, b₁, -, -, htaken, hcells, hb⟩ := overflow_cells hover hb
    exact (writeCell_takenPositions hb).trans ((writeCells_takenPositions hcells).trans htaken)
  · obtain ⟨v, hcell, -⟩ := fitting_cell hover hb
    rw [overflowCells, if_neg hover]
    exact writeCell_takenPositions hcell

/-- What is read through the cell of a pointer that does not fit. -/
theorem resolve_overflowCell {transitionPointer : Nat} {place : OverflowPlace}
    {readBucket : Nat → Option Nat} (hoffset : offset < 2 ^ 63) (hpointer : transitionPointer < 2 ^ 64)
    (hlow : offset ≤ place.startPosition + 512) (hhigh : place.startPosition < offset + 512)
    (hread : readBucket place.startPosition = some (overflowCode offset transitionPointer >>> 3)) :
    resolve readBucket offset (overflowCell (difference offset transitionPointer < transitionPointer)
      (512 + place.startPosition - offset) (overflowCode offset transitionPointer)) =
        some transitionPointer := by
  have hcode : overflowCode offset transitionPointer < 2 ^ 64 := by
    rw [overflowCode]
    split <;> omega
  rw [resolve_overflow _ hoffset hlow hhigh hcode hread]
  congr 1
  by_cases hrel : difference offset transitionPointer < transitionPointer
  · rw [if_pos hrel, overflowCode, if_pos hrel]
    exact pointer_of_difference hoffset (by omega)
  · rw [if_neg hrel, overflowCode, if_neg hrel]

/-- **One pointer.** Only its cell and its overflow bucket change, and as long as these stay as they
are the pointer is read back. -/
theorem writeTransition_spec (hm : Mirrors o b.persistence f) (hoffset : offset < 2 ^ 63)
    {transitionPointer : Nat} (hpointer : transitionPointer < 2 ^ 64) {transitionId : Byte}
    (hb : b.writeTransition o offset transitionId transitionPointer = some b') :
    ∃ f', Mirrors o b'.persistence f' ∧ f'.labels offset = transitionId ∧
      (∀ i ∉ b.overflowCells offset transitionPointer, i ≠ offset → f.SameAt f' i) ∧
      (∀ (f'' : FlatArray) (readBucket : Nat → Option Nat), f''.Decodes readBucket →
        (∀ i, i = offset ∨ i ∈ b.overflowCells offset transitionPointer → f'.SameAt f'' i) →
          offset ∉ b.overflowCells offset transitionPointer →
            b.InWindow offset transitionPointer →
              resolve readBucket offset (f''.transitions offset) = some transitionPointer) ∧
      ∀ place, Overflows offset transitionPointer →
        b.overflowPlace offset transitionPointer = some place →
          f'.transitions offset =
            overflowCell (difference offset transitionPointer < transitionPointer)
              (512 + place.startPosition - offset) (overflowCode offset transitionPointer) := by
  by_cases hover : Overflows offset transitionPointer
  · obtain ⟨place, b₀, b₁, hfound, hpersistence, -, hcells, hb⟩ := overflow_cells hover hb
    have hrange := overflowCells_of_overflows hover hfound
    obtain ⟨f₁, hm₁, -, hheld, hkept⟩ := writeCells_mirrors (hpersistence ▸ hm) hcells
    refine ⟨_, writeCell_mirrors hm₁ hb, if_pos rfl, fun i hi hne => ?_,
      fun f'' readBucket hdecodes hsame hnot hwindow => ?_, fun place' _ hfound' => ?_⟩
    · rw [hrange, List.mem_range'_1] at hi
      exact (hkept i (by omega)).trans ⟨if_neg hne, if_neg hne⟩
    · obtain ⟨hlow, hhigh⟩ := hwindow place hover hfound
      rw [(hsame offset (.inl rfl)).2]
      refine (congrArg _ (if_pos rfl)).trans (resolve_overflowCell hoffset hpointer hlow hhigh ?_)
      refine hdecodes _ _ ?_ fun j hj => ?_
      · refine (Nat.shiftRight_le _ 3).trans_lt ?_
        rw [overflowCode]
        split <;> omega
      · have hin : place.startPosition + j ∈ b.overflowCells offset transitionPointer := by
          rw [hrange, List.mem_range'_1]
          omega
        have hne : place.startPosition + j ≠ offset := fun heq => hnot (heq ▸ hin)
        rw [(hsame _ (.inr hin)).2]
        exact (if_neg hne).trans (hheld j hj)
    · obtain rfl := Option.some.inj (hfound'.symm.trans hfound)
      exact if_pos rfl
  · obtain ⟨v, hcell, hresolve⟩ := fitting_cell hover hb
    refine ⟨_, writeCell_mirrors hm hcell, if_pos rfl, fun i _ hne => ⟨if_neg hne, if_neg hne⟩,
      fun f'' readBucket _ hsame _ _ => ?_, fun place hover' => absurd hover' hover⟩
    · rw [(hsame offset (.inl rfl)).2]
      exact (congrArg _ (if_pos rfl)).trans (hresolve hoffset _)

end SparseArrayBuilder

end Keyvi.Fsa
