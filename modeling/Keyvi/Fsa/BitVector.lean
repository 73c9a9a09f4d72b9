import Mathlib

/-!
# Bit vectors

`bit_vector_64.h`: an array of 64-bit words with one word more than the size needs. Shifts and masks by
powers of 2 are written as `/` and `%`.
-/

namespace Keyvi.Fsa

/-- `BitVector`: the words of `bits_`. There are `words size` of them. -/
structure BitVector (size : Nat) where
  bits : Nat → BitVec 64

namespace BitVector

variable {size other : Nat}

/-- `bits_.size()`. -/
def words (size : Nat) : Nat := size / 64 + 1

/-- The constructor. -/
def new (size : Nat) : BitVector size := ⟨fun _ => 0⟩

/-- `bits_[i] |= x`. -/
def orWord (v : BitVector size) (i : Nat) (x : BitVec 64) : BitVector size :=
  ⟨Function.update v.bits i (v.bits i ||| x)⟩

/-- `Set`. -/
def set (v : BitVector size) (bit : Nat) : BitVector size := v.orWord (bit / 64) (1#64 <<< (bit % 64))

/-- `Get`. -/
def get (v : BitVector size) (bit : Nat) : Bool := v.bits (bit / 64) &&& 1#64 <<< (bit % 64) ≠ 0

/-- `Clear`. -/
def clear (v : BitVector size) : BitVector size :=
  ⟨fun i => if i < words size then 0 else v.bits i⟩

/-- `GetUnderlyingIntegerAtPosition`. -/
def getUnderlyingIntegerAtPosition (v : BitVector size) (bytePosition bitPosition : Nat) : BitVec 64 :=
  if bitPosition = 0 then v.bits bytePosition
  else if bytePosition + 1 < words size then
    v.bits bytePosition >>> bitPosition ||| v.bits (bytePosition + 1) <<< (64 - bitPosition)
  else v.bits bytePosition >>> bitPosition

/-- `SetVector`. -/
def setVector (v : BitVector size) (o : BitVector other) (startBit : Nat) : BitVector size :=
  let bytePosition := startBit / 64
  let bitPosition := startBit % 64
  let writeLength := min (words size - bytePosition) (words other)
  if bitPosition = 0 then
    (List.range writeLength).foldl (fun v i => v.orWord (bytePosition + i) (o.bits i)) v
  else
    let v := v.orWord bytePosition (o.bits 0 <<< bitPosition)
    let v := (List.range (writeLength - 1)).foldl (fun v i => v.orWord (bytePosition + 1 + i)
      (o.bits (i + 1) <<< bitPosition ||| o.bits i >>> (64 - bitPosition))) v
    if bytePosition + writeLength < words size then
      v.orWord (bytePosition + writeLength) (o.bits (writeLength - 1) >>> (64 - bitPosition))
    else v

/-- `SetVectorAndShiftOther`. -/
def setVectorAndShiftOther (v : BitVector size) (o : BitVector other) (startBitOther : Nat) :
    BitVector size :=
  let bytePositionOther := startBitOther / 64
  let bitPositionOther := startBitOther % 64
  let writeLength := min (words size) (words other) - bytePositionOther
  (List.range writeLength).foldl (fun v i => v.orWord i
    (o.getUnderlyingIntegerAtPosition (bytePositionOther + i) bitPositionOther)) v

/-- `Position`: the lowest bit that is set. -/
def position (number : BitVec 64) : Nat := number.ctz.toNat

/-- The loop of `GetNextNonSetBit`, of at most so many words; none if it goes on behind them. -/
def nextNonSetBitLoop (v : BitVector size) (bitPosition : Nat) : Nat → Nat → Nat → Option Nat
  | 0, _, _ => none
  | fuel + 1, bytePosition, startBit =>
    let a := v.getUnderlyingIntegerAtPosition bytePosition bitPosition
    if a = BitVec.allOnes 64 then
      v.nextNonSetBitLoop bitPosition fuel (bytePosition + 1) (startBit + 64)
    else some (position (~~~a) + startBit)

/-- `GetNextNonSetBit`; none if it reads behind the array. -/
def getNextNonSetBit (v : BitVector size) (startBit : Nat) : Option Nat :=
  v.nextNonSetBitLoop (startBit % 64) (words size - startBit / 64) (startBit / 64) startBit

/-- The loop of `GetMinimumNumberOfShifts`. -/
def shiftsLoop (b a : BitVec 64) (shifts : Nat) : Nat :=
  if h : a &&& b ≠ 0 then shiftsLoop b (a >>> 1) (shifts + 1) else shifts
termination_by a.toNat
decreasing_by
  have ha : a.toNat ≠ 0 := by
    intro h0
    rw [BitVec.eq_of_toNat_eq (x := a) (y := 0) h0] at h
    exact h (BitVec.zero_and)
  rw [BitVec.toNat_ushiftRight, Nat.shiftRight_one]
  omega

/-- `GetMinimumNumberOfShifts`. -/
def getMinimumNumberOfShifts (b a : BitVec 64) : Nat := shiftsLoop b (a >>> 1) 1

/-- The loop of `DisjointAndShiftOther` and of `DisjointAndShiftThis`; `a i` is the word of this vector
and `b i` the word of the other one. -/
def disjointLoop (a b : Nat → BitVec 64) (shifts : BitVec 64 → BitVec 64 → Nat) : Nat → Nat → Nat
  | 0, _ => 0
  | n + 1, i =>
    if b i ≠ 0 then
      if a i &&& b i ≠ 0 then shifts (a i) (b i) else disjointLoop a b shifts n (i + 1)
    else disjointLoop a b shifts n (i + 1)

/-- `DisjointAndShiftOther`. -/
def disjointAndShiftOther (v : BitVector size) (o : BitVector other) (startBit : Nat) : Nat :=
  let bytePosition := startBit / 64
  let lengthToCheck := min (words other) (words size - bytePosition)
  let bitPosition := startBit % 64
  disjointLoop (fun i => v.getUnderlyingIntegerAtPosition (bytePosition + i) bitPosition) o.bits
    getMinimumNumberOfShifts lengthToCheck 0

/-- `DisjointAndShiftThis`. -/
def disjointAndShiftThis (v : BitVector size) (o : BitVector other) (startBit : Nat) : Nat :=
  let bytePosition := startBit / 64
  let lengthToCheck := min (words other) (words size - bytePosition)
  let bitPosition := startBit % 64
  disjointLoop (fun i => v.getUnderlyingIntegerAtPosition (bytePosition + i) bitPosition) o.bits
    (fun a b => getMinimumNumberOfShifts b a) lengthToCheck 0

/-! ## The bits -/

/-- The bit at a position. -/
def bit (v : BitVector size) (i : Nat) : Bool := (v.bits (i / 64)).getLsbD (i % 64)

theorem and_eq_zero_iff {a b : BitVec 64} :
    a &&& b = 0 ↔ ∀ j < 64, ¬(a.getLsbD j = true ∧ b.getLsbD j = true) := by
  constructor
  · rintro h j - ⟨ha, hb⟩
    have hj := congrArg (fun x : BitVec 64 => x.getLsbD j) h
    simp [ha, hb] at hj
  · intro h
    refine BitVec.eq_of_getLsbD_eq fun j hj => ?_
    have := h j hj
    rw [BitVec.getLsbD_and]
    simp only [BitVec.ofNat_eq_ofNat, BitVec.getLsbD_zero]
    by_contra hne
    exact this (by simpa using hne)

theorem getLsbD_one_shiftLeft {n j : Nat} (hj : j < 64) :
    (1#64 <<< n).getLsbD j = decide (j = n) := by
  rw [BitVec.getLsbD_shiftLeft]
  by_cases h : j = n
  · subst h
    simp [hj]
  · by_cases hlt : j < n
    · simp [hlt, h]
    · simp [hlt, h, hj]
      omega

theorem get_eq (v : BitVector size) (i : Nat) : v.get i = v.bit i := by
  have hmod : i % 64 < 64 := Nat.mod_lt _ (by decide)
  rw [get, bit, Bool.eq_iff_iff, decide_eq_true_eq, ne_eq, and_eq_zero_iff]
  push Not
  constructor
  · rintro ⟨j, hj, hv, h1⟩
    rw [getLsbD_one_shiftLeft hj, decide_eq_true_eq] at h1
    rwa [← h1]
  · intro h
    exact ⟨i % 64, hmod, h, by rw [getLsbD_one_shiftLeft hmod]; simp⟩

@[simp] theorem bits_orWord (v : BitVector size) (i : Nat) (x : BitVec 64) (k : Nat) :
    (v.orWord i x).bits k = if k = i then v.bits k ||| x else v.bits k := by
  by_cases h : k = i
  · subst h
    simp [orWord]
  · simp [orWord, h]

theorem bit_set (v : BitVector size) (i k : Nat) : (v.set i).bit k = (v.bit k || decide (k = i)) := by
  have hmod : k % 64 < 64 := Nat.mod_lt _ (by decide)
  rw [bit, set, bits_orWord, bit]
  by_cases h : k / 64 = i / 64
  · rw [if_pos h, BitVec.getLsbD_or, getLsbD_one_shiftLeft hmod]
    congr 2
    rw [eq_iff_iff]
    omega
  · rw [if_neg h, decide_eq_false (by rintro rfl; exact h rfl), Bool.or_false]

theorem bit_clear (v : BitVector size) {k : Nat} (h : k / 64 < words size) :
    v.clear.bit k = false := by
  rw [bit, clear]
  simp [h]

/-- The loops over the words. -/
theorem bits_foldl (f : Nat → BitVec 64) (start n : Nat) (v : BitVector size) (k : Nat) :
    ((List.range n).foldl (fun v i => v.orWord (start + i) (f i)) v).bits k =
      if start ≤ k ∧ k < start + n then v.bits k ||| f (k - start) else v.bits k := by
  induction n with
  | zero => rw [if_neg (by omega)]; rfl
  | succ n ih =>
    rw [List.range_succ, List.foldl_append, List.foldl_cons, List.foldl_nil, bits_orWord, ih]
    by_cases hk : k = start + n
    · rw [if_pos hk, if_neg (by omega), if_pos (by omega), hk, Nat.add_sub_cancel_left]
    · rw [if_neg hk]
      by_cases hin : start ≤ k ∧ k < start + n
      · rw [if_pos hin, if_pos (by omega)]
      · rw [if_neg hin, if_neg (by omega)]

/-- The word that starts at any bit. -/
theorem getLsbD_underlying (v : BitVector size) {bytePosition bitPosition j : Nat}
    (hbit : bitPosition < 64) (hbyte : bytePosition < words size) (hj : j < 64) :
    (v.getUnderlyingIntegerAtPosition bytePosition bitPosition).getLsbD j =
      (decide (bytePosition * 64 + bitPosition + j < words size * 64) &&
        v.bit (bytePosition * 64 + bitPosition + j)) := by
  rw [getUnderlyingIntegerAtPosition, bit]
  by_cases h0 : bitPosition = 0
  · subst h0
    rw [if_pos rfl, decide_eq_true (by omega), Bool.true_and,
      show (bytePosition * 64 + 0 + j) / 64 = bytePosition by omega,
      show (bytePosition * 64 + 0 + j) % 64 = j by omega]
  · rw [if_neg h0]
    by_cases hin : bitPosition + j < 64
    · -- The bit is in the first word.
      rw [decide_eq_true (by omega), Bool.true_and,
        show (bytePosition * 64 + bitPosition + j) / 64 = bytePosition by omega,
        show (bytePosition * 64 + bitPosition + j) % 64 = bitPosition + j by omega]
      split
      · rw [BitVec.getLsbD_or, BitVec.getLsbD_ushiftRight, BitVec.getLsbD_shiftLeft,
          decide_eq_true (show j < 64 - bitPosition by omega)]
        simp
      · rw [BitVec.getLsbD_ushiftRight]
    · have hdiv : (bytePosition * 64 + bitPosition + j) / 64 = bytePosition + 1 := by omega
      have hmod : (bytePosition * 64 + bitPosition + j) % 64 = j - (64 - bitPosition) := by omega
      have hzero : (v.bits bytePosition).getLsbD (bitPosition + j) = false :=
        BitVec.getLsbD_of_ge _ _ (by omega)
      rw [hdiv, hmod]
      split
      · rw [BitVec.getLsbD_or, BitVec.getLsbD_ushiftRight, BitVec.getLsbD_shiftLeft, hzero,
          decide_eq_false (show ¬j < 64 - bitPosition by omega), decide_eq_true (show j < 64 from hj),
          decide_eq_true (by omega)]
        simp
      · rw [BitVec.getLsbD_ushiftRight, hzero, decide_eq_false (by omega), Bool.false_and]

/-! ## What the operations do to the bits -/

/-- A vector that is cut off at its size. -/
def Bounded (o : BitVector other) : Prop := ∀ i, other ≤ i → i < words other * 64 → o.bit i = false

theorem getLsbD_low (x : BitVec 64) {s j : Nat} (hj : j < 64) :
    (x <<< s).getLsbD j = (decide (s ≤ j) && x.getLsbD (j - s)) := by
  rw [BitVec.getLsbD_shiftLeft, decide_eq_true hj, Bool.true_and]
  by_cases h : j < s
  · rw [decide_eq_true h, decide_eq_false (by omega)]
    rfl
  · rw [decide_eq_false h, decide_eq_true (by omega)]
    rfl

theorem getLsbD_high (x : BitVec 64) {s j : Nat} (hs : s < 64) :
    (x >>> (64 - s)).getLsbD j = (decide (j < s) && x.getLsbD (64 + j - s)) := by
  rw [BitVec.getLsbD_ushiftRight]
  by_cases h : j < s
  · rw [decide_eq_true h, Bool.true_and, show 64 - s + j = 64 + j - s by omega]
  · rw [decide_eq_false h, Bool.false_and, BitVec.getLsbD_of_ge _ _ (by omega)]

/-- The words when the other vector has to be shifted. -/
theorem bits_setVector (v : BitVector size) (o : BitVector other) {startBit i : Nat}
    (h0 : startBit % 64 ≠ 0) (hi : i < words size) :
    (v.setVector o startBit).bits i = v.bits i |||
      ((if startBit / 64 ≤ i ∧ i < startBit / 64 + words other then
        o.bits (i - startBit / 64) <<< (startBit % 64) else 0) |||
      (if startBit / 64 < i ∧ i ≤ startBit / 64 + words other then
        o.bits (i - startBit / 64 - 1) >>> (64 - startBit % 64) else 0)) := by
  have hpos : 0 < words other := Nat.succ_pos _
  rw [setVector]
  dsimp only
  rw [if_neg h0]
  generalize startBit / 64 = byte at *
  generalize hwrite : min (words size - byte) (words other) = n
  rw [apply_ite (fun w : BitVector size => w.bits i), bits_orWord, bits_foldl, bits_orWord]
  rcases Nat.lt_trichotomy i byte with hlt | rfl | hgt
  · rw [if_neg (show ¬i = byte + n by omega), if_neg (show ¬(byte + 1 ≤ i ∧ i < byte + 1 + (n - 1)) by
      omega), if_neg (show ¬i = byte by omega), if_neg (show ¬(byte ≤ i ∧ i < byte + words other) by
      omega), if_neg (show ¬(byte < i ∧ i ≤ byte + words other) by omega)]
    simp
  · rw [if_neg (show ¬i = i + n by omega), if_neg (show ¬(i + 1 ≤ i ∧ i < i + 1 + (n - 1)) by omega),
      if_pos rfl, if_pos (show i ≤ i ∧ i < i + words other by omega),
      if_neg (show ¬(i < i ∧ i ≤ i + words other) by omega), Nat.sub_self]
    simp
  · rw [if_neg (show ¬i = byte by omega)]
    by_cases hin : i < byte + n
    · rw [if_neg (show ¬i = byte + n by omega),
        if_pos (show byte + 1 ≤ i ∧ i < byte + 1 + (n - 1) by omega),
        if_pos (show byte ≤ i ∧ i < byte + words other by omega),
        if_pos (show byte < i ∧ i ≤ byte + words other by omega), ite_self,
        show i - (byte + 1) + 1 = i - byte by omega, show i - byte - 1 = i - (byte + 1) by omega]
    · rw [if_neg (show ¬(byte + 1 ≤ i ∧ i < byte + 1 + (n - 1)) by omega),
        if_pos (show byte + n < words size by omega),
        if_neg (show ¬(byte ≤ i ∧ i < byte + words other) by omega)]
      by_cases hlast : i = byte + n
      · rw [if_pos hlast, if_pos (show byte < i ∧ i ≤ byte + words other by omega),
          show i - byte - 1 = n - 1 by omega]
        simp
      · rw [if_neg hlast, if_neg (show ¬(byte < i ∧ i ≤ byte + words other) by omega)]
        simp

/-- The vector is put in at its start. -/
theorem bit_setVector (v : BitVector size) (o : BitVector other) (startBit : Nat) {k : Nat}
    (hk : k < words size * 64) :
    (v.setVector o startBit).bit k =
      (v.bit k || (decide (startBit ≤ k ∧ k - startBit < words other * 64) && o.bit (k - startBit))) := by
  have hmod : k % 64 < 64 := Nat.mod_lt _ (by decide)
  have hsmod : startBit % 64 < 64 := Nat.mod_lt _ (by decide)
  by_cases h0 : startBit % 64 = 0
  · -- The words of the other vector fit onto words of this one.
    rw [setVector]
    dsimp only
    rw [if_pos h0, bit, bits_foldl, bit, bit]
    by_cases hin : startBit / 64 ≤ k / 64 ∧
      k / 64 < startBit / 64 + min (words size - startBit / 64) (words other)
    · rw [if_pos hin, BitVec.getLsbD_or, decide_eq_true (by omega), Bool.true_and,
        show (k - startBit) / 64 = k / 64 - startBit / 64 by omega,
        show (k - startBit) % 64 = k % 64 by omega]
    · rw [if_neg hin, decide_eq_false (by omega), Bool.false_and, Bool.or_false]
  · rw [bit, bits_setVector v o h0 (by omega), BitVec.getLsbD_or, BitVec.getLsbD_or]
    rw [bit, bit]
    congr 1
    by_cases hin : startBit ≤ k ∧ k - startBit < words other * 64
    · rw [decide_eq_true hin, Bool.true_and]
      by_cases hlow : startBit % 64 ≤ k % 64
      · -- The bit comes from the word that is shifted to the left.
        rw [if_pos (by omega), getLsbD_low _ hmod, decide_eq_true hlow, Bool.true_and,
          show (k - startBit) / 64 = k / 64 - startBit / 64 by omega,
          show (k - startBit) % 64 = k % 64 - startBit % 64 by omega]
        split
        · rw [getLsbD_high _ hsmod, decide_eq_false (by omega), Bool.false_and, Bool.or_false]
        · simp
      · rw [if_pos (show startBit / 64 < k / 64 ∧ k / 64 ≤ startBit / 64 + words other by omega),
          getLsbD_high _ hsmod, decide_eq_true (by omega), Bool.true_and,
          show (k - startBit) / 64 = k / 64 - startBit / 64 - 1 by omega,
          show (k - startBit) % 64 = 64 + k % 64 - startBit % 64 by omega]
        split
        · rw [getLsbD_low _ hmod, decide_eq_false hlow, Bool.false_and, Bool.false_or]
        · simp
    · rw [decide_eq_false hin, Bool.false_and]
      have h1 : (if startBit / 64 ≤ k / 64 ∧ k / 64 < startBit / 64 + words other then
          o.bits (k / 64 - startBit / 64) <<< (startBit % 64) else 0).getLsbD (k % 64) = false := by
        split
        · rw [getLsbD_low _ hmod, decide_eq_false (by omega), Bool.false_and]
        · simp
      have h2 : (if startBit / 64 < k / 64 ∧ k / 64 ≤ startBit / 64 + words other then
          o.bits (k / 64 - startBit / 64 - 1) >>> (64 - startBit % 64) else 0).getLsbD (k % 64) =
            false := by
        split
        · rw [getLsbD_high _ hsmod, decide_eq_false (by omega), Bool.false_and]
        · simp
      rw [h1, h2, Bool.or_false]

/-- The rest of the vector, from a bit on, is put in at 0. -/
theorem bit_setVectorAndShiftOther (v : BitVector size) (o : BitVector other)
    (hle : words other ≤ words size) (startBitOther k : Nat) :
    (v.setVectorAndShiftOther o startBitOther).bit k =
      (v.bit k || (decide (startBitOther + k < words other * 64) && o.bit (startBitOther + k))) := by
  have hmod : k % 64 < 64 := Nat.mod_lt _ (by decide)
  have hsmod : startBitOther % 64 < 64 := Nat.mod_lt _ (by decide)
  have hfold := bits_foldl (fun i => o.getUnderlyingIntegerAtPosition (startBitOther / 64 + i)
    (startBitOther % 64)) 0 (min (words size) (words other) - startBitOther / 64) v (k / 64)
  simp only [Nat.zero_add, Nat.zero_le, true_and, Nat.sub_zero] at hfold
  rw [bit, setVectorAndShiftOther, hfold, bit]
  by_cases hin : k / 64 < min (words size) (words other) - startBitOther / 64
  · rw [if_pos hin, BitVec.getLsbD_or, getLsbD_underlying o hsmod (by omega) hmod,
      show (startBitOther / 64 + k / 64) * 64 + startBitOther % 64 + k % 64 = startBitOther + k by omega]
  · rw [if_neg hin, decide_eq_false (by omega), Bool.false_and, Bool.or_false]

/-! ## The search -/

theorem eq_allOnes_iff {a : BitVec 64} :
    a = BitVec.allOnes 64 ↔ ∀ j < 64, a.getLsbD j = true := by
  refine ⟨fun h j hj => by
    rw [h, BitVec.getLsbD_allOnes, decide_eq_true hj], fun h => BitVec.eq_of_getLsbD_eq fun j hj => ?_⟩
  rw [h j hj, BitVec.getLsbD_allOnes, decide_eq_true hj]

/-- The lowest bit that is not set. -/
theorem position_not_spec {a : BitVec 64} (h : a ≠ BitVec.allOnes 64) :
    position (~~~a) < 64 ∧ a.getLsbD (position (~~~a)) = false ∧
      ∀ j < position (~~~a), a.getLsbD j = true := by
  have hne : ~~~a ≠ 0#64 := by
    intro h0
    refine h (eq_allOnes_iff.mpr fun j hj => ?_)
    have hbit := congrArg (fun x : BitVec 64 => x.getLsbD j) h0
    simpa [hj] using hbit
  have hlt : position (~~~a) < 64 := by
    have := BitVec.ctz_lt_iff_ne_zero.mpr hne
    exact this
  refine ⟨hlt, ?_, fun j hj => ?_⟩
  · have hset := BitVec.getLsbD_true_ctz_of_ne_zero hne
    rw [BitVec.getLsbD_not, decide_eq_true (show (~~~a).ctz.toNat < 64 from hlt), Bool.true_and, Bool.not_eq_true'] at hset
    exact hset
  · have hclear := BitVec.getLsbD_false_of_lt_ctz hj
    rw [BitVec.getLsbD_not, decide_eq_true (show j < 64 by omega)] at hclear
    simpa using hclear

/-! ## The comparison -/

theorem shiftsLoop_pos (b a : BitVec 64) (shifts : Nat) (h : 0 < shifts) :
    0 < shiftsLoop b a shifts := by
  fun_induction shiftsLoop b a shifts with
  | case1 a shifts _ ih => exact ih (Nat.succ_pos _)
  | case2 a shifts _ => exact h

theorem getMinimumNumberOfShifts_pos (b a : BitVec 64) : 0 < getMinimumNumberOfShifts b a :=
  shiftsLoop_pos b (a >>> 1) 1 Nat.one_pos

/-- The loop of the comparison gives 0 for words without a common bit only. -/
theorem disjointLoop_eq_zero_iff {a b : Nat → BitVec 64} {shifts : BitVec 64 → BitVec 64 → Nat}
    (hshifts : ∀ x y, 0 < shifts x y) : ∀ n i,
    disjointLoop a b shifts n i = 0 ↔ ∀ k, i ≤ k → k < i + n → a k &&& b k = 0
  | 0, i => ⟨fun _ k hk hlt => by omega, fun _ => rfl⟩
  | n + 1, i => by
    have hrest := disjointLoop_eq_zero_iff hshifts (a := a) (b := b) n (i + 1)
    have hsplit : a i &&& b i = 0 → ((∀ k, i + 1 ≤ k → k < i + 1 + n → a k &&& b k = 0) ↔
        ∀ k, i ≤ k → k < i + (n + 1) → a k &&& b k = 0) := by
      intro h0
      refine ⟨fun h k hk hlt => ?_, fun h k hk hlt => h k (by omega) (by omega)⟩
      rcases Nat.eq_or_lt_of_le hk with rfl | hk
      · exact h0
      · exact h k hk (by omega)
    rw [disjointLoop]
    by_cases hb : b i = 0
    · rw [if_neg (not_not_intro hb), hrest, hsplit (by rw [hb]; exact BitVec.and_zero)]
    · rw [if_pos hb]
      by_cases hab : a i &&& b i = 0
      · rw [if_neg (not_not_intro hab), hrest, hsplit hab]
      · rw [if_pos hab]
        refine ⟨fun h => ?_, fun h => absurd (h i le_rfl (by omega)) hab⟩
        have := hshifts (a i) (b i)
        omega

/-- Two vectors without a common bit, one of them from a bit on, in the words that both have. -/
theorem disjoint_words (v : BitVector size) (o : BitVector other) (startBit : Nat)
    (hstart : startBit < words size * 64) :
    (∀ k, 0 ≤ k → k < 0 + min (words other) (words size - startBit / 64) →
      v.getUnderlyingIntegerAtPosition (startBit / 64 + k) (startBit % 64) &&& o.bits k = 0) ↔
      ∀ j < words other * 64, startBit + j < words size * 64 →
        ¬(v.bit (startBit + j) = true ∧ o.bit j = true) := by
  have hsmod : startBit % 64 < 64 := Nat.mod_lt _ (by decide)
  constructor
  · rintro h j hj hin ⟨hv, ho⟩
    have hmod : j % 64 < 64 := Nat.mod_lt _ (by decide)
    have hk := and_eq_zero_iff.mp (h (j / 64) (Nat.zero_le _) (by omega)) (j % 64) hmod
    rw [getLsbD_underlying v hsmod (by omega) hmod,
      show (startBit / 64 + j / 64) * 64 + startBit % 64 + j % 64 = startBit + j by omega,
      decide_eq_true hin, Bool.true_and] at hk
    exact hk ⟨hv, ho⟩
  · intro h k _ hk
    refine and_eq_zero_iff.mpr fun j hj => ?_
    rw [getLsbD_underlying v hsmod (by omega) hj, Bool.and_eq_true, decide_eq_true_eq,
      show (startBit / 64 + k) * 64 + startBit % 64 + j = startBit + (k * 64 + j) by omega]
    rintro ⟨⟨hin, hv⟩, ho⟩
    refine h (k * 64 + j) (by omega) hin ⟨hv, ?_⟩
    rw [bit, show (k * 64 + j) / 64 = k by omega, show (k * 64 + j) % 64 = j by omega]
    exact ho

/-- **`DisjointAndShiftThis`** gives 0 for disjoint vectors only. -/
theorem disjointAndShiftThis_eq_zero_iff (v : BitVector size) (o : BitVector other) {startBit : Nat}
    (hstart : startBit < words size * 64) :
    v.disjointAndShiftThis o startBit = 0 ↔ ∀ j < words other * 64,
      startBit + j < words size * 64 → ¬(v.bit (startBit + j) = true ∧ o.bit j = true) := by
  rw [disjointAndShiftThis, disjointLoop_eq_zero_iff fun x y => getMinimumNumberOfShifts_pos y x]
  exact disjoint_words v o startBit hstart

theorem disjointAndShiftOther_eq_zero_iff (v : BitVector size) (o : BitVector other) {startBit : Nat}
    (hstart : startBit < words size * 64) :
    v.disjointAndShiftOther o startBit = 0 ↔ ∀ j < words other * 64,
      startBit + j < words size * 64 → ¬(v.bit (startBit + j) = true ∧ o.bit j = true) := by
  rw [disjointAndShiftOther, disjointLoop_eq_zero_iff getMinimumNumberOfShifts_pos]
  exact disjoint_words v o startBit hstart

end BitVector

end Keyvi.Fsa
