import Mathlib
import Keyvi.Util.Vint
import Keyvi.Library.Varlen

/-!
# The functions of `vint.h`

Every function with its own loop: units of 7 bits in bytes, of 15 bits in `uint16_t`. Values are
`uint64_t`. A read behind the buffer, and a shift of a `uint64_t` by 64 or more, give `none`.

`decodeVarIntString` shifts an `int` of 32 bits. What C++ leaves undefined there is a parameter.
-/

namespace Keyvi.Vint

/-! ## Writing -/

/-- The loop of the encoders. `write` puts a unit at a position of the output. -/
def encodeLoop {σ : Type} (bits : Nat) (write : σ → Nat → Nat → σ) (value : Nat) (output : σ)
    (outputSize : Nat) : σ × Nat :=
  if 0 < bits ∧ 2 ^ bits - 1 < value then
    encodeLoop bits write (value >>> bits)
      (write output outputSize ((value &&& (2 ^ bits - 1)) ||| 2 ^ bits)) (outputSize + 1)
  else (write output outputSize (value &&& (2 ^ bits - 1)), outputSize + 1)
termination_by value
decreasing_by
  rw [Nat.shiftRight_eq_div_pow]
  exact Nat.div_lt_self (by omega) (Nat.one_lt_two_pow (by omega))

/-- `uint16_t`. -/
def toShort (v : Nat) : Fin 65536 := ⟨v % 65536, Nat.mod_lt _ (by decide)⟩

/-- `encodeVarInt(value, uint8_t* output, output_size_ptr)`. -/
def encodeVarInt (value : Nat) (output : Nat → Byte) : (Nat → Byte) × Nat :=
  encodeLoop 7 (fun output i unit => Function.update output i (Fin.ofNat 256 unit)) value output 0

/-- `encodeVarShort`. -/
def encodeVarShort (value : Nat) (output : Nat → Fin 65536) : (Nat → Fin 65536) × Nat :=
  encodeLoop 15 (fun output i unit => Function.update output i (toShort unit)) value output 0

/-- `encodeVarInt(value, buffer_t* output, written_bytes)`. -/
def encodeVarIntTo (value : Nat) (output : List Byte) : List Byte × Nat :=
  encodeLoop 7 (fun output _ unit => output ++ [Fin.ofNat 256 unit]) value output 0

/-- `encodeVarInt(value, buffer_t* output)`. -/
def encodeVarIntInto (value : Nat) (output : List Byte) : List Byte :=
  (encodeLoop 7 (fun output _ unit => output ++ [Fin.ofNat 256 unit]) value output 0).1

/-- The units of a number, written by `write` from a position on. -/
def writeUnits {σ : Type} (write : σ → Nat → Nat → σ) : List Nat → σ → Nat → σ
  | [], output, _ => output
  | unit :: units, output, i => writeUnits write units (write output i unit) (i + 1)

theorem low_bits (bits value : Nat) : value &&& (2 ^ bits - 1) = value % 2 ^ bits :=
  Nat.and_two_pow_sub_one_eq_mod value bits

theorem flagged (bits value : Nat) :
    (value &&& (2 ^ bits - 1)) ||| 2 ^ bits = value % 2 ^ bits + 2 ^ bits := by
  have hlt : value % 2 ^ bits < 2 ^ bits := Nat.mod_lt _ (Nat.two_pow_pos bits)
  have h := Nat.two_pow_add_eq_or_of_lt hlt 1
  rw [Nat.mul_one] at h
  rw [low_bits, Nat.or_comm, ← h, Nat.add_comm]

theorem encodeLoop_eq {σ : Type} {bits : Nat} (hbits : 0 < bits) (write : σ → Nat → Nat → σ)
    (value : Nat) (output : σ) (outputSize : Nat) :
    encodeLoop bits write value output outputSize =
      (writeUnits write (Varlen.encode (2 ^ bits) value) output outputSize,
        outputSize + (Varlen.encode (2 ^ bits) value).length) := by
  have hpos := Nat.two_pow_pos bits
  have hone : 1 < 2 ^ bits := Nat.one_lt_two_pow (by omega)
  induction value using Nat.strongRecOn generalizing output outputSize with
  | _ value ih =>
    rw [encodeLoop]
    by_cases hv : 2 ^ bits - 1 < value
    · have hle : 2 ^ bits ≤ value := Nat.le_of_pred_lt hv
      rw [if_pos ⟨hbits, hv⟩, Nat.shiftRight_eq_div_pow, flagged,
        ih _ (Nat.div_lt_self (hpos.trans_le hle) hone), Varlen.encode_of_le hone hle, writeUnits,
        List.length_cons, Nat.add_assoc, Nat.add_comm 1]
    · have hlt : value < 2 ^ bits := (not_lt.mp hv).trans_lt (Nat.sub_lt hpos Nat.one_pos)
      rw [if_neg (fun h => hv h.2), low_bits, Nat.mod_eq_of_lt hlt, Varlen.encode_of_lt hlt]
      rfl

theorem writeUnits_append (units : List Nat) (output : List Byte) (i : Nat) :
    writeUnits (fun output _ unit => output ++ [Fin.ofNat 256 unit]) units output i =
      output ++ units.map (Fin.ofNat 256) := by
  induction units generalizing output i with
  | nil => simp [writeUnits]
  | cons unit units ih => rw [writeUnits, ih, List.map_cons, List.append_assoc]; rfl

theorem writeUnits_update_of_lt {α : Type} (cast : Nat → α) (units : List Nat) (output : Nat → α)
    {i j : Nat} (h : j < i) :
    writeUnits (fun output i unit => Function.update output i (cast unit)) units output i j =
      output j := by
  induction units generalizing output i with
  | nil => rfl
  | cons unit units ih =>
    rw [writeUnits, ih _ (by omega), Function.update_of_ne (by omega)]

/-- The units stand one behind the other; the rest of the output is as before. -/
theorem writeUnits_update {α : Type} (cast : Nat → α) (units : List Nat) (output : Nat → α)
    (i j : Nat) :
    writeUnits (fun output i unit => Function.update output i (cast unit)) units output i (i + j) =
      (units.map cast).getD j (output (i + j)) := by
  induction units generalizing output i j with
  | nil => rfl
  | cons unit units ih =>
    cases j with
    | zero =>
      rw [writeUnits, writeUnits_update_of_lt cast units _ (by omega)]
      simp
    | succ j =>
      rw [writeUnits, show i + (j + 1) = i + 1 + j by omega, ih, Function.update_of_ne (by omega)]
      simp

/-! ## The units -/

theorem encodeVarInt_eq (value : Nat) (output : Nat → Byte) :
    (encodeVarInt value output).2 = (Keyvi.encodeVarInt value).length ∧
      ∀ j, (encodeVarInt value output).1 j = (Keyvi.encodeVarInt value).getD j (output j) := by
  rw [encodeVarInt, encodeLoop_eq (by decide), encodeVarInt_eq_map]
  refine ⟨by simp, fun j => ?_⟩
  have h := writeUnits_update (Fin.ofNat 256) (Varlen.encode (2 ^ 7) value) output 0 j
  rwa [Nat.zero_add] at h

theorem encodeVarIntTo_eq (value : Nat) (output : List Byte) :
    encodeVarIntTo value output =
      (output ++ Keyvi.encodeVarInt value, (Keyvi.encodeVarInt value).length) := by
  rw [encodeVarIntTo, encodeLoop_eq (by decide), encodeVarInt_eq_map, writeUnits_append]
  simp

theorem encodeVarIntInto_eq (value : Nat) (output : List Byte) :
    encodeVarIntInto value output = output ++ Keyvi.encodeVarInt value :=
  congrArg Prod.fst (encodeVarIntTo_eq value output)

/-- The units of `encodeVarShort`. -/
def shorts (value : Nat) : List (Fin 65536) := (Varlen.encode (2 ^ 15) value).map toShort

theorem encodeVarShort_eq (value : Nat) (output : Nat → Fin 65536) :
    (encodeVarShort value output).2 = (shorts value).length ∧
      ∀ j, (encodeVarShort value output).1 j = (shorts value).getD j (output j) := by
  rw [encodeVarShort, encodeLoop_eq (by decide), shorts]
  refine ⟨by simp, fun j => ?_⟩
  have h := writeUnits_update toShort (Varlen.encode (2 ^ 15) value) output 0 j
  rwa [Nat.zero_add] at h

/-! ## The lengths -/

/-- `getVarIntLength`, the loop of the template. -/
def getVarIntLengthLoop (value length : Nat) : Nat :=
  if 127 < value then getVarIntLengthLoop (value >>> 7) (length + 1) else length
termination_by value
decreasing_by rw [Nat.shiftRight_eq_div_pow]; omega

/-- `getVarShortLength`. -/
def getVarShortLength (value : Nat) : Nat := 1 + (value ||| 1).log2 / 15

theorem getVarIntLengthLoop_eq (value length : Nat) :
    getVarIntLengthLoop value (length + 1) = length + (Keyvi.encodeVarInt value).length := by
  induction value using Nat.strongRecOn generalizing length with
  | _ value ih =>
    rw [getVarIntLengthLoop]
    by_cases hv : 127 < value
    · rw [if_pos hv, Nat.shiftRight_eq_div_pow, ih (value / 2 ^ 7) (by omega),
        encodeVarInt_of_lt hv, List.length_cons, Nat.add_assoc, Nat.add_comm 1]
    · rw [if_neg hv, encodeVarInt_of_le (not_lt.mp hv)]
      rfl

theorem getVarShortLength_eq (value : Nat) : getVarShortLength value = (shorts value).length := by
  have hlog : Nat.log 2 value = (value ||| 1).log2 := by
    rcases Nat.eq_zero_or_pos value with rfl | hpos
    · rfl
    · rw [log2_or_one hpos, Nat.log2_eq_log_two]
  rw [getVarShortLength, shorts, List.length_map, Varlen.length_encode (by decide),
    Nat.log_pow_left, hlog, Nat.add_comm]

/-! ## Reading -/

/-- The loop of the decoders. `shift x n` is `x << n` as a `uint64_t`; the rest of the input is
where `input + i + 1` points. -/
def readLoop {α : Type} (bits : Nat) (val : α → Nat) (shift : Nat → Nat → Option Nat) :
    List α → Nat → Nat → Option (Nat × List α)
  | [], _, _ => none
  | unit :: input, i, ret =>
    (shift (val unit &&& (2 ^ bits - 1)) (bits * i)).bind fun digit =>
      if val unit &&& 2 ^ bits = 0 then some (ret ||| digit, input)
      else readLoop bits val shift input (i + 1) (ret ||| digit)

/-- `(uint64_t)x << n`. -/
def shiftWord (x n : Nat) : Option Nat := if n < 64 then some (x <<< n % 2 ^ 64) else none

/-- `decodeVarInt`. -/
def decodeVarInt (input : List Byte) : Option Nat :=
  (readLoop 7 Fin.val shiftWord input 0 0).map Prod.fst

/-- `decodeVarShort`. -/
def decodeVarShort (input : List (Fin 65536)) : Option Nat :=
  (readLoop 15 Fin.val shiftWord input 0 0).map Prod.fst

/-- `skipVarInt`. -/
def skipVarInt : List Byte → Option Nat
  | [] => none
  | c :: input => if c.val &&& 128 = 0 then some 1 else (skipVarInt input).map (· + 1)

/-- `x << n` of an `int` that is not negative; `undefined` where the standard gives no value: the
shift is by 32 or more, or the result does not fit into 32 bits. -/
def shiftInt (undefined : Nat → Nat → BitVec 32) (x n : Nat) : BitVec 32 :=
  if n < 32 ∧ x <<< n < 2 ^ 32 then BitVec.ofNat 32 (x <<< n) else undefined x n

/-- The `int` of `shiftInt`, converted with its sign. -/
def shiftLength (undefined : Nat → Nat → BitVec 32) (x n : Nat) : Option Nat :=
  some ((shiftInt undefined x n).signExtend 64).toNat

/-- `decodeVarIntString(input, length_ptr)`: the length and where the pointer goes. -/
def decodeVarIntStringPtr (undefined : Nat → Nat → BitVec 32) (input : List Byte) :
    Option (Nat × List Byte) :=
  readLoop 7 Fin.val (shiftLength undefined) input 0 0

/-- `decodeVarIntString(input)`: the bytes of the string. -/
def decodeVarIntString (undefined : Nat → Nat → BitVec 32) (input : List Byte) :
    Option (List Byte) :=
  (readLoop 7 Fin.val (shiftLength undefined) input 0 0).bind fun (length, input) =>
    if length ≤ input.length then some (input.take length) else none

section Units

variable {α : Type} {bits : Nat} {val : α → Nat} {value : Nat} {units : List α}

/-- The last unit of a number has no flag. -/
theorem units_last (h : units.map val = Varlen.encode (2 ^ bits) value) (hv : value < 2 ^ bits) :
    ∃ u, units = [u] ∧ val u &&& (2 ^ bits - 1) = value ∧ val u &&& 2 ^ bits = 0 := by
  rw [Varlen.encode_of_lt hv, List.map_eq_singleton_iff] at h
  obtain ⟨u, rfl, rfl⟩ := h
  refine ⟨u, rfl, ?_, ?_⟩
  · rw [low_bits, Nat.mod_eq_of_lt hv]
  · rw [Nat.and_two_pow, Nat.testBit_lt_two_pow hv]
    exact Nat.zero_mul _

/-- Every other unit has the flag, and the rest of the units are those of the rest of the number. -/
theorem units_cons (hbits : 0 < bits) (h : units.map val = Varlen.encode (2 ^ bits) value)
    (hv : 2 ^ bits ≤ value) :
    ∃ u us, units = u :: us ∧ val u &&& (2 ^ bits - 1) = value % 2 ^ bits ∧
      val u &&& 2 ^ bits ≠ 0 ∧ us.map val = Varlen.encode (2 ^ bits) (value / 2 ^ bits) := by
  have hmod : value % 2 ^ bits < 2 ^ bits := Nat.mod_lt _ (Nat.two_pow_pos bits)
  rw [Varlen.encode_of_le (Nat.one_lt_two_pow (by omega)) hv, List.map_eq_cons_iff] at h
  obtain ⟨u, us, rfl, hu, hus⟩ := h
  refine ⟨u, us, rfl, ?_, ?_, hus⟩
  · rw [hu, low_bits, Nat.add_mod_right, Nat.mod_eq_of_lt hmod]
  · have hbit : (val u).testBit bits = true := by
      rw [hu, Nat.add_comm, Nat.testBit_two_pow_add_eq, Nat.testBit_lt_two_pow hmod, Bool.not_false]
    rw [Nat.and_two_pow, hbit]
    simp

variable {shift : Nat → Nat → Option Nat} {digit i ret : Nat}

theorem readLoop_last (h : units.map val = Varlen.encode (2 ^ bits) value) (hv : value < 2 ^ bits)
    (hshift : shift value (bits * i) = some digit) (rest : List α) :
    readLoop bits val shift (units ++ rest) i ret = some (ret ||| digit, rest) := by
  obtain ⟨u, rfl, hlow, hflag⟩ := units_last h hv
  rw [List.singleton_append, readLoop, hlow, hshift, Option.bind_some, if_pos hflag]

theorem readLoop_cons (hbits : 0 < bits) (h : units.map val = Varlen.encode (2 ^ bits) value)
    (hv : 2 ^ bits ≤ value) (hshift : shift (value % 2 ^ bits) (bits * i) = some digit)
    (ret : Nat) (rest : List α) :
    ∃ us, us.map val = Varlen.encode (2 ^ bits) (value / 2 ^ bits) ∧
      readLoop bits val shift (units ++ rest) i ret =
        readLoop bits val shift (us ++ rest) (i + 1) (ret ||| digit) := by
  obtain ⟨u, us, rfl, hlow, hflag, hus⟩ := units_cons hbits h hv
  refine ⟨us, hus, ?_⟩
  rw [List.cons_append, readLoop, hlow, hshift, Option.bind_some, if_neg hflag]

/-- A digit above all that was read so far. -/
theorem or_digit {ret n : Nat} (h : ret < 2 ^ n) (low : Nat) :
    ret ||| low * 2 ^ n = ret + low * 2 ^ n := by
  rw [Nat.or_comm, ← Nat.shiftLeft_eq, ← Nat.shiftLeft_add_eq_or_of_lt h, Nat.add_comm]

theorem digit_lt {bits n ret low : Nat} (hret : ret < 2 ^ n) (hlow : low < 2 ^ bits) :
    ret + low * 2 ^ n < 2 ^ bits * 2 ^ n :=
  calc ret + low * 2 ^ n < 2 ^ n + low * 2 ^ n := by omega
    _ = (low + 1) * 2 ^ n := by rw [Nat.add_mul, Nat.one_mul, Nat.add_comm]
    _ ≤ 2 ^ bits * 2 ^ n := Nat.mul_le_mul_right _ hlow

/-- **The decoders' loop reads a number back** when no digit is lost in a shift below `2 ^ limit`. -/
theorem readLoop_units {limit : Nat} (hbits : 0 < bits)
    (hshift : ∀ x n, n < limit → x * 2 ^ n < 2 ^ limit → shift x n = some (x * 2 ^ n))
    (rest : List α) (h : units.map val = Varlen.encode (2 ^ bits) value) (hi : bits * i < limit)
    (hret : ret < 2 ^ (bits * i)) (hvalue : value * 2 ^ (bits * i) < 2 ^ limit) :
    readLoop bits val shift (units ++ rest) i ret =
      some (ret + value * 2 ^ (bits * i), rest) := by
  have hpos := Nat.two_pow_pos bits
  have hone : 1 < 2 ^ bits := Nat.one_lt_two_pow (by omega)
  induction value using Nat.strongRecOn generalizing units i ret with
  | _ value ih =>
    by_cases hv : value < 2 ^ bits
    · rw [readLoop_last h hv (hshift _ _ hi hvalue), or_digit hret]
    · have hle : 2 ^ bits ≤ value := not_lt.mp hv
      have hmod : value % 2 ^ bits < 2 ^ bits := Nat.mod_lt _ hpos
      have hnext : 2 ^ (bits * (i + 1)) = 2 ^ bits * 2 ^ (bits * i) := by
        rw [Nat.mul_succ, Nat.pow_add, Nat.mul_comm]
      have hsplit : value % 2 ^ bits * 2 ^ (bits * i) + value / 2 ^ bits * 2 ^ (bits * (i + 1)) =
          value * 2 ^ (bits * i) := by
        rw [hnext, ← Nat.mul_assoc, ← Nat.add_mul, Nat.mul_comm (value / 2 ^ bits),
          Nat.mod_add_div]
      have hbound : 2 ^ (bits * (i + 1)) ≤ value / 2 ^ bits * 2 ^ (bits * (i + 1)) :=
        Nat.le_mul_of_pos_left _ (Nat.div_pos hle hpos)
      have hlt : bits * (i + 1) < limit :=
        (Nat.pow_lt_pow_iff_right Nat.one_lt_two).mp (by omega)
      obtain ⟨us, hus, heq⟩ := readLoop_cons hbits h hle
        (hshift (value % 2 ^ bits) _ hi (by omega)) ret rest
      rw [heq, or_digit hret, ih _ (Nat.div_lt_self (hpos.trans_le hle) hone) hus hlt
        (hnext ▸ digit_lt hret hmod) (by omega), Nat.add_assoc, hsplit]

end Units

theorem shiftWord_of_lt {x n : Nat} (hn : n < 64) (h : x * 2 ^ n < 2 ^ 64) :
    shiftWord x n = some (x * 2 ^ n) := by
  rw [shiftWord, if_pos hn, Nat.shiftLeft_eq, Nat.mod_eq_of_lt h]

/-- The units of a number as numbers. -/
theorem map_val_encodeVarInt (value : Nat) :
    (Keyvi.encodeVarInt value).map Fin.val = Varlen.encode (2 ^ 7) value := by
  rw [encodeVarInt_eq_map, List.map_map]
  refine List.map_congr_left (g := id) (fun x hx => ?_) |>.trans (List.map_id _)
  exact Nat.mod_eq_of_lt (encode_lt value x hx)

theorem map_val_shorts (value : Nat) : (shorts value).map Fin.val = Varlen.encode (2 ^ 15) value := by
  rw [shorts, List.map_map]
  refine List.map_congr_left (g := id) (fun x hx => ?_) |>.trans (List.map_id _)
  exact Nat.mod_eq_of_lt (Varlen.lt_of_mem_encode (by decide) value x hx)

theorem decodeVarInt_units {value : Nat} (h : value < 2 ^ 64) (rest : List Byte) :
    decodeVarInt (Keyvi.encodeVarInt value ++ rest) = some value := by
  rw [decodeVarInt, readLoop_units (by decide) (fun _ _ => shiftWord_of_lt) rest
    (map_val_encodeVarInt value) (by decide) (by decide) (by simpa using h)]
  simp

theorem decodeVarShort_units {value : Nat} (h : value < 2 ^ 64) (rest : List (Fin 65536)) :
    decodeVarShort (shorts value ++ rest) = some value := by
  rw [decodeVarShort, readLoop_units (by decide) (fun _ _ => shiftWord_of_lt) rest
    (map_val_shorts value) (by decide) (by decide) (by simpa using h)]
  simp

theorem skipVarInt_units (value : Nat) (rest : List Byte) {units : List Byte}
    (h : units.map Fin.val = Varlen.encode (2 ^ 7) value) :
    skipVarInt (units ++ rest) = some units.length := by
  induction value using Nat.strongRecOn generalizing units with
  | _ value ih =>
    by_cases hv : value < 2 ^ 7
    · obtain ⟨u, rfl, -, hflag⟩ := units_last h hv
      rw [List.singleton_append, skipVarInt, if_pos (show u.val &&& 128 = 0 from hflag),
        List.length_singleton]
    · obtain ⟨u, us, rfl, -, hflag, hus⟩ := units_cons (by decide) h (not_lt.mp hv)
      rw [List.cons_append, skipVarInt, if_neg (show ¬u.val &&& 128 = 0 from hflag),
        ih _ (by omega) hus, Option.map_some, List.length_cons]

/-! ## The length of a string -/

/-- A digit below the sign. -/
theorem shiftLength_of_lt (undefined : Nat → Nat → BitVec 32) {x n : Nat} (hn : n < 31)
    (h : x * 2 ^ n < 2 ^ 31) : shiftLength undefined x n = some (x * 2 ^ n) := by
  have hmod : x * 2 ^ n % 2 ^ 32 = x * 2 ^ n := Nat.mod_eq_of_lt (by omega)
  rw [shiftLength, shiftInt, Nat.shiftLeft_eq, if_pos ⟨by omega, by omega⟩,
    BitVec.toNat_signExtend, BitVec.toNat_setWidth, BitVec.toNat_ofNat, hmod,
    Nat.mod_eq_of_lt (by omega), BitVec.msb_eq_decide, BitVec.toNat_ofNat, hmod,
    decide_eq_false (by omega)]
  simp

/-- A digit that reaches the sign: the upper half is filled with ones. -/
theorem shiftLength_of_sign (undefined : Nat → Nat → BitVec 32) {x n : Nat} (hn : n < 32)
    (h : 2 ^ 31 ≤ x * 2 ^ n) (h' : x * 2 ^ n < 2 ^ 32) :
    shiftLength undefined x n = some (x * 2 ^ n + (2 ^ 64 - 2 ^ 32)) := by
  have hmod : x * 2 ^ n % 2 ^ 32 = x * 2 ^ n := Nat.mod_eq_of_lt h'
  rw [shiftLength, shiftInt, Nat.shiftLeft_eq, if_pos ⟨hn, h'⟩, BitVec.toNat_signExtend,
    BitVec.toNat_setWidth, BitVec.toNat_ofNat, hmod, Nat.mod_eq_of_lt (by omega),
    BitVec.msb_eq_decide, BitVec.toNat_ofNat, hmod, decide_eq_true (by omega)]
  rfl

theorem decodeVarIntStringPtr_units (undefined : Nat → Nat → BitVec 32) {value : Nat}
    (h : value < 2 ^ 31) (rest : List Byte) :
    decodeVarIntStringPtr undefined (Keyvi.encodeVarInt value ++ rest) = some (value, rest) := by
  rw [decodeVarIntStringPtr, readLoop_units (by decide) (fun _ _ => shiftLength_of_lt undefined) rest
    (map_val_encodeVarInt value) (by decide) (by decide) (by simpa using h)]
  simp

/-- What is undefined gives 0. -/
def zeroShift : Nat → Nat → BitVec 32 := fun _ _ => 0

theorem shiftLength_lost {x n : Nat} (h : 32 ≤ n ∨ 2 ^ 32 ≤ x * 2 ^ n) :
    shiftLength zeroShift x n = some 0 := by
  rw [shiftLength, shiftInt, Nat.shiftLeft_eq, if_neg (by omega)]
  rfl

/-- From the sixth byte on, every digit can be lost. -/
theorem readLoop_lost (input : List Byte) {i ret : Nat} (hi : 5 ≤ i) {p : Nat × List Byte}
    (h : readLoop 7 Fin.val (shiftLength zeroShift) input i ret = some p) : p.1 = ret := by
  induction input generalizing i ret with
  | nil => cases h
  | cons c input ih =>
    rw [readLoop, shiftLength_lost (.inl (by omega)), Option.bind_some, Nat.or_zero] at h
    split at h
    · cases h
      rfl
    · exact ih (by omega) h

/-- The fifth byte decides: its digit `x` is kept below 8, becomes negative below 16, and is lost
from 16 on. -/
theorem fifth_digit (x : Nat) : ∃ digit, shiftLength zeroShift x (7 * 4) = some digit ∧
    (x < 8 ∧ digit < 2 ^ 31 ∨ x < 16 ∧ 2 ^ 64 - 2 ^ 31 ≤ digit ∨ digit = 0) := by
  by_cases h8 : x < 8
  · exact ⟨_, shiftLength_of_lt zeroShift (by decide) (by omega), .inl ⟨h8, by omega⟩⟩
  · by_cases h16 : x < 16
    · exact ⟨_, shiftLength_of_sign zeroShift (by decide) (by omega) (by omega),
        .inr (.inl ⟨h16, by omega⟩)⟩
    · exact ⟨0, shiftLength_lost (.inr (by omega)), .inr (.inr rfl)⟩

/-- The first four bytes are read without loss. -/
theorem readLoop_prefix (value : Nat) (rest : List Byte) : ∀ k ≤ 4, 2 ^ (7 * k) ≤ value →
    ∃ units, units.map Fin.val = Varlen.encode (2 ^ 7) (value / 2 ^ (7 * k)) ∧
      decodeVarIntStringPtr zeroShift (Keyvi.encodeVarInt value ++ rest) =
        readLoop 7 Fin.val (shiftLength zeroShift) (units ++ rest) k (value % 2 ^ (7 * k))
  | 0, _, _ => ⟨Keyvi.encodeVarInt value, by
      rw [Nat.mul_zero, Nat.pow_zero, Nat.div_one, Nat.mod_one]
      exact ⟨map_val_encodeVarInt value, rfl⟩⟩
  | k + 1, hk, hv => by
    have hnext : 2 ^ (7 * (k + 1)) = 2 ^ (7 * k) * 2 ^ 7 := by rw [Nat.mul_succ, Nat.pow_add]
    have hpos : 0 < 2 ^ (7 * k) := Nat.two_pow_pos _
    have hpow : 2 ^ (7 * k) ≤ 2 ^ (7 * 3) := Nat.pow_le_pow_right (by decide) (by omega)
    obtain ⟨units, hunits, heq⟩ := readLoop_prefix value rest k (by omega) (by omega)
    have hdigit : value / 2 ^ (7 * k) % 2 ^ 7 * 2 ^ (7 * k) ≤ 127 * 2 ^ (7 * 3) :=
      Nat.mul_le_mul (by omega) hpow
    have hle : 2 ^ 7 ≤ value / 2 ^ (7 * k) := by
      rw [Nat.le_div_iff_mul_le hpos, Nat.mul_comm]
      omega
    have hshift := shiftLength_of_lt zeroShift (show 7 * k < 31 by omega)
      (show value / 2 ^ (7 * k) % 2 ^ 7 * 2 ^ (7 * k) < 2 ^ 31 by omega)
    obtain ⟨us, hus, hstep⟩ := readLoop_cons (by decide) hunits hle hshift (value % 2 ^ (7 * k)) rest
    refine ⟨us, ?_, ?_⟩
    · rw [hus, Nat.div_div_eq_div_mul, hnext]
    · rw [heq, hstep, or_digit (Nat.mod_lt _ hpos), hnext, Nat.mod_mul, Nat.mul_comm (2 ^ (7 * k))]

/-- **A length of 2^31 or more is not recovered.** -/
theorem decodeVarIntStringPtr_ne {value : Nat} (h : 2 ^ 31 ≤ value) (h64 : value < 2 ^ 64)
    (rest : List Byte) {p : Nat × List Byte}
    (hp : decodeVarIntStringPtr zeroShift (Keyvi.encodeVarInt value ++ rest) = some p) :
    p.1 ≠ value := by
  obtain ⟨units, hunits, heq⟩ := readLoop_prefix value rest 4 le_rfl (by omega)
  obtain ⟨digit, hdigit, hcases⟩ := fifth_digit (value / 2 ^ (7 * 4) % 2 ^ 7)
  have hp1 : p.1 = value % 2 ^ (7 * 4) ||| digit := by
    rw [heq] at hp
    by_cases hv : value / 2 ^ (7 * 4) < 2 ^ 7
    · rw [readLoop_last hunits hv (by rwa [Nat.mod_eq_of_lt hv] at hdigit)] at hp
      cases hp
      rfl
    · obtain ⟨us, -, hstep⟩ := readLoop_cons (by decide) hunits (not_lt.mp hv) hdigit
        (value % 2 ^ (7 * 4)) rest
      rw [hstep] at hp
      exact readLoop_lost _ le_rfl hp
  have hlow : value % 2 ^ (7 * 4) < 2 ^ 31 := by omega
  rw [hp1]
  rcases hcases with ⟨-, hlt⟩ | ⟨hx, hge⟩ | rfl
  · have := Nat.or_lt_two_pow hlow hlt
    omega
  · have : digit ≤ value % 2 ^ (7 * 4) ||| digit := Nat.right_le_or
    omega
  · rw [Nat.or_zero]
    omega

/-! ## All functions together -/

/-- The functions without a string agree on a value, whatever follows. -/
structure Agree (value : Nat) : Prop where
  /-- the units are at the front of the output, the rest of it is as before -/
  encodeVarInt : ∀ output, (encodeVarInt value output).2 = (Keyvi.encodeVarInt value).length ∧
    ∀ j, (encodeVarInt value output).1 j = (Keyvi.encodeVarInt value).getD j (output j)
  encodeVarIntTo : ∀ output, encodeVarIntTo value output =
    (output ++ Keyvi.encodeVarInt value, (Keyvi.encodeVarInt value).length)
  encodeVarIntInto : ∀ output, encodeVarIntInto value output = output ++ Keyvi.encodeVarInt value
  encodeVarShort : ∀ output, (encodeVarShort value output).2 = (shorts value).length ∧
    ∀ j, (encodeVarShort value output).1 j = (shorts value).getD j (output j)
  decodeVarInt : ∀ rest, decodeVarInt (Keyvi.encodeVarInt value ++ rest) = some value
  decodeVarShort : ∀ rest, decodeVarShort (shorts value ++ rest) = some value
  getVarIntLength : getVarIntLength value = (Keyvi.encodeVarInt value).length
  getVarIntLengthLoop : getVarIntLengthLoop value 1 = (Keyvi.encodeVarInt value).length
  getVarShortLength : getVarShortLength value = (shorts value).length
  skipVarInt : ∀ rest, skipVarInt (Keyvi.encodeVarInt value ++ rest) =
    some (Keyvi.encodeVarInt value).length

theorem agree {value : Nat} (h : value < 2 ^ 64) : Agree value where
  encodeVarInt := encodeVarInt_eq value
  encodeVarIntTo := encodeVarIntTo_eq value
  encodeVarIntInto := encodeVarIntInto_eq value
  encodeVarShort := encodeVarShort_eq value
  decodeVarInt := decodeVarInt_units h
  decodeVarShort := decodeVarShort_units h
  getVarIntLength := getVarIntLength_eq h
  getVarIntLengthLoop := by rw [getVarIntLengthLoop_eq value 0, Nat.zero_add]
  getVarShortLength := getVarShortLength_eq value
  skipVarInt rest := skipVarInt_units value rest (map_val_encodeVarInt value)

/-- Both overloads of `decodeVarIntString` recover a length, whatever the shift leaves undefined. -/
structure Recovered (length : Nat) : Prop where
  pointer : ∀ undefined rest,
    decodeVarIntStringPtr undefined (Keyvi.encodeVarInt length ++ rest) = some (length, rest)
  string : ∀ undefined (s rest : List Byte), s.length = length →
    decodeVarIntString undefined (Keyvi.encodeVarInt length ++ (s ++ rest)) = some s

theorem recovered {length : Nat} (h : length < 2 ^ 31) : Recovered length where
  pointer undefined := decodeVarIntStringPtr_units undefined h
  string undefined s rest hs := by
    have hptr := decodeVarIntStringPtr_units undefined h (s ++ rest)
    rw [decodeVarIntStringPtr] at hptr
    rw [decodeVarIntString, hptr, Option.bind_some, ← hs]
    simp

/-- The string is cut off, or the read goes behind it. -/
theorem decodeVarIntString_ne {length : Nat} (h : 2 ^ 31 ≤ length) (h64 : length < 2 ^ 64)
    {s : List Byte} (hs : s.length = length) :
    decodeVarIntString zeroShift (Keyvi.encodeVarInt length ++ (s ++ [])) ≠ some s := by
  intro heq
  rw [decodeVarIntString, Option.bind_eq_some_iff] at heq
  obtain ⟨⟨decoded, input⟩, hp, heq⟩ := heq
  have hne := decodeVarIntStringPtr_ne h h64 (s ++ []) hp
  obtain ⟨hle, htake⟩ := Option.ite_none_right_eq_some.mp heq
  cases htake
  rw [List.length_take, Nat.min_eq_left hle] at hs
  exact hne hs

/-- **The functions of `vint.h` agree on every `uint64_t`, up to the length of a string.** The
overloads of `decodeVarIntString` recover a length exactly when it is below 2^31, the one that
builds the string also on its own. -/
theorem agree_recovered_iff {value : Nat} (h : value < 2 ^ 64) :
    Agree value ∧ (Recovered value ↔ value < 2 ^ 31) ∧
      ((∀ undefined (s rest : List Byte), s.length = value →
        decodeVarIntString undefined (Keyvi.encodeVarInt value ++ (s ++ rest)) = some s) ↔
          value < 2 ^ 31) := by
  refine ⟨agree h, ⟨fun hr => ?_, recovered⟩, ⟨fun hr => ?_, fun hv => (recovered hv).string⟩⟩
  · by_contra hv
    exact decodeVarIntStringPtr_ne (not_lt.mp hv) h [] (hr.pointer zeroShift []) rfl
  · by_contra hv
    have hlen : (List.replicate value (0 : Byte)).length = value := List.length_replicate
    exact decodeVarIntString_ne (not_lt.mp hv) h hlen (hr zeroShift _ [] hlen)

theorem agree_recovered_2147483647 :
    Agree 2147483647 ∧ Recovered 2147483647 :=
  have h := agree_recovered_iff (show 2147483647 < 2 ^ 64 by decide)
  ⟨h.1, h.2.1.mpr (by decide)⟩

/-- The first length that is lost does not depend on what is undefined. -/
theorem decodeVarIntStringPtr_sign (undefined : Nat → Nat → BitVec 32) (rest : List Byte) :
    decodeVarIntStringPtr undefined (Keyvi.encodeVarInt 2147483648 ++ rest) =
      some (18446744071562067968, rest) := by
  have hunits : Keyvi.encodeVarInt 2147483648 = [128, 128, 128, 128, 8] := by
    rw [encodeVarInt_of_lt (by decide), encodeVarInt_of_lt (by decide),
      encodeVarInt_of_lt (by decide), encodeVarInt_of_lt (by decide), encodeVarInt_of_le (by decide)]
    rfl
  rw [hunits]
  simp [decodeVarIntStringPtr, readLoop, shiftLength, shiftInt]

/-- A length of 2^31 is read as 2^64 - 2^31. -/
theorem not_recovered_2147483648 :
    ¬ Recovered 2147483648 ∧ ∀ undefined, decodeVarIntStringPtr undefined
      (Keyvi.encodeVarInt 2147483648) = some (18446744071562067968, []) := by
  have hread : ∀ undefined, decodeVarIntStringPtr undefined (Keyvi.encodeVarInt 2147483648) =
      some (18446744071562067968, []) := fun undefined => by
    simpa using decodeVarIntStringPtr_sign undefined []
  refine ⟨fun h => ?_, hread⟩
  have hp := h.pointer zeroShift []
  rw [List.append_nil, hread] at hp
  simp at hp

end Keyvi.Vint
