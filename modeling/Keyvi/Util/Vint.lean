import Mathlib
import Keyvi.Util.Key
import Keyvi.Library.Varlen

/-!
# Variable length integers

The byte form of `vint.h`: seven bits in each byte, the lowest first, and the highest bit for a byte that
is not the last one.
-/

namespace Keyvi

/-- `encodeVarInt`. -/
def encodeVarInt (value : Nat) : List Byte :=
  if 127 < value then Fin.ofNat 256 (value % 128 + 128) :: encodeVarInt (value / 128)
  else [Fin.ofNat 256 value]
termination_by value
decreasing_by omega

theorem encodeVarInt_of_lt {value : Nat} (h : 127 < value) :
    encodeVarInt value = Fin.ofNat 256 (value % 128 + 128) :: encodeVarInt (value / 128) := by
  rw [encodeVarInt, if_pos h]

theorem encodeVarInt_of_le {value : Nat} (h : value ≤ 127) :
    encodeVarInt value = [Fin.ofNat 256 value] := by
  rw [encodeVarInt, if_neg (not_lt.mpr h)]

theorem ofNat_eq_iff {a b : Nat} (ha : a < 256) (hb : b < 256) :
    Fin.ofNat 256 a = Fin.ofNat 256 b ↔ a = b := by
  rw [Fin.ext_iff, Fin.val_ofNat, Fin.val_ofNat, Nat.mod_eq_of_lt ha, Nat.mod_eq_of_lt hb]

/-- **The bytes of a number tell where they end.** -/
theorem encodeVarInt_append_inj {a b : Nat} {x y : List Byte}
    (h : encodeVarInt a ++ x = encodeVarInt b ++ y) : a = b ∧ x = y := by
  induction a using Nat.strongRecOn generalizing b with
  | _ a ih =>
    by_cases ha : 127 < a
    · rw [encodeVarInt_of_lt ha] at h
      by_cases hb : 127 < b
      · rw [encodeVarInt_of_lt hb] at h
        obtain ⟨hhead, htail⟩ := List.cons.inj h
        obtain ⟨hdiv, hxy⟩ := ih (a / 128) (by omega) htail
        rw [ofNat_eq_iff (by omega) (by omega)] at hhead
        exact ⟨by omega, hxy⟩
      · rw [encodeVarInt_of_le (not_lt.mp hb)] at h
        have hhead := (List.cons.inj h).1
        rw [ofNat_eq_iff (by omega) (by omega)] at hhead
        omega
    · rw [encodeVarInt_of_le (not_lt.mp ha)] at h
      by_cases hb : 127 < b
      · rw [encodeVarInt_of_lt hb] at h
        have hhead := (List.cons.inj h).1
        rw [ofNat_eq_iff (by omega) (by omega)] at hhead
        omega
      · rw [encodeVarInt_of_le (not_lt.mp hb)] at h
        obtain ⟨hhead, htail⟩ := List.cons.inj h
        rw [ofNat_eq_iff (by omega) (by omega)] at hhead
        exact ⟨hhead, htail⟩

theorem zero_not_mem_encodeVarInt {value : Nat} (h : 0 < value) : 0 ∉ encodeVarInt value := by
  induction value using Nat.strongRecOn with
  | _ value ih =>
    by_cases hv : 127 < value
    · rw [encodeVarInt_of_lt hv, List.mem_cons, not_or]
      refine ⟨fun h0 => ?_, ih (value / 128) (by omega) (by omega)⟩
      have := (ofNat_eq_iff (a := 0) (by omega) (by omega)).mp h0
      omega
    · rw [encodeVarInt_of_le (not_lt.mp hv), List.mem_singleton]
      intro h0
      have := (ofNat_eq_iff (a := 0) (by omega) (by omega)).mp h0
      omega

theorem encodeVarInt_ne_nil (value : Nat) : encodeVarInt value ≠ [] := by
  rw [encodeVarInt]
  split <;> exact List.cons_ne_nil _ _

/-! ## Decoding -/

theorem encodeVarInt_eq_map (value : Nat) :
    encodeVarInt value = (Varlen.encode 128 value).map (Fin.ofNat 256) := by
  induction value using Nat.strongRecOn with
  | _ value ih =>
    by_cases hv : 127 < value
    · rw [encodeVarInt_of_lt hv, Varlen.encode_of_le (by decide) (by omega), List.map_cons,
        ih (value / 128) (by omega)]
    · rw [encodeVarInt_of_le (not_lt.mp hv), Varlen.encode_of_lt (by omega)]
      rfl

theorem encode_lt (value : Nat) : ∀ x ∈ Varlen.encode 128 value, x < 256 := by
  induction value using Nat.strongRecOn with
  | _ value ih =>
    intro x hx
    by_cases hv : 127 < value
    · rw [Varlen.encode_of_le (by decide) (by omega)] at hx
      rcases List.mem_cons.mp hx with rfl | hx
      · omega
      · exact ih (value / 128) (by omega) x hx
    · rw [Varlen.encode_of_lt (by omega), List.mem_singleton] at hx
      omega

/-- `decodeVarInt`, of at most `n` bytes. -/
def decodeVarInt (n : Nat) (input : Nat → Byte) : Nat := Varlen.decode 128 (fun i => (input i).val) n 0

theorem decodeVarInt_eq {value n : Nat} {input : Nat → Byte} (hn : (encodeVarInt value).length ≤ n)
    (h : ∀ i (hi : i < (encodeVarInt value).length), input i = (encodeVarInt value)[i]) :
    decodeVarInt n input = value := by
  have hmap := encodeVarInt_eq_map value
  have hlen : (encodeVarInt value).length = (Varlen.encode 128 value).length := by
    rw [hmap, List.length_map]
  refine Varlen.decode_encode (by decide) _ value n 0 (Varlen.holds_iff.mpr fun i hi => ?_)
    (hlen ▸ hn)
  rw [Nat.zero_add, h i (hlen ▸ hi)]
  simp only [hmap, List.getElem_map, Fin.val_ofNat]
  exact Nat.mod_eq_of_lt (encode_lt value _ (List.getElem_mem hi))

/-- The loop of `decodeVarIntString` over the bytes of the length; none at the end of the buffer. -/
def decodeLength : List Byte → Option (Nat × List Byte)
  | [] => none
  | c :: input =>
    if c.val < 128 then some (c.val, input)
    else (decodeLength input).map fun p => (c.val - 128 + 128 * p.1, p.2)

theorem decodeLength_encodeVarInt (value : Nat) (rest : List Byte) :
    decodeLength (encodeVarInt value ++ rest) = some (value, rest) := by
  induction value using Nat.strongRecOn with
  | _ value ih =>
    by_cases hv : 127 < value
    · rw [encodeVarInt_of_lt hv, List.cons_append, decodeLength, ih (value / 128) (by omega),
        Fin.val_ofNat, Nat.mod_eq_of_lt (by omega), if_neg (by omega), Option.map_some]
      congr 2
      omega
    · rw [encodeVarInt_of_le (not_lt.mp hv), List.cons_append, decodeLength, Fin.val_ofNat,
        Nat.mod_eq_of_lt (by omega), if_pos (by omega)]
      rfl

/-! ## The length -/

/-- `getVarIntLength` for 64 bits. -/
def getVarIntLength (value : Nat) : Nat := ((value ||| 1).log2 * 9 + 73) / 64

theorem log2_or_one {y : Nat} (hy : 0 < y) : (y ||| 1).log2 = y.log2 := by
  have hhalf : (y ||| 1) / 2 = y / 2 := by
    rw [← Nat.shiftRight_one, ← Nat.shiftRight_one, Nat.shiftRight_or_distrib]
    exact Nat.or_zero _
  have hle : y ≤ y ||| 1 := Nat.left_le_or
  by_cases h2 : 2 ≤ y
  · rw [Nat.log2_def, if_pos (h2.trans hle), hhalf, ← Nat.log2_def y |>.trans (if_pos h2)]
  · obtain rfl : y = 1 := by omega
    rfl

theorem log2_div_128 {y : Nat} (hy : 127 < y) : y.log2 = (y / 128).log2 + 7 := by
  have hstep : ∀ n, 2 ≤ n → n.log2 = (n / 2).log2 + 1 := fun n hn => by
    rw [Nat.log2_def, if_pos hn]
  rw [hstep y (by omega), hstep (y / 2) (by omega), hstep (y / 2 / 2) (by omega),
    hstep (y / 2 / 2 / 2) (by omega), hstep (y / 2 / 2 / 2 / 2) (by omega),
    hstep (y / 2 / 2 / 2 / 2 / 2) (by omega), hstep (y / 2 / 2 / 2 / 2 / 2 / 2) (by omega)]
  simp only [Nat.div_div_eq_div_mul]

theorem length_encodeVarInt {value : Nat} :
    (encodeVarInt value).length = (value ||| 1).log2 / 7 + 1 := by
  induction value using Nat.strongRecOn with
  | _ value ih =>
    by_cases hv : 127 < value
    · rw [encodeVarInt_of_lt hv, List.length_cons, ih (value / 128) (by omega),
        log2_or_one (by omega), log2_or_one (by omega), log2_div_128 hv]
      omega
    · rw [encodeVarInt_of_le (not_lt.mp hv), List.length_singleton]
      rcases Nat.eq_zero_or_pos value with rfl | hpos
      · rfl
      · rw [log2_or_one hpos]
        have : value.log2 < 7 := (Nat.log2_lt (by omega)).mpr (by omega)
        omega

/-- **The length of the encoding**, without writing it. -/
theorem getVarIntLength_eq {value : Nat} (h : value < 2 ^ 64) :
    getVarIntLength value = (encodeVarInt value).length := by
  have hlog : (value ||| 1).log2 < 64 := by
    rcases Nat.eq_zero_or_pos value with rfl | hpos
    · decide
    · rw [log2_or_one hpos]
      exact (Nat.log2_lt (by omega)).mpr h
  have hall : ∀ l < 64, (l * 9 + 73) / 64 = l / 7 + 1 := by decide
  rw [length_encodeVarInt]
  exact hall _ hlog

end Keyvi
