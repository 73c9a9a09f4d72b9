import Mathlib

/-!
# Variable length numbers

A number is cut into digits of base `b`, lowest digit first. Every digit but the last is stored
as `digit + b`, so a stored cell below `b` ends the number. Both the byte form (`b = 128`) and the
16-bit form (`b = 32768`) of a program are instances.

Cells are read from a stream `Nat → Nat`, since a reader knows where a number starts but not where
it ends.
-/

namespace Varlen

/-- The cells of `v`. -/
def encode (b v : Nat) : List Nat :=
  if 1 < b ∧ b ≤ v then (v % b + b) :: encode b (v / b) else [v]
termination_by v
decreasing_by exact Nat.div_lt_self (by omega) (by omega)

/-- Read at most `fuel` cells from `pos`. -/
def decode (b : Nat) (s : Nat → Nat) : Nat → Nat → Nat
  | 0, _ => 0
  | fuel + 1, pos => if s pos < b then s pos else (s pos - b) + b * decode b s fuel (pos + 1)

/-- The stream holds the cells `l` from `pos` on. -/
def Holds (s : Nat → Nat) : Nat → List Nat → Prop
  | _, [] => True
  | pos, x :: xs => s pos = x ∧ Holds s (pos + 1) xs

theorem holds_iff {s : Nat → Nat} : ∀ {l : List Nat} {pos : Nat},
    Holds s pos l ↔ ∀ i (h : i < l.length), s (pos + i) = l[i]
  | [], _ => by simp [Holds]
  | x :: xs, pos => by
    rw [Holds, holds_iff]
    constructor
    · rintro ⟨h0, h⟩ i hi
      cases i with
      | zero => simpa using h0
      | succ j =>
        have := h j (by simpa using hi)
        simpa [Nat.add_assoc, Nat.add_comm 1] using this
    · intro h
      refine ⟨h 0 (by simp), fun i hi => ?_⟩
      have := h (i + 1) (by simpa using hi)
      simpa [Nat.add_assoc, Nat.add_comm 1] using this

theorem encode_of_lt {b v : Nat} (h : v < b) : encode b v = [v] := by
  rw [encode, if_neg (by omega)]

theorem encode_of_le {b v : Nat} (hb : 1 < b) (h : b ≤ v) :
    encode b v = (v % b + b) :: encode b (v / b) := by
  rw [encode, if_pos ⟨hb, h⟩]

theorem length_encode_pos (b v : Nat) : 0 < (encode b v).length := by
  rw [encode]
  split <;> simp

/-- **Round trip.** -/
theorem decode_encode {b : Nat} (hb : 1 < b) (s : Nat → Nat) :
    ∀ (v fuel pos : Nat), Holds s pos (encode b v) → (encode b v).length ≤ fuel →
      decode b s fuel pos = v := by
  intro v
  induction v using Nat.strongRecOn with
  | _ v ih =>
    intro fuel pos hs hf
    cases fuel with
    | zero => have := length_encode_pos b v; omega
    | succ fuel =>
      rw [decode]
      by_cases hv : b ≤ v
      · rw [encode_of_le hb hv] at hs hf
        obtain ⟨h0, hs⟩ := hs
        simp only [List.length_cons] at hf
        rw [if_neg (by omega), ih (v / b) (Nat.div_lt_self (by omega) hb) fuel (pos + 1) hs (by omega),
          h0, Nat.add_sub_cancel]
        exact Nat.mod_add_div v b
      · rw [encode_of_lt (by omega)] at hs
        rw [if_pos (by rw [hs.1]; omega), hs.1]

theorem length_encode_le {b : Nat} (hb : 1 < b) : ∀ (n v : Nat), v < b ^ (n + 1) →
    (encode b v).length ≤ n + 1
  | 0, v, h => by rw [encode_of_lt (by simpa using h)]; simp
  | n + 1, v, h => by
    by_cases hv : b ≤ v
    · rw [encode_of_le hb hv, List.length_cons]
      have hdiv : v / b < b ^ (n + 1) := by
        rw [Nat.div_lt_iff_lt_mul (by omega), ← Nat.pow_succ]
        exact h
      have := length_encode_le hb n (v / b) hdiv
      omega
    · rw [encode_of_lt (by omega)]
      simp

/-- The number of cells is one more than the logarithm. -/
theorem length_encode {b : Nat} (hb : 1 < b) : ∀ v, (encode b v).length = Nat.log b v + 1 := by
  intro v
  induction v using Nat.strongRecOn with
  | _ v ih =>
    by_cases hv : b ≤ v
    · rw [encode_of_le hb hv, List.length_cons, ih (v / b) (Nat.div_lt_self (by omega) hb),
        Nat.log_of_one_lt_of_le hb hv]
    · rw [encode_of_lt (by omega), Nat.log_of_lt (by omega)]
      rfl

/-- Every cell is below `2 * b`. -/
theorem lt_of_mem_encode {b : Nat} (hb : 1 < b) : ∀ (v x : Nat), x ∈ encode b v → x < 2 * b := by
  intro v
  induction v using Nat.strongRecOn with
  | _ v ih =>
    intro x hx
    by_cases hv : b ≤ v
    · rw [encode_of_le hb hv, List.mem_cons] at hx
      rcases hx with rfl | hx
      · have := Nat.mod_lt v (show 0 < b by omega)
        omega
      · exact ih (v / b) (Nat.div_lt_self (by omega) hb) x hx
    · rw [encode_of_lt (by omega), List.mem_singleton] at hx
      omega

end Varlen
