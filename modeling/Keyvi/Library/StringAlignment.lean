import Mathlib

/-!
# Optimal string alignment

The distance of two sequences by insertions, deletions, substitutions and swaps of two neighbours, where no
part is edited twice. `osa a b i j` is the distance of the first `i` symbols of `b` and the first `j`
symbols of `a`: the full matrix, row by row.
-/

namespace StringAlignment

variable {α : Type*} [DecidableEq α]

/-- The cells of the full matrix. -/
def osa (a b : Nat → α) : Nat → Nat → Nat
  | 0, j => j
  | i + 1, 0 => i + 1
  | i + 1, j + 1 =>
    let edit := min (min (osa a b i j + if a j = b i then 0 else 1) (osa a b i (j + 1) + 1))
      (osa a b (i + 1) j + 1)
    if 0 < i ∧ 0 < j ∧ a j = b (i - 1) ∧ a (j - 1) = b i then
      min edit (osa a b (i - 1) (j - 1) + 1)
    else edit
termination_by i j => (i, j)
decreasing_by all_goals simp_wf; omega

variable {a b b' : Nat → α}

@[simp] theorem osa_zero (a b : Nat → α) (j : Nat) : osa a b 0 j = j := by
  rw [osa]

@[simp] theorem osa_zero_right (a b : Nat → α) (i : Nat) : osa a b i 0 = i := by
  cases i <;> rw [osa]

/-- A swap of the last two symbols. -/
def Swaps (a b : Nat → α) (i j : Nat) : Prop :=
  0 < i ∧ 0 < j ∧ a j = b (i - 1) ∧ a (j - 1) = b i

instance (a b : Nat → α) (i j : Nat) : Decidable (Swaps a b i j) :=
  inferInstanceAs (Decidable (0 < i ∧ 0 < j ∧ a j = b (i - 1) ∧ a (j - 1) = b i))

theorem osa_succ (a b : Nat → α) (i j : Nat) : osa a b (i + 1) (j + 1) =
    if Swaps a b i j then
      min (min (min (osa a b i j + if a j = b i then 0 else 1) (osa a b i (j + 1) + 1))
        (osa a b (i + 1) j + 1)) (osa a b (i - 1) (j - 1) + 1)
    else min (min (osa a b i j + if a j = b i then 0 else 1) (osa a b i (j + 1) + 1))
      (osa a b (i + 1) j + 1) := by
  rw [osa]
  rfl

/-- What a cell is at most. -/
theorem osa_succ_le (a b : Nat → α) (i j : Nat) :
    osa a b (i + 1) (j + 1) ≤ osa a b i j + (if a j = b i then 0 else 1) ∧
    osa a b (i + 1) (j + 1) ≤ osa a b i (j + 1) + 1 ∧
    osa a b (i + 1) (j + 1) ≤ osa a b (i + 1) j + 1 := by
  rw [osa_succ]
  split <;> omega

/-- Where the value of a cell comes from. -/
theorem osa_succ_cases (a b : Nat → α) (i j : Nat) :
    osa a b (i + 1) (j + 1) = osa a b i j + (if a j = b i then 0 else 1) ∨
    osa a b (i + 1) (j + 1) = osa a b i (j + 1) + 1 ∨
    osa a b (i + 1) (j + 1) = osa a b (i + 1) j + 1 ∨
    (0 < i ∧ 0 < j ∧ osa a b (i + 1) (j + 1) = osa a b (i - 1) (j - 1) + 1) := by
  rw [osa_succ]
  split
  · next hswap =>
    obtain ⟨hi, hj, -, -⟩ := hswap
    omega
  · omega

/-- A row or a column further costs at most one. -/
theorem osa_succ_left_le (a b : Nat → α) (i : Nat) : ∀ j, osa a b (i + 1) j ≤ osa a b i j + 1
  | 0 => by simp
  | j + 1 => (osa_succ_le a b i j).2.1

theorem osa_succ_right_le (a b : Nat → α) : ∀ i j, osa a b i (j + 1) ≤ osa a b i j + 1
  | 0, j => by simp
  | i + 1, j => (osa_succ_le a b i j).2.2

theorem osa_diagonal_le (a b : Nat → α) (i j : Nat) : osa a b (i + 1) (j + 1) ≤ osa a b i j + 1 := by
  have := (osa_succ_le a b i j).1
  split at this <;> omega

theorem osa_le_of_pred (a b : Nat → α) {i j : Nat} (hi : 0 < i) (hj : 0 < j) :
    osa a b i j ≤ osa a b (i - 1) (j - 1) + 1 := by
  have h := osa_diagonal_le a b (i - 1) (j - 1)
  rwa [Nat.sub_add_cancel hi, Nat.sub_add_cancel hj] at h

/-- **A column less** gains at most one, by induction on the rows. -/
theorem osa_le_succ_right (a b : Nat → α) : ∀ i j, osa a b i j ≤ osa a b i (j + 1) + 1
  | 0, j => by
    rw [osa_zero, osa_zero]
    omega
  | i + 1, j => by
    have hrow := osa_succ_left_le a b i j
    have ih := osa_le_succ_right a b i j
    rcases osa_succ_cases a b i j with h | h | h | ⟨hi, hj, h⟩
    · omega
    · omega
    · omega
    · have := osa_le_of_pred a b hi hj
      omega

/-- **A row less** gains at most one, by induction on the columns. -/
theorem osa_le_succ_left (a b : Nat → α) (i : Nat) : ∀ j, osa a b i j ≤ osa a b (i + 1) j + 1
  | 0 => by
    rw [osa_zero_right, osa_zero_right]
    omega
  | j + 1 => by
    have hcolumn := osa_succ_right_le a b i j
    have ih := osa_le_succ_left a b i j
    rcases osa_succ_cases a b i j with h | h | h | ⟨hi, hj, h⟩
    · omega
    · omega
    · omega
    · have := osa_le_of_pred a b hi hj
      omega

/-- **Equal symbols cost nothing**, and nothing is cheaper. -/
theorem osa_succ_of_eq {i j : Nat} (h : a j = b i) : osa a b (i + 1) (j + 1) = osa a b i j := by
  have hle := (osa_succ_le a b i j).1
  have hright := osa_le_succ_right a b i j
  have hleft := osa_le_succ_left a b i j
  rw [if_pos h] at hle
  rcases osa_succ_cases a b i j with h' | h' | h' | ⟨hi, hj, h'⟩
  · rw [if_pos h] at h'
    omega
  · omega
  · omega
  · have := osa_le_of_pred a b hi hj
    omega

/-- The distance is at least the difference of the lengths. -/
theorem le_osa_add (a b : Nat → α) : ∀ i j, i ≤ osa a b i j + j ∧ j ≤ osa a b i j + i
  | 0, j => by simp
  | i + 1, 0 => by simp
  | i + 1, j + 1 => by
    have h1 := le_osa_add a b i j
    have h2 := le_osa_add a b i (j + 1)
    have h3 := le_osa_add a b (i + 1) j
    rcases osa_succ_cases a b i j with h | h | h | ⟨hi, hj, h⟩
    · omega
    · omega
    · omega
    · have h4 := le_osa_add a b (i - 1) (j - 1)
      omega
termination_by i j => (i, j)

/-- Only the first symbols matter. -/
theorem osa_congr {a b b' : Nat → α} : ∀ i j, (∀ k < i, b k = b' k) → osa a b i j = osa a b' i j
  | 0, j, _ => by simp
  | i + 1, 0, _ => by simp
  | i + 1, j + 1, h => by
    have hi : b i = b' i := h i (Nat.lt_succ_self i)
    have hpred : 0 < i → b (i - 1) = b' (i - 1) := fun hi => h (i - 1) (by omega)
    have h1 := osa_congr (a := a) i j fun k hk => h k (by omega)
    have h2 := osa_congr (a := a) i (j + 1) fun k hk => h k (by omega)
    have h3 := osa_congr (a := a) (i + 1) j fun k hk => h k hk
    have h4 := osa_congr (a := a) (i - 1) (j - 1) fun k hk => h k (by omega)
    have hswap : Swaps a b i j ↔ Swaps a b' i j := by
      unfold Swaps
      constructor
      · rintro ⟨hi0, hj0, hx, hy⟩
        exact ⟨hi0, hj0, hpred hi0 ▸ hx, hi ▸ hy⟩
      · rintro ⟨hi0, hj0, hx, hy⟩
        exact ⟨hi0, hj0, (hpred hi0).symm ▸ hx, hi.symm ▸ hy⟩
    rw [osa_succ, osa_succ, hi, h1, h2, h3, h4]
    by_cases hs : Swaps a b i j
    · rw [if_pos hs, if_pos (hswap.mp hs)]
    · rw [if_neg hs, if_neg (mt hswap.mpr hs)]
termination_by i j => (i, j)

/-- **A row above the bound stays above it**: a swap over the row is no cheaper than a substitution in it. -/
theorem lt_osa_of_row {d n i : Nat} (hrow : ∀ j ≤ n, d < osa a b i j) :
    ∀ k j, j ≤ n → d < osa a b (i + k) j
  | 0, j, hj => hrow j hj
  | k + 1, 0, _ => by
    have := hrow 0 (Nat.zero_le n)
    rw [osa_zero_right] at this ⊢
    omega
  | k + 1, j + 1, hj => by
    have h1 := lt_osa_of_row hrow k j (by omega)
    have h2 := lt_osa_of_row hrow k (j + 1) hj
    have h3 := lt_osa_of_row hrow (k + 1) j (by omega)
    rw [← Nat.add_assoc] at h3 ⊢
    rcases osa_succ_cases a b (i + k) j with h | h | h | ⟨hi, hj0, h⟩
    · omega
    · omega
    · omega
    · have := osa_le_of_pred a b hi hj0
      omega
termination_by k j => (k, j)

end StringAlignment
