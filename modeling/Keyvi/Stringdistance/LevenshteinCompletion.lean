import Mathlib
import Keyvi.Stringdistance.NeedlemanWunsch

/-!
# The banded distance of completions

`damerau_levenshtein_completion.h` over `needleman_wunsch.h`: going on behind the input is free. The
last column of a row holds the distance of the best prefix of the path.
-/

namespace Keyvi.Stringdistance

open StringAlignment

/-- `Damerau_LevenshteinCompletion`. -/
def damerauLevenshteinCompletion : CostFunction where
  getSubstitutionCost codepointFrom codepointTo := if codepointFrom ≠ codepointTo then 1 else 0
  getCompletionCost := 0
  getInsertionCost _ := 1
  getDeletionCost _ := 1
  getTranspositionCost _ _ := 1

/-- The distance of the input to the best prefix of the first symbols. -/
def nearest (a b : Nat → Nat) (n : Nat) : Nat → Nat
  | 0 => n
  | i + 1 => min (nearest a b n i) (osa a b (i + 1) n)

theorem nearest_le (a b : Nat → Nat) (n : Nat) : ∀ i, nearest a b n i ≤ osa a b i n
  | 0 => by simp [nearest]
  | _ + 1 => Nat.min_le_right _ _

theorem nearest_congr {a b b' : Nat → Nat} (n : Nat) :
    ∀ i, (∀ k < i, b k = b' k) → nearest a b n i = nearest a b' n i
  | 0, _ => rfl
  | i + 1, h => by
    rw [nearest, nearest, nearest_congr n i fun k hk => h k (by omega), osa_congr (i + 1) n h]

theorem nearest_eq (a b : Nat → Nat) (n : Nat) : ∀ i, ∃ k ≤ i, nearest a b n i = osa a b k n
  | 0 => ⟨0, le_rfl, by simp [nearest]⟩
  | i + 1 => by
    obtain ⟨k, hk, hnear⟩ := nearest_eq a b n i
    rcases Nat.le_total (nearest a b n i) (osa a b (i + 1) n) with h | h
    · exact ⟨k, by omega, by rw [nearest, Nat.min_eq_left h, hnear]⟩
    · exact ⟨i + 1, le_rfl, by rw [nearest, Nat.min_eq_right h]⟩

theorem nearest_le_of_le (a b : Nat → Nat) (n : Nat) : ∀ {k i}, k ≤ i →
    nearest a b n i ≤ osa a b k n
  | k, 0, h => by
    rw [Nat.le_zero.mp h]
    exact nearest_le a b n 0
  | k, i + 1, h => by
    rcases Nat.lt_or_eq_of_le h with hlt | rfl
    · exact (Nat.min_le_left _ _).trans (nearest_le_of_le a b n (Nat.le_of_lt_succ hlt))
    · exact nearest_le a b n (i + 1)

/-- Behind the band nothing comes closer. -/
theorem nearest_agrees (a b : Nat → Nat) (n d : Nat) : ∀ k,
    Agrees d (nearest a b n (n + d)) (nearest a b n (n + d + k))
  | 0 => .rfl _ _
  | k + 1 => by
    have ih := nearest_agrees a b n d k
    have hfar := (le_osa_add a b (n + d + k + 1) n).1
    have hnear : nearest a b n (n + d + (k + 1)) =
        min (nearest a b n (n + d + k)) (osa a b (n + d + k + 1) n) := rfl
    obtain ⟨h1, h2⟩ := ih
    rw [hnear]
    constructor <;> omega

/-- A cell of the full matrix. -/
def completionCell (a b : Nat → Nat) (n i j : Nat) : Nat :=
  if j = n then nearest a b n i else osa a b i j

theorem completionCell_last (a b : Nat → Nat) (n i : Nat) : completionCell a b n i n = nearest a b n i :=
  if_pos rfl

theorem completionCell_of_ne (a b : Nat → Nat) {n j : Nat} (i : Nat) (h : j ≠ n) :
    completionCell a b n i j = osa a b i j := if_neg h

theorem completionCell_congr {a b b' : Nat → Nat} {i : Nat} (n j : Nat) (h : ∀ k < i, b k = b' k) :
    completionCell a b n i j = completionCell a b' n i j := by
  unfold completionCell
  rw [nearest_congr n i h, osa_congr i j h]

theorem completionCell_le (a b : Nat → Nat) (n i j : Nat) : completionCell a b n i j ≤ osa a b i j := by
  unfold completionCell
  split
  · next h =>
    rw [h]
    exact nearest_le a b n i
  · exact le_rfl

/-- A row further costs at most one. -/
theorem completionCell_succ_le (a b : Nat → Nat) (n i j : Nat) :
    completionCell a b n (i + 1) j ≤ completionCell a b n i j + 1 := by
  unfold completionCell
  split
  · exact (Nat.min_le_left _ _).trans (Nat.le_succ _)
  · exact osa_succ_left_le a b i j

/-- The cells that the next rows may look at, as in `RowOk`. -/
def CompletionRowOk (n d : Nat) (a b : Nat → Nat) (m : DistanceMatrix) (i : Nat) : Prop :=
  ∀ c ≤ n, (i ≤ c + d + 1 ∧ c ≤ i + d + 1) ∨ c = n → Agrees d (m.get i c) (completionCell a b n i c)

theorem CompletionRowOk.congr {n d i : Nat} {a b b' : Nat → Nat} {m m' : DistanceMatrix}
    (h : CompletionRowOk n d a b m i) (hm : ∀ c, m'.get i c = m.get i c) (hb : ∀ k < i, b' k = b k) :
    CompletionRowOk n d a b' m' i := by
  intro c hc hnear
  rw [hm, completionCell_congr n c hb]
  exact h c hc hnear

namespace NeedlemanWunsch

variable {input : List Nat} {b : Nat → Nat} {d r : Nat} {m : DistanceMatrix}

/-- A cell that is far from the diagonal, in the last column too unless a row before it was near. -/
theorem lt_completionCell (a b : Nat → Nat) {n d i j : Nat} (h : i + d < j) :
    d < completionCell a b n i j := by
  unfold completionCell
  split
  · next hn =>
    obtain ⟨k, hk, hnear⟩ := nearest_eq a b n i
    have := (le_osa_add a b k n).2
    omega
  · have := (le_osa_add a b i j).2
    omega

/-- **A cell in the band**, from its neighbours. -/
theorem completion_fieldResult_agrees {j : Nat}
    (hcolumns : m.numberOfColumns = input.length + 1)
    (hdiagonal : Agrees d (m.get r j) (osa (fun j => input.getD j 0) b r j))
    (habove : Agrees d (m.get r (j + 1))
      (completionCell (fun j => input.getD j 0) b input.length r (j + 1)))
    (hleft : Agrees d (m.get (r + 1) j) (osa (fun j => input.getD j 0) b (r + 1) j))
    (hbefore : 0 < r → 0 < j →
      Agrees d (m.get (r - 1) (j - 1)) (osa (fun j => input.getD j 0) b (r - 1) (j - 1))) :
    Agrees d (fieldResult damerauLevenshteinCompletion input b m (r + 1) (j + 1) (b r))
      (completionCell (fun j => input.getD j 0) b input.length (r + 1) (j + 1)) := by
  have hle := completionCell_le (fun j => input.getD j 0) b input.length r (j + 1)
  generalize hA : completionCell (fun j => input.getD j 0) b input.length r (j + 1) = above
    at habove hle
  -- The value before the last column is looked at, as far as it is below the one above.
  have hfield : ∀ x, x = (if (if input.getD j 0 ≠ b r then 1 else 0) = 0 then
        m.get r j + (if input.getD j 0 ≠ b r then 1 else 0)
      else if 1 < r + 1 ∧ 1 < j + 1 ∧ input.getD j 0 = b (r - 1) ∧ input.getD (j - 1) 0 = b r then
        min (min (min (m.get r j + (if input.getD j 0 ≠ b r then 1 else 0)) (m.get r (j + 1) + 1))
          (m.get (r + 1) j + 1)) (m.get (r - 1) (j - 1) + 1)
      else min (min (m.get r j + (if input.getD j 0 ≠ b r then 1 else 0)) (m.get r (j + 1) + 1))
        (m.get (r + 1) j + 1)) →
      ∃ y, Agrees d x y ∧ min above y = min above (osa (fun j => input.getD j 0) b (r + 1) (j + 1)) ∧
        (above = osa (fun j => input.getD j 0) b r (j + 1) →
          y = osa (fun j => input.getD j 0) b (r + 1) (j + 1)) := by
    rintro x rfl
    by_cases heq : input.getD j 0 = b r
    · have hsame : osa (fun j => input.getD j 0) b (r + 1) (j + 1) =
          osa (fun j => input.getD j 0) b r j := osa_succ_of_eq heq
      rw [if_neg (not_not_intro heq), if_pos rfl, Nat.add_zero, hsame]
      exact ⟨_, hdiagonal, rfl, fun _ => rfl⟩
    · rw [if_pos heq, if_neg Nat.one_ne_zero, osa_succ, if_neg heq]
      by_cases hswap : Swaps (fun j => input.getD j 0) b r j
      · obtain ⟨hr, hj, hx, hy⟩ := hswap
        rw [if_pos ⟨by omega, by omega, hx, hy⟩, if_pos ⟨hr, hj, hx, hy⟩]
        refine ⟨_, ((hdiagonal.add_one.min habove.add_one).min hleft.add_one).min
          (hbefore hr hj).add_one, by omega, fun h => by rw [h]⟩
      · rw [if_neg fun h => hswap ⟨by omega, by omega, h.2.2.1, h.2.2.2⟩, if_neg hswap]
        exact ⟨_, (hdiagonal.add_one.min habove.add_one).min hleft.add_one, by omega,
          fun h => by rw [h]⟩
  obtain ⟨y, hy, hmin, hexact⟩ := hfield _ rfl
  unfold fieldResult
  dsimp only
  rw [hcolumns]
  split
  · next hlast =>
    have hlen : j + 1 = input.length := by omega
    have hcell : completionCell (fun j => input.getD j 0) b input.length (r + 1) (j + 1) =
        min above y := by
      rw [hmin, ← hA, hlen, completionCell_last, completionCell_last, nearest]
    rw [hcell]
    exact habove.min hy
  · next hlast =>
    have hne : j + 1 ≠ input.length := by omega
    rw [completionCell_of_ne _ _ _ hne, ← hexact (by rw [← hA, completionCell_of_ne _ _ _ hne])]
    exact hy

/-- What the loop has done up to a column. A score that is not above the bound comes from a cell or is
the one from before, and it is the least of them. -/
structure CompletionLoopInv (input : List Nat) (d : Nat) (b : Nat → Nat) (r left : Nat)
    (m0 : DistanceMatrix) (score0 : Nat) (s : DistanceMatrix × Nat) (column : Nat) : Prop where
  columns : s.1.numberOfColumns = input.length + 1
  others : ∀ i c, i ≠ r + 1 → s.1.get i c = m0.get i c
  row : ∀ c, left ≤ c + 1 → c < column → Agrees d (s.1.get (r + 1) c)
    (completionCell (fun j => input.getD j 0) b input.length (r + 1) c)
  score : s.2 ≤ d → s.2 = score0 ∨ ∃ c < column,
    completionCell (fun j => input.getD j 0) b input.length (r + 1) c = s.2
  le_start : s.2 ≤ score0
  least : ∀ c, left ≤ c → c < column → s.2 ≤ s.1.get (r + 1) c

/-- **One round of the loop.** -/
theorem CompletionLoopInv.step {left score0 j : Nat} {m0 : DistanceMatrix} {s : DistanceMatrix × Nat}
    (h : CompletionLoopInv input d b r left m0 score0 s (j + 1)) (hleft : left ≤ j + 1)
    (hband : r + 1 ≤ j + 1 + d) (hright : j + 1 ≤ r + 1 + d) (hj : j + 1 ≤ input.length)
    (hrow : CompletionRowOk input.length d (fun j => input.getD j 0) b m0 r)
    (hrow' : 0 < r → CompletionRowOk input.length d (fun j => input.getD j 0) b m0 (r - 1)) :
    CompletionLoopInv input d b r left m0 score0
      (calculateColumn damerauLevenshteinCompletion input b d (r + 1) (b r) s (j + 1)) (j + 2) := by
  have hinner : ∀ {i c : Nat}, c < input.length →
      completionCell (fun j => input.getD j 0) b input.length i c =
        osa (fun j => input.getD j 0) b i c := fun hc => completionCell_of_ne _ _ _ hc.ne
  have hfield : Agrees d (fieldResult damerauLevenshteinCompletion input b s.1 (r + 1) (j + 1) (b r))
      (completionCell (fun j => input.getD j 0) b input.length (r + 1) (j + 1)) := by
    refine completion_fieldResult_agrees h.columns ?_ ?_ ?_ fun hr hj0 => ?_
    · rw [h.others r j (by omega), ← hinner (by omega)]
      exact hrow j (by omega) (.inl ⟨by omega, by omega⟩)
    · rw [h.others r (j + 1) (by omega)]
      exact hrow (j + 1) hj (.inl ⟨by omega, by omega⟩)
    · rw [← hinner (by omega)]
      exact h.row j hleft (Nat.lt_succ_self j)
    · rw [h.others (r - 1) (j - 1) (by omega), ← hinner (by omega)]
      exact hrow' hr (j - 1) (by omega) (.inl ⟨by omega, by omega⟩)
  unfold calculateColumn
  dsimp only
  generalize fieldResult damerauLevenshteinCompletion input b s.1 (r + 1) (j + 1) (b r) = field
    at hfield
  refine ⟨h.columns, fun i c hi => ?_, fun c hc hlt => ?_, fun hd => ?_, ?_, fun c hc hlt => ?_⟩
  · show (s.1.set (r + 1) (j + 1) field).get i c = m0.get i c
    rw [DistanceMatrix.get_set_row _ hi]
    exact h.others i c hi
  · show Agrees d ((s.1.set (r + 1) (j + 1) field).get (r + 1) c) _
    by_cases hcj : c = j + 1
    · rw [hcj, DistanceMatrix.get_set_self]
      exact hfield
    · rw [DistanceMatrix.get_set_column _ hcj]
      exact h.row c hc (by omega)
  · dsimp only at hd ⊢
    split at hd
    · next hcond =>
      rw [if_pos hcond]
      refine .inr ⟨j + 1, by omega, ?_⟩
      obtain ⟨h1, h2⟩ := hfield
      omega
    · next hcond =>
      rw [if_neg hcond]
      exact (h.score hd).imp id fun ⟨c, hc, hcell⟩ => ⟨c, by omega, hcell⟩
  · dsimp only
    split
    · next hcond => exact hcond.2.trans h.le_start
    · exact h.le_start
  · dsimp only
    by_cases hcj : c = j + 1
    · rw [hcj, DistanceMatrix.get_set_self]
      split
      · exact le_rfl
      · next hcond => exact (not_le.mp fun hle => hcond ⟨.inr hband, hle⟩).le
    · rw [DistanceMatrix.get_set_column _ hcj]
      have hbefore := h.least c hc (by omega)
      split
      · next hcond => exact hcond.2.trans hbefore
      · exact hbefore

/-- **The whole loop**, by induction on the columns that are left. -/
theorem CompletionLoopInv.run {left score0 : Nat} {m0 : DistanceMatrix}
    (hrow : CompletionRowOk input.length d (fun j => input.getD j 0) b m0 r)
    (hrow' : 0 < r → CompletionRowOk input.length d (fun j => input.getD j 0) b m0 (r - 1)) :
    ∀ (k j : Nat) {s : DistanceMatrix × Nat},
      CompletionLoopInv input d b r left m0 score0 s (j + 1) →
      left ≤ j + 1 → r + 1 ≤ j + 1 + d → j + 1 + k ≤ r + 1 + d + 1 → j + 1 + k ≤ input.length + 1 →
      CompletionLoopInv input d b r left m0 score0 ((List.range' (j + 1) k).foldl
        (calculateColumn damerauLevenshteinCompletion input b d (r + 1) (b r)) s) (j + 1 + k)
  | 0, _, _, h, _, _, _, _ => h
  | k + 1, j, s, h, hleft, hband, hright, hlen => by
    rw [List.range'_succ, List.foldl_cons]
    have hstep := h.step hleft hband (by omega) (by omega) hrow hrow'
    have hrest := CompletionLoopInv.run hrow hrow' k (j + 1) hstep (by omega) (by omega) (by omega)
      (by omega)
    rw [show j + 1 + (k + 1) = j + 1 + 1 + k by omega]
    exact hrest

/-- **The row after the loop**, with the cells behind the band. -/
theorem CompletionLoopInv.rowOk {score0 right : Nat} {m0 : DistanceMatrix} {s : DistanceMatrix × Nat}
    (h : CompletionLoopInv input d b r (leftCutoff d r) m0 score0 s right)
    (hright : right = min (input.length + 1) (r + 1 + d + 1)) (hleft : leftCutoff d r ≤ input.length) :
    CompletionRowOk input.length d (fun j => input.getD j 0) b
      (if right < input.length + 1 then
        (s.1.set (r + 1) right (d + 1)).set (r + 1) (input.length + 1 - 1) (d + 1)
      else s.1) (r + 1) := by
  intro c hc hnear
  have hle : leftCutoff d r ≤ c + 1 := by
    unfold leftCutoff at hleft ⊢
    split <;> split at hleft <;> omega
  split
  · next hlt =>
    have hfar : right ≤ c → d < completionCell (fun j => input.getD j 0) b input.length (r + 1) c :=
      fun hrc => lt_completionCell _ b (by omega)
    by_cases hlast : c = input.length + 1 - 1
    · rw [hlast, DistanceMatrix.get_set_self, ← hlast]
      exact .of_lt (Nat.lt_succ_self d) (hfar (by omega))
    · rw [DistanceMatrix.get_set_column _ hlast]
      by_cases hcr : c = right
      · rw [hcr, DistanceMatrix.get_set_self, ← hcr]
        exact .of_lt (Nat.lt_succ_self d) (hfar hcr.ge)
      · rw [DistanceMatrix.get_set_column _ hcr]
        exact h.row c hle (by omega)
  · exact h.row c hle (by omega)

/-- The loop is entered with the cell in front of the band. -/
theorem CompletionLoopInv.start {m : DistanceMatrix} {score : Nat}
    (hm : m.numberOfColumns = input.length + 1) (hleft : leftCutoff d r ≤ input.length) :
    CompletionLoopInv input d b r (leftCutoff d r)
      (m.set (r + 1) (leftCutoff d r - 1) ((r + 1 - leftCutoff d r + 1) * 1)) score
      (m.set (r + 1) (leftCutoff d r - 1) ((r + 1 - leftCutoff d r + 1) * 1), score)
      (leftCutoff d r - 1 + 1) := by
  have hpos := leftCutoff_pos d r
  have hplain : LoopInv input d b r (leftCutoff d r)
      (m.set (r + 1) (leftCutoff d r - 1) ((r + 1 - leftCutoff d r + 1) * 1)) score
      (m.set (r + 1) (leftCutoff d r - 1) ((r + 1 - leftCutoff d r + 1) * 1), score)
      (leftCutoff d r - 1 + 1) := LoopInv.start hm
  refine ⟨hplain.columns, hplain.others, fun c hc hlt => ?_, fun _ => .inl rfl, le_rfl,
    fun c hc hlt => by omega⟩
  rw [completionCell_of_ne _ _ _ (by omega)]
  exact hplain.row c hc hlt

/-- A score of a row: not above its number, and not above a cell within the bound. -/
def Least (input : List Nat) (d : Nat) (b : Nat → Nat) (i score : Nat) : Prop :=
  score ≤ i ∧ ∀ j ≤ input.length, completionCell (fun j => input.getD j 0) b input.length i j ≤ d →
    score ≤ completionCell (fun j => input.getD j 0) b input.length i j

theorem Least.congr {b' : Nat → Nat} {i score : Nat} (h : Least input d b i score)
    (hb : ∀ k < i, b k = b' k) : Least input d b' i score := by
  refine ⟨h.1, fun j hj hcell => ?_⟩
  rw [← completionCell_congr _ j hb] at hcell ⊢
  exact h.2 j hj hcell

/-- Behind the band the score of a row is that of the next one. -/
theorem Least.behind {score : Nat} (h : Least input d b r score) (hlong : input.length + d ≤ r) :
    Least input d b (r + 1) score := by
  refine ⟨h.1.trans (Nat.le_succ r), fun j hj hcell => ?_⟩
  have hfar := (le_osa_add (fun j => input.getD j 0) b (r + 1) j).1
  -- Only the last column can be near, and it stays.
  by_cases hlast : j = input.length
  · have hrow := h.2 input.length le_rfl
    rw [hlast] at hcell hfar ⊢
    rw [completionCell_last, nearest] at hcell ⊢
    rw [completionCell_last] at hrow
    omega
  · rw [completionCell_of_ne _ _ _ hlast] at hcell
    omega

/-- The score after the loop is the least of its row. -/
theorem CompletionLoopInv.isLeast {score0 right : Nat} {m0 : DistanceMatrix}
    {s : DistanceMatrix × Nat}
    (h : CompletionLoopInv input d b r (leftCutoff d r) m0 score0 s right)
    (hright : right = min (input.length + 1) (r + 1 + d + 1)) (hleft : leftCutoff d r ≤ input.length)
    (hscore : score0 ≤ r + 1) : Least input d b (r + 1) s.2 := by
  refine ⟨h.le_start.trans hscore, fun j hj hcell => ?_⟩
  rcases Nat.lt_or_ge j (leftCutoff d r) with hlt | hge
  · -- In front of the band only the first column is near.
    have hne : j ≠ input.length := by omega
    rw [completionCell_of_ne _ _ _ hne] at hcell ⊢
    unfold leftCutoff at hlt
    split at hlt
    · have := (le_osa_add (fun j => input.getD j 0) b (r + 1) j).1
      omega
    · obtain rfl : j = 0 := by omega
      rw [osa_zero_right]
      exact h.le_start.trans hscore
  · -- A cell behind the band is far, those in it are the loop's.
    have hnear : j ≤ r + 1 + d := by
      by_contra hfar
      exact absurd hcell (not_le.mpr (lt_completionCell _ b (not_le.mp hfar)))
    have hleast := h.least j hge (by omega)
    rwa [(h.row j (by omega) (by omega)).1 hcell] at hleast

/-! ## A run of completions -/

/-- What holds between the calls, for an input that is not empty. An intermediate score that is not
above the bound is reached by the row, and no cell of the row is below it. -/
structure CompletionInv (input : List Nat) (d : Nat) (path : List Nat) (w : NeedlemanWunsch) :
    Prop where
  maxDistance : w.maxDistance = d
  inputSequence : w.inputSequence = input
  columns : w.distanceMatrix.numberOfColumns = input.length + 1
  compareSequence : ∀ i < path.length, w.compareSequence i = path.getD i 0
  scores : ∀ i ≤ path.length, w.intermediateScores i ≤ d → ∃ j ≤ input.length,
    completionCell (fun j => input.getD j 0) (fun k => path.getD k 0) input.length i j ≤
      w.intermediateScores i
  least : ∀ i ≤ path.length, Least input d (fun k => path.getD k 0) i (w.intermediateScores i)
  rows : ∀ i ≤ path.length, i ≤ input.length + d →
    CompletionRowOk input.length d (fun j => input.getD j 0) (fun k => path.getD k 0)
      w.distanceMatrix i
  latest : path ≠ [] → w.latestCalculatedRow = min path.length (input.length + d)

theorem CompletionInv.rows_kept {path : List Nat} {w : NeedlemanWunsch}
    (h : CompletionInv input d path w) {p : Nat × Nat} (hp : p.2 ≤ path.length) {m : DistanceMatrix}
    {i : Nat} (hi : i ≤ p.2) (hcalc : i ≤ input.length + d)
    (hm : ∀ c, m.get i c = w.distanceMatrix.get i c) :
    CompletionRowOk input.length d (fun j => input.getD j 0) (fun k => (putPath path p).getD k 0) m
      i :=
  (h.rows i (hi.trans hp) hcalc).congr hm fun _ hk => getD_putPath hp (hk.trans_le hi)

/-- A new score, that its row reaches. -/
theorem CompletionInv.scores_update {path : List Nat} {w : NeedlemanWunsch}
    (h : CompletionInv input d path w) {p : Nat × Nat} (hp : p.2 ≤ path.length) {score : Nat}
    (hscore : score ≤ d → ∃ j ≤ input.length, completionCell (fun j => input.getD j 0)
      (fun k => (putPath path p).getD k 0) input.length (p.2 + 1) j ≤ score) :
    ∀ i ≤ (putPath path p).length, Function.update w.intermediateScores (p.2 + 1) score i ≤ d →
      ∃ j ≤ input.length, completionCell (fun j => input.getD j 0)
        (fun k => (putPath path p).getD k 0) input.length i j ≤
          Function.update w.intermediateScores (p.2 + 1) score i := by
  intro i hi hd
  rw [length_putPath hp] at hi
  by_cases hip : i = p.2 + 1
  · rw [hip, Function.update_self] at hd ⊢
    exact hscore hd
  · rw [Function.update_of_ne hip] at hd ⊢
    obtain ⟨j, hj, hle⟩ := h.scores i (by omega) hd
    refine ⟨j, hj, ?_⟩
    rwa [completionCell_congr _ _ fun k hk => getD_putPath hp (by omega)]

theorem CompletionInv.least_update {path : List Nat} {w : NeedlemanWunsch}
    (h : CompletionInv input d path w) {p : Nat × Nat} (hp : p.2 ≤ path.length) {score : Nat}
    (hscore : Least input d (fun k => (putPath path p).getD k 0) (p.2 + 1) score) :
    ∀ i ≤ (putPath path p).length, Least input d (fun k => (putPath path p).getD k 0) i
      (Function.update w.intermediateScores (p.2 + 1) score i) := by
  intro i hi
  rw [length_putPath hp] at hi
  by_cases hip : i = p.2 + 1
  · rw [hip, Function.update_self]
    exact hscore
  · rw [Function.update_of_ne hip]
    exact (h.least i (by omega)).congr fun k hk => (getD_putPath hp (by omega)).symm

/-- The score from before and one more is reached by the next row. -/
theorem CompletionInv.reached {path : List Nat} {w : NeedlemanWunsch}
    (h : CompletionInv input d path w) {p : Nat × Nat} (hp : p.2 ≤ path.length)
    (hd : w.intermediateScores p.2 ≤ d) : ∃ j ≤ input.length, completionCell
      (fun j => input.getD j 0) (fun k => (putPath path p).getD k 0) input.length (p.2 + 1) j ≤
        w.intermediateScores p.2 + 1 := by
  obtain ⟨j, hj, hle⟩ := h.scores p.2 hp hd
  refine ⟨j, hj, (completionCell_succ_le _ _ _ _ _).trans (Nat.succ_le_succ ?_)⟩
  rwa [completionCell_congr _ _ fun k hk => getD_putPath hp (by omega)]

/-- Behind the band the last column stays. -/
theorem CompletionInv.reached_behind {path : List Nat} {w : NeedlemanWunsch}
    (h : CompletionInv input d path w) {p : Nat × Nat} (hp : p.2 ≤ path.length)
    (hlong : input.length + d ≤ p.2) (hd : w.intermediateScores p.2 ≤ d) :
    ∃ j ≤ input.length, completionCell (fun j => input.getD j 0)
      (fun k => (putPath path p).getD k 0) input.length (p.2 + 1) j ≤ w.intermediateScores p.2 := by
  obtain ⟨j, hj, hle⟩ := h.scores p.2 hp hd
  rcases Nat.lt_or_eq_of_le hj with hlt | rfl
  · rw [completionCell_of_ne _ _ _ hlt.ne] at hle
    have := (le_osa_add (fun j => input.getD j 0) (fun k => path.getD k 0) p.2 j).1
    omega
  · refine ⟨_, le_rfl, ?_⟩
    rw [completionCell_last] at hle ⊢
    rw [nearest, nearest_congr _ p.2 fun k hk => getD_putPath hp hk]
    exact (Nat.min_le_left _ _).trans hle

/-- The row is behind the last one that can be in the band, so only the path is noted down. -/
theorem CompletionInv.put_behind {path : List Nat} {w : NeedlemanWunsch}
    (h : CompletionInv input d path w) {p : Nat × Nat} (hp : p.2 ≤ path.length)
    (hn : 0 < input.length) (hlong : input.length + d ≤ p.2) (rows : Nat) :
    CompletionInv input d (putPath path p) { w with
      compareSequence := Function.update w.compareSequence p.2 p.1
      intermediateScores := Function.update w.intermediateScores (p.2 + 1) (w.intermediateScores p.2)
      lastPutPosition := p.2
      distanceMatrix := w.distanceMatrix.ensureRowCapacity rows } := by
  have hlen := length_putPath hp
  refine ⟨h.maxDistance, h.inputSequence, ?_, fun i hi => ?_,
    h.scores_update hp (h.reached_behind hp hlong), h.least_update hp (.behind ?_ hlong),
    fun i hi hcalc => ?_, fun _ => ?_⟩
  · rw [DistanceMatrix.numberOfColumns_ensureRowCapacity]
    exact h.columns
  · rw [hlen] at hi
    exact update_putPath h.compareSequence hp hi
  · exact (h.least p.2 hp).congr fun k hk => (getD_putPath hp hk).symm
  · exact h.rows_kept hp (by omega) hcalc fun c => DistanceMatrix.get_ensureRowCapacity _ _ _ _
  · have hpath : path ≠ [] := List.length_pos_iff.mp (by omega)
    show w.latestCalculatedRow = _
    rw [h.latest hpath, hlen]
    omega

/-- The last `Put` was at the end of the path, with this score. -/
def IsScore (w : NeedlemanWunsch) (path : List Nat) (score : Nat) : Prop :=
  w.lastPutPosition + 1 = path.length ∧ w.intermediateScores path.length = score

/-- **One `Put`**, for an input that is not empty. -/
theorem CompletionInv.put {path : List Nat} {w : NeedlemanWunsch} (hne : input ≠ [])
    (h : CompletionInv input d path w) {p : Nat × Nat} (hp : p.2 ≤ path.length) :
    CompletionInv input d (putPath path p) (put damerauLevenshteinCompletion w p.1 p.2).2 ∧
      IsScore (put damerauLevenshteinCompletion w p.1 p.2).2 (putPath path p)
        (put damerauLevenshteinCompletion w p.1 p.2).1 := by
  have hn : 0 < input.length := List.length_pos_iff.mpr hne
  have hlen := length_putPath hp
  have hscoreAt : ∀ score, Function.update w.intermediateScores (p.2 + 1) score
      (putPath path p).length = score := fun score => by
    rw [hlen, Function.update_self]
  unfold NeedlemanWunsch.put
  dsimp only
  rw [DistanceMatrix.numberOfColumns_ensureRowCapacity, h.columns, h.maxDistance, h.inputSequence,
    Nat.add_sub_cancel, show damerauLevenshteinCompletion.getInsertionCost p.1 = 1 from rfl,
    show damerauLevenshteinCompletion.getCompletionCost = 0 from rfl,
    show (if p.2 + 1 > d then p.2 + 1 - d else 1) = leftCutoff d p.2 from rfl]
  by_cases hearly : leftCutoff d p.2 ≥ input.length + 1
  · -- The row is behind the last one that can be in the band.
    have hlong : input.length + d ≤ p.2 := by
      unfold leftCutoff at hearly
      split at hearly <;> omega
    rw [if_pos hearly, Nat.min_eq_left (Nat.zero_le 1), Nat.add_zero]
    have hbehind := h.put_behind hp hn hlong (p.2 + 1 + 2)
    rw [← h.maxDistance, ← h.inputSequence] at hbehind ⊢
    exact ⟨hbehind, hlen.symm, hscoreAt _⟩
  · have hcut : leftCutoff d p.2 ≤ input.length := by omega
    have hpos := leftCutoff_pos d p.2
    have hcalc : p.2 + 1 ≤ input.length + d := by
      unfold leftCutoff at hcut
      split at hcut <;> omega
    have hband : p.2 + 1 ≤ leftCutoff d p.2 + d ∧ leftCutoff d p.2 ≤ p.2 + 1 := by
      unfold leftCutoff
      split <;> omega
    rw [if_neg hearly]
    generalize hm0 : (w.distanceMatrix.ensureRowCapacity (p.2 + 1 + 2)).set (p.2 + 1)
      (leftCutoff d p.2 - 1) ((p.2 + 1 - leftCutoff d p.2 + 1) * 1) = m0
    generalize hright : min (input.length + 1) (p.2 + 1 + d + 1) = right
    have hothers : ∀ i c, i ≠ p.2 + 1 → m0.get i c = w.distanceMatrix.get i c := by
      intro i c hi
      rw [← hm0, DistanceMatrix.get_set_row _ hi, DistanceMatrix.get_ensureRowCapacity]
    generalize hb : Function.update w.compareSequence p.2 p.1 = b
    have hbk : ∀ k < p.2 + 1, b k = (putPath path p).getD k 0 := fun k hk => by
      rw [← hb]
      exact update_putPath h.compareSequence hp hk
    have hcodepoint : b p.2 = p.1 := by
      rw [← hb]
      exact Function.update_self _ _ _
    have hkept : ∀ i ≤ p.2, CompletionRowOk input.length d (fun j => input.getD j 0) b m0 i :=
      fun i hi => (h.rows_kept hp hi (by omega) fun c => hothers i c (by omega)).congr
        (fun _ => rfl) fun k hk => hbk k (by omega)
    have hstart : CompletionLoopInv input d b p.2 (leftCutoff d p.2) m0
        (w.intermediateScores p.2 + 1) (m0, w.intermediateScores p.2 + 1)
        (leftCutoff d p.2 - 1 + 1) := by
      rw [← hm0]
      refine CompletionLoopInv.start ?_ hcut
      rw [DistanceMatrix.numberOfColumns_ensureRowCapacity]
      exact h.columns
    have hloop := CompletionLoopInv.run (hkept p.2 le_rfl) (fun _ => hkept (p.2 - 1) (by omega))
      (right - leftCutoff d p.2) (leftCutoff d p.2 - 1) hstart (by omega) (by omega) (by omega)
      (by omega)
    have hend : leftCutoff d p.2 - 1 + 1 + (right - leftCutoff d p.2) = right := by omega
    rw [hend, hcodepoint, show leftCutoff d p.2 - 1 + 1 = leftCutoff d p.2 by omega] at hloop
    have hrowOk := hloop.rowOk hright.symm hcut
    have hleast := hloop.isLeast hright.symm hcut (Nat.succ_le_succ (h.least p.2 hp).1)
    dsimp only
    generalize (List.range' (leftCutoff d p.2) (right - leftCutoff d p.2)).foldl
      (calculateColumn damerauLevenshteinCompletion input b d (p.2 + 1) p.1)
      (m0, w.intermediateScores p.2 + 1) = s at hloop hrowOk hleast ⊢
    refine ⟨⟨rfl, rfl, ?_, fun i hi => ?_, h.scores_update hp fun hd => ?_,
      h.least_update hp (hleast.congr hbk), fun i hi hcalc' => ?_, fun _ => ?_⟩, hlen.symm,
      hscoreAt _⟩
    · split
      · exact hloop.columns
      · exact hloop.columns
    · rw [hlen] at hi
      exact hbk i hi
    · -- The score is that of a cell, or the one from before.
      rcases hloop.score hd with hs | ⟨c, hc, hs⟩
      · rw [hs]
        exact h.reached hp (by omega)
      · refine ⟨c, by omega, ?_⟩
        rw [← hs, completionCell_congr _ c hbk]
    · rw [hlen] at hi
      rcases Nat.lt_or_eq_of_le hi with hlt' | rfl
      · refine h.rows_kept hp (by omega) hcalc' fun c => ?_
        have hi' : i ≠ p.2 + 1 := hlt'.ne
        rw [← hothers i c hi', ← hloop.others i c hi']
        dsimp only
        split
        · rw [DistanceMatrix.get_set_row _ hi', DistanceMatrix.get_set_row _ hi']
        · rfl
      · exact hrowOk.congr (fun _ => rfl) fun k hk => (hbk k hk).symm
    · rw [hlen]
      show p.2 + 1 = _
      omega

theorem completionInv_new (memory : Nat → Nat → Nat) (input : List Nat) (rows d : Nat) :
    CompletionInv input d [] (new damerauLevenshteinCompletion memory input rows d) := by
  refine ⟨rfl, rfl, rfl, fun i hi => absurd hi (Nat.not_lt_zero i), fun i hi _ => ?_,
    fun i _ => ⟨Nat.zero_le i, fun _ _ _ => Nat.zero_le _⟩, fun i hi _ => ?_, fun h => absurd rfl h⟩
  · obtain rfl : i = 0 := Nat.le_zero.mp hi
    refine ⟨0, Nat.zero_le _, (completionCell_le _ _ _ _ _).trans ?_⟩
    rw [osa_zero]
    exact Nat.zero_le _
  · obtain rfl : i = 0 := Nat.le_zero.mp hi
    intro c hc _
    have hcell : (new damerauLevenshteinCompletion memory input rows d).distanceMatrix.get 0 c =
        c * 1 := if_pos ⟨rfl, Nat.lt_succ_of_le hc⟩
    rw [hcell, Nat.mul_one]
    unfold completionCell
    split
    · next hn =>
      rw [hn]
      exact .rfl _ _
    · rw [osa_zero]
      exact .rfl _ _

/-- **The intermediate score** is within the bound exactly when a cell of the row is. -/
theorem CompletionInv.score_le_iff {path : List Nat} {w : NeedlemanWunsch}
    (h : CompletionInv input d path w) : w.intermediateScores path.length ≤ d ↔
      ∃ j ≤ input.length, completionCell (fun j => input.getD j 0) (fun k => path.getD k 0)
        input.length path.length j ≤ d := by
  constructor
  · intro hle
    obtain ⟨j, hj, hcell⟩ := h.scores _ le_rfl hle
    exact ⟨j, hj, hcell.trans hle⟩
  · rintro ⟨j, hj, hcell⟩
    exact ((h.least _ le_rfl).2 j hj hcell).trans hcell

/-- The distance of the input to the best prefix of a path. -/
def distanceToBestPrefix (path input : List Nat) : Nat :=
  nearest (fun j => input.getD j 0) (fun k => path.getD k 0) input.length path.length

/-- **The score** of a path is the distance of its best prefix. -/
theorem CompletionInv.getScore_agrees {path : List Nat} {w : NeedlemanWunsch}
    (h : CompletionInv input d path w) (hpath : path ≠ []) :
    Agrees d w.getScore (distanceToBestPrefix path input) := by
  have hscore : Agrees d w.getScore (nearest (fun j => input.getD j 0) (fun k => path.getD k 0)
      input.length (min path.length (input.length + d))) := by
    unfold getScore
    rw [h.columns, Nat.add_sub_cancel, h.latest hpath, ← completionCell_last]
    exact h.rows _ (Nat.min_le_left _ _) (Nat.min_le_right _ _) _ le_rfl (.inr rfl)
  unfold distanceToBestPrefix
  by_cases hlong : path.length ≤ input.length + d
  · rwa [Nat.min_eq_left hlong] at hscore
  · have hsame := nearest_agrees (fun j => input.getD j 0) (fun k => path.getD k 0) input.length d
      (path.length - (input.length + d))
    rw [show input.length + d + (path.length - (input.length + d)) = path.length by omega] at hsame
    rw [Nat.min_eq_right (by omega)] at hscore
    obtain ⟨h1, h2⟩ := hscore
    obtain ⟨h3, h4⟩ := hsame
    constructor <;> omega

theorem distanceToBestPrefix_self (input : List Nat) : distanceToBestPrefix input input = 0 := by
  have hself : ∀ i, osa (fun j => input.getD j 0) (fun j => input.getD j 0) i i = 0 := by
    intro i
    induction i with
    | zero => rw [osa_zero]
    | succ i ih => rw [osa_succ_of_eq rfl, ih]
  exact Nat.le_zero.mp ((nearest_le _ _ _ _).trans (hself _).le)

end NeedlemanWunsch

end Keyvi.Stringdistance
