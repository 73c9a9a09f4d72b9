import Mathlib
import Keyvi.Library.StringAlignment

/-!
# The banded distance

`needleman_wunsch.h` and `distance_matrix.h`. The matrix of the distance between the input and the path of a
traversal is calculated row by row, one for each symbol of the path, and only in a band around the diagonal.
Going back overwrites rows. Scores are natural numbers here, numbers of 32 bits in the source.
-/

namespace Keyvi.Stringdistance

open StringAlignment

structure CostFunction where
  getSubstitutionCost : Nat → Nat → Nat
  getCompletionCost : Nat
  getInsertionCost : Nat → Nat
  getDeletionCost : Nat → Nat
  getTranspositionCost : Nat → Nat → Nat

/-- `Damerau_Levenshtein`. -/
def damerauLevenshtein : CostFunction where
  getSubstitutionCost codepointFrom codepointTo := if codepointFrom ≠ codepointTo then 1 else 0
  getCompletionCost := 1
  getInsertionCost _ := 1
  getDeletionCost _ := 1
  getTranspositionCost _ _ := 1

/-- `DistanceMatrix`. A cell that was never set holds what the memory holds. -/
structure DistanceMatrix where
  cells : Nat → Nat → Nat
  numberOfRows : Nat
  numberOfColumns : Nat

namespace DistanceMatrix

def get (m : DistanceMatrix) (row column : Nat) : Nat := m.cells row column

def set (m : DistanceMatrix) (row column value : Nat) : DistanceMatrix :=
  { m with cells := fun r c => if r = row ∧ c = column then value else m.cells r c }

/-- `EnsureRowCapacity`: the old rows are copied. -/
def ensureRowCapacity (m : DistanceMatrix) (minimumRows : Nat) : DistanceMatrix :=
  if minimumRows > m.numberOfRows then
    { m with numberOfRows := max minimumRows (m.numberOfRows * 6 / 5) }
  else m

@[simp] theorem get_set_self (m : DistanceMatrix) (row column value : Nat) :
    (m.set row column value).get row column = value := if_pos ⟨rfl, rfl⟩

theorem get_set_row (m : DistanceMatrix) {row r : Nat} (h : r ≠ row) (column value c : Nat) :
    (m.set row column value).get r c = m.get r c := if_neg fun h' => h h'.1

theorem get_set_column (m : DistanceMatrix) {column c : Nat} (h : c ≠ column) (row value r : Nat) :
    (m.set row column value).get r c = m.get r c := if_neg fun h' => h h'.2

@[simp] theorem numberOfColumns_set (m : DistanceMatrix) (row column value : Nat) :
    (m.set row column value).numberOfColumns = m.numberOfColumns := rfl

@[simp] theorem get_ensureRowCapacity (m : DistanceMatrix) (minimumRows r c : Nat) :
    (m.ensureRowCapacity minimumRows).get r c = m.get r c := by
  unfold ensureRowCapacity
  split <;> rfl

@[simp] theorem numberOfColumns_ensureRowCapacity (m : DistanceMatrix) (minimumRows : Nat) :
    (m.ensureRowCapacity minimumRows).numberOfColumns = m.numberOfColumns := by
  unfold ensureRowCapacity
  split <;> rfl

end DistanceMatrix

/-- `NeedlemanWunsch`. The vectors are functions, with 0 where they were only resized. -/
structure NeedlemanWunsch where
  maxDistance : Nat
  compareSequence : Nat → Nat
  intermediateScores : Nat → Nat
  lastPutPosition : Nat
  latestCalculatedRow : Nat
  inputSequence : List Nat
  distanceMatrix : DistanceMatrix

namespace NeedlemanWunsch

/-- The constructor with `init`: the first row is set. -/
def new (cost : CostFunction) (memory : Nat → Nat → Nat) (inputSequence : List Nat)
    (rows maxDistance : Nat) : NeedlemanWunsch where
  maxDistance := maxDistance
  compareSequence _ := 0
  intermediateScores _ := 0
  lastPutPosition := 0
  latestCalculatedRow := 1
  inputSequence := inputSequence
  distanceMatrix :=
    ⟨fun r c => if r = 0 ∧ c < inputSequence.length + 1 then c * cost.getDeletionCost 0 else memory r c,
      rows, inputSequence.length + 1⟩

/-- The steps 1 to 6 of the loop in `Put`: the value of a cell. -/
def fieldResult (cost : CostFunction) (inputSequence : List Nat) (compareSequence : Nat → Nat)
    (m : DistanceMatrix) (row column codepoint : Nat) : Nat :=
  let substitutionCost := cost.getSubstitutionCost (inputSequence.getD (column - 1) 0) codepoint
  let substitutionResult := m.get (row - 1) (column - 1) + substitutionCost
  let fieldResult :=
    if substitutionCost = 0 then substitutionResult
    else
      let deletionResult :=
        m.get row (column - 1) + cost.getDeletionCost (inputSequence.getD (column - 1) 0)
      let insertionResult := m.get (row - 1) column + cost.getInsertionCost codepoint
      let result := min (min substitutionResult insertionResult) deletionResult
      -- The highest number stands for no transposition.
      if 1 < row ∧ 1 < column ∧ inputSequence.getD (column - 1) 0 = compareSequence (row - 2) ∧
          inputSequence.getD (column - 2) 0 = compareSequence (row - 1) then
        min result (m.get (row - 2) (column - 2) + cost.getTranspositionCost
          (inputSequence.getD (column - 1) 0) (inputSequence.getD (column - 2) 0))
      else result
  if column + 1 = m.numberOfColumns then
    min (m.get (row - 1) column + cost.getCompletionCost) fieldResult
  else fieldResult

/-- One round of the loop in `Put`, with the intermediate score. -/
def calculateColumn (cost : CostFunction) (inputSequence : List Nat) (compareSequence : Nat → Nat)
    (maxDistance row codepoint : Nat) (s : DistanceMatrix × Nat) (column : Nat) :
    DistanceMatrix × Nat :=
  let field := fieldResult cost inputSequence compareSequence s.1 row column codepoint
  (s.1.set row column field,
    if (column + 1 = s.1.numberOfColumns ∨ column + maxDistance ≥ row) ∧ field ≤ s.2 then field
    else s.2)

/-- `Put`: the intermediate score. -/
def put (cost : CostFunction) (w : NeedlemanWunsch) (codepoint position : Nat) :
    Nat × NeedlemanWunsch :=
  let row := position + 1
  let distanceMatrix := w.distanceMatrix.ensureRowCapacity (row + 2)
  let compareSequence := Function.update w.compareSequence position codepoint
  let columns := distanceMatrix.numberOfColumns
  let rightCutoff := min columns (row + w.maxDistance + 1)
  let leftCutoff := if row > w.maxDistance then row - w.maxDistance else 1
  let intermediateScore := w.intermediateScores (row - 1) + cost.getInsertionCost codepoint
  if leftCutoff ≥ columns then
    -- The row is not calculated.
    let score := w.intermediateScores (row - 1) +
      min cost.getCompletionCost (cost.getInsertionCost codepoint)
    (score, { w with
      compareSequence := compareSequence
      intermediateScores := Function.update w.intermediateScores row score
      lastPutPosition := position
      distanceMatrix := distanceMatrix })
  else
    let distanceMatrix := distanceMatrix.set row (leftCutoff - 1)
      ((row - leftCutoff + 1) * cost.getInsertionCost codepoint)
    let s := (List.range' leftCutoff (rightCutoff - leftCutoff)).foldl
      (calculateColumn cost w.inputSequence compareSequence w.maxDistance row codepoint)
      (distanceMatrix, intermediateScore)
    let distanceMatrix :=
      if rightCutoff < columns then
        (s.1.set row rightCutoff (w.maxDistance + 1)).set row (columns - 1) (w.maxDistance + 1)
      else s.1
    (s.2, { w with
      compareSequence := compareSequence
      intermediateScores := Function.update w.intermediateScores row s.2
      lastPutPosition := position
      latestCalculatedRow := row
      distanceMatrix := distanceMatrix })

/-- `GetScore`. -/
def getScore (w : NeedlemanWunsch) : Nat :=
  w.distanceMatrix.get w.latestCalculatedRow (w.distanceMatrix.numberOfColumns - 1)

/-- Calls of `Put` with a symbol and a position, and the last intermediate score. -/
def run (cost : CostFunction) (w : NeedlemanWunsch) (puts : List (Nat × Nat)) :
    Nat × NeedlemanWunsch :=
  puts.foldl (fun s p => put cost s.2 p.1 p.2) (0, w)

end NeedlemanWunsch

/-! ## Paths -/

/-- The path after a symbol was put. -/
def putPath (path : List Nat) (p : Nat × Nat) : List Nat := path.take p.2 ++ [p.1]

/-- The path after the calls. -/
def pathOf (puts : List (Nat × Nat)) : List Nat := puts.foldl putPath []

/-- Each position is at most one above the one before. -/
def DepthFirst : Nat → List (Nat × Nat) → Prop
  | _, [] => True
  | length, p :: puts => p.2 ≤ length ∧ DepthFirst (p.2 + 1) puts

/-- The distance of a path to the input. -/
def distance (path input : List Nat) : Nat :=
  osa (fun j => input.getD j 0) (fun i => path.getD i 0) path.length input.length

/-- A score is the distance if that is at most `d`, and larger than `d` otherwise. -/
def Agrees (d score dist : Nat) : Prop := (dist ≤ d → score = dist) ∧ (d < dist → d < score)

namespace Agrees

variable {d x y x' y' : Nat}

theorem rfl (d x : Nat) : Agrees d x x := ⟨fun _ => Eq.refl x, id⟩

theorem of_lt (hx : d < x) (hy : d < y) : Agrees d x y :=
  ⟨fun h => absurd h (not_le.mpr hy), fun _ => hx⟩

theorem add_one (h : Agrees d x y) : Agrees d (x + 1) (y + 1) := by
  obtain ⟨h1, h2⟩ := h
  constructor <;> omega

theorem min (h : Agrees d x y) (h' : Agrees d x' y') : Agrees d (Min.min x x') (Min.min y y') := by
  obtain ⟨h1, h2⟩ := h
  obtain ⟨h1', h2'⟩ := h'
  constructor <;> omega

/-- A value that is no smaller does not matter. -/
theorem min_left (h : Agrees d x y) (h' : Agrees d x' y') (hle : y ≤ y') :
    Agrees d (Min.min x' x) y := by
  have hmin := h'.min h
  rwa [Nat.min_eq_right hle] at hmin

theorem lt (h : Agrees d x y) (hx : d < x) : d < y := by
  obtain ⟨h1, h2⟩ := h
  omega

end Agrees

/-! ## A row -/

/-- The cells of a row that the next rows may look at: in the band, next to it, and the last one. -/
def RowOk (n d : Nat) (a b : Nat → Nat) (m : DistanceMatrix) (i : Nat) : Prop :=
  ∀ c ≤ n, (i ≤ c + d + 1 ∧ c ≤ i + d + 1) ∨ c = n → Agrees d (m.get i c) (osa a b i c)

theorem RowOk.congr {n d i : Nat} {a b b' : Nat → Nat} {m m' : DistanceMatrix} (h : RowOk n d a b m i)
    (hm : ∀ c, m'.get i c = m.get i c) (hb : ∀ k < i, b' k = b k) : RowOk n d a b' m' i := by
  intro c hc hnear
  rw [hm, osa_congr i c hb]
  exact h c hc hnear

namespace NeedlemanWunsch

variable {input : List Nat} {b : Nat → Nat} {d r : Nat} {m : DistanceMatrix}

/-- **A cell in the band**, from its neighbours. -/
theorem fieldResult_agrees {j : Nat}
    (hdiagonal : Agrees d (m.get r j) (osa (fun j => input.getD j 0) b r j))
    (habove : Agrees d (m.get r (j + 1)) (osa (fun j => input.getD j 0) b r (j + 1)))
    (hleft : Agrees d (m.get (r + 1) j) (osa (fun j => input.getD j 0) b (r + 1) j))
    (hbefore : 0 < r → 0 < j →
      Agrees d (m.get (r - 1) (j - 1)) (osa (fun j => input.getD j 0) b (r - 1) (j - 1))) :
    Agrees d (fieldResult damerauLevenshtein input b m (r + 1) (j + 1) (b r))
      (osa (fun j => input.getD j 0) b (r + 1) (j + 1)) := by
  -- The value before the last column is looked at.
  have hfield : ∀ x, x = (if (if input.getD j 0 ≠ b r then 1 else 0) = 0 then
        m.get r j + (if input.getD j 0 ≠ b r then 1 else 0)
      else if 1 < r + 1 ∧ 1 < j + 1 ∧ input.getD j 0 = b (r - 1) ∧ input.getD (j - 1) 0 = b r then
        min (min (min (m.get r j + (if input.getD j 0 ≠ b r then 1 else 0)) (m.get r (j + 1) + 1))
          (m.get (r + 1) j + 1)) (m.get (r - 1) (j - 1) + 1)
      else min (min (m.get r j + (if input.getD j 0 ≠ b r then 1 else 0)) (m.get r (j + 1) + 1))
        (m.get (r + 1) j + 1)) →
      Agrees d x (osa (fun j => input.getD j 0) b (r + 1) (j + 1)) := by
    rintro x rfl
    by_cases heq : input.getD j 0 = b r
    · have hsame : osa (fun j => input.getD j 0) b (r + 1) (j + 1) =
          osa (fun j => input.getD j 0) b r j := osa_succ_of_eq heq
      rw [if_neg (not_not_intro heq), if_pos rfl, Nat.add_zero, hsame]
      exact hdiagonal
    · rw [if_pos heq, if_neg Nat.one_ne_zero, osa_succ, if_neg heq]
      by_cases hswap : Swaps (fun j => input.getD j 0) b r j
      · obtain ⟨hr, hj, hx, hy⟩ := hswap
        rw [if_pos ⟨by omega, by omega, hx, hy⟩, if_pos ⟨hr, hj, hx, hy⟩]
        exact ((hdiagonal.add_one.min habove.add_one).min hleft.add_one).min
          (hbefore hr hj).add_one
      · rw [if_neg fun h => hswap ⟨by omega, by omega, h.2.2.1, h.2.2.2⟩, if_neg hswap]
        exact (hdiagonal.add_one.min habove.add_one).min hleft.add_one
  unfold fieldResult
  dsimp only
  split
  · exact (hfield _ rfl).min_left habove.add_one (osa_succ_left_le _ b r (j + 1))
  · exact hfield _ rfl

/-- What the loop has done up to a column. -/
structure LoopInv (input : List Nat) (d : Nat) (b : Nat → Nat) (r left : Nat) (m0 : DistanceMatrix)
    (score0 : Nat) (s : DistanceMatrix × Nat) (column : Nat) : Prop where
  columns : s.1.numberOfColumns = input.length + 1
  others : ∀ i c, i ≠ r + 1 → s.1.get i c = m0.get i c
  row : ∀ c, left ≤ c + 1 → c < column →
    Agrees d (s.1.get (r + 1) c) (osa (fun j => input.getD j 0) b (r + 1) c)
  score : s.2 ≤ score0
  scores : ∀ c, left ≤ c → c < column → s.2 ≤ s.1.get (r + 1) c

/-- **One round of the loop.** -/
theorem LoopInv.step {left score0 j : Nat} {m0 : DistanceMatrix} {s : DistanceMatrix × Nat}
    (h : LoopInv input d b r left m0 score0 s (j + 1)) (hleft : left ≤ j + 1)
    (hband : r + 1 ≤ j + 1 + d) (hright : j + 1 ≤ r + 1 + d) (hj : j + 1 ≤ input.length)
    (hrow : RowOk input.length d (fun j => input.getD j 0) b m0 r)
    (hrow' : 0 < r → RowOk input.length d (fun j => input.getD j 0) b m0 (r - 1)) :
    LoopInv input d b r left m0 score0
      (calculateColumn damerauLevenshtein input b d (r + 1) (b r) s (j + 1)) (j + 2) := by
  have hfield : Agrees d (fieldResult damerauLevenshtein input b s.1 (r + 1) (j + 1) (b r))
      (osa (fun j => input.getD j 0) b (r + 1) (j + 1)) := by
    refine fieldResult_agrees ?_ ?_ (h.row j hleft (Nat.lt_succ_self j)) fun hr hj0 => ?_
    · rw [h.others r j (by omega)]
      exact hrow j (by omega) (.inl ⟨by omega, by omega⟩)
    · rw [h.others r (j + 1) (by omega)]
      exact hrow (j + 1) hj (.inl ⟨by omega, by omega⟩)
    · rw [h.others (r - 1) (j - 1) (by omega)]
      exact hrow' hr (j - 1) (by omega) (.inl ⟨by omega, by omega⟩)
  unfold calculateColumn
  dsimp only
  generalize fieldResult damerauLevenshtein input b s.1 (r + 1) (j + 1) (b r) = field at hfield
  have hcond : ((j + 1 + 1 = s.1.numberOfColumns ∨ j + 1 + d ≥ r + 1) ∧ field ≤ s.2) ↔ field ≤ s.2 :=
    and_iff_right (.inr hband)
  have hscore : (if (j + 1 + 1 = s.1.numberOfColumns ∨ j + 1 + d ≥ r + 1) ∧ field ≤ s.2 then field
      else s.2) = min field s.2 := by
    by_cases hle : field ≤ s.2
    · rw [if_pos (hcond.mpr hle), Nat.min_eq_left hle]
    · rw [if_neg (mt hcond.mp hle), Nat.min_eq_right (by omega)]
  rw [hscore]
  refine ⟨h.columns, fun i c hi => ?_, fun c hc hlt => ?_, (Nat.min_le_right _ _).trans h.score,
    fun c hc hlt => ?_⟩
  · show (s.1.set (r + 1) (j + 1) field).get i c = m0.get i c
    rw [DistanceMatrix.get_set_row _ hi]
    exact h.others i c hi
  · show Agrees d ((s.1.set (r + 1) (j + 1) field).get (r + 1) c) _
    by_cases hcj : c = j + 1
    · rw [hcj, DistanceMatrix.get_set_self]
      exact hfield
    · rw [DistanceMatrix.get_set_column _ hcj]
      exact h.row c hc (by omega)
  · show min field s.2 ≤ (s.1.set (r + 1) (j + 1) field).get (r + 1) c
    by_cases hcj : c = j + 1
    · rw [hcj, DistanceMatrix.get_set_self]
      exact Nat.min_le_left _ _
    · rw [DistanceMatrix.get_set_column _ hcj]
      exact (Nat.min_le_right _ _).trans (h.scores c hc (by omega))

/-- **The whole loop**, by induction on the columns that are left. -/
theorem LoopInv.run {left score0 : Nat} {m0 : DistanceMatrix}
    (hrow : RowOk input.length d (fun j => input.getD j 0) b m0 r)
    (hrow' : 0 < r → RowOk input.length d (fun j => input.getD j 0) b m0 (r - 1)) :
    ∀ (k j : Nat) {s : DistanceMatrix × Nat}, LoopInv input d b r left m0 score0 s (j + 1) →
      left ≤ j + 1 → r + 1 ≤ j + 1 + d → j + 1 + k ≤ r + 1 + d + 1 → j + 1 + k ≤ input.length + 1 →
      LoopInv input d b r left m0 score0 ((List.range' (j + 1) k).foldl
        (calculateColumn damerauLevenshtein input b d (r + 1) (b r)) s) (j + 1 + k)
  | 0, _, _, h, _, _, _, _ => h
  | k + 1, j, s, h, hleft, hband, hright, hlen => by
    rw [List.range'_succ, List.foldl_cons]
    have hstep := h.step hleft hband (by omega) (by omega) hrow hrow'
    have hrest := LoopInv.run hrow hrow' k (j + 1) hstep (by omega) (by omega) (by omega) (by omega)
    rw [show j + 1 + (k + 1) = j + 1 + 1 + k by omega]
    exact hrest

/-- The columns of a row from which and up to which the loop goes. -/
def leftCutoff (d r : Nat) : Nat := if r + 1 > d then r + 1 - d else 1

theorem leftCutoff_pos (d r : Nat) : 0 < leftCutoff d r := by
  unfold leftCutoff
  split <;> omega

/-- **The row after the loop**, with the cells behind the band. -/
theorem LoopInv.rowOk {score0 right : Nat} {m0 : DistanceMatrix} {s : DistanceMatrix × Nat}
    (h : LoopInv input d b r (leftCutoff d r) m0 score0 s right)
    (hright : right = min (input.length + 1) (r + 1 + d + 1)) (hleft : leftCutoff d r ≤ input.length) :
    RowOk input.length d (fun j => input.getD j 0) b
      (if right < input.length + 1 then
        (s.1.set (r + 1) right (d + 1)).set (r + 1) (input.length + 1 - 1) (d + 1)
      else s.1) (r + 1) := by
  intro c hc hnear
  have hle : leftCutoff d r ≤ c + 1 := by
    unfold leftCutoff at hleft ⊢
    split <;> split at hleft <;> omega
  have hdist := le_osa_add (fun j => input.getD j 0) b (r + 1) c
  split
  · next hlt =>
    by_cases hlast : c = input.length + 1 - 1
    · rw [hlast, DistanceMatrix.get_set_self, ← hlast]
      exact .of_lt (Nat.lt_succ_self d) (by omega)
    · rw [DistanceMatrix.get_set_column _ hlast]
      by_cases hcr : c = right
      · rw [hcr, DistanceMatrix.get_set_self, ← hcr]
        exact .of_lt (Nat.lt_succ_self d) (by omega)
      · rw [DistanceMatrix.get_set_column _ hcr]
        exact h.row c hle (by omega)
  · exact h.row c hle (by omega)

/-- **A score above the bound** means a row above the bound. -/
theorem LoopInv.lt_of_score {score0 right : Nat} {m0 : DistanceMatrix} {s : DistanceMatrix × Nat}
    (h : LoopInv input d b r (leftCutoff d r) m0 score0 s right)
    (hright : right = min (input.length + 1) (r + 1 + d + 1)) (hscore : score0 ≤ r + 1) (hd : d < s.2) :
    ∀ j ≤ input.length, d < osa (fun j => input.getD j 0) b (r + 1) j := by
  intro j hj
  have hle := h.score
  have hcut : leftCutoff d r = r + 1 - d := if_pos (by omega)
  have hdist := le_osa_add (fun j => input.getD j 0) b (r + 1) j
  by_cases hin : leftCutoff d r ≤ j ∧ j < right
  · have hcell := h.scores j hin.1 hin.2
    exact (h.row j (hin.1.trans (Nat.le_succ j)) hin.2).lt (by omega)
  · omega

/-! ## A run -/

/-- What holds between the calls, for an input that is not empty. -/
structure Inv (input : List Nat) (d : Nat) (path : List Nat) (w : NeedlemanWunsch) : Prop where
  maxDistance : w.maxDistance = d
  inputSequence : w.inputSequence = input
  columns : w.distanceMatrix.numberOfColumns = input.length + 1
  compareSequence : ∀ i < path.length, w.compareSequence i = path.getD i 0
  scores : ∀ i ≤ path.length, w.intermediateScores i ≤ i
  rows : ∀ i ≤ path.length, i ≤ input.length + d →
    RowOk input.length d (fun j => input.getD j 0) (fun k => path.getD k 0) w.distanceMatrix i
  latest : path ≠ [] → w.latestCalculatedRow = min path.length (input.length + d)

theorem length_putPath {path : List Nat} {p : Nat × Nat} (hp : p.2 ≤ path.length) :
    (putPath path p).length = p.2 + 1 := by
  unfold putPath
  rw [List.length_append, List.length_take, Nat.min_eq_left hp, List.length_singleton]

theorem getD_putPath {path : List Nat} {p : Nat × Nat} (hp : p.2 ≤ path.length) {k : Nat}
    (hk : k < p.2) : (putPath path p).getD k 0 = path.getD k 0 := by
  unfold putPath
  rw [List.getD_eq_getElem?_getD, List.getElem?_append_left (by rw [List.length_take]; omega),
    List.getElem?_take_of_lt hk, List.getD_eq_getElem?_getD]

theorem getD_putPath_self {path : List Nat} {p : Nat × Nat} (hp : p.2 ≤ path.length) :
    (putPath path p).getD p.2 0 = p.1 := by
  unfold putPath
  have hlen : (path.take p.2).length = p.2 := by rw [List.length_take, Nat.min_eq_left hp]
  rw [List.getD_eq_getElem?_getD, List.getElem?_append_right (by rw [hlen]), hlen, Nat.sub_self]
  rfl

/-- The rows of the part of the path that stays. -/
theorem Inv.rows_kept {path : List Nat} {w : NeedlemanWunsch} (h : Inv input d path w)
    {p : Nat × Nat} (hp : p.2 ≤ path.length) {m : DistanceMatrix} {i : Nat} (hi : i ≤ p.2)
    (hcalc : i ≤ input.length + d) (hm : ∀ c, m.get i c = w.distanceMatrix.get i c) :
    RowOk input.length d (fun j => input.getD j 0) (fun k => (putPath path p).getD k 0) m i :=
  (h.rows i (hi.trans hp) hcalc).congr hm fun _ hk => getD_putPath hp (hk.trans_le hi)

/-- The symbols after one more is put. -/
theorem update_putPath {f : Nat → Nat} {path : List Nat} (hf : ∀ i < path.length, f i = path.getD i 0)
    {p : Nat × Nat} (hp : p.2 ≤ path.length) {k : Nat} (hk : k < p.2 + 1) :
    Function.update f p.2 p.1 k = (putPath path p).getD k 0 := by
  by_cases hkp : k = p.2
  · rw [hkp, Function.update_self, getD_putPath_self hp]
  · rw [Function.update_of_ne hkp, getD_putPath hp (by omega), hf k (by omega)]

theorem Inv.scores_update {path : List Nat} {w : NeedlemanWunsch} (h : Inv input d path w)
    {p : Nat × Nat} (hp : p.2 ≤ path.length) {score : Nat} (hscore : score ≤ p.2 + 1) :
    ∀ i ≤ (putPath path p).length, Function.update w.intermediateScores (p.2 + 1) score i ≤ i := by
  intro i hi
  rw [length_putPath hp] at hi
  by_cases hip : i = p.2 + 1
  · rw [hip, Function.update_self]
    exact hscore
  · rw [Function.update_of_ne hip]
    exact h.scores i (by omega)

/-- The row is behind the last one that can be in the band, so only the path is noted down. -/
theorem Inv.put_behind {path : List Nat} {w : NeedlemanWunsch} (h : Inv input d path w)
    {p : Nat × Nat} (hp : p.2 ≤ path.length) (hn : 0 < input.length)
    (hlong : input.length + d ≤ p.2) (rows : Nat) :
    Inv input d (putPath path p) { w with
      compareSequence := Function.update w.compareSequence p.2 p.1
      intermediateScores := Function.update w.intermediateScores (p.2 + 1) (w.intermediateScores p.2 + 1)
      lastPutPosition := p.2
      distanceMatrix := w.distanceMatrix.ensureRowCapacity rows } := by
  have hlen := length_putPath hp
  refine ⟨h.maxDistance, h.inputSequence, ?_, fun i hi => ?_,
    h.scores_update hp (Nat.succ_le_succ (h.scores p.2 hp)), fun i hi hcalc => ?_, fun _ => ?_⟩
  · rw [DistanceMatrix.numberOfColumns_ensureRowCapacity]
    exact h.columns
  · rw [hlen] at hi
    exact update_putPath h.compareSequence hp hi
  · exact h.rows_kept hp (by omega) hcalc fun c => DistanceMatrix.get_ensureRowCapacity _ _ _ _
  · have hpath : path ≠ [] := List.length_pos_iff.mp (by omega)
    show w.latestCalculatedRow = _
    rw [h.latest hpath, hlen]
    omega

/-- The loop is entered with the cell in front of the band. -/
theorem LoopInv.start {m : DistanceMatrix} {score : Nat} (hm : m.numberOfColumns = input.length + 1) :
    LoopInv input d b r (leftCutoff d r)
      (m.set (r + 1) (leftCutoff d r - 1) ((r + 1 - leftCutoff d r + 1) * 1)) score
      (m.set (r + 1) (leftCutoff d r - 1) ((r + 1 - leftCutoff d r + 1) * 1), score)
      (leftCutoff d r - 1 + 1) := by
  have hpos := leftCutoff_pos d r
  refine ⟨?_, fun _ _ _ => rfl, fun c hc hlt => ?_, le_rfl, fun c hc hlt => by omega⟩
  · rw [DistanceMatrix.numberOfColumns_set]
    exact hm
  · have hc' : c = leftCutoff d r - 1 := by omega
    have hdist := le_osa_add (fun j => input.getD j 0) b (r + 1) c
    rw [hc', DistanceMatrix.get_set_self, ← hc']
    by_cases hd : r + 1 > d
    · have hcutd : leftCutoff d r = r + 1 - d := if_pos hd
      exact .of_lt (by omega) (by omega)
    · have hcut1 : leftCutoff d r = 1 := if_neg hd
      have hc0 : c = 0 := by omega
      rw [hc0, osa_zero_right, hcut1, Nat.mul_one, Nat.add_sub_cancel]
      exact .rfl _ _

/-- **One `Put`**, for an input that is not empty. -/
theorem Inv.put {path : List Nat} {w : NeedlemanWunsch} (hne : input ≠ []) (h : Inv input d path w)
    {p : Nat × Nat} (hp : p.2 ≤ path.length) :
    Inv input d (putPath path p) (put damerauLevenshtein w p.1 p.2).2 ∧
      (d < (put damerauLevenshtein w p.1 p.2).1 → p.2 + 1 < input.length → ∀ j ≤ input.length,
        d < osa (fun j => input.getD j 0) (fun k => (putPath path p).getD k 0) (p.2 + 1) j) := by
  have hn : 0 < input.length := List.length_pos_iff.mpr hne
  have hlen := length_putPath hp
  have hscore : w.intermediateScores p.2 + 1 ≤ p.2 + 1 := Nat.succ_le_succ (h.scores p.2 hp)
  unfold NeedlemanWunsch.put
  dsimp only
  rw [DistanceMatrix.numberOfColumns_ensureRowCapacity, h.columns, h.maxDistance, h.inputSequence,
    Nat.add_sub_cancel, show damerauLevenshtein.getInsertionCost p.1 = 1 from rfl,
    show damerauLevenshtein.getCompletionCost = 1 from rfl, Nat.min_self,
    show (if p.2 + 1 > d then p.2 + 1 - d else 1) = leftCutoff d p.2 from rfl]
  by_cases hearly : leftCutoff d p.2 ≥ input.length + 1
  · -- The row is behind the last one that can be in the band.
    have hlong : input.length + d ≤ p.2 := by
      unfold leftCutoff at hearly
      split at hearly <;> omega
    rw [if_pos hearly]
    have hbehind := h.put_behind hp hn hlong (p.2 + 1 + 2)
    rw [← h.maxDistance, ← h.inputSequence] at hbehind ⊢
    exact ⟨hbehind, fun _ hshort => by rw [h.inputSequence] at hshort; omega⟩
  · have hcut : leftCutoff d p.2 ≤ input.length := by omega
    have hpos := leftCutoff_pos d p.2
    have hcalc : p.2 + 1 ≤ input.length + d := by
      unfold leftCutoff at hcut
      split at hcut <;> omega
    have hband : p.2 + 1 ≤ leftCutoff d p.2 + d ∧ leftCutoff d p.2 ≤ p.2 + 1 := by
      unfold leftCutoff
      split <;> omega
    rw [if_neg hearly]
    generalize hm0 : (w.distanceMatrix.ensureRowCapacity (p.2 + 1 + 2)).set (p.2 + 1)
      (leftCutoff d p.2 - 1) ((p.2 + 1 - leftCutoff d p.2 + 1) * 1) = m0
    generalize hright : min (input.length + 1) (p.2 + 1 + d + 1) = right
    have hothers : ∀ i c, i ≠ p.2 + 1 → m0.get i c = w.distanceMatrix.get i c := by
      intro i c hi
      rw [← hm0, DistanceMatrix.get_set_row _ hi, DistanceMatrix.get_ensureRowCapacity]
    generalize hb : Function.update w.compareSequence p.2 p.1 = b
    have hbk : ∀ k < p.2 + 1, b k = (putPath path p).getD k 0 := fun k hk => by
      rw [← hb]
      exact update_putPath h.compareSequence hp hk
    have hcodepoint : b p.2 = p.1 := by
      rw [← hb]
      exact Function.update_self _ _ _
    have hkept : ∀ i ≤ p.2, RowOk input.length d (fun j => input.getD j 0) b m0 i := fun i hi =>
      (h.rows_kept hp hi (by omega) fun c => hothers i c (by omega)).congr (fun _ => rfl)
        fun k hk => hbk k (by omega)
    have hstart : LoopInv input d b p.2 (leftCutoff d p.2) m0 (w.intermediateScores p.2 + 1)
        (m0, w.intermediateScores p.2 + 1) (leftCutoff d p.2 - 1 + 1) := by
      rw [← hm0]
      refine LoopInv.start ?_
      rw [DistanceMatrix.numberOfColumns_ensureRowCapacity]
      exact h.columns
    have hloop := LoopInv.run (hkept p.2 le_rfl) (fun _ => hkept (p.2 - 1) (by omega))
      (right - leftCutoff d p.2) (leftCutoff d p.2 - 1) hstart (by omega) (by omega) (by omega)
      (by omega)
    have hend : leftCutoff d p.2 - 1 + 1 + (right - leftCutoff d p.2) = right := by omega
    rw [hend, hcodepoint, show leftCutoff d p.2 - 1 + 1 = leftCutoff d p.2 by omega] at hloop
    have hrowOk := hloop.rowOk hright.symm hcut
    have hlt := hloop.lt_of_score hright.symm hscore
    dsimp only
    generalize (List.range' (leftCutoff d p.2) (right - leftCutoff d p.2)).foldl
      (calculateColumn damerauLevenshtein input b d (p.2 + 1) p.1)
      (m0, w.intermediateScores p.2 + 1) = s at hloop hrowOk hlt ⊢
    refine ⟨⟨rfl, rfl, ?_, fun i hi => ?_, ?_, fun i hi hcalc' => ?_,
      fun _ => ?_⟩, fun hd _ j hj => ?_⟩
    · split
      · exact hloop.columns
      · exact hloop.columns
    · rw [hlen] at hi
      exact hbk i hi
    · exact h.scores_update hp (hloop.score.trans hscore)
    · rw [hlen] at hi
      rcases Nat.lt_or_eq_of_le hi with hlt' | rfl
      · refine h.rows_kept hp (by omega) hcalc' fun c => ?_
        have hi' : i ≠ p.2 + 1 := hlt'.ne
        rw [← hothers i c hi', ← hloop.others i c hi']
        dsimp only
        split
        · rw [DistanceMatrix.get_set_row _ hi', DistanceMatrix.get_set_row _ hi']
        · rfl
      · exact hrowOk.congr (fun _ => rfl) fun k hk => (hbk k hk).symm
    · rw [hlen]
      show p.2 + 1 = _
      omega
    · rw [← osa_congr (p.2 + 1) j hbk]
      exact hlt hd j hj

theorem inv_new (memory : Nat → Nat → Nat) (input : List Nat) (rows d : Nat) :
    Inv input d [] (new damerauLevenshtein memory input rows d) := by
  refine ⟨rfl, rfl, rfl, fun i hi => absurd hi (Nat.not_lt_zero i), fun i hi => Nat.zero_le i,
    fun i hi _ => ?_, fun h => absurd rfl h⟩
  obtain rfl : i = 0 := Nat.le_zero.mp hi
  intro c hc _
  rw [osa_zero]
  have hcell : (new damerauLevenshtein memory input rows d).distanceMatrix.get 0 c = c * 1 :=
    if_pos ⟨rfl, Nat.lt_succ_of_le hc⟩
  rw [hcell, Nat.mul_one]
  exact .rfl _ _

/-- **A run**, by induction on its calls: the invariant, and what the last intermediate score says. -/
theorem Inv.run (hne : input ≠ []) :
    ∀ (puts : List (Nat × Nat)) {path : List Nat} {s : Nat × NeedlemanWunsch},
      Inv input d path s.2 → DepthFirst path.length puts →
      Inv input d (puts.foldl putPath path)
        (puts.foldl (fun s p => NeedlemanWunsch.put damerauLevenshtein s.2 p.1 p.2) s).2 ∧
      (puts ≠ [] → d < (puts.foldl (fun s p => NeedlemanWunsch.put damerauLevenshtein s.2 p.1 p.2) s).1 →
        (puts.foldl putPath path).length < input.length → ∀ j ≤ input.length,
          d < osa (fun j => input.getD j 0) (fun k => (puts.foldl putPath path).getD k 0)
            (puts.foldl putPath path).length j)
  | [], _, _, h, _ => ⟨h, fun h => absurd rfl h⟩
  | p :: puts, path, s, h, hdepth => by
    obtain ⟨hp, hdepth⟩ := hdepth
    obtain ⟨hput, hscore⟩ := h.put hne hp
    have hlen := length_putPath hp
    rw [← hlen] at hdepth
    obtain ⟨hrun, hlast⟩ := Inv.run hne puts (s := NeedlemanWunsch.put damerauLevenshtein s.2 p.1 p.2)
      hput hdepth
    refine ⟨hrun, fun _ hd hshort => ?_⟩
    cases puts with
    | nil =>
      rw [List.foldl_cons, List.foldl_nil] at hshort ⊢
      rw [hlen] at hshort ⊢
      exact hscore hd hshort
    | cons q puts => exact hlast (List.cons_ne_nil q puts) hd hshort

theorem length_pathOf_pos : ∀ {puts : List (Nat × Nat)} {path : List Nat}, puts ≠ [] →
    DepthFirst path.length puts → 0 < (puts.foldl putPath path).length
  | [], _, h, _ => absurd rfl h
  | [p], path, _, hdepth => by
    rw [List.foldl_cons, List.foldl_nil, length_putPath hdepth.1]
    exact Nat.succ_pos _
  | p :: q :: puts, path, _, hdepth => by
    show 0 < ((q :: puts).foldl putPath (putPath path p)).length
    refine length_pathOf_pos (List.cons_ne_nil q puts) ?_
    rw [length_putPath hdepth.1]
    exact hdepth.2

/-- Without input no row is calculated. -/
theorem put_nil {w : NeedlemanWunsch} (cost : CostFunction) (h : w.distanceMatrix.numberOfColumns = 1)
    (c q : Nat) : getScore (NeedlemanWunsch.put cost w c q).2 = getScore w ∧
      (NeedlemanWunsch.put cost w c q).2.distanceMatrix.numberOfColumns = 1 := by
  unfold NeedlemanWunsch.put getScore
  dsimp only
  rw [DistanceMatrix.numberOfColumns_ensureRowCapacity, h, if_pos (by split <;> omega)]
  dsimp only
  rw [DistanceMatrix.numberOfColumns_ensureRowCapacity, h, DistanceMatrix.get_ensureRowCapacity]
  exact ⟨rfl, rfl⟩

theorem getScore_nil (cost : CostFunction) : ∀ (puts : List (Nat × Nat)) (s : Nat × NeedlemanWunsch),
    s.2.distanceMatrix.numberOfColumns = 1 →
      getScore (puts.foldl (fun s p => NeedlemanWunsch.put cost s.2 p.1 p.2) s).2 = getScore s.2
  | [], _, _ => rfl
  | p :: puts, s, h => by
    obtain ⟨hscore, hcolumns⟩ := put_nil cost h p.1 p.2
    rw [List.foldl_cons, getScore_nil cost puts _ hcolumns, hscore]

/-- **The score** of a path is the distance of its first symbols, as many as have rows. -/
theorem Inv.getScore_agrees {path : List Nat} {w : NeedlemanWunsch} (h : Inv input d path w)
    (hpath : path ≠ []) : Agrees d w.getScore (osa (fun j => input.getD j 0) (fun k => path.getD k 0)
      (min path.length (input.length + d)) input.length) := by
  unfold getScore
  rw [h.columns, Nat.add_sub_cancel, h.latest hpath]
  exact h.rows _ (Nat.min_le_left _ _) (Nat.min_le_right _ _) _ le_rfl (.inr rfl)

theorem distance_take {path input : List Nat} {n : Nat} (hn : n ≤ path.length) :
    distance (path.take n) input =
      osa (fun j => input.getD j 0) (fun k => path.getD k 0) n input.length := by
  unfold distance
  rw [List.length_take, Nat.min_eq_left hn]
  refine osa_congr _ _ fun k hk => ?_
  rw [List.getD_eq_getElem?_getD, List.getElem?_take_of_lt hk, List.getD_eq_getElem?_getD]

/-- A path that is longer by more than the maximal distance is not within it. -/
theorem lt_distance_of_length {path input : List Nat} (h : input.length + d < path.length) :
    d < distance path input := by
  have := le_osa_add (fun j => input.getD j 0) (fun k => path.getD k 0) path.length input.length
  unfold distance
  omega

/-- Without input the score is what the memory holds. -/
theorem not_agrees_nil {d rows : Nat} {puts : List (Nat × Nat)} (hpos : 0 < (pathOf puts).length) :
    ¬ ∀ memory, Agrees d (run damerauLevenshtein (new damerauLevenshtein memory [] rows d) puts).2.getScore
      (distance (pathOf puts) []) := by
  intro h
  have hscore : ∀ memory, (run damerauLevenshtein (new damerauLevenshtein memory [] rows d)
      puts).2.getScore = memory 1 0 := fun memory => by
    unfold run
    rw [getScore_nil damerauLevenshtein puts _ rfl]
    rfl
  have hdist : distance (pathOf puts) [] = (pathOf puts).length := osa_zero_right _ _ _
  have hzero := h fun _ _ => 0
  rw [hscore, hdist] at hzero
  obtain ⟨h1, h2⟩ := hzero
  omega

/-- A row above the bound stays above it, however the path goes on. -/
theorem lt_distance_append {path input : List Nat}
    (hrow : ∀ j ≤ input.length,
      d < osa (fun j => input.getD j 0) (fun k => path.getD k 0) path.length j) (more : List Nat) :
    d < distance (path ++ more) input := by
  have hsame : ∀ k < path.length, (path ++ more).getD k 0 = path.getD k 0 := fun k hk =>
    List.getD_append _ _ _ _ hk
  unfold distance
  rw [List.length_append]
  refine lt_osa_of_row (fun j hj => ?_) more.length input.length le_rfl
  rw [osa_congr _ j hsame]
  exact hrow j hj

/-- **The banded distance agrees with the full matrix** exactly when the input is not empty and the path is
not longer than the input and the maximal distance together, or has left the bound before. A last
intermediate score above the bound always means that no extension of a short path is within it. -/
theorem getScore_agrees_iff (input : List Nat) (d rows : Nat) (puts : List (Nat × Nat))
    (hne : puts ≠ []) (hdepth : DepthFirst 0 puts) :
    ((∀ memory, Agrees d (run damerauLevenshtein (new damerauLevenshtein memory input rows d) puts).2.getScore
        (distance (pathOf puts) input)) ↔
      input ≠ [] ∧ ((pathOf puts).length ≤ input.length + d ∨
        d < distance ((pathOf puts).take (input.length + d)) input)) ∧
    ∀ memory, d < (run damerauLevenshtein (new damerauLevenshtein memory input rows d) puts).1 →
      (pathOf puts).length < input.length → ∀ more, d < distance (pathOf puts ++ more) input := by
  have hdepth' : DepthFirst ([] : List Nat).length puts := hdepth
  have hpos : 0 < (pathOf puts).length := length_pathOf_pos hne hdepth'
  have hpath : pathOf puts ≠ [] := List.length_pos_iff.mp hpos
  constructor
  · by_cases hinput : input = []
    · subst hinput
      exact ⟨fun h => absurd h (not_agrees_nil hpos), fun h => absurd rfl h.1⟩
    · have hagree : ∀ memory, Agrees d
          (run damerauLevenshtein (new damerauLevenshtein memory input rows d) puts).2.getScore
          (osa (fun j => input.getD j 0) (fun k => (pathOf puts).getD k 0)
            (min (pathOf puts).length (input.length + d)) input.length) := fun memory =>
        ((inv_new memory input rows d).run hinput puts hdepth').1.getScore_agrees hpath
      rw [and_iff_right hinput]
      by_cases hlong : (pathOf puts).length ≤ input.length + d
      · rw [Nat.min_eq_left hlong] at hagree
        exact ⟨fun _ => .inl hlong, fun _ => hagree⟩
      · -- The last row is the one of the first symbols; the whole path is out of the bound.
        have hfar : d < distance (pathOf puts) input := lt_distance_of_length (by omega)
        rw [Nat.min_eq_right (by omega)] at hagree
        rw [or_iff_right hlong, distance_take (by omega)]
        constructor
        · intro h
          exact (hagree fun _ _ => 0).lt ((h fun _ _ => 0).2 hfar)
        · intro h memory
          exact .of_lt ((hagree memory).2 h) hfar
  · intro memory hd hshort more
    have hinput : input ≠ [] := List.length_pos_iff.mp (by omega)
    exact lt_distance_append
      (((inv_new memory input rows d).run hinput puts hdepth').2 hne hd hshort) more

/-- The path `61`, with the input `61` and no distance allowed. -/
theorem getScore_agrees_iff_same :
    ((∀ memory, Agrees 0 (run damerauLevenshtein (new damerauLevenshtein memory [97] 20 0)
        [(97, 0)]).2.getScore (distance (pathOf [(97, 0)]) [97])) ↔
      [97] ≠ [] ∧ ((pathOf [(97, 0)]).length ≤ [97].length + 0 ∨
        0 < distance ((pathOf [(97, 0)]).take ([97].length + 0)) [97])) ∧
    ∀ memory, 0 < (run damerauLevenshtein (new damerauLevenshtein memory [97] 20 0) [(97, 0)]).1 →
      (pathOf [(97, 0)]).length < [97].length → ∀ more, 0 < distance (pathOf [(97, 0)] ++ more) [97] :=
  getScore_agrees_iff [97] 0 20 [(97, 0)] (by decide) ⟨le_rfl, trivial⟩

/-- The path `61 62` has no row; the score is still the one of `61`. -/
theorem not_getScore_agrees : DepthFirst 0 [(97, 0), (98, 1)] ∧
    (run damerauLevenshtein (new damerauLevenshtein (fun _ _ => 0) [97] 20 0)
      [(97, 0), (98, 1)]).2.getScore = 0 ∧
    ¬ Agrees 0 (run damerauLevenshtein (new damerauLevenshtein (fun _ _ => 0) [97] 20 0)
      [(97, 0), (98, 1)]).2.getScore (distance (pathOf [(97, 0), (98, 1)]) [97]) := by
  have hscore : (run damerauLevenshtein (new damerauLevenshtein (fun _ _ => 0) [97] 20 0)
      [(97, 0), (98, 1)]).2.getScore = 0 := by decide +kernel
  have hdist : 0 < distance (pathOf [(97, 0), (98, 1)]) [97] := lt_distance_of_length (by decide)
  refine ⟨⟨le_rfl, le_rfl, trivial⟩, hscore, fun h => ?_⟩
  have := h.2 hdist
  rw [hscore] at this
  exact absurd this (lt_irrefl 0)

end NeedlemanWunsch

end Keyvi.Stringdistance
