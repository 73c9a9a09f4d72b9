import Mathlib

/-!
# Sorting by weight

A stable sort, heavier elements first: elements of the same weight stay in the order they were in.
-/

namespace StableSort

variable {α : Type*} {w : α → Nat} {l : List α}

/-- **Insertion sort is stable.** Elements that are in order either way stay as they were. -/
theorem filter_insertionSort {r : α → α → Prop} [DecidableRel r] [IsTrans α r] [Std.Total r]
    {p : α → Bool} (hp : ∀ x y, p x = true → p y = true → r x y) (l : List α) :
    (l.insertionSort r).filter p = l.filter p := by
  -- These elements are a sorted sublist, which the sort keeps.
  have hle : (l.filter p).Pairwise r :=
    List.pairwise_of_forall_mem_list fun x hx y hy =>
      hp x y (List.mem_filter.mp hx).2 (List.mem_filter.mp hy).2
  have hsub := (List.sublist_insertionSort hle List.filter_sublist).filter p
  rw [List.filter_filter] at hsub
  simp only [Bool.and_self] at hsub
  refine (hsub.eq_of_length ?_).symm
  exact (((List.perm_insertionSort r l).filter _).length_eq).symm

/-- The elements by descending weight. -/
def sort (w : α → Nat) (l : List α) : List α := l.insertionSort fun x y => w y ≤ w x

theorem sort_perm (w : α → Nat) (l : List α) : (sort w l).Perm l := List.perm_insertionSort _ l

theorem pairwise_le (w : α → Nat) (l : List α) :
    (sort w l).Pairwise fun x y => w y ≤ w x := by
  have : IsTrans α fun x y => w y ≤ w x := ⟨fun _ _ _ h h' => h'.trans h⟩
  have : Std.Total fun x y : α => w y ≤ w x := ⟨fun x y => le_total (w y) (w x)⟩
  exact List.pairwise_insertionSort _ l

/-- Among the elements of one weight nothing changes. -/
theorem filter_sort (w : α → Nat) (l : List α) (k : Nat) :
    (sort w l).filter (fun x => w x = k) = l.filter fun x => w x = k := by
  have : IsTrans α fun x y => w y ≤ w x := ⟨fun _ _ _ h h' => h'.trans h⟩
  have : Std.Total fun x y : α => w y ≤ w x := ⟨fun x y => le_total (w y) (w x)⟩
  refine filter_insertionSort (fun x y hx hy => ?_) l
  rw [decide_eq_true_eq] at hx hy
  rw [hx, hy]

/-- **What a stable sort keeps.** A relation that holds along the list between elements of one
weight holds along the sorted list. -/
theorem pairwise_sort {R : α → α → Prop} (h : l.Pairwise fun x y => w x = w y → R x y) :
    (sort w l).Pairwise fun x y => w y < w x ∨ w x = w y ∧ R x y := by
  rw [List.pairwise_iff_forall_sublist]
  intro x y hxy
  have hle := List.pairwise_iff_forall_sublist.mp (pairwise_le w l) hxy
  rcases hle.lt_or_eq with hlt | heq
  · exact .inl hlt
  · refine .inr ⟨heq.symm, ?_⟩
    have hf := hxy.filter fun z => w z = w x
    rw [filter_sort, List.filter_cons_of_pos (by simp), List.filter_cons_of_pos (by simp [heq]),
      List.filter_nil] at hf
    exact List.pairwise_iff_forall_sublist.mp h (hf.trans List.filter_sublist) heq.symm

end StableSort
