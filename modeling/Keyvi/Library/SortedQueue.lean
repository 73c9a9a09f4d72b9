import Mathlib

/-!
# A priority queue in the order of its elements

A mutable priority queue whose elements are changed in place and then moved is, seen through its
ordered iteration, a sorted list: the changed elements leave the front and are inserted again.
`requeue` does this for the first elements, `requeue_spec` says what is left.
-/

namespace SortedQueue

variable {C κ : Type*} [LinearOrder κ]

/-- Insert an element before the first one that is not less. -/
def push (less : C → C → Bool) (t : C) : List C → List C
  | [] => [t]
  | x :: q => if less x t then x :: push less t q else t :: x :: q

/-- Change the first `n` elements, one after the other; those that are still alive are moved to
their new place. An empty queue has no first element. -/
def requeue (less : C → C → Bool) (f : C → C) (alive : C → Bool) : Nat → List C → Option (List C)
  | 0, q => some q
  | _ + 1, [] => none
  | n + 1, t :: q => requeue less f alive n (if alive (f t) then push less (f t) q else q)

variable {less : C → C → Bool} {key : C → κ}

theorem push_perm (t : C) : ∀ q : List C, (push less t q).Perm (t :: q)
  | [] => .refl _
  | x :: q => by
    rw [push]
    split
    · exact ((push_perm t q).cons x).trans (.swap t x q)
    · exact .refl _

theorem mem_push {t x : C} {q : List C} : x ∈ push less t q ↔ x = t ∨ x ∈ q := by
  rw [(push_perm t q).mem_iff, List.mem_cons]

/-- A queue with so many elements does not run empty. -/
theorem exists_requeue {f : C → C} {alive : C → Bool} : ∀ {n : Nat} {q : List C}, n ≤ q.length →
    ∃ q', requeue less f alive n q = some q'
  | 0, q, _ => ⟨q, rfl⟩
  | n + 1, t :: q, h => by
    rw [requeue]
    refine exists_requeue ?_
    have hlen : (push less (f t) q).length = q.length + 1 := (push_perm (f t) q).length_eq
    rw [List.length_cons] at h
    split <;> omega

/-! The comparison needs to be that of the keys only for the elements that occur: `P` holds of them. -/

section

variable {P : C → Prop} (hless : ∀ x y, P x → P y → (less x y = true ↔ key x < key y))

include hless

/-- An element that comes after all of a front is inserted behind it. -/
theorem push_append {t : C} (ht : P t) : ∀ {xs ys : List C}, (∀ x ∈ xs, P x) →
    (∀ x ∈ xs, key x < key t) → push less t (xs ++ ys) = xs ++ push less t ys
  | [], _, _, _ => rfl
  | x :: xs, ys, hP, h => by
    rw [List.cons_append, push,
      if_pos ((hless x t (hP x List.mem_cons_self) ht).mpr (h x List.mem_cons_self)),
      push_append ht (fun y hy => hP y (List.mem_cons_of_mem _ hy))
        fun y hy => h y (List.mem_cons_of_mem _ hy), List.cons_append]

theorem sorted_push {t : C} (ht : P t) : ∀ {q : List C}, (∀ x ∈ q, P x) →
    q.Pairwise (fun x y => key x < key y) → (∀ x ∈ q, key x ≠ key t) →
      (push less t q).Pairwise fun x y => key x < key y
  | [], _, _, _ => List.pairwise_singleton _ _
  | x :: q, hP, hq, hne => by
    rw [List.pairwise_cons] at hq
    rw [push]
    split
    case isTrue h =>
      rw [List.pairwise_cons]
      refine ⟨fun y hy => ?_, sorted_push ht (fun y hy => hP y (List.mem_cons_of_mem _ hy)) hq.2
        fun y hy => hne y (List.mem_cons_of_mem _ hy)⟩
      rcases mem_push.mp hy with rfl | hy
      · exact (hless _ _ (hP x List.mem_cons_self) ht).mp h
      · exact hq.1 y hy
    case isFalse h =>
      have hnot : ¬ key x < key t := mt (hless x t (hP x List.mem_cons_self) ht).mpr h
      have hlt : key t < key x :=
        lt_of_le_of_ne (not_lt.mp hnot) (hne x List.mem_cons_self).symm
      rw [List.pairwise_cons, List.pairwise_cons]
      refine ⟨fun y hy => ?_, hq⟩
      rcases List.mem_cons.mp hy with rfl | hy
      · exact hlt
      · exact hlt.trans (hq.1 y hy)

/-- Filling an empty queue. -/
theorem sorted_foldl_push : ∀ {l q : List C}, (∀ x ∈ l ++ q, P x) →
    q.Pairwise (fun x y => key x < key y) → (∀ x ∈ q, ∀ y ∈ l, key x ≠ key y) →
      l.Pairwise (fun x y => key x ≠ key y) →
      (l.foldl (fun q t => push less t q) q).Perm (l.reverse ++ q) ∧
        (l.foldl (fun q t => push less t q) q).Pairwise fun x y => key x < key y
  | [], q, _, hq, _, _ => ⟨.refl _, hq⟩
  | t :: l, q, hP, hq, hne, hl => by
    rw [List.pairwise_cons] at hl
    have ht : P t := hP t List.mem_cons_self
    have hPq : ∀ x ∈ q, P x := fun x hx => hP x (List.mem_append_right _ hx)
    have hq' := sorted_push hless ht hPq hq fun x hx => hne x hx t List.mem_cons_self
    have hP' : ∀ x ∈ l ++ push less t q, P x := by
      intro x hx
      rcases List.mem_append.mp hx with hx | hx
      · exact hP x (List.mem_append_left _ (List.mem_cons_of_mem _ hx))
      · rcases mem_push.mp hx with rfl | hx
        · exact ht
        · exact hPq x hx
    obtain ⟨hperm, hsort⟩ := sorted_foldl_push hP' hq' (fun x hx y hy => by
      rcases mem_push.mp hx with rfl | hx
      · exact hl.1 y hy
      · exact hne x hx y (List.mem_cons_of_mem _ hy)) hl.2
    refine ⟨?_, hsort⟩
    rw [List.foldl_cons, List.reverse_cons, List.append_assoc]
    exact hperm.trans ((push_perm t q).append_left _)

/-- **The front of a sorted queue is changed and sorted in again.** The changed elements come after
those of the front that are not changed yet. -/
theorem requeue_spec {f : C → C} {alive : C → Bool} : ∀ {xs ys : List C}, (∀ x ∈ xs ++ ys, P x) →
    (∀ x ∈ xs, alive (f x) = true → P (f x)) → ys.Pairwise (fun x y => key x < key y) →
    (∀ x ∈ xs, ∀ x' ∈ xs, alive (f x') = true → key x < key (f x')) →
    (∀ x ∈ xs, ∀ y ∈ ys, key (f x) ≠ key y) →
    xs.Pairwise (fun x x' => key (f x) ≠ key (f x')) →
    ∃ q, requeue less f alive xs.length (xs ++ ys) = some q ∧
      q.Perm (ys ++ (xs.map f).filter alive) ∧ q.Pairwise fun x y => key x < key y
  | [], ys, _, _, hys, _, _, _ => by
    rw [List.length_nil, requeue, List.nil_append, List.map_nil, List.filter_nil, List.append_nil]
    exact ⟨ys, rfl, .refl _, hys⟩
  | x :: xs, ys, hP, hPf, hys, hafter, hne, hxs => by
    rw [List.pairwise_cons] at hxs
    have hafter' : ∀ z ∈ xs, ∀ z' ∈ xs, alive (f z') = true → key z < key (f z') :=
      fun z hz z' hz' => hafter z (List.mem_cons_of_mem _ hz) z' (List.mem_cons_of_mem _ hz')
    have hne' : ∀ z ∈ xs, ∀ y ∈ ys, key (f z) ≠ key y :=
      fun z hz => hne z (List.mem_cons_of_mem _ hz)
    have hP' : ∀ z ∈ xs ++ ys, P z := fun z hz => hP z (List.mem_cons_of_mem _ hz)
    have hPf' : ∀ z ∈ xs, alive (f z) = true → P (f z) :=
      fun z hz => hPf z (List.mem_cons_of_mem _ hz)
    rw [List.length_cons, List.cons_append, requeue, List.map_cons]
    by_cases ha : alive (f x) = true
    · have hPx : P (f x) := hPf x List.mem_cons_self ha
      have hpush : push less (f x) (xs ++ ys) = xs ++ push less (f x) ys :=
        push_append hless hPx (fun z hz => hP' z (List.mem_append_left _ hz)) fun z hz =>
          hafter z (List.mem_cons_of_mem _ hz) x List.mem_cons_self ha
      rw [if_pos ha, hpush, List.filter_cons_of_pos ha]
      have hPpush : ∀ z ∈ xs ++ push less (f x) ys, P z := by
        intro z hz
        rcases List.mem_append.mp hz with hz | hz
        · exact hP' z (List.mem_append_left _ hz)
        · rcases mem_push.mp hz with rfl | hz
          · exact hPx
          · exact hP' z (List.mem_append_right _ hz)
      obtain ⟨q, hrequeue, hperm, hsort⟩ := requeue_spec hPpush hPf'
        (sorted_push hless hPx (fun z hz => hP' z (List.mem_append_right _ hz)) hys
          fun y hy => (hne x List.mem_cons_self y hy).symm) hafter'
        (fun z hz y hy => by
          rcases mem_push.mp hy with rfl | hy
          · exact (hxs.1 z hz).symm
          · exact hne' z hz y hy) hxs.2
      refine ⟨q, hrequeue, hperm.trans ?_, hsort⟩
      exact ((push_perm (f x) ys).append_right _).trans List.perm_middle.symm
    · rw [if_neg ha, List.filter_cons_of_neg ha]
      exact requeue_spec hP' hPf' hys hafter' hne' hxs.2

end

end SortedQueue
