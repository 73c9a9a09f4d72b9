import Mathlib
import Keyvi.Library.StableSort

/-!
# Runs of equal keys

What a sort by a key promises, and the first or the last element of every run of equal keys in a
sorted list.
-/

namespace SortedRuns

variable {α K : Type*} {less : α → α → Bool} {sort : List α → List α} {key : α → K} {l : List α}

/-- A sort: the same elements, none less than one before it. -/
structure IsSort (less : α → α → Bool) (sort : List α → List α) : Prop where
  perm : ∀ l, (sort l).Perm l
  ordered : ∀ l, (sort l).Pairwise fun a b => less b a = false

/-- A stable sort: elements of which none is less than the other stay in the order they were in. -/
structure IsStableSort (less : α → α → Bool) (sort : List α → List α) : Prop
    extends IsSort less sort where
  stable : ∀ l a, (sort l).filter (fun b => !less a b && !less b a) =
    l.filter fun b => !less a b && !less b a

section Sorts

variable [LinearOrder K]

theorem IsSort.pairwise_le (h : IsSort less sort) (hless : ∀ a b, less a b = true ↔ key a < key b)
    (l : List α) : (sort l).Pairwise fun a b => key a ≤ key b :=
  (h.ordered l).imp fun {a b} hab => by
    rw [← not_lt, ← hless, hab]
    exact Bool.false_ne_true

/-- Insertion sort is stable. -/
theorem isStableSort_insertionSort (hless : ∀ a b, less a b = true ↔ key a < key b) :
    IsStableSort less (List.insertionSort fun a b => key a ≤ key b) := by
  have : IsTrans α fun a b => key a ≤ key b := ⟨fun _ _ _ h h' => h.trans h'⟩
  have : Std.Total fun a b : α => key a ≤ key b := ⟨fun a b => le_total (key a) (key b)⟩
  have hfalse : ∀ a b, less b a = false ↔ key a ≤ key b := fun a b => by
    rw [← Bool.not_eq_true, hless, not_lt]
  refine ⟨⟨fun l => List.perm_insertionSort _ l, fun l =>
    (List.pairwise_insertionSort _ l).imp fun {a b} hab => (hfalse a b).mpr hab⟩, fun l a => ?_⟩
  refine StableSort.filter_insertionSort (fun x y hx hy => ?_) l
  simp only [Bool.and_eq_true, Bool.not_eq_true', hfalse] at hx hy
  exact hx.1.trans hy.2

end Sorts

variable [DecidableEq K]

/-- The first element of every run, where `previous` is the key in front of the list. -/
def firsts (key : α → K) : K → List α → List α
  | _, [] => []
  | previous, x :: xs =>
    if key x = previous then firsts key previous xs else x :: firsts key (key x) xs

/-- The last element of every run of `x :: l`. -/
def lastsFrom (key : α → K) : α → List α → List α
  | x, [] => [x]
  | x, y :: ys => if key x = key y then lastsFrom key y ys else x :: lastsFrom key y ys

/-- The elements with a key. -/
def run (key : α → K) (k : K) (l : List α) : List α := l.filter fun x => key x = k

theorem run_cons (k : K) (x : α) (l : List α) :
    run key k (x :: l) = if key x = k then x :: run key k l else run key k l := by
  unfold run
  rw [List.filter_cons]
  simp only [decide_eq_true_eq]

theorem run_append (k : K) (l l' : List α) :
    run key k (l ++ l') = run key k l ++ run key k l' :=
  List.filter_append ..

theorem mem_run {k : K} {x : α} : x ∈ run key k l ↔ x ∈ l ∧ key x = k := by
  unfold run
  rw [List.mem_filter, decide_eq_true_eq]

theorem run_eq_nil {k : K} : run key k l = [] ↔ ∀ x ∈ l, key x ≠ k := by
  unfold run
  rw [List.filter_eq_nil_iff]
  simp only [decide_eq_true_eq, ne_eq]

variable [LinearOrder K]

theorem IsStableSort.run_sort (h : IsStableSort less sort)
    (hless : ∀ a b, less a b = true ↔ key a < key b) (k : K) (l : List α) :
    run key k (sort l) = run key k l := by
  have hsame : ∀ a b, (!less a b && !less b a) = decide (key b = key a) := by
    intro a b
    rw [Bool.eq_iff_iff, Bool.and_eq_true, Bool.not_eq_true', Bool.not_eq_true',
      ← Bool.not_eq_true, ← Bool.not_eq_true, hless, hless, not_lt, not_lt, decide_eq_true_eq]
    exact ⟨fun h => le_antisymm h.1 h.2, fun h => ⟨h.le, h.ge⟩⟩
  by_cases hk : ∃ a ∈ l, key a = k
  · obtain ⟨a, -, rfl⟩ := hk
    have hs := h.stable l a
    simp only [hsame] at hs
    exact hs
  · push Not at hk
    rw [run_eq_nil.mpr hk, run_eq_nil.mpr fun x hx => hk x ((h.perm l).mem_iff.mp hx)]

/-! ## The elements that are kept -/

/-- **The first of every run is kept**, unless its key is the one in front. -/
theorem mem_firsts {e : α} : ∀ {l : List α} {previous : K},
    l.Pairwise (fun a b => key a ≤ key b) → (∀ x ∈ l, previous ≤ key x) →
    (e ∈ firsts key previous l ↔ previous < key e ∧ (run key (key e) l).head? = some e)
  | [], previous, _, _ => by simp [firsts, run]
  | x :: l, previous, hl, hp => by
    obtain ⟨hx, hl⟩ := List.pairwise_cons.mp hl
    have hpx := hp x List.mem_cons_self
    rw [firsts, run_cons]
    by_cases hxp : key x = previous
    · rw [if_pos hxp, mem_firsts hl fun y hy => hp y (List.mem_cons_of_mem _ hy)]
      refine and_congr_right fun hlt => ?_
      rw [if_neg (by rw [hxp]; exact hlt.ne)]
    · rw [if_neg hxp, List.mem_cons, mem_firsts hl hx]
      by_cases hxe : key x = key e
      · rw [if_pos hxe, List.head?_cons, Option.some.injEq, hxe]
        constructor
        · rintro (rfl | ⟨hlt, -⟩)
          · exact ⟨lt_of_le_of_ne hpx (Ne.symm hxp), rfl⟩
          · exact absurd hlt (lt_irrefl _)
        · rintro ⟨-, rfl⟩
          exact .inl rfl
      · rw [if_neg hxe]
        constructor
        · rintro (rfl | ⟨hlt, hhead⟩)
          · exact absurd rfl hxe
          · exact ⟨hpx.trans_lt hlt, hhead⟩
        · rintro ⟨-, hhead⟩
          have hmem := mem_run.mp (List.mem_of_mem_head? hhead)
          exact .inr ⟨lt_of_le_of_ne (hx e hmem.1) hxe, hhead⟩

theorem firsts_ascending : ∀ {l : List α} {previous : K},
    l.Pairwise (fun a b => key a ≤ key b) → (∀ x ∈ l, previous ≤ key x) →
    (firsts key previous l).Pairwise fun a b => key a < key b
  | [], _, _, _ => .nil
  | x :: l, previous, hl, hp => by
    obtain ⟨hx, hl⟩ := List.pairwise_cons.mp hl
    rw [firsts]
    split
    · exact firsts_ascending hl fun y hy => hp y (List.mem_cons_of_mem _ hy)
    · exact List.pairwise_cons.mpr
        ⟨fun e he => ((mem_firsts hl hx).mp he).1, firsts_ascending hl hx⟩

/-- Without equal keys only an element with the key in front is left out. -/
theorem mem_firsts_of_lt {l : List α} {previous : K} (hl : l.Pairwise fun a b => key a < key b)
    (hp : ∀ x ∈ l, previous ≤ key x) {e : α} :
    e ∈ firsts key previous l ↔ e ∈ l ∧ key e ≠ previous := by
  have hinj : ∀ x ∈ l, ∀ y ∈ l, key x = key y → x = y :=
    fun x hx y hy => List.inj_on_of_nodup_map (List.pairwise_map.mpr (hl.imp ne_of_lt)) hx hy
  rw [mem_firsts (hl.imp le_of_lt) hp]
  constructor
  · rintro ⟨hlt, hhead⟩
    exact ⟨(mem_run.mp (List.mem_of_mem_head? hhead)).1, hlt.ne'⟩
  · rintro ⟨he, hne⟩
    refine ⟨lt_of_le_of_ne (hp e he) (Ne.symm hne), ?_⟩
    have hmem : e ∈ run key (key e) l := mem_run.mpr ⟨he, rfl⟩
    cases hrun : run key (key e) l with
    | nil =>
      rw [hrun] at hmem
      cases hmem
    | cons x run' =>
      have hx := mem_run.mp (hrun ▸ List.mem_cons_self : x ∈ run key (key e) l)
      rw [List.head?_cons, hinj x hx.1 e he hx.2]

/-- **The last of every run is kept.** -/
theorem mem_lastsFrom {e : α} : ∀ {l : List α} {x : α},
    (x :: l).Pairwise (fun a b => key a ≤ key b) →
    (e ∈ lastsFrom key x l ↔ (run key (key e) (x :: l)).getLast? = some e)
  | [], x, _ => by
    rw [lastsFrom, List.mem_singleton, run_cons]
    by_cases hxe : key x = key e
    · rw [if_pos hxe]
      simp [run, eq_comm]
    · rw [if_neg hxe]
      simp only [run, List.filter_nil, List.getLast?_nil, reduceCtorEq, iff_false]
      rintro rfl
      exact hxe rfl
  | y :: l, x, hl => by
    obtain ⟨hx, hl⟩ := List.pairwise_cons.mp hl
    rw [lastsFrom, run_cons]
    by_cases hxy : key x = key y
    · rw [if_pos hxy, mem_lastsFrom hl]
      by_cases hxe : key x = key e
      · -- The run goes on with `y`.
        rw [if_pos hxe, run_cons, if_pos (hxy ▸ hxe), List.getLast?_cons_cons]
      · rw [if_neg hxe]
    · rw [if_neg hxy, List.mem_cons, mem_lastsFrom hl]
      by_cases hxe : key x = key e
      · have hnone : run key (key e) (y :: l) = [] := by
          refine run_eq_nil.mpr fun z hz hze => hxy (le_antisymm (hx y List.mem_cons_self) ?_)
          rw [hxe, ← hze]
          rcases List.mem_cons.mp hz with rfl | hz
          · exact le_rfl
          · exact (List.pairwise_cons.mp hl).1 z hz
        rw [if_pos hxe, hnone]
        simp [eq_comm]
      · rw [if_neg hxe]
        refine or_iff_right ?_
        rintro rfl
        exact hxe rfl

theorem lastsFrom_ascending : ∀ {l : List α} {x : α},
    (x :: l).Pairwise (fun a b => key a ≤ key b) →
    (lastsFrom key x l).Pairwise fun a b => key a < key b
  | [], _, _ => List.pairwise_singleton _ _
  | y :: l, x, hl => by
    obtain ⟨hx, hl⟩ := List.pairwise_cons.mp hl
    rw [lastsFrom]
    split
    · exact lastsFrom_ascending hl
    · next hxy =>
      refine List.pairwise_cons.mpr ⟨fun e he => ?_, lastsFrom_ascending hl⟩
      have hmem := mem_run.mp (List.mem_of_getLast? ((mem_lastsFrom hl).mp he))
      have hy : key y ≤ key e := by
        rcases List.mem_cons.mp hmem.1 with rfl | hmem
        · exact le_rfl
        · exact (List.pairwise_cons.mp hl).1 e hmem
      exact (lt_of_le_of_ne (hx y List.mem_cons_self) hxy).trans_le hy

end SortedRuns
