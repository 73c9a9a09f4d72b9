import Mathlib
import Keyvi.Fsa.Traversal

/-!
# Traversers that are compared

`comparable_state_traverser.h`: a traverser with the labels of its path, ordered by the labels and,
on the same path, by the place of its automaton in the list, the later one first.
-/

namespace Keyvi.Fsa

/-- `ComparableStateTraverser`. -/
structure ComparableStateTraverser (τ π : Type) where
  stateTraverser : StateTraverser τ π
  labelStack : List Byte
  order : Nat

/-- `std::vector::resize`: new places hold 0. -/
def resize (v : List Byte) (n : Nat) : List Byte := (v ++ List.replicate (n - v.length) 0).take n

theorem resize_of_le {v : List Byte} {n : Nat} (h : n ≤ v.length) : resize v n = v.take n := by
  rw [resize, Nat.sub_eq_zero_of_le h, List.replicate_zero, List.append_nil]

namespace ComparableStateTraverser

variable {τ π : Type}

/-- `operator<` without a specialisation. -/
def less (c rhs : ComparableStateTraverser τ π) : Bool :=
  let compare := memcmp c.labelStack rhs.labelStack (min c.labelStack.length rhs.labelStack.length)
  if compare ≠ 0 then compare < 0
  else if c.labelStack.length ≠ rhs.labelStack.length then
    c.labelStack.length < rhs.labelStack.length
  else c.order > rhs.order

/-- `operator==` without a specialisation: the order does not matter. -/
def equals (c rhs : ComparableStateTraverser τ π) : Bool :=
  if c.labelStack.length ≠ rhs.labelStack.length then false
  else memcmp c.labelStack rhs.labelStack c.labelStack.length = 0

/-- `operator bool`. -/
def alive (c : ComparableStateTraverser τ π) : Bool := c.stateTraverser.alive

variable [TransitionT τ π]

/-- `operator++`. -/
def advance (c : ComparableStateTraverser τ π) : ComparableStateTraverser τ π :=
  let t := c.stateTraverser.advance
  if t.alive then
    { c with
      stateTraverser := t
      labelStack := resize c.labelStack (t.getDepth - 1) ++ [t.currentLabel] }
  else
    { c with stateTraverser := t }

/-- `Prune`. -/
def prune (c : ComparableStateTraverser τ π) : ComparableStateTraverser τ π :=
  { c with
    stateTraverser := c.stateTraverser.prune
    labelStack := c.labelStack.dropLast }

/-- The constructor with a start state. -/
def ofState (f : Automata) (startState : Nat) (payload : π) (advance : Bool) (order : Nat) :
    ComparableStateTraverser τ π :=
  let c : ComparableStateTraverser τ π :=
    ⟨StateTraverser.ofState f startState payload false, [], order⟩
  if advance then c.advance else c

/-- The constructor with an automaton. -/
def ofAutomata (f : Automata) (payload : π) (advance : Bool) (order : Nat) :
    ComparableStateTraverser τ π :=
  ofState f f.getStartState payload advance order

@[simp] theorem order_advance (c : ComparableStateTraverser τ π) : c.advance.order = c.order := by
  rw [advance]
  split <;> rfl

/-! ## The order -/

theorem memcmp_cons_min (x y : Byte) (v w : List Byte) :
    memcmp (x :: v) (y :: w) (min (x :: v).length (y :: w).length) =
      if x = y then memcmp v w (min v.length w.length) else (x.val : Int) - y.val := by
  have hmin : min (x :: v).length (y :: w).length = min v.length w.length + 1 := by
    simp only [List.length_cons]; omega
  rw [hmin, memcmp]

theorem memcmp_self : ∀ v : List Byte, memcmp v v v.length = 0
  | [] => rfl
  | x :: v => by rw [List.length_cons, memcmp, if_pos rfl, memcmp_self v]

/-- The comparison of two label stacks decides their lexicographic order. -/
theorem memcmp_min_spec : ∀ v w : List Byte,
    (memcmp v w (min v.length w.length) < 0 → v < w) ∧
    (0 < memcmp v w (min v.length w.length) → w < v) ∧
    (memcmp v w (min v.length w.length) = 0 →
      (v.length < w.length → v < w) ∧ (w.length < v.length → w < v) ∧
        (v.length = w.length → v = w))
  | [], [] => by simp [memcmp]
  | [], _ :: _ => by simp [memcmp]
  | _ :: _, [] => by simp [memcmp]
  | x :: v, y :: w => by
    rw [memcmp_cons_min]
    by_cases h : x = y
    · subst h
      obtain ⟨h1, h2, h3⟩ := memcmp_min_spec v w
      simp only [if_true, List.length_cons, Nat.add_lt_add_iff_right, Nat.add_right_cancel_iff,
        List.cons_lt_cons_iff, lt_irrefl, false_or, true_and, List.cons.injEq]
      exact ⟨h1, h2, h3⟩
    · have hne : x.val ≠ y.val := fun h' => h (Fin.ext h')
      rw [if_neg h]
      refine ⟨fun h0 => List.cons_lt_cons_iff.mpr (.inl (Fin.lt_def.mpr (by omega))),
        fun h0 => List.cons_lt_cons_iff.mpr (.inl (Fin.lt_def.mpr (by omega))), fun h0 => ?_⟩
      omega

/-- The labels first, then the later automaton. -/
def key (c : ComparableStateTraverser τ π) : List Byte ×ₗ Natᵒᵈ :=
  toLex (c.labelStack, OrderDual.toDual c.order)

omit [TransitionT τ π] in
theorem key_lt_iff {c d : ComparableStateTraverser τ π} :
    c.key < d.key ↔ c.labelStack < d.labelStack ∨
      c.labelStack = d.labelStack ∧ d.order < c.order :=
  Prod.Lex.toLex_lt_toLex

omit [TransitionT τ π] in
theorem less_iff (c d : ComparableStateTraverser τ π) : c.less d = true ↔ c.key < d.key := by
  obtain ⟨h1, h2, h3⟩ := memcmp_min_spec c.labelStack d.labelStack
  rw [key_lt_iff, less]
  rcases lt_trichotomy (memcmp c.labelStack d.labelStack
    (min c.labelStack.length d.labelStack.length)) 0 with h | h | h
  · simp [h.ne, h, h1 h]
  · obtain ⟨h3, h4, h5⟩ := h3 h
    rcases lt_trichotomy c.labelStack.length d.labelStack.length with hl | hl | hl
    · simp [h, hl.ne, hl, h3 hl]
    · simp [h5 hl, memcmp_self]
    · have hlt := h4 hl
      simp [h, hl.ne', not_lt_of_gt hl, hlt.ne', not_lt_of_gt hlt]
  · have hlt := h2 h
    simp [h.ne', not_lt_of_gt h, hlt.ne', not_lt_of_gt hlt]

omit [TransitionT τ π] in
theorem equals_iff (c d : ComparableStateTraverser τ π) :
    c.equals d = true ↔ c.labelStack = d.labelStack := by
  obtain ⟨-, -, h3⟩ := memcmp_min_spec c.labelStack d.labelStack
  rw [equals]
  constructor
  · intro h
    split at h
    · cases h
    · next hl =>
      rw [not_not] at hl
      rw [show min c.labelStack.length d.labelStack.length = c.labelStack.length by omega] at h3
      exact (h3 (of_decide_eq_true h)).2.2 hl
  · intro h
    rw [h, if_neg (by simp)]
    exact decide_eq_true (memcmp_self d.labelStack)

/-! ## Standing at a trail -/

section Stands

variable {a : Automata} {s₀ B : Nat} {children : List Byte → List Byte}
  {transition : List Byte → Byte → τ} {ok : π → List Byte → List Byte → Prop}
  {c : ComparableStateTraverser τ π} {p : List Byte} {rest : List (List Byte)}

/-- The traverser stands at a trail: its labels are the trail, and `rest` is pending. -/
structure At (a : Automata) (s₀ B : Nat) (children : List Byte → List Byte)
    (transition : List Byte → Byte → τ) (ok : π → List Byte → List Byte → Prop)
    (c : ComparableStateTraverser τ π) (p : List Byte) (rest : List (List Byte)) : Prop where
  traverser : TraverserAt a s₀ B children transition ok c.stateTraverser p rest
  labels : c.labelStack = p.reverse

/-- The traverser will arrive at the first trail of `rest` with its next `operator++`; after
`Prune` it is no longer at its state. -/
structure Before (a : Automata) (B : Nat) (children : List Byte → List Byte)
    (transition : List Byte → Byte → τ) (ok : π → List Byte → List Byte → Prop)
    (c : ComparableStateTraverser τ π) (p : List Byte) (rest : List (List Byte)) : Prop where
  fsa : c.stateTraverser.fsa = a
  alive : c.stateTraverser.currentState ≠ 0
  labels : c.labelStack = p.reverse
  stack : ∃ r rs, StackAt children transition ok c.stateTraverser.stack p r rs ∧
    rest = Preorder.pending children B p (r :: rs)

/-- The traverser is at the first of the trails, or at its end. -/
def Arrives (a : Automata) (s₀ B : Nat) (children : List Byte → List Byte)
    (transition : List Byte → Byte → τ) (ok : π → List Byte → List Byte → Prop)
    (c : ComparableStateTraverser τ π) : List (List Byte) → Prop
  | [] => c.alive = false
  | q :: rest => q ≠ [] ∧ At a s₀ B children transition ok c q rest

omit [TransitionT τ π] in
theorem At.before (h : At a s₀ B children transition ok c p rest) :
    Before a B children transition ok c p rest :=
  ⟨h.traverser.fsa, h.traverser.alive, h.labels, h.traverser.stack⟩

omit [TransitionT τ π] in
theorem At.alive (h : At a s₀ B children transition ok c p rest) : c.alive = true := by
  simpa [ComparableStateTraverser.alive, StateTraverser.alive] using h.traverser.alive

/-- **`operator++` moves to the next trail and keeps the labels.** -/
theorem Before.advance (hB : Preorder.Bounded children B)
    (hv : Visits a s₀ children transition ok) (h : Before a B children transition ok c p rest) :
    Arrives a s₀ B children transition ok c.advance rest := by
  obtain ⟨r, rs, hs, hrest⟩ := h.stack
  have hadv := TraverserAt.advance_of_stackAt hB hv h.fsa h.alive hs
  rw [← hrest] at hadv
  cases rest with
  | nil =>
    have h0 : c.stateTraverser.advance.currentState = 0 := hadv
    have ha : c.stateTraverser.advance.alive = false := by simp [StateTraverser.alive, h0]
    rw [Arrives, ComparableStateTraverser.advance, ha, if_neg (by simp)]
    exact ha
  | cons q rest =>
    obtain ⟨hq, hat⟩ := hadv
    have ha : c.stateTraverser.advance.alive = true := by
      simpa [StateTraverser.alive] using hat.alive
    refine ⟨hq, ?_⟩
    rw [ComparableStateTraverser.advance, if_pos ha]
    refine ⟨hat, ?_⟩
    obtain ⟨x, p', rfl⟩ := List.exists_cons_of_ne_nil hq
    have hp' : p' <:+ p := Preorder.tail_suffix_of_pending hrest.symm
    have htake := List.prefix_iff_eq_take.mp (List.reverse_prefix.mpr hp')
    have hlen := hp'.length_le
    rw [List.length_reverse] at htake
    show resize c.labelStack (c.stateTraverser.advance.getDepth - 1) ++ _ = _
    rw [hat.depth, hat.label x rfl, h.labels, List.length_cons, Nat.add_sub_cancel,
      resize_of_le (by simpa using hlen), ← htake, List.reverse_cons]

end Stands

end ComparableStateTraverser

/-- A plain traverser that is compared. -/
abbrev ComparableTraverser := ComparableStateTraverser Transition Unit

namespace ComparableTraverser

variable {a : Automata} {s₀ B : Nat} {c : ComparableTraverser} {p : List Byte}
  {rest : List (List Byte)}

/-- A plain traverser stands at a trail. -/
abbrev At (a : Automata) (s₀ B : Nat) (c : ComparableTraverser) (p : List Byte)
    (rest : List (List Byte)) : Prop :=
  ComparableStateTraverser.At a s₀ B (a.children s₀) (Transition.at' a s₀) Transition.ok c p rest

/-- A plain traverser will arrive at the first trail. -/
abbrev Before (a : Automata) (s₀ B : Nat) (c : ComparableTraverser) (p : List Byte)
    (rest : List (List Byte)) : Prop :=
  ComparableStateTraverser.Before a B (a.children s₀) (Transition.at' a s₀) Transition.ok c p rest

/-- A plain traverser is at the first of the trails. -/
abbrev Arrives (a : Automata) (s₀ B : Nat) (c : ComparableTraverser)
    (l : List (List Byte)) : Prop :=
  ComparableStateTraverser.Arrives a s₀ B (a.children s₀) (Transition.at' a s₀) Transition.ok c l

theorem before_prune (hT : a.Tree s₀ B) {x : Byte} (h : At a s₀ B c (x :: p) rest) :
    Before a s₀ B c.prune p (rest.filter fun q => ¬ (x :: p) <:+ q) := by
  obtain ⟨r, rs, hs, rfl⟩ := h.traverser.stack
  cases rs with
  | nil => exact hs.ancestors.elim
  | cons r' rs =>
    refine ⟨h.traverser.fsa, h.traverser.alive, ?_, r', rs, hs.goUp trivial,
      Preorder.filter_pending (Automata.bounded_children hT) (Automata.nodup_children a s₀)
        hs.ancestors⟩
    rw [ComparableStateTraverser.prune, h.labels, List.reverse_cons, List.dropLast_concat]

theorem arrives_advance (hT : a.Tree s₀ B) (h : Before a s₀ B c p rest) :
    Arrives a s₀ B c.advance rest :=
  ComparableStateTraverser.Before.advance (Automata.bounded_children hT) (Transition.visits hT) h

/-- A new traverser arrives at the first path. -/
theorem arrives_ofState (hT : a.Tree s₀ B) (order : Nat) :
    Arrives a s₀ B (ComparableStateTraverser.ofState a s₀ () true order)
      (Preorder.subtree (a.children s₀) B []) := by
  rw [ComparableStateTraverser.ofState, if_pos rfl]
  by_cases h0 : s₀ = 0
  · have hnil : Preorder.subtree (a.children s₀) B [] = [] := by
      refine List.eq_nil_iff_forall_not_mem.mpr fun q hq => ?_
      rw [Preorder.mem_subtree (Automata.bounded_children hT), Automata.extends_children_iff hT,
        h0, ← Automata.walk_reverse, Automata.walk_zero] at hq
      exact hq.2 rfl
    have hadv : ∀ w, (StateTraverser.atState a s₀ w () : PlainTraverser).advance.alive = false := by
      intro w
      rw [StateTraverser.advance, if_pos (by exact h0)]
      simp [StateTraverser.alive, StateTraverser.atState, h0]
    rw [hnil, Arrives, ComparableStateTraverser.Arrives, ComparableStateTraverser.advance]
    have ha := hadv (a.getInnerWeight s₀)
    rw [if_neg (by simpa [StateTraverser.ofState] using ha)]
    exact ha
  · have hat := PlainTraverser.at_atState hT h0 (a.getInnerWeight s₀)
    exact arrives_advance hT ⟨hat.fsa, hat.alive, rfl, hat.stack⟩

end ComparableTraverser

end Keyvi.Fsa
