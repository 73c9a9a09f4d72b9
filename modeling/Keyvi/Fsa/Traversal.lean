import Mathlib
import Keyvi.Fsa.StateTraverser

/-!
# The tree below a state

The paths of an automaton from a state on form a tree, whose nodes may share states. This module
has the tree itself, the plain `Transition` that shows it in the order of the labels, and what the
tree of a whole dictionary is.
-/

namespace Keyvi.Fsa

namespace Automata

/-- The labels below a trail. -/
def children (a : Automata) (s₀ : Nat) (p : List Byte) : List Byte :=
  if a.trailState s₀ p = 0 then [] else a.outgoingLabels (a.trailState s₀ p)

/-- The paths from the state are no longer than `B` and every transition on them leads to a
state. -/
structure Tree (a : Automata) (s₀ B : Nat) : Prop where
  bounded : ∀ p, B < p.length → a.walk s₀ p = 0
  target : ∀ p, a.walk s₀ p ≠ 0 → ∀ c ∈ a.outgoingLabels (a.walk s₀ p),
    a.resolvePointer (a.walk s₀ p) c ≠ 0

/-- The paths from a state, without the empty one, in the order of a traverser. -/
def paths (a : Automata) (s₀ B : Nat) : List Key :=
  (Preorder.subtree (a.children s₀) B []).map List.reverse

variable {a : Automata} {s₀ B : Nat}

theorem trailState_ne_zero_of_cons {p : List Byte} {c : Byte}
    (h : a.trailState s₀ (c :: p) ≠ 0) : a.trailState s₀ p ≠ 0 := by
  intro h0
  rw [trailState, if_pos h0] at h
  exact h rfl

theorem mem_children_of_trailState {p : List Byte} {c : Byte}
    (h : a.trailState s₀ (c :: p) ≠ 0) : c ∈ a.children s₀ p := by
  have hp := trailState_ne_zero_of_cons h
  rw [trailState, if_neg hp] at h
  rw [children, if_neg hp, mem_outgoingLabels]
  by_contra hl
  rw [tryWalkTransition, if_neg hl] at h
  exact h rfl

theorem mem_children (hT : Tree a s₀ B) {p : List Byte} {c : Byte} :
    c ∈ a.children s₀ p ↔ a.trailState s₀ (c :: p) ≠ 0 := by
  refine ⟨fun hc => ?_, mem_children_of_trailState⟩
  rw [children] at hc
  rw [trailState]
  split at hc
  case isTrue => cases hc
  case isFalse h =>
    rw [if_neg h, ← resolvePointer_of_mem hc, ← walk_reverse]
    rw [← walk_reverse] at h hc
    exact hT.target _ h c hc

theorem pairwise_children (a : Automata) (s₀ : Nat) (p : List Byte) :
    (a.children s₀ p).Pairwise (· < ·) := by
  rw [children]
  split
  · exact List.Pairwise.nil
  · exact pairwise_outgoingLabels a _

theorem nodup_children (a : Automata) (s₀ : Nat) (p : List Byte) : (a.children s₀ p).Nodup :=
  (pairwise_children a s₀ p).imp ne_of_lt

theorem bounded_children (hT : Tree a s₀ B) : Preorder.Bounded (a.children s₀) B := by
  intro p hp
  refine List.eq_nil_iff_forall_not_mem.mpr fun c hc => (mem_children hT).mp hc ?_
  rw [← walk_reverse]
  exact hT.bounded _ (by simp only [List.length_reverse, List.length_cons]; omega)

theorem extends_of_trailState {q : List Byte} (hne : q ≠ []) (hq : a.trailState s₀ q ≠ 0) :
    Preorder.Extends (a.children s₀) [] q := by
  induction q with
  | nil => exact absurd rfl hne
  | cons c q ih =>
    have hc := mem_children_of_trailState hq
    rcases q with _ | ⟨d, q⟩
    · exact .child hc
    · exact .step (ih (by simp) (trailState_ne_zero_of_cons hq)) hc

theorem extends_children_iff (hT : Tree a s₀ B) {q : List Byte} :
    Preorder.Extends (a.children s₀) [] q ↔ q ≠ [] ∧ a.trailState s₀ q ≠ 0 := by
  constructor
  · intro h
    cases h with
    | child hc => exact ⟨by simp, (mem_children hT).mp hc⟩
    | step _ hc => exact ⟨by simp, (mem_children hT).mp hc⟩
  · rintro ⟨hne, hq⟩
    exact extends_of_trailState hne hq

theorem mem_paths (hT : Tree a s₀ B) {p : Key} :
    p ∈ a.paths s₀ B ↔ p ≠ [] ∧ a.walk s₀ p ≠ 0 := by
  rw [paths, List.mem_map]
  constructor
  · rintro ⟨q, hq, rfl⟩
    rw [Preorder.mem_subtree (bounded_children hT), extends_children_iff hT] at hq
    rw [walk_reverse]
    exact ⟨by simpa using hq.1, hq.2⟩
  · rintro ⟨hne, hp⟩
    refine ⟨p.reverse, ?_, List.reverse_reverse p⟩
    rw [Preorder.mem_subtree (bounded_children hT), extends_children_iff hT, trailState_reverse]
    exact ⟨by simpa using hne, hp⟩

theorem pairwise_paths (hT : Tree a s₀ B) : (a.paths s₀ B).Pairwise (· < ·) := by
  rw [paths, List.pairwise_map]
  exact Preorder.pairwise_subtree (pairwise_children a s₀) (bounded_children hT) []

/-! ## The tree of a dictionary -/

/-- A bound on the length of the keys. -/
def depthOf (entries : List (Key × Nat)) : Nat := ((keysOf entries).map List.length).sum

theorem length_le_depthOf {entries : List (Key × Nat)} {k : Key} (h : k ∈ keysOf entries) :
    k.length ≤ depthOf entries :=
  List.le_sum_of_mem (List.mem_map_of_mem h)

variable {entries : List (Key × Nat)}

theorem Holds.walk_ne_zero (h : Holds a entries) {k : Key} (hk : k ∈ keysOf entries) {p : Key}
    (hp : p <+: k) : a.walk a.getStartState p ≠ 0 := by
  intro h0
  obtain ⟨w, rfl⟩ := hp
  refine ((h.final _).mp hk).1 ?_
  rw [walk_append, h0, walk_zero]

theorem Holds.walk_ne_zero_iff (h : Holds a entries) {p : Key} (hp : p ≠ []) :
    a.walk a.getStartState p ≠ 0 ↔ ∃ k ∈ keysOf entries, p <+: k :=
  ⟨h.leads p hp, fun ⟨_, hk, hpk⟩ => h.walk_ne_zero hk hpk⟩

theorem Holds.value_mem (h : Holds a entries) {k : Key} (hk : k ∈ keysOf entries) :
    (k, a.getStateValue (a.walk a.getStartState k)) ∈ entries := by
  obtain ⟨e, he, rfl⟩ := List.mem_map.mp hk
  rw [h.value e he]
  exact he

theorem Holds.eq_nil_of_start (h : Holds a entries) (h0 : a.getStartState = 0) : entries = [] := by
  by_contra hne
  rw [getStartState, if_pos (by rw [h.count]; simpa using hne)] at h0
  exact h.start hne h0

/-- Below every path of a dictionary there is a tree. -/
theorem Holds.tree_walk (h : Holds a entries) (j : Key) :
    Tree a (a.walk a.getStartState j) (depthOf entries) where
  bounded p hp := by
    rw [← walk_append]
    by_contra h0
    obtain ⟨k, hk, hpk⟩ := h.leads (j ++ p) (by rintro he; simp at he; simp [he.2] at hp) h0
    have := hpk.length_le
    have := length_le_depthOf hk
    simp only [List.length_append] at *
    omega
  target p := by
    rw [← walk_append]
    exact h.target (j ++ p)

theorem Holds.tree (h : Holds a entries) : Tree a a.getStartState (depthOf entries) :=
  h.tree_walk []

theorem Holds.mem_paths (h : Holds a entries) {p : Key} :
    p ∈ a.paths a.getStartState (depthOf entries) ↔ p ≠ [] ∧ ∃ k ∈ keysOf entries, p <+: k := by
  rw [Automata.mem_paths h.tree]
  exact and_congr_right fun hp => h.walk_ne_zero_iff hp

theorem Holds.start_ne_zero (h : Holds a entries) (hne : entries ≠ []) : a.getStartState ≠ 0 :=
  fun h0 => hne (h.eq_nil_of_start h0)

/-- A check of `Holds` that looks at the paths with at most one label more than `B`. -/
def checkHolds (a : Automata) (entries : List (Key × Nat)) (B : Nat) : Bool :=
  let trails := [] :: Preorder.below (a.children a.getStartState) (B + 1) []
  let reached := trails.filter fun q => a.trailState a.getStartState q ≠ 0
  decide ((keysOf entries).Pairwise (· < ·)) && decide ([] ∉ keysOf entries) &&
    decide (a.numberOfKeys = entries.length) && decide (entries = [] ∨ a.startState ≠ 0) &&
    (keysOf entries).all (fun k => a.walk a.getStartState k ≠ 0) &&
    entries.all (fun e => a.getStateValue (a.walk a.getStartState e.1) = e.2) &&
    reached.all (fun q => q.length ≤ B) &&
    reached.all (fun q => a.isFinalState (a.trailState a.getStartState q) =
      decide (q.reverse ∈ keysOf entries)) &&
    reached.all (fun q => (a.outgoingLabels (a.trailState a.getStartState q)).all fun c =>
      a.resolvePointer (a.trailState a.getStartState q) c ≠ 0) &&
    reached.all (fun q => q = [] ∨ (keysOf entries).any fun k => q.reverse.isPrefixOf k)

theorem trailState_of_append {p q : List Byte} (h : a.trailState s₀ (p ++ q) ≠ 0) :
    a.trailState s₀ q ≠ 0 := by
  induction p with
  | nil => exact h
  | cons c p ih => exact ih (trailState_ne_zero_of_cons h)

theorem holds_of_check {a : Automata} {entries : List (Key × Nat)} (B : Nat)
    (h : a.checkHolds entries B = true) : Holds a entries := by
  simp only [checkHolds, Bool.and_eq_true, decide_eq_true_eq, List.all_eq_true, List.mem_filter,
    and_imp, List.any_eq_true, Bool.decide_or, Bool.or_eq_true,
    List.isPrefixOf_iff_prefix] at h
  obtain ⟨⟨⟨⟨⟨⟨⟨⟨⟨hsort, hnil⟩, hcount⟩, hstart⟩, hwalk⟩, hval⟩, hlen⟩, hfin⟩, htar⟩, hlead⟩ := h
  have hmem : ∀ q : List Byte, q.length ≤ B + 1 → a.trailState a.getStartState q ≠ 0 →
      q ∈ [] :: Preorder.below (a.children a.getStartState) (B + 1) [] := by
    intro q hq h0
    rcases eq_or_ne q [] with rfl | hne
    · exact List.mem_cons_self
    · exact List.mem_cons_of_mem _ (Preorder.mem_below_of_extends (extends_of_trailState hne h0)
        (by simpa using hq))
  -- A longer path would have one with `B + 1` labels before it.
  have hall : ∀ q : List Byte, a.trailState a.getStartState q ≠ 0 →
      q ∈ [] :: Preorder.below (a.children a.getStartState) (B + 1) [] := by
    intro q h0
    refine hmem q ?_ h0
    by_contra hlong
    have hd : a.trailState a.getStartState (q.drop (q.length - (B + 1))) ≠ 0 := by
      rw [← List.take_append_drop (q.length - (B + 1)) q] at h0
      exact trailState_of_append h0
    have hdl : (q.drop (q.length - (B + 1))).length = B + 1 := by
      rw [List.length_drop]
      omega
    have := hlen _ (hmem _ hdl.le hd) hd
    omega
  have hall' : ∀ k, a.walk a.getStartState k ≠ 0 →
      k.reverse ∈ [] :: Preorder.below (a.children a.getStartState) (B + 1) [] ∧
        a.trailState a.getStartState k.reverse ≠ 0 := by
    intro k hk
    rw [← trailState_reverse] at hk
    exact ⟨hall _ hk, hk⟩
  refine ⟨hsort, hnil, hcount, fun hne => hstart.resolve_left hne, fun k => ?_, hval, ?_, ?_⟩
  · constructor
    · intro hk
      obtain ⟨hm, h0⟩ := hall' k (hwalk k hk)
      have := hfin _ hm h0
      rw [trailState_reverse, List.reverse_reverse] at this
      exact ⟨hwalk k hk, by simpa [hk] using this⟩
    · rintro ⟨hk, hf⟩
      obtain ⟨hm, h0⟩ := hall' k hk
      have := hfin _ hm h0
      rw [trailState_reverse, List.reverse_reverse, hf] at this
      simpa using this.symm
  · intro p hp c hc
    obtain ⟨hm, h0⟩ := hall' p hp
    have := htar _ hm h0 c
    rw [trailState_reverse] at this
    exact this hc
  · intro p hne hp
    obtain ⟨hm, h0⟩ := hall' p hp
    have := hlead _ hm h0
    rw [List.reverse_reverse] at this
    simpa [hne] using this

/-- An automaton from the cells that are used. The others hold a label that does not belong there,
so that a state at a multiple of 256 has only the transitions that are listed; it is final unless a
label is listed for that cell. -/
def ofCells (numberOfKeys startState : Nat) (labels : List (Nat × Byte))
    (cells : List (Nat × Nat)) : Automata where
  numberOfKeys := numberOfKeys
  startState := startState
  labels x := (labels.lookup x).getD (Fin.ofNat 256 (x + 1))
  transitionsCompact x := (cells.lookup x).getD 0

end Automata

/-! ## The plain transition -/

/-- `Transition`. -/
structure Transition where
  state : Nat
  label : Byte
deriving DecidableEq, Repr

instance : TransitionT Transition Unit where
  state := Transition.state
  label := Transition.label
  innerWeight _ := 0
  clear := ⟨[], 0⟩
  childWeight _ _ _ := 0
  add s _ l _ _ st := { st with transitions := st.transitions ++ [⟨s, l⟩] }
  postProcess _ st payload := (st, payload)
  leave _ payload := payload
  filterByMinWeight _ _ state := state

namespace Transition

/-- The transition for a label below a trail. -/
def at' (a : Automata) (s₀ : Nat) (p : List Byte) (c : Byte) : Transition :=
  ⟨a.trailState s₀ (c :: p), c⟩

/-- The payload says nothing. -/
def ok (_ : Unit) (_ _ : List Byte) : Prop := True

variable {a : Automata} {s₀ B : Nat}

theorem foldl_add (f : Byte → Transition) (l : List Byte) (st : TraversalState Transition) :
    l.foldl (fun st c => { st with transitions := st.transitions ++ [f c] }) st =
      { st with transitions := st.transitions ++ l.map f } := by
  induction l generalizing st with
  | nil => simp
  | cons c l ih => rw [List.foldl_cons, ih]; simp

theorem getOutGoingTransitions_eq (a : Automata) (s w d : Nat) (payload : Unit) :
    a.getOutGoingTransitions (τ := Transition) s w d payload =
      (⟨(a.outgoingLabels s).map fun c => ⟨a.resolvePointer s c, c⟩, 0⟩, payload) :=
  congrArg (fun st => (st, payload))
    (foldl_add (fun c => ⟨a.resolvePointer s c, c⟩) (a.outgoingLabels s) ⟨[], 0⟩)

/-- The list of a state that a trail reaches. -/
theorem map_outgoingLabels {p : List Byte} (h : a.trailState s₀ p ≠ 0) :
    (a.outgoingLabels (a.trailState s₀ p)).map
        (fun c => (⟨a.resolvePointer (a.trailState s₀ p) c, c⟩ : Transition)) =
      (a.children s₀ p).map (at' a s₀ p) := by
  rw [Automata.children, if_neg h]
  refine List.map_congr_left fun c hc => ?_
  rw [at', Automata.trailState, if_neg h, Automata.resolvePointer_of_mem hc]

/-- **A plain traverser shows the tree in the order of the labels.** -/
theorem visits (hT : a.Tree s₀ B) : Visits a s₀ (a.children s₀) (at' a s₀) ok where
  state _ _ _ := rfl
  ne_zero _ _ hc := (Automata.mem_children hT).mp hc
  label _ _ := rfl
  passes _ _ _ _ _ _ _ := rfl
  exhausted _ _ := rfl
  expand payload p c r _ hr := by
    have hne := (Automata.mem_children hT).mp (hr.subset List.mem_cons_self)
    exact ⟨_, payload, getOutGoingTransitions_eq a _ _ _ payload, map_outgoingLabels hne, trivial⟩
  leave _ _ _ _ _ _ := trivial

end Transition

/-- `StateTraverser<>` without a payload. -/
abbrev PlainTraverser := StateTraverser Transition Unit

namespace PlainTraverser

variable {a : Automata} {s₀ B : Nat}

/-- The traverser is at a trail of the tree from `s₀`. -/
abbrev At (a : Automata) (s₀ B : Nat) (t : PlainTraverser) (p : List Byte)
    (rest : List (List Byte)) : Prop :=
  TraverserAt a s₀ B (a.children s₀) (Transition.at' a s₀) Transition.ok t p rest

/-- The traverser is at the first of the trails. -/
abbrev ArrivesAt (a : Automata) (s₀ B : Nat) (t : PlainTraverser) (l : List (List Byte)) : Prop :=
  Arrives a s₀ B (a.children s₀) (Transition.at' a s₀) Transition.ok t l

/-- A traverser starts at the root. -/
theorem at_atState (hT : a.Tree s₀ B) (h0 : s₀ ≠ 0) (w : Nat) :
    At a s₀ B (StateTraverser.atState a s₀ w ()) [] (Preorder.subtree (a.children s₀) B []) where
  fsa := rfl
  state := rfl
  alive := h0
  label := by simp
  stack := by
    refine ⟨a.children s₀ [], [], ⟨rfl, ?_, trivial, List.suffix_rfl, rfl, trivial⟩,
      (Preorder.pending_root (Automata.bounded_children hT)).symm⟩
    simp only [StateTraverser.atState, TraversalStack.getStates,
      Transition.getOutGoingTransitions_eq, Function.update_self, List.drop_zero]
    exact Transition.map_outgoingLabels (p := []) h0

theorem advance (hT : a.Tree s₀ B) {t : PlainTraverser} {p : List Byte} {rest : List (List Byte)}
    (h : At a s₀ B t p rest) : ArrivesAt a s₀ B t.advance rest :=
  TraverserAt.advance h (Automata.bounded_children hT) (Transition.visits hT)

end PlainTraverser

end Keyvi.Fsa
