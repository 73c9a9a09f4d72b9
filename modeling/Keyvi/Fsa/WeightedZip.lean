import Mathlib
import Keyvi.Fsa.WeightedTrees

/-!
# Weighted traversers are compared

A weighted traverser holds common weights on all levels it has passed and the weights of its own
automaton at its path. The comparison looks at the levels both have, so it orders two traversers as
the common order does, if they have passed the same path up to the last level of one of them.
-/

namespace Keyvi.Fsa

open Source

namespace WeightedTraverser

variable {sources : List Source} {s : Source} {B : Nat} {c d : WeightedTraverser}
  {p q r : List Byte} {rest : List (List Byte)}

/-- The minimum weight is not set. -/
def noMinimum (payload : WeightedPayload) (_ _ : List Byte) : Prop := payload.minWeight = 0

/-- The traverser is at a path: the transitions there have the weights of the source, the levels
above the common ones. -/
structure Stands (sources : List Source) (B : Nat) (s : Source) (c : WeightedTraverser)
    (p : List Byte) (rest : List (List Byte)) : Prop where
  fsa : c.stateTraverser.fsa = s.fsa
  state : c.stateTraverser.currentState = s.fsa.trailState s.start p
  alive : c.stateTraverser.currentState ≠ 0
  label : ∀ x ∈ p.head?, c.stateTraverser.currentLabel = x
  labels : c.labelStack = p.reverse
  depth : c.stateTraverser.stack.currentDepth = p.length
  top : c.stateTraverser.stack.getStates = ⟨ownTransitions sources s p, 0⟩
  payload : c.stateTraverser.stack.payload.minWeight = 0
  stack : ∃ rs, Lower (commonTransition sources s) c.stateTraverser.stack.traversalStates p rs ∧
    Preorder.Ancestors (weightedChildren sources s) p rs ∧
    rest = Preorder.pending (weightedChildren sources s) B p (weightedChildren sources s p :: rs)

/-- The traverser is at a path and has the common weights there, too. -/
abbrev Patched (sources : List Source) (B : Nat) (s : Source) (c : WeightedTraverser)
    (p : List Byte) (rest : List (List Byte)) : Prop :=
  ComparableStateTraverser.Before s.fsa B (weightedChildren sources s)
    (commonTransition sources s) noMinimum c p rest

theorem walks (sources : List Source) (s : Source) :
    Walks s.fsa s.start (weightedChildren sources s) (commonTransition sources s)
      noMinimum where
  state _ _ _ := rfl
  ne_zero p c hc := by
    have h := mem_sortedLabels.mp hc
    rwa [hasPath, decide_eq_true_eq] at h
  label _ _ := rfl
  passes payload p c r hok _ st := by
    have hmin : payload.minWeight = 0 := hok
    show (if 0 < st ∧ payload.minWeight ≤ _ then st else 0) = st
    rw [hmin]
    rcases Nat.eq_zero_or_pos st with rfl | hst
    · simp
    · simp [hst]
  exhausted payload w := by
    show (if 0 < 0 ∧ payload.minWeight ≤ w then 0 else 0) = 0
    simp
  leave _ _ _ _ hok _ := hok

theorem length_le_of_hasPath (hT : s.fsa.Tree s.start B) (hq : s.hasPath q = true) :
    q.length ≤ B := by
  rw [hasPath, decide_eq_true_eq, ← Automata.walk_reverse] at hq
  by_contra hlen
  exact hq (hT.bounded _ (by simpa using hlen))

theorem bounded (hT : s.fsa.Tree s.start B) :
    Preorder.Bounded (weightedChildren sources s) B :=
  bounded_sortedLabels fun _ hq => length_le_of_hasPath hT hq

/-! ## `operator++` -/

/-- A traverser that meets no other has the common weights already. -/
theorem Stands.alone (hT : s.fsa.Tree s.start B)
    (halone : ∀ x ∈ s.listed p, weightIn sources s p x = greatestWeight sources (x :: p))
    (h : Stands sources B s c p rest) : Patched sources B s c p rest := by
  obtain ⟨rs, hlower, hanc, hrest⟩ := h.stack
  have hp : s.fsa.trailState s.start p ≠ 0 := h.state ▸ h.alive
  refine ⟨h.fsa, h.alive, h.labels, _, rs,
    ⟨h.depth, ?_, hlower, List.suffix_rfl, hanc, h.payload⟩, hrest⟩
  rw [h.top]
  exact ownTransitions_eq hT hp halone

/-- **New weights.** A traverser gets the common weights and the common order. -/
theorem Stands.applyWeights (hT : s.fsa.Tree s.start B) (hs : s ∈ sources)
    (hm : s.meets p = true) (hties : TiesAscend sources) {m : Byte → Option Nat}
    (hw : ∀ x ∈ s.listed p, (m x).getD 0 = greatestWeight sources (x :: p))
    (h : Stands sources B s c p rest) : Patched sources B s (applyWeights m c) p rest := by
  obtain ⟨rs, hlower, hanc, hrest⟩ := h.stack
  have hp : s.fsa.trailState s.start p ≠ 0 := h.state ▸ h.alive
  refine ⟨h.fsa, h.alive, h.labels, _, rs,
    ⟨h.depth, ?_, ?_, List.suffix_rfl, hanc, h.payload⟩, hrest⟩
  · unfold WeightedTraverser.applyWeights
    simp only [TraversalStack.getStates, Function.update_self]
    have htop : c.stateTraverser.stack.traversalStates c.stateTraverser.stack.currentDepth =
        ⟨ownTransitions sources s p, 0⟩ := h.top
    rw [htop]
    exact sort_patched hT hp hs hm hties hw
  · -- The levels above keep their transitions.
    refine Lower.congr (fun i hi => ?_) hlower
    unfold WeightedTraverser.applyWeights
    exact (Function.update_of_ne (by rw [h.depth]; omega) _ _).symm

/-- The traverser is at the first of the paths, or at its end. -/
def Arrives (sources : List Source) (B : Nat) (s : Source) (c : WeightedTraverser) :
    List (List Byte) → Prop
  | [] => c.alive = false
  | q :: rest => Stands sources B s c q rest

/-- **`operator++` goes to the next path of the common order.** -/
theorem Patched.advance (hT : s.fsa.Tree s.start B) (h : Patched sources B s c p rest) :
    Arrives sources B s c.advance rest := by
  obtain ⟨r, rs, hs, hrest⟩ := h.stack
  have hn := hs.findNext (bounded hT) (walks sources s)
  rw [← hrest] at hn
  cases rest with
  | nil =>
    have ha : c.stateTraverser.advance.alive = false := by
      unfold StateTraverser.advance StateTraverser.alive
      rw [if_neg h.alive]
      simp only
      rw [if_pos hn]
      simp
    unfold ComparableStateTraverser.advance
    simp only [Arrives, ha, Bool.false_eq_true, if_false]
    exact ha
  | cons q rest =>
    obtain ⟨x, p', r', rs', rfl, hp', hs', hrest'⟩ := hn
    have hne := (walks sources s).ne_zero p' x (hs'.suffix.subset List.mem_cons_self)
    have hnext := hs'.nextState (walks sources s)
    have hadv : c.stateTraverser.advance = { c.stateTraverser with
        currentState := s.fsa.trailState s.start (x :: p')
        currentWeight := greatestWeight sources (x :: p')
        currentLabel := x
        stack := (c.stateTraverser.stack.findNext c.stateTraverser.stack.currentDepth).enter
          s.fsa (s.fsa.trailState s.start (x :: p')) (greatestWeight sources (x :: p')) } := by
      unfold StateTraverser.advance
      rw [if_neg h.alive]
      simp only [hnext, hs'.nextInnerWeight, hs'.nextTransition (walks sources s), if_neg hne, h.fsa]
      rfl
    -- Entering reads the transitions with the weights of the source.
    have hown := getOutGoingTransitions_own sources s (x :: p')
      hs'.payload (p'.length + 1)
    rw [parentWeight_cons] at hown
    have henter : (c.stateTraverser.stack.findNext c.stateTraverser.stack.currentDepth).enter
        s.fsa (s.fsa.trailState s.start (x :: p')) (greatestWeight sources (x :: p')) =
        ⟨Function.update (c.stateTraverser.stack.findNext
            c.stateTraverser.stack.currentDepth).traversalStates (p'.length + 1)
            ⟨ownTransitions sources s (x :: p'), 0⟩, p'.length + 1,
          (c.stateTraverser.stack.findNext c.stateTraverser.stack.currentDepth).payload⟩ := by
      rw [TraversalStack.enter, hs'.depth, hown]
    have halive : c.stateTraverser.advance.alive = true := by
      rw [hadv]
      simpa [StateTraverser.alive] using hne
    have hlabels : resize c.labelStack (c.stateTraverser.advance.getDepth - 1) ++
        [c.stateTraverser.advance.currentLabel] = (x :: p').reverse := by
      have htake := List.prefix_iff_eq_take.mp (List.reverse_prefix.mpr hp')
      have hlen := hp'.length_le
      rw [List.length_reverse] at htake
      rw [hadv, henter]
      show resize c.labelStack (p'.length + 1 - 1) ++ [x] = _
      rw [h.labels, Nat.add_sub_cancel, resize_of_le (by simpa using hlen), ← htake,
        List.reverse_cons]
    unfold ComparableStateTraverser.advance
    simp only [halive, if_true, hlabels]
    rw [hadv, henter]
    refine ⟨h.fsa, rfl, hne, by simp, rfl, rfl, ?_, hs'.payload, r' :: rs', ⟨?_, ?_⟩,
      ⟨hs'.suffix, hs'.ancestors⟩, hrest'⟩
    · simp [TraversalStack.getStates]
    · have htop := hs'.top
      rw [TraversalStack.getStates, hs'.depth] at htop
      have hkeep : Function.update (c.stateTraverser.stack.findNext
            c.stateTraverser.stack.currentDepth).traversalStates (p'.length + 1)
            (⟨ownTransitions sources s (x :: p'), 0⟩ : TraversalState WeightedTransition) p'.length =
          (c.stateTraverser.stack.findNext
            c.stateTraverser.stack.currentDepth).traversalStates p'.length :=
        Function.update_of_ne (by omega) _ _
      simpa only [hkeep] using htop
    · exact hs'.lower.congr fun i hi => (Function.update_of_ne (by omega) _ _).symm

/-! ## The comparison -/

/-- The weights on the way to a path are the common ones. -/
def Along (sources : List Source) (c : WeightedTraverser) (r : List Byte) : Prop :=
  ∀ x q, (x :: q) <:+ r → weightAt c q.length = greatestWeight sources (x :: q)

theorem along_of_lower {states : Nat → TraversalState WeightedTransition} :
    ∀ {p : List Byte} {rs : List (List Byte)}, Lower (commonTransition sources s) states p rs →
      ∀ x q, (x :: q) <:+ p → (states q.length).getNextInnerWeight = greatestWeight sources (x :: q)
  | [], _, _, x, q, hq => absurd (List.suffix_nil.mp hq) (List.cons_ne_nil x q)
  | _ :: _, [], h, _, _, _ => h.elim
  | y :: p, r :: rs, h, x, q, hq => by
    rcases List.suffix_cons_iff.mp hq with heq | hq
    · obtain ⟨rfl, rfl⟩ := List.cons.inj heq
      have hnext := getElem?_eq_of_drop (by simpa using h.1)
      rw [TraversalState.getNextInnerWeight, hnext]
      rfl
    · exact along_of_lower h.2 x q hq

/-- A traverser that takes part when the traversers at the path `p` are advanced. -/
def Near (sources : List Source) (p : List Byte) (c : WeightedTraverser) : Prop :=
  ∃ r, r ≠ [] ∧ c.labelStack = r.reverse ∧ c.stateTraverser.getDepth = r.length ∧
    Along sources c r ∧ r.tail <:+ p

theorem Stands.near (h : Stands sources B s c q rest) (hq : q ≠ []) (ht : q.tail <:+ p) :
    Near sources p c := by
  obtain ⟨rs, hlower, -, -⟩ := h.stack
  exact ⟨q, hq, h.labels, h.depth, along_of_lower hlower, ht⟩

theorem Patched.near (h : Patched sources B s c q rest) (hq : q ≠ []) (ht : q.tail <:+ p) :
    Near sources p c := by
  obtain ⟨r, rs, hs, -⟩ := h.stack
  exact ⟨q, hq, h.labels, hs.depth, along_of_lower hs.lower, ht⟩

/-- On a common part of their paths two traversers have the same weights. -/
theorem weightAt_eq_of_common {r' : List Byte} (hc : Along sources c r) (hd : Along sources d r')
    (hq : q <:+ r) (hq' : q <:+ r') {k : Nat} (hk : k < q.length) : weightAt c k = weightAt d k := by
  have hdrop : q.drop (q.length - (k + 1)) ≠ [] := by
    intro he
    have := congrArg List.length he
    rw [List.length_drop, List.length_nil] at this
    omega
  obtain ⟨x, u, hu⟩ := List.exists_cons_of_ne_nil hdrop
  have hlen : u.length = k := by
    have := congrArg List.length hu
    rw [List.length_drop, List.length_cons] at this
    omega
  have hsuf : (x :: u) <:+ q := hu ▸ List.drop_suffix _ q
  rw [← hlen, hc x u (hsuf.trans hq), hd x u (hsuf.trans hq')]

/-- The comparison looks at the last level both have, when the levels above agree. -/
theorem less_eq {n : Nat} (hc : 0 < c.stateTraverser.getDepth) (hd : 0 < d.stateTraverser.getDepth)
    (hn : min c.stateTraverser.getDepth d.stateTraverser.getDepth = n + 1)
    (hagree : ∀ k < n, weightAt c k = weightAt d k) :
    less c d = if weightAt c n ≠ weightAt d n then decide (weightAt d n < weightAt c n)
      else ComparableStateTraverser.less c d := by
  have hfind : (List.range n).find? (fun k => weightAt c k ≠ weightAt d k) = none := by
    rw [List.find?_eq_none]
    intro k hk
    simpa using hagree k (List.mem_range.mp hk)
  have hmis : mismatch c d n = n := by
    unfold mismatch
    rw [hfind]
    rfl
  unfold less
  simp only [hn, Nat.add_sub_cancel, hmis, hc, hd, true_and]

theorem exists_cons_suffix {t l : List Byte} (h : t <:+ l) (hlt : t.length < l.length) :
    ∃ y, (y :: t) <:+ l := by
  obtain ⟨w, rfl⟩ := h
  have hw : w ≠ [] := by
    rintro rfl
    simp at hlt
  obtain ⟨v, y, rfl⟩ := List.eq_nil_or_concat w |>.resolve_left hw
  exact ⟨y, v, by simp⟩

/-- Paths next to one path leave each other at the last label of one of them. -/
theorem diverge {r' : List Byte} (hr : r ≠ []) (hr' : r' ≠ []) (ht : r.tail <:+ p)
    (ht' : r'.tail <:+ p) : r <:+ r' ∨ r' <:+ r ∨
      ∃ q x x', x ≠ x' ∧ (x :: q) <:+ r ∧ (x' :: q) <:+ r' ∧
        min r.length r'.length = q.length + 1 := by
  obtain ⟨a, t, rfl⟩ := List.exists_cons_of_ne_nil hr
  obtain ⟨b, t', rfl⟩ := List.exists_cons_of_ne_nil hr'
  rcases List.suffix_or_suffix_of_suffix ht ht' with h | h
  · have hlen : t.length ≤ t'.length := h.length_le
    obtain ⟨y, hy⟩ := exists_cons_suffix (show t <:+ b :: t' from h.trans (List.suffix_cons b t'))
      (by simp only [List.length_cons]; omega)
    by_cases hay : a = y
    · exact .inl (hay ▸ hy)
    · refine .inr (.inr ⟨t, a, y, hay, List.suffix_rfl, hy, ?_⟩)
      simp only [List.length_cons]
      omega
  · have hlen : t'.length ≤ t.length := h.length_le
    obtain ⟨y, hy⟩ := exists_cons_suffix (show t' <:+ a :: t from h.trans (List.suffix_cons a t))
      (by simp only [List.length_cons]; omega)
    by_cases hby : b = y
    · exact .inr (.inl (hby ▸ hy))
    · refine .inr (.inr ⟨t', y, b, fun he => hby he.symm, hy, List.suffix_rfl, ?_⟩)
      simp only [List.length_cons]
      omega

/-- The common order of the paths, and weighted traversers. -/
def discipline (sources : List Source) (B : Nat) :
    Discipline WeightedTransition WeightedPayload (List (Natᵒᵈ ×ₗ Byte)) where
  pathKey := Preorder.key (weightedStep sources)
  stands s c p rest := Stands sources B s c p rest
  key_lt _ _ h hlt := Preorder.key_lt_of_suffix (weightedStep sources) h hlt
  equals := ComparableStateTraverser.equals_iff
  labels _ _ _ _ h := h.labels
  fsa _ _ _ _ h := h.fsa
  state _ _ _ _ h := h.state
  alive _ _ _ _ h := by
    simpa [ComparableStateTraverser.alive, StateTraverser.alive] using h.alive
  depth _ _ _ _ h := h.depth
  label _ _ _ _ h := h.label

/-- Where the weights agree on all common levels the labels decide. -/
theorem less_of_suffix {r' : List Byte} (hr : r ≠ []) (hc : c.stateTraverser.getDepth = r.length)
    (hd : d.stateTraverser.getDepth = r'.length) (ha : Along sources c r)
    (ha' : Along sources d r') (h : r <:+ r' ∨ r' <:+ r) (hr' : r' ≠ []) :
    less c d = ComparableStateTraverser.less c d := by
  have hpos := List.length_pos_of_ne_nil hr
  have hpos' := List.length_pos_of_ne_nil hr'
  obtain ⟨n, hn⟩ : ∃ n, min r.length r'.length = n + 1 := ⟨min r.length r'.length - 1, by omega⟩
  have hagree : ∀ k < n + 1, weightAt c k = weightAt d k := by
    intro k hk
    rcases h with h | h
    · exact weightAt_eq_of_common ha ha' List.suffix_rfl h (by omega)
    · exact weightAt_eq_of_common ha ha' h List.suffix_rfl (by omega)
  rw [less_eq (by rw [hc]; exact hpos) (by rw [hd]; exact hpos') (by rw [hc, hd, hn])
    fun k hk => hagree k (by omega), if_neg (not_not_intro (hagree n (by omega)))]

/-- **Near one path the comparison is that of the common order.** -/
theorem less_iff (hc : Near sources p c) (hd : Near sources p d) :
    less c d = true ↔ (discipline sources B).key c < (discipline sources B).key d := by
  obtain ⟨r, hr, hrl, hrd, hra, hrt⟩ := hc
  obtain ⟨r', hr', hrl', hrd', hra', hrt'⟩ := hd
  have hlabel : ComparableStateTraverser.less c d = true ↔
      r.reverse < r'.reverse ∨ r.reverse = r'.reverse ∧ d.order < c.order := by
    rw [ComparableStateTraverser.less_iff, ComparableStateTraverser.key_lt_iff, hrl, hrl']
  rw [Discipline.key_lt_iff, hrl, hrl', List.reverse_reverse, List.reverse_reverse]
  show _ ↔ Preorder.key (weightedStep sources) r < Preorder.key (weightedStep sources) r' ∨
    Preorder.key (weightedStep sources) r = Preorder.key (weightedStep sources) r' ∧
      d.order < c.order
  have hshorter : ∀ {v w : List Byte}, v <:+ w → v.length < w.length →
      v.reverse < w.reverse ∧
        Preorder.key (weightedStep sources) v < Preorder.key (weightedStep sources) w := by
    intro v w h hlt
    have := Preorder.key_lt_of_suffix (fun _ c => c) h hlt
    rw [Preorder.key_label, Preorder.key_label] at this
    exact ⟨this, Preorder.key_lt_of_suffix (weightedStep sources) h hlt⟩
  rcases diverge hr hr' hrt hrt' with h | h | ⟨q, x, x', hne, hq, hq', hlen⟩
  · rw [less_of_suffix hr hrd hrd' hra hra' (.inl h) hr', hlabel]
    rcases h.length_le.lt_or_eq with hlt | heq
    · have := hshorter h hlt
      simp [this.1, this.2]
    · rw [h.eq_of_length heq]
      simp
  · rw [less_of_suffix hr hrd hrd' hra hra' (.inr h) hr', hlabel]
    rcases h.length_le.lt_or_eq with hlt | heq
    · have := hshorter h hlt
      simp [lt_asymm this.1, lt_asymm this.2, this.1.ne', this.2.ne']
    · rw [h.eq_of_length heq]
      simp
  · -- The paths part at the last common level.
    have hlow : ∀ k < q.length, weightAt c k = weightAt d k := fun k hk =>
      weightAt_eq_of_common hra hra' ((List.suffix_cons x q).trans hq)
        ((List.suffix_cons x' q).trans hq') hk
    rw [less_eq (by rw [hrd]; exact List.length_pos_of_ne_nil hr)
      (by rw [hrd']; exact List.length_pos_of_ne_nil hr') (by rw [hrd, hrd', hlen]) hlow,
      hra x q hq, hra' x' q hq']
    have hbefore : ∀ {y y' : Byte} {v w : List Byte}, (y :: q) <:+ v → (y' :: q) <:+ w →
        weightedStep sources q y < weightedStep sources q y' →
        Preorder.key (weightedStep sources) v < Preorder.key (weightedStep sources) w :=
      fun hv hw hlt => Preorder.key_lt_of_step (weightedStep sources) hlt hv hw
    have hlabels : ∀ {y y' : Byte} {v w : List Byte}, (y :: q) <:+ v → (y' :: q) <:+ w →
        y < y' → v.reverse < w.reverse := by
      intro y y' v w hv hw hlt
      have := Preorder.key_lt_of_step (fun _ c => c) hlt hv hw
      rwa [Preorder.key_label, Preorder.key_label] at this
    rcases lt_trichotomy (greatestWeight sources (x' :: q)) (greatestWeight sources (x :: q))
      with hlt | heq | hlt
    · have := hbefore hq hq' (weightedStep_lt_iff.mpr (.inl hlt))
      simp [hlt, hlt.ne', this]
    · rw [if_neg (not_not_intro heq.symm), hlabel]
      rcases lt_or_gt_of_ne hne with hx | hx
      · have := hbefore hq hq' (weightedStep_lt_iff.mpr (.inr ⟨heq.symm, hx⟩))
        simp [this, hlabels hq hq' hx]
      · have h1 := hbefore hq' hq (weightedStep_lt_iff.mpr (.inr ⟨heq, hx⟩))
        have h2 := hlabels hq' hq hx
        simp [lt_asymm h1, lt_asymm h2, h1.ne', h2.ne']
    · have := hbefore hq' hq (weightedStep_lt_iff.mpr (.inl hlt))
      simp [hlt.ne, lt_asymm hlt, lt_asymm this, this.ne']

end WeightedTraverser

end Keyvi.Fsa
