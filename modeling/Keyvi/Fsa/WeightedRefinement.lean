import Mathlib
import Keyvi.Fsa.WeightedZip
import Keyvi.Fsa.ZipRefinement

/-!
# The zipped traverser over weighted ones

`operator++` first gives the traversers at the current path the greatest weights of their labels.
Then all of them walk on in the common order, and those that wait are next to the path. So the
queue stays in that order, and the traversers of one path meet.
-/

namespace Keyvi.Fsa

open Source

namespace WeightedTraverser

variable {sources : List Source} {B : Nat} {p : List Byte} {L : List (List Byte)}

/-! ## The weights of all traversers -/

theorem addWeight_le {m : Byte → Option Nat} {t : WeightedTransition} {x : Byte} {w : Nat} :
    (addWeight m t x).getD 0 ≤ w ↔ (m x).getD 0 ≤ w ∧ (t.label = x → t.weight ≤ w) := by
  unfold addWeight
  by_cases hx : t.label = x
  · subst hx
    cases hm : m t.label with
    | none => simp
    | some v =>
      by_cases hv : v < t.weight
      · simp only [if_pos hv, Function.update_self, Option.getD_some, forall_const]
        omega
      · simp only [if_neg hv, hm, Option.getD_some, forall_const]
        omega
  · -- Another label keeps its weight.
    have hne : x ≠ t.label := fun h => hx h.symm
    cases hm : m t.label with
    | none => simp [hx, Function.update_of_ne hne]
    | some v =>
      by_cases hv : v < t.weight
      · simp [hx, hv, Function.update_of_ne hne]
      · simp [hx, hv]

theorem foldl_addWeight_le {x : Byte} {w : Nat} : ∀ {ts : List WeightedTransition}
    {m : Byte → Option Nat}, (ts.foldl addWeight m x).getD 0 ≤ w ↔
      (m x).getD 0 ≤ w ∧ ∀ t ∈ ts, t.label = x → t.weight ≤ w
  | [], m => by simp
  | t :: ts, m => by
    rw [List.foldl_cons, foldl_addWeight_le, addWeight_le, List.forall_mem_cons, and_assoc]

/-- The first pass finds the greatest weight of a label. -/
theorem globalWeights_le {l : List WeightedTraverser} {x : Byte} {w : Nat} :
    (globalWeights l x).getD 0 ≤ w ↔
      ∀ c ∈ l, ∀ t ∈ c.stateTraverser.stack.getStates.transitions, t.label = x → t.weight ≤ w := by
  have h : ∀ (l : List WeightedTraverser) (m : Byte → Option Nat),
      (l.foldl (fun m c => c.stateTraverser.stack.getStates.transitions.foldl addWeight m) m
        x).getD 0 ≤ w ↔ (m x).getD 0 ≤ w ∧
      ∀ c ∈ l, ∀ t ∈ c.stateTraverser.stack.getStates.transitions, t.label = x → t.weight ≤ w := by
    intro l
    induction l with
    | nil => simp
    | cons c l ih =>
      intro m
      rw [List.foldl_cons, ih, foldl_addWeight_le, List.forall_mem_cons, and_assoc]
  unfold globalWeights
  rw [h]
  simp

/-- **The first pass over all traversers at a path finds the common weights.** -/
theorem globalWeights_eq {l : List WeightedTraverser}
    (hsound : ∀ c ∈ l, ∃ s ∈ sources, s.meets p = true ∧
      c.stateTraverser.stack.getStates = ⟨ownTransitions sources s p, 0⟩)
    (hcomplete : ∀ s ∈ sources, s.meets p = true → ∃ c ∈ l,
      c.stateTraverser.stack.getStates = ⟨ownTransitions sources s p, 0⟩) (x : Byte) :
    (globalWeights l x).getD 0 = greatestWeight sources (x :: p) := by
  refine le_antisymm (globalWeights_le.mpr fun c hc t ht htx => ?_)
    (greatestWeight_le.mpr fun s hs hm hx => ?_)
  · obtain ⟨s, hs, hm, htop⟩ := hsound c hc
    rw [htop] at ht
    obtain ⟨hl, he⟩ := mem_ownTransitions.mp ht
    rw [htx] at hl he
    rw [he]
    exact greatestWeight_le.mp le_rfl s hs hm hl
  · obtain ⟨c, hc, htop⟩ := hcomplete s hs hm
    refine globalWeights_le.mp le_rfl c hc (ownTransition sources s p x) ?_ rfl
    rw [htop]
    exact mem_ownTransitions.mpr ⟨hx, rfl⟩

/-! ## One move -/

/-- The first path of a source behind `p` is a label behind a part of `p`. -/
theorem tail_suffix_of_first {D : Discipline WeightedTransition WeightedPayload
      (List (Natᵒᵈ ×ₗ Byte))} {s : Source} {q : List Byte} {rest : List (List Byte)}
    (hL : D.Agenda sources L) (hc : Preorder.Continues p L)
    (hf : L.filter s.hasPath = q :: rest) : q.tail <:+ p := by
  have hq : q ∈ L.filter s.hasPath := hf ▸ List.mem_cons_self
  obtain ⟨hqL, hqs⟩ := List.mem_filter.mp hq
  refine (hc.tail_mem q hqL).resolve_right fun htL => ?_
  -- The path above would be visited before, and the source has it, too.
  have hlt : q.tail.length < q.length := by
    have := List.length_pos_of_ne_nil (hL.nonempty q hqL)
    rw [List.length_tail]
    omega
  have ht : q.tail ∈ L.filter s.hasPath :=
    List.mem_filter.mpr ⟨htL, hasPath_of_suffix (List.tail_suffix q) hqs⟩
  have hsort := hL.ascending.sublist (List.filter_sublist (p := s.hasPath))
  rw [hf] at ht hsort
  rcases List.mem_cons.mp ht with he | ht
  · rw [he] at hlt
    exact lt_irrefl _ hlt
  · exact lt_asymm (D.key_lt _ _ (List.tail_suffix q) hlt) (List.rel_of_pairwise_cons hsort ht)

theorem Arrives.stands {s : Source} {c : WeightedTraverser} (h : Arrives sources B s c L) :
    (discipline sources B).Arrives s c L := by
  cases L with
  | nil => exact h
  | cons q rest => exact h

theorem Arrives.near {s : Source} {c : WeightedTraverser}
    (hL : (discipline sources B).Agenda sources L) (hc : Preorder.Continues p L)
    (h : Arrives sources B s c (L.filter s.hasPath)) (ha : c.alive = true) :
    Near sources p c := by
  cases hf : L.filter s.hasPath with
  | nil =>
    rw [hf] at h
    exact absurd ha (by rw [show c.alive = false from h]; simp)
  | cons q rest =>
    rw [hf] at h
    have hq : q ∈ L.filter s.hasPath := hf ▸ List.mem_cons_self
    exact Stands.near h (hL.nonempty q (List.mem_filter.mp hq).1) (tail_suffix_of_first hL hc hf)

/-- What `PreIncrement` does with a traverser at the current path. -/
def increment (front : List WeightedTraverser) (c : WeightedTraverser) : WeightedTraverser :=
  if 1 < front.length then applyWeights (globalWeights front) c else c

theorem preIncrement_append (front back : List WeightedTraverser) :
    preIncrement false front.length (front ++ back) = front.map (increment front) ++ back := by
  unfold preIncrement increment
  by_cases h : 1 < front.length
  · simp [h]
  · simp [h]

theorem order_increment (front : List WeightedTraverser) (c : WeightedTraverser) :
    (increment front c).order = c.order := by
  unfold increment
  split <;> rfl

theorem labelStack_increment (front : List WeightedTraverser) (c : WeightedTraverser) :
    (increment front c).labelStack = c.labelStack := by
  unfold increment
  split <;> rfl

/-- **`PreIncrement` gives the traversers at a path the common order.** -/
theorem patched_increment (hw : WellFormed sources B) (hties : TiesAscend sources)
    {front : List WeightedTraverser}
    (hsound : ∀ c ∈ front, ∃ s ∈ sources, c.order = s.order ∧ s.meets p = true ∧
      c.stateTraverser.stack.getStates = ⟨ownTransitions sources s p, 0⟩)
    (hcomplete : ∀ s ∈ sources, s.meets p = true → ∃ c ∈ front, c.order = s.order ∧
      c.stateTraverser.stack.getStates = ⟨ownTransitions sources s p, 0⟩)
    {c : WeightedTraverser} (hc : c ∈ front) {s : Source} (hs : s ∈ sources)
    (hco : c.order = s.order) (hm : s.meets p = true) {rest : List (List Byte)}
    (h : Stands sources B s c p rest) : Patched sources B s (increment front c) p rest := by
  unfold increment
  by_cases hlen : 1 < front.length
  · rw [if_pos hlen]
    refine h.applyWeights (hw.tree s hs) hs hm hties fun x _ => ?_
    exact globalWeights_eq (fun c hc => let ⟨s, hs, _, hm, htop⟩ := hsound c hc; ⟨s, hs, hm, htop⟩)
      (fun s hs hm => let ⟨c, hc, _, htop⟩ := hcomplete s hs hm; ⟨c, hc, htop⟩) x
  · -- No other traverser is here.
    rw [if_neg hlen]
    refine h.alone (hw.tree s hs) fun x hx => ?_
    refine le_antisymm (greatestWeight_le.mp le_rfl s hs hm hx)
      (greatestWeight_le.mpr fun s' hs' hm' _ => ?_)
    obtain ⟨c', hc', hco', -⟩ := hcomplete s' hs' hm'
    have hone : front = [c] := by
      obtain ⟨a, ha⟩ := List.length_eq_one_iff.mp
        (show front.length = 1 by have := List.length_pos_of_mem hc; omega)
      rw [ha] at hc ⊢
      rw [List.mem_singleton.mp hc]
    rw [hone, List.mem_singleton] at hc'
    obtain rfl := hw.eq_of_order hs' hs (by rw [← hco', hc', hco])
    exact le_rfl

theorem meets_of_hasPath {s : Source} (h : s.hasPath p = true) : s.meets p = true := by
  rw [meets, h, Bool.or_true]

theorem meets_iff {s : Source} (hp : p ≠ []) : s.meets p = true ↔ s.hasPath p = true := by
  simp [meets, hp]

/-- **`operator++` goes to the next path of the common order.** -/
theorem at_advance (hw : WellFormed sources B) (hties : TiesAscend sources) {z : WeightedZip}
    (hL : (discipline sources B).Agenda sources (p :: L)) (hcont : Preorder.Continues p L)
    (h : (discipline sources B).At sources z (p :: L)) :
    (discipline sources B).At sources z.advance L := by
  obtain ⟨hqueue, -, hpruned, front, back, hq, heq, hfr⟩ := h
  have hp : p ≠ [] := hL.nonempty p List.mem_cons_self
  have htail : (discipline sources B).Agenda sources L :=
    hL.sublist (List.sublist_cons_self _ _)
  have hpatched : ∀ c ∈ front, ∀ s ∈ sources, c.order = s.order → s.hasPath p = true →
      Stands sources B s c p (L.filter s.hasPath) →
      Patched sources B s (increment front c) p (L.filter s.hasPath) := by
    intro c hc s hs hco hsp hat
    refine patched_increment hw hties (fun c hc => ?_) (fun s hs hm => ?_) hc hs hco
      (meets_of_hasPath hsp) hat
    · obtain ⟨s, hs, hco, hsp, hat⟩ := hfr.front_at c hc
      exact ⟨s, hs, hco, meets_of_hasPath hsp, Stands.top hat⟩
    · obtain ⟨c, hc, hco, hat⟩ :=
        Discipline.mem_front_of_hasPath hw hqueue hq hfr hs ((meets_iff hp).mp hm)
      exact ⟨c, hc, hco, Stands.top hat⟩
  rw [hq] at hqueue
  have hfront : (discipline sources B).FrontMove sources front p L (increment front) p L :=
    ⟨List.suffix_rfl, List.Sublist.refl L, order_increment front, fun c hc => by
      obtain ⟨s, -, -, -, hat⟩ := hfr.front_at c hc
      rw [labelStack_increment]
      exact Stands.labels hat, fun c hc s hs hco hsp hat =>
      ((hpatched c hc s hs hco hsp hat).advance (hw.tree s hs)).stands, fun _ _ _ => rfl⟩
  have hnear : ∀ c ∈ front.map (increment front) ++ back, Near sources p c := by
    intro c hc
    rcases List.mem_append.mp hc with hc | hc
    · obtain ⟨d, hd, rfl⟩ := List.mem_map.mp hc
      obtain ⟨s, hs, hco, hsp, hat⟩ := hfr.front_at d hd
      exact (hpatched d hd s hs hco hsp hat).near hp (List.tail_suffix p)
    · obtain ⟨s, hs, hco, -, q, rest, hf, hat⟩ := hfr.back_at c hc
      have hq : q ∈ L.filter s.hasPath := hf ▸ List.mem_cons_self
      exact Stands.near hat (htail.nonempty q (List.mem_filter.mp hq).1)
        (tail_suffix_of_first htail hcont hf)
  have hnearNext : ∀ c ∈ front.map (increment front), c.advance.alive = true →
      Near sources p c.advance := by
    intro c hc ha
    obtain ⟨d, hd, rfl⟩ := List.mem_map.mp hc
    obtain ⟨s, hs, hco, hsp, hat⟩ := hfr.front_at d hd
    exact ((hpatched d hd s hs hco hsp hat).advance (hw.tree s hs)).near htail hcont ha
  obtain ⟨queue, hrequeue, hmove⟩ := hqueue.requeue hw hL hfr hfront
    (fun c d hc hd => less_iff hc hd) hnear hnearNext
  have hpre : ZipT.preIncrement z.pruned z.equalStates z.traverserQueue =
      front.map (increment front) ++ back := by
    rw [heq, hq, hpruned]
    exact preIncrement_append front back
  rw [← hpre, ← heq] at hrequeue
  rw [ZipStateTraverser.advance_of_requeue hrequeue]
  exact Discipline.at_fillInValues hw htail hmove

/-! ## The start -/

/-- The paths of all sources in the common order. -/
def commonTrails (sources : List Source) (B : Nat) : List (List Byte) :=
  sortedTrails (weightedStep sources) (fun q => sources.any fun s => s.hasPath q) B

theorem any_bounded (hw : WellFormed sources B) (q : List Byte)
    (h : (sources.any fun s => s.hasPath q) = true) : q.length ≤ B := by
  obtain ⟨s, hs, hq⟩ := List.any_eq_true.mp h
  exact length_le_of_hasPath (hw.tree s hs) hq

theorem any_closed (p q : List Byte) (hpq : p <:+ q)
    (h : (sources.any fun s => s.hasPath q) = true) :
    (sources.any fun s => s.hasPath p) = true := by
  obtain ⟨s, hs, hq⟩ := List.any_eq_true.mp h
  exact List.any_eq_true.mpr ⟨s, hs, hasPath_of_suffix hpq hq⟩

theorem mem_commonTrails (hw : WellFormed sources B) {q : List Byte} :
    q ∈ commonTrails sources B ↔ q ≠ [] ∧ ∃ s ∈ sources, s.hasPath q = true := by
  unfold commonTrails
  rw [mem_sortedTrails (any_bounded hw) any_closed, List.any_eq_true]

theorem agenda_commonTrails (hw : WellFormed sources B) :
    (discipline sources B).Agenda sources (commonTrails sources B) where
  ascending := pairwise_sortedTrails (weightedStep_inj sources) (any_bounded hw)
  nonempty _ hq := ((mem_commonTrails hw).mp hq).1
  covered _ hq := ((mem_commonTrails hw).mp hq).2

theorem continues_commonTrails (hw : WellFormed sources B) :
    Preorder.Continues [] (commonTrails sources B) :=
  Preorder.continues_subtree (bounded_sortedLabels (any_bounded hw))

/-- The paths of one source are in the common order, too. -/
theorem filter_commonTrails (hw : WellFormed sources B) {s : Source} (hs : s ∈ sources) :
    (commonTrails sources B).filter s.hasPath =
      Preorder.subtree (weightedChildren sources s) B [] :=
  filter_sortedTrails (weightedStep_inj sources) (any_bounded hw) any_closed
    (fun _ hq => length_le_of_hasPath (hw.tree s hs) hq) (fun _ _ h hq => hasPath_of_suffix h hq)
    fun _ hq => List.any_eq_true.mpr ⟨s, hs, hq⟩

/-- A traverser that has not been advanced. -/
def atStart (s : Source) : WeightedTraverser :=
  ComparableStateTraverser.ofState s.fsa s.start default false s.order

theorem getStates_atStart (sources : List Source) (s : Source) :
    (atStart s).stateTraverser.stack.getStates = ⟨ownTransitions sources s [], 0⟩ := by
  have h := getOutGoingTransitions_own sources s [] (rfl : (default : WeightedPayload).minWeight = 0) 0
  exact congrArg Prod.fst h

theorem stands_atStart {s : Source} (h0 : s.start ≠ 0) :
    Stands sources B s (atStart s) [] (Preorder.pending (weightedChildren sources s) B []
      [weightedChildren sources s []]) where
  fsa := rfl
  state := rfl
  alive := h0
  label _ h := by cases h
  labels := rfl
  depth := rfl
  top := getStates_atStart sources s
  payload := congrArg (fun x => x.2.minWeight)
    (getOutGoingTransitions_own sources s [] (rfl : (default : WeightedPayload).minWeight = 0) 0)
  stack := ⟨[], trivial, rfl, rfl⟩

/-- The inner traversers of a new zipped traverser. -/
def started (sources : List Source) (s : Source) : WeightedTraverser :=
  (increment (sources.map atStart) (atStart s)).advance

/-- **A new inner traverser is at the first path of its source.** -/
theorem arrives_started (hw : WellFormed sources B) (hties : TiesAscend sources) {s : Source}
    (hs : s ∈ sources) :
    Arrives sources B s (started sources s) ((commonTrails sources B).filter s.hasPath) := by
  have hB : Preorder.Bounded (weightedChildren sources s) B := bounded (hw.tree s hs)
  have hroot := Preorder.pending_root hB
  rw [filter_commonTrails hw hs, ← hroot]
  by_cases h0 : s.start = 0
  · -- A source without a state has no paths.
    have hnil : Preorder.subtree (weightedChildren sources s) B [] = [] := by
      refine List.eq_nil_iff_forall_not_mem.mpr fun q hq => ?_
      rw [← filter_commonTrails hw hs, List.mem_filter, hasPath, decide_eq_true_eq, h0,
        ← Automata.walk_reverse, Automata.walk_zero] at hq
      exact hq.2 rfl
    have hstate : (increment (sources.map atStart) (atStart s)).stateTraverser.currentState = 0 := by
      unfold increment
      split <;> exact h0
    have ha : (increment (sources.map atStart) (atStart s)).stateTraverser.advance.alive =
        false := by
      rw [StateTraverser.advance, if_pos hstate]
      simp [StateTraverser.alive, hstate]
    rw [hroot, hnil]
    unfold started ComparableStateTraverser.advance
    rw [if_neg (by simp [ha])]
    exact ha
  · refine (patched_increment hw hties (fun c hc => ?_) (fun s' hs' _ => ?_)
      (List.mem_map_of_mem hs) hs rfl (by simp [meets]) (stands_atStart h0)).advance (hw.tree s hs)
    · obtain ⟨s', hs', rfl⟩ := List.mem_map.mp hc
      exact ⟨s', hs', rfl, by simp [meets], getStates_atStart sources s'⟩
    · exact ⟨atStart s', List.mem_map_of_mem hs', rfl, getStates_atStart sources s'⟩

/-- A new zipped traverser is at the first path. -/
theorem at_started (hw : WellFormed sources B) (hties : TiesAscend sources) :
    (discipline sources B).At sources
      (ZipStateTraverser.ofTraversers (sources.map (started sources))) (commonTrails sources B) :=
  Discipline.at_ofTraversers hw (agenda_commonTrails hw)
    (fun s _ => by
      unfold started
      rw [ComparableStateTraverser.order_advance, order_increment]
      rfl)
    (fun s hs => (arrives_started hw hties hs).stands)
    (fun _ _ hc hd => less_iff (p := []) hc hd)
    fun s hs => (arrives_started hw hties hs).near (agenda_commonTrails hw)
      (continues_commonTrails hw)

/-! ## Runs -/

/-- Every run follows the list. -/
theorem at_run (hw : WellFormed sources B) (hties : TiesAscend sources) (n : Nat) :
    ∀ {L : List (List Byte)} {z : WeightedZip} {p : List Byte},
      (discipline sources B).Agenda sources L → Preorder.Continues p L →
      (discipline sources B).At sources z L →
      (discipline sources B).At sources (ZipStateTraverser.advance^[n] z) (L.drop n) := by
  induction n with
  | zero =>
    intro L z p _ _ h
    exact h
  | succ n ih =>
    intro L z p hL hc h
    rw [Function.iterate_succ_apply]
    cases L with
    | nil =>
      have hpre : ∀ b n, ZipT.preIncrement b n ([] : List WeightedTraverser) = [] := by
        intro b n
        show preIncrement b n [] = []
        unfold preIncrement
        simp
      have hdrop := ih hL (p := p) trivial (Discipline.At.advance_nil hpre h)
      rwa [List.drop_nil] at hdrop ⊢
    | cons q L =>
      exact ih (hL.sublist (List.sublist_cons_self _ _)) hc.2 (at_advance hw hties hL hc.2 h)

end WeightedTraverser

end Keyvi.Fsa
