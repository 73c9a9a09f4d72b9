import Mathlib
import Keyvi.Fsa.Traversal
import Keyvi.Fsa.WeightedTraversal
import Keyvi.Fsa.ZipSimulation

/-!
# The order of weighted paths

All traversers that meet at a path get the same weights there, the greatest of every label. With
these weights the paths of all automata have one order, the heavier label first and then the smaller
one. A traverser follows it, if the stable sort does not leave labels of the same weight in the order
of their old weights.
-/

namespace Keyvi.Fsa

open Source

/-! ## Trees whose children are sorted -/

section SortedLabels

variable {β : Type} [LinearOrder β] {step : List Byte → Byte → β} {H : List Byte → Bool}

/-- The labels below a trail among the trails of `H`, in the order of the steps. -/
def sortedLabels (step : List Byte → Byte → β) (H : List Byte → Bool) (p : List Byte) :
    List Byte :=
  ((List.finRange 256).filter fun c => H (c :: p)).insertionSort fun c d => step p c ≤ step p d

theorem mem_sortedLabels {p : List Byte} {c : Byte} :
    c ∈ sortedLabels step H p ↔ H (c :: p) = true := by
  unfold sortedLabels
  simp

theorem nodup_sortedLabels (p : List Byte) : (sortedLabels step H p).Nodup := by
  unfold sortedLabels
  exact (List.perm_insertionSort _ _).nodup_iff.mpr ((List.nodup_finRange 256).filter _)

theorem pairwise_sortedLabels (hinj : ∀ p c d, step p c = step p d → c = d) (p : List Byte) :
    (sortedLabels step H p).Pairwise fun c d => step p c < step p d := by
  have : IsTrans Byte fun c d => step p c ≤ step p d := ⟨fun _ _ _ => le_trans⟩
  have : Std.Total fun c d : Byte => step p c ≤ step p d := ⟨fun c d => le_total _ _⟩
  have hle : (sortedLabels step H p).Pairwise fun c d => step p c ≤ step p d :=
    List.pairwise_insertionSort _ _
  exact (hle.and (nodup_sortedLabels p)).imp fun h =>
    lt_of_le_of_ne h.1 fun he => h.2 (hinj _ _ _ he)

/-- A strictly sorted list of the same labels is that list. -/
theorem eq_sortedLabels (hinj : ∀ p c d, step p c = step p d → c = d) {p l : List Byte}
    (hmem : ∀ c, c ∈ l ↔ H (c :: p) = true)
    (hsort : l.Pairwise fun c d => step p c < step p d) : l = sortedLabels step H p := by
  have hnd : l.Nodup := hsort.imp fun h he => by rw [he] at h; exact lt_irrefl _ h
  refine List.Perm.eq_of_pairwise (fun c d _ _ h h' => absurd h' (lt_asymm h)) hsort
    (pairwise_sortedLabels hinj p) ?_
  exact (List.perm_ext_iff_of_nodup hnd (nodup_sortedLabels p)).mpr fun c => by
    rw [hmem, mem_sortedLabels]

theorem bounded_sortedLabels {B : Nat} (hB : ∀ q, H q = true → q.length ≤ B) :
    Preorder.Bounded (sortedLabels step H) B := by
  intro p hp
  refine List.eq_nil_iff_forall_not_mem.mpr fun c hc => ?_
  have := hB _ (mem_sortedLabels.mp hc)
  simp only [List.length_cons] at this
  omega

theorem extends_sortedLabels_iff (hclosed : ∀ p q, p <:+ q → H q = true → H p = true)
    {q : List Byte} :
    Preorder.Extends (sortedLabels step H) [] q ↔ q ≠ [] ∧ H q = true := by
  constructor
  · intro h
    cases h with
    | child hc => exact ⟨by simp, mem_sortedLabels.mp hc⟩
    | step _ hc => exact ⟨by simp, mem_sortedLabels.mp hc⟩
  · rintro ⟨hne, hq⟩
    induction q with
    | nil => exact absurd rfl hne
    | cons c q ih =>
      have hc : c ∈ sortedLabels step H q := mem_sortedLabels.mpr hq
      rcases q with _ | ⟨d, q⟩
      · exact .child hc
      · exact .step (ih (by simp) (hclosed _ _ (List.suffix_cons c _) hq)) hc

/-- All trails of `H` in order. -/
def sortedTrails (step : List Byte → Byte → β) (H : List Byte → Bool) (B : Nat) :
    List (List Byte) :=
  Preorder.subtree (sortedLabels step H) B []

theorem mem_sortedTrails {B : Nat} (hB : ∀ q, H q = true → q.length ≤ B)
    (hclosed : ∀ p q, p <:+ q → H q = true → H p = true) {q : List Byte} :
    q ∈ sortedTrails step H B ↔ q ≠ [] ∧ H q = true := by
  unfold sortedTrails
  rw [Preorder.mem_subtree (bounded_sortedLabels hB), extends_sortedLabels_iff hclosed]

theorem pairwise_sortedTrails (hinj : ∀ p c d, step p c = step p d → c = d) {B : Nat}
    (hB : ∀ q, H q = true → q.length ≤ B) :
    (sortedTrails step H B).Pairwise fun p q => Preorder.key step p < Preorder.key step q :=
  Preorder.pairwise_key_subtree step (pairwise_sortedLabels hinj) (bounded_sortedLabels hB) []

/-- The trails of a smaller set are those of the larger one that are in it, in the same order. -/
theorem filter_sortedTrails (hinj : ∀ p c d, step p c = step p d → c = d) {B B' : Nat}
    {H' : List Byte → Bool} (hB : ∀ q, H q = true → q.length ≤ B)
    (hclosed : ∀ p q, p <:+ q → H q = true → H p = true)
    (hB' : ∀ q, H' q = true → q.length ≤ B')
    (hclosed' : ∀ p q, p <:+ q → H' q = true → H' p = true) (hsub : ∀ q, H' q = true → H q = true) :
    (sortedTrails step H B).filter H' = sortedTrails step H' B' := by
  have hsort := (pairwise_sortedTrails (H := H) hinj hB).filter H'
  have hsort' := pairwise_sortedTrails (H := H') hinj hB'
  have hnd : ∀ {l : List (List Byte)},
      l.Pairwise (fun p q => Preorder.key step p < Preorder.key step q) → l.Nodup := fun hl =>
    hl.imp fun h he => by rw [he] at h; exact lt_irrefl _ h
  refine List.Perm.eq_of_pairwise (fun p q _ _ h h' => absurd h' (lt_asymm h)) hsort hsort' ?_
  refine (List.perm_ext_iff_of_nodup (hnd hsort) (hnd hsort')).mpr fun q => ?_
  rw [List.mem_filter, mem_sortedTrails hB hclosed, mem_sortedTrails hB' hclosed']
  exact ⟨fun h => ⟨h.1.1, h.2⟩, fun h => ⟨⟨h.1, hsub q h.2⟩, h.2⟩⟩

end SortedLabels

/-! ## Weights -/

namespace Source

/-- The labels of the transitions at a trail. -/
def listed (s : Source) (p : List Byte) : List Byte :=
  s.fsa.outgoingLabels (s.fsa.trailState s.start p)

/-- The weight of a transition before it is compared with other automata. -/
def ownWeight (s : Source) (parentWeight : Nat) (p : List Byte) (c : Byte) : Nat :=
  TransitionT.childWeight WeightedTransition s.fsa parentWeight
    (s.fsa.resolvePointer (s.fsa.trailState s.start p) c)

/-- The traversers that are compared at a trail: at the start all of them. -/
def meets (s : Source) (p : List Byte) : Bool := p = [] || s.hasPath p

end Source

/-- The greatest weight of the last label of a trail. -/
def greatestWeight (sources : List Source) : List Byte → Nat
  | [] => 0
  | c :: p =>
    ((sources.filter fun s => s.meets p && decide (c ∈ s.listed p)).map fun s =>
      s.ownWeight (if p = [] then s.fsa.getInnerWeight s.start else greatestWeight sources p) p
        c).foldr max 0

/-- The weight that is handed down at a trail. -/
def parentWeight (sources : List Source) (s : Source) (p : List Byte) : Nat :=
  if p = [] then s.fsa.getInnerWeight s.start else greatestWeight sources p

theorem parentWeight_cons (sources : List Source) (s : Source) (c : Byte) (p : List Byte) :
    parentWeight sources s (c :: p) = greatestWeight sources (c :: p) :=
  if_neg (List.cons_ne_nil c p)

/-- The weight of a source for a label, before the weights of all are compared. -/
def weightIn (sources : List Source) (s : Source) (p : List Byte) (c : Byte) : Nat :=
  s.ownWeight (parentWeight sources s p) p c

/-- Where two labels have the same greatest weight, no source that has both prefers the larger. -/
def TiesAscend (sources : List Source) : Prop :=
  ∀ s ∈ sources, ∀ p c d, s.meets p = true → c ∈ s.listed p → d ∈ s.listed p → c < d →
    greatestWeight sources (c :: p) = greatestWeight sources (d :: p) →
    weightIn sources s p d ≤ weightIn sources s p c

theorem foldr_max_le {l : List Nat} {w : Nat} : l.foldr max 0 ≤ w ↔ ∀ x ∈ l, x ≤ w := by
  induction l with
  | nil => simp
  | cons x l ih => simp [ih]

theorem greatestWeight_le {sources : List Source} {c : Byte} {p : List Byte} {w : Nat} :
    greatestWeight sources (c :: p) ≤ w ↔
      ∀ s ∈ sources, s.meets p = true → c ∈ s.listed p → weightIn sources s p c ≤ w := by
  rw [greatestWeight, foldr_max_le]
  constructor
  · intro h s hs hm hc
    exact h _ (List.mem_map_of_mem (List.mem_filter.mpr ⟨hs, by simp [hm, hc]⟩))
  · intro h x hx
    obtain ⟨s, hs, rfl⟩ := List.mem_map.mp hx
    rw [List.mem_filter, Bool.and_eq_true, decide_eq_true_eq] at hs
    exact h s hs.1 hs.2.1 hs.2.2

/-- The heavier label first, then the smaller one. -/
def weightedStep (sources : List Source) (p : List Byte) (c : Byte) : Natᵒᵈ ×ₗ Byte :=
  toLex (OrderDual.toDual (greatestWeight sources (c :: p)), c)

theorem weightedStep_lt_iff {sources : List Source} {p : List Byte} {c d : Byte} :
    weightedStep sources p c < weightedStep sources p d ↔
      greatestWeight sources (d :: p) < greatestWeight sources (c :: p) ∨
        greatestWeight sources (c :: p) = greatestWeight sources (d :: p) ∧ c < d := by
  unfold weightedStep
  rw [Prod.Lex.toLex_lt_toLex]
  rfl

theorem weightedStep_inj (sources : List Source) (p : List Byte) (c d : Byte)
    (h : weightedStep sources p c = weightedStep sources p d) : c = d :=
  congrArg (fun x => (ofLex x).2) h

/-! ## What a traverser holds at a trail -/

variable {sources : List Source} {s : Source} {B : Nat} {p : List Byte}

/-- The labels below a trail of a source, in the common order. -/
abbrev weightedChildren (sources : List Source) (s : Source) : List Byte → List Byte :=
  sortedLabels (weightedStep sources) s.hasPath

/-- A transition with the common weight. -/
def commonTransition (sources : List Source) (s : Source) (p : List Byte) (c : Byte) :
    WeightedTransition :=
  ⟨s.fsa.trailState s.start (c :: p), greatestWeight sources (c :: p), c⟩

/-- A transition with the weight of its source. -/
def ownTransition (sources : List Source) (s : Source) (p : List Byte) (c : Byte) :
    WeightedTransition :=
  ⟨s.fsa.resolvePointer (s.fsa.trailState s.start p) c, weightIn sources s p c, c⟩

/-- The transitions of a state as they are read. -/
def ownTransitions (sources : List Source) (s : Source) (p : List Byte) :
    List WeightedTransition :=
  StableSort.sort WeightedTransition.weight ((s.listed p).map (ownTransition sources s p))

theorem foldl_addWeighted {payload : WeightedPayload} (hmin : payload.minWeight = 0)
    (f : Byte → WeightedTransition) (l : List Byte) (st : TraversalState WeightedTransition) :
    l.foldl (fun st c => if payload.minWeight ≤ (f c).weight then
        { st with transitions := st.transitions ++ [f c] } else st) st =
      { st with transitions := st.transitions ++ l.map f } := by
  induction l generalizing st with
  | nil => simp
  | cons c l ih =>
    rw [List.foldl_cons, ih, if_pos (by rw [hmin]; exact Nat.zero_le _)]
    simp

/-- Reading the transitions of the state at a trail. -/
theorem getOutGoingTransitions_own (sources : List Source) (s : Source) (p : List Byte)
    {payload : WeightedPayload} (hmin : payload.minWeight = 0)
    (d : Nat) :
    s.fsa.getOutGoingTransitions (s.fsa.trailState s.start p) (parentWeight sources s p) d payload =
      ((⟨ownTransitions sources s p, 0⟩ : TraversalState WeightedTransition), payload) := by
  have h := foldl_addWeighted hmin (ownTransition sources s p) (s.listed p) ⟨[], 0⟩
  unfold Automata.getOutGoingTransitions
  exact congrArg (fun st : TraversalState WeightedTransition =>
    ((⟨StableSort.sort WeightedTransition.weight st.transitions, st.position⟩ :
      TraversalState WeightedTransition), payload)) h

theorem mem_ownTransitions {t : WeightedTransition} :
    t ∈ ownTransitions sources s p ↔ t.label ∈ s.listed p ∧ t = ownTransition sources s p t.label := by
  unfold ownTransitions
  rw [(StableSort.sort_perm _ _).mem_iff, List.mem_map]
  constructor
  · rintro ⟨c, hc, rfl⟩
    exact ⟨hc, rfl⟩
  · rintro ⟨hc, ht⟩
    exact ⟨t.label, hc, ht.symm⟩

/-- The transitions of a state come in the order of their own weights and then of their labels. -/
theorem pairwise_ownTransitions (sources : List Source) (s : Source) (p : List Byte) :
    (ownTransitions sources s p).Pairwise fun x y =>
      y.weight < x.weight ∨ x.weight = y.weight ∧ x.label < y.label := by
  unfold ownTransitions
  refine StableSort.pairwise_sort (List.pairwise_map.mpr ?_)
  refine (Automata.pairwise_outgoingLabels s.fsa (s.fsa.trailState s.start p)).imp ?_
  intro c d hcd _
  exact hcd

/-- The labels listed at a trail of the source are those of its children. -/
theorem mem_listed (hT : s.fsa.Tree s.start B) (hp : s.fsa.trailState s.start p ≠ 0) {c : Byte} :
    c ∈ s.listed p ↔ s.hasPath (c :: p) = true := by
  have h := Automata.mem_children hT (p := p) (c := c)
  rw [Automata.children, if_neg hp] at h
  rw [listed, h, hasPath, decide_eq_true_eq]

/-- With the common weights, the transitions are those of the common order. -/
theorem eq_commonTransitions (hT : s.fsa.Tree s.start B) (hp : s.fsa.trailState s.start p ≠ 0)
    {ts : List WeightedTransition}
    (hmem : ∀ t, t ∈ ts ↔ t.label ∈ s.listed p ∧ t =
      ⟨s.fsa.resolvePointer (s.fsa.trailState s.start p) t.label,
        greatestWeight sources (t.label :: p), t.label⟩)
    (hsort : ts.Pairwise fun x y => y.weight < x.weight ∨ x.weight = y.weight ∧ x.label < y.label) :
    ts = (weightedChildren sources s p).map (commonTransition sources s p) := by
  have hweight : ∀ t ∈ ts, t.weight = greatestWeight sources (t.label :: p) := by
    intro t ht
    have := ((hmem t).mp ht).2
    rw [this]
  have hlabels : ts.map WeightedTransition.label = weightedChildren sources s p := by
    refine eq_sortedLabels (weightedStep_inj sources) (fun c => ?_) ?_
    · rw [← mem_listed hT hp, List.mem_map]
      constructor
      · rintro ⟨t, ht, rfl⟩
        exact ((hmem t).mp ht).1
      · intro hc
        exact ⟨⟨s.fsa.resolvePointer (s.fsa.trailState s.start p) c,
          greatestWeight sources (c :: p), c⟩, (hmem _).mpr ⟨hc, rfl⟩, rfl⟩
    · rw [List.pairwise_map]
      refine hsort.imp_of_mem fun {x y} hx hy hxy => ?_
      rw [weightedStep_lt_iff, ← hweight x hx, ← hweight y hy]
      exact hxy
  rw [← hlabels, List.map_map]
  refine (List.map_id _).symm.trans (List.map_congr_left fun t ht => ?_)
  obtain ⟨hl, he⟩ := (hmem t).mp ht
  have hstate : s.fsa.trailState s.start (t.label :: p) =
      s.fsa.resolvePointer (s.fsa.trailState s.start p) t.label := by
    rw [Automata.trailState, if_neg hp, Automata.resolvePointer_of_mem hl]
  show t = commonTransition sources s p t.label
  rw [commonTransition, hstate]
  exact he

/-- A source that meets no other keeps its order. -/
theorem ownTransitions_eq (hT : s.fsa.Tree s.start B) (hp : s.fsa.trailState s.start p ≠ 0)
    (halone : ∀ c ∈ s.listed p, weightIn sources s p c = greatestWeight sources (c :: p)) :
    ownTransitions sources s p =
      (weightedChildren sources s p).map (commonTransition sources s p) := by
  refine eq_commonTransitions hT hp (fun t => ?_) (pairwise_ownTransitions sources s p)
  rw [mem_ownTransitions]
  refine and_congr_right fun hl => ?_
  rw [ownTransition, halone _ hl]

/-- **Sorting again with the common weights.** The old order only stays among labels of one weight,
where it is the order of the labels. -/
theorem sort_patched (hT : s.fsa.Tree s.start B) (hp : s.fsa.trailState s.start p ≠ 0)
    (hs : s ∈ sources) (hm : s.meets p = true) (hties : TiesAscend sources)
    {m : Byte → Option Nat}
    (hw : ∀ c ∈ s.listed p, (m c).getD 0 = greatestWeight sources (c :: p)) :
    StableSort.sort WeightedTransition.weight ((ownTransitions sources s p).map fun t =>
        { t with weight := (m t.label).getD 0 }) =
      (weightedChildren sources s p).map (commonTransition sources s p) := by
  refine eq_commonTransitions hT hp (fun t => ?_)
    (StableSort.pairwise_sort (List.pairwise_map.mpr ?_))
  · rw [(StableSort.sort_perm _ _).mem_iff, List.mem_map]
    constructor
    · rintro ⟨t, ht, rfl⟩
      obtain ⟨hl, he⟩ := mem_ownTransitions.mp ht
      refine ⟨hl, ?_⟩
      show WeightedTransition.mk t.state _ t.label = _
      rw [hw _ hl, he]
      rfl
    · rintro ⟨hl, he⟩
      refine ⟨ownTransition sources s p t.label, mem_ownTransitions.mpr ⟨hl, rfl⟩, ?_⟩
      refine Eq.trans ?_ he.symm
      show WeightedTransition.mk _ ((m t.label).getD 0) _ = _
      rw [hw _ hl]
      rfl
  · refine (pairwise_ownTransitions sources s p).imp_of_mem fun {x y} hx hy hxy he => ?_
    obtain ⟨hlx, hex⟩ := mem_ownTransitions.mp hx
    obtain ⟨hly, hey⟩ := mem_ownTransitions.mp hy
    show x.label < y.label
    rcases hxy with hlt | ⟨-, hlt⟩
    · -- The first was heavier in its own automaton, so its label is not the larger one.
      have hwx : x.weight = weightIn sources s p x.label := by rw [hex]; rfl
      have hwy : y.weight = weightIn sources s p y.label := by rw [hey]; rfl
      have he' : greatestWeight sources (y.label :: p) =
          greatestWeight sources (x.label :: p) := by
        rw [← hw _ hly, ← hw _ hlx]
        exact he.symm
      rcases lt_trichotomy x.label y.label with h | h | h
      · exact h
      · rw [hwx, hwy, h] at hlt
        exact absurd hlt (lt_irrefl _)
      · have := hties s hs p _ _ hm hly hlx h he'
        omega
    · exact hlt

end Keyvi.Fsa
