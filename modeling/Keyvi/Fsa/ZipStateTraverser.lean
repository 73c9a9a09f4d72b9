import Mathlib
import Keyvi.Fsa.ComparableStateTraverser
import Keyvi.Library.SortedQueue

/-!
# The zipped traverser

`zip_state_traverser.h`. Several traversers wait in a priority queue, the ones at the smallest path
in front; `operator++` advances all of these and `FillInValues` reads the path they then share. The
queue is the list of its ordered iteration.
-/

namespace Keyvi.Fsa

/-- What the specialisations of the zipped traverser change. -/
class ZipT (τ : Type) (π : outParam Type) extends TransitionT τ π where
  less : ComparableStateTraverser τ π → ComparableStateTraverser τ π → Bool
  equals : ComparableStateTraverser τ π → ComparableStateTraverser τ π → Bool
  preIncrement : Bool → Nat → List (ComparableStateTraverser τ π) →
    List (ComparableStateTraverser τ π)

/-- `ZipStateTraverser`. -/
structure ZipStateTraverser (τ π : Type) where
  traverserQueue : List (ComparableStateTraverser τ π)
  final : Bool
  depth : Nat
  stateValue : Nat
  innerWeight : Nat
  stateId : Nat
  stateLabel : Byte
  order : Nat
  fsa : Option Automata
  equalStates : Nat
  pruned : Bool

namespace ComparableStateTraverser

variable {τ π : Type}

/-- `IsFinalState`. -/
def isFinalState (c : ComparableStateTraverser τ π) : Bool :=
  c.stateTraverser.fsa.isFinalState c.stateTraverser.currentState

/-- `GetStateValue`. -/
def getStateValue (c : ComparableStateTraverser τ π) : Nat :=
  c.stateTraverser.fsa.getStateValue c.stateTraverser.currentState

end ComparableStateTraverser

namespace ZipStateTraverser

variable {τ π : Type} [ZipT τ π]

/-- One more inner traverser at the same path: it is counted, and read when no state was final
yet. -/
def absorb (z : ZipStateTraverser τ π) (c : ComparableStateTraverser τ π) :
    ZipStateTraverser τ π :=
  let z := { z with equalStates := z.equalStates + 1 }
  if !z.final && c.isFinalState then
    { z with
      final := true
      stateValue := c.getStateValue
      fsa := some c.stateTraverser.fsa
      order := c.order }
  else z

/-- The loop of `FillInValues` over the traversers behind the top. -/
def dedup (t : ComparableStateTraverser τ π) : List (ComparableStateTraverser τ π) →
    ZipStateTraverser τ π → ZipStateTraverser τ π
  | [], z => z
  | c :: q, z => if ZipT.equals t c then dedup t q (z.absorb c) else z

/-- The values of the top element. -/
def readTop (z : ZipStateTraverser τ π) (t : ComparableStateTraverser τ π) :
    ZipStateTraverser τ π :=
  { z with
    final := t.isFinalState
    depth := t.stateTraverser.getDepth
    stateValue := t.getStateValue
    innerWeight := t.stateTraverser.currentWeight
    stateId := t.stateTraverser.currentState
    stateLabel := t.stateTraverser.currentLabel
    order := t.order
    fsa := some t.stateTraverser.fsa
    equalStates := 1
    pruned := false }

/-- `FillInValues`. -/
def fillInValues (z : ZipStateTraverser τ π) : ZipStateTraverser τ π :=
  match z.traverserQueue with
  | [] =>
    { z with
      final := false
      depth := 0
      stateValue := 0
      innerWeight := 0
      stateId := 0
      stateLabel := 0
      fsa := none
      pruned := false }
  | t :: q =>
    dedup t q (z.readTop t)

/-- The members before the queue is filled. -/
def init : ZipStateTraverser τ π := ⟨[], false, 0, 0, 0, 0, 0, 0, none, 1, false⟩

/-- Traversers that are not exhausted are pushed, then the values are read. -/
def ofTraversers (l : List (ComparableStateTraverser τ π)) : ZipStateTraverser τ π :=
  fillInValues { (init : ZipStateTraverser τ π) with
    traverserQueue := (l.filter fun c => c.alive).foldl (fun q t => SortedQueue.push ZipT.less t q)
      [] }

/-- `ZipStateTraverser(fsas, advance)`. -/
def ofFsas (fsas : List Automata) (payload : π) (advance : Bool) : ZipStateTraverser τ π :=
  ofTraversers (fsas.zipIdx.map fun f =>
    ComparableStateTraverser.ofAutomata f.1 payload advance f.2)

/-- `ZipStateTraverser(fsa_start_state_pairs, advance)`: pairs without a state are left out. -/
def ofPairs (fsaStartStatePairs : List (Automata × Nat)) (payload : π) (advance : Bool) :
    ZipStateTraverser τ π :=
  ofTraversers ((fsaStartStatePairs.filter fun f => 0 < f.2).zipIdx.map fun f =>
    ComparableStateTraverser.ofState f.1.1 f.1.2 payload advance f.2)

/-- `operator++`. It takes the first element of the queue as often as there are equal states; there is
none when the traverser was made without anything to traverse. -/
def advance? (z : ZipStateTraverser τ π) : Option (ZipStateTraverser τ π) :=
  (SortedQueue.requeue ZipT.less ComparableStateTraverser.advance ComparableStateTraverser.alive
    z.equalStates (ZipT.preIncrement z.pruned z.equalStates z.traverserQueue)).map fun q =>
      fillInValues { z with traverserQueue := q, equalStates := 0 }

/-- `operator++` where it is defined. -/
def advance (z : ZipStateTraverser τ π) : ZipStateTraverser τ π := z.advance?.getD z

/-- `Prune` goes over as many elements of the queue as there are equal states. -/
def canPrune (z : ZipStateTraverser τ π) : Bool :=
  decide (z.equalStates ≤ z.traverserQueue.length)

/-- `Prune` where it is defined. -/
def prune (z : ZipStateTraverser τ π) : ZipStateTraverser τ π :=
  { z with
    traverserQueue := (z.traverserQueue.take z.equalStates).map ComparableStateTraverser.prune ++
      z.traverserQueue.drop z.equalStates
    pruned := true }

/-- `operator bool`. -/
def alive (z : ZipStateTraverser τ π) : Bool := !z.traverserQueue.isEmpty

/-- `GetStateLabels`. -/
def getStateLabels (z : ZipStateTraverser τ π) : List Byte :=
  match z.traverserQueue with
  | [] => []
  | t :: _ => t.labelStack

theorem traverserQueue_dedup (t : ComparableStateTraverser τ π) :
    ∀ (q : List (ComparableStateTraverser τ π)) (z : ZipStateTraverser τ π),
      (dedup t q z).traverserQueue = z.traverserQueue
  | [], _ => rfl
  | c :: q, z => by
    rw [dedup]
    split
    · rw [traverserQueue_dedup t q, absorb]
      split <;> rfl
    · rfl

theorem traverserQueue_fillInValues (z : ZipStateTraverser τ π) :
    z.fillInValues.traverserQueue = z.traverserQueue := by
  rw [fillInValues]
  split
  · rfl
  · exact traverserQueue_dedup _ _ _

/-- When the last inner traverser has left the queue nothing is counted. -/
theorem equalStates_of_advance? {z z' : ZipStateTraverser τ π} (h : z.advance? = some z')
    (hq : z'.traverserQueue = []) : z'.equalStates = 0 := by
  obtain ⟨q, -, rfl⟩ := Option.map_eq_some_iff.mp h
  rw [traverserQueue_fillInValues] at hq
  rw [fillInValues, show q = [] from hq]

theorem advance?_of_requeue {z : ZipStateTraverser τ π} {q : List (ComparableStateTraverser τ π)}
    (h : SortedQueue.requeue ZipT.less ComparableStateTraverser.advance
      ComparableStateTraverser.alive z.equalStates
      (ZipT.preIncrement z.pruned z.equalStates z.traverserQueue) = some q) :
    z.advance? = some (fillInValues { z with traverserQueue := q, equalStates := 0 }) := by
  rw [advance?, h, Option.map_some]

theorem advance_of_requeue {z : ZipStateTraverser τ π} {q : List (ComparableStateTraverser τ π)}
    (h : SortedQueue.requeue ZipT.less ComparableStateTraverser.advance
      ComparableStateTraverser.alive z.equalStates
      (ZipT.preIncrement z.pruned z.equalStates z.traverserQueue) = some q) :
    z.advance = fillInValues { z with traverserQueue := q, equalStates := 0 } := by
  rw [advance, advance?_of_requeue h, Option.getD_some]

/-! ## What `FillInValues` reads -/

omit [ZipT τ π] in
@[simp] theorem equalStates_absorb (z : ZipStateTraverser τ π) (c : ComparableStateTraverser τ π) :
    (z.absorb c).equalStates = z.equalStates + 1 := by
  rw [absorb]
  split <;> rfl

theorem dedup_append {t : ComparableStateTraverser τ π} :
    ∀ {front back : List (ComparableStateTraverser τ π)} (z : ZipStateTraverser τ π),
      (∀ c ∈ front, ZipT.equals t c = true) → (∀ c ∈ back, ZipT.equals t c = false) →
      dedup t (front ++ back) z = front.foldl absorb z
  | [], [], _, _, _ => rfl
  | [], c :: back, z, _, hb => by
    rw [List.nil_append, dedup, hb c List.mem_cons_self]
    rfl
  | c :: front, back, z, hf, hb => by
    rw [List.cons_append, dedup, if_pos (hf c List.mem_cons_self), List.foldl_cons]
    exact dedup_append _ (fun d hd => hf d (List.mem_cons_of_mem _ hd)) hb

/-- What a run over equal traversers leaves alone. -/
structure Kept (z z' : ZipStateTraverser τ π) : Prop where
  queue : z'.traverserQueue = z.traverserQueue
  depth : z'.depth = z.depth
  label : z'.stateLabel = z.stateLabel
  pruned : z'.pruned = z.pruned

omit [ZipT τ π] in
theorem kept_foldl_absorb : ∀ (l : List (ComparableStateTraverser τ π))
    (z : ZipStateTraverser τ π), Kept z (l.foldl absorb z)
  | [], _ => ⟨rfl, rfl, rfl, rfl⟩
  | c :: l, z => by
    obtain ⟨h1, h2, h3, h4⟩ := kept_foldl_absorb l (z.absorb c)
    have h : Kept z (z.absorb c) := by
      rw [absorb]
      split <;> exact ⟨rfl, rfl, rfl, rfl⟩
    exact ⟨h1.trans h.queue, h2.trans h.depth, h3.trans h.label, h4.trans h.pruned⟩

omit [ZipT τ π] in
theorem equalStates_foldl_absorb : ∀ (l : List (ComparableStateTraverser τ π))
    (z : ZipStateTraverser τ π), (l.foldl absorb z).equalStates = z.equalStates + l.length
  | [], _ => rfl
  | c :: l, z => by
    rw [List.foldl_cons, equalStates_foldl_absorb l, equalStates_absorb, List.length_cons]
    omega

/-- The values of the zipped traverser are those of the traverser. -/
structure Reads (z : ZipStateTraverser τ π) (c : ComparableStateTraverser τ π) : Prop where
  final : z.final = true
  value : z.stateValue = c.getStateValue
  fsa : z.fsa = some c.stateTraverser.fsa
  order : z.order = c.order

omit [ZipT τ π] in
theorem Reads.absorb {z : ZipStateTraverser τ π} {c : ComparableStateTraverser τ π}
    (h : Reads z c) (d : ComparableStateTraverser τ π) : Reads (z.absorb d) c := by
  rw [ZipStateTraverser.absorb, if_neg (by simp [h.final])]
  exact ⟨h.final, h.value, h.fsa, h.order⟩

omit [ZipT τ π] in
theorem Reads.foldl_absorb {c : ComparableStateTraverser τ π} :
    ∀ {l : List (ComparableStateTraverser τ π)} {z : ZipStateTraverser τ π}, Reads z c →
      Reads (l.foldl ZipStateTraverser.absorb z) c
  | [], _, h => h
  | d :: _, _, h => (h.absorb d).foldl_absorb

omit [ZipT τ π] in
/-- **The first final traverser is read.** -/
theorem reads_foldl_absorb : ∀ (l : List (ComparableStateTraverser τ π))
    (z : ZipStateTraverser τ π), z.final = false →
    match l.find? fun c => c.isFinalState with
    | none => (l.foldl absorb z).final = false
    | some c => Reads (l.foldl absorb z) c
  | [], _, h => h
  | c :: l, z, h => by
    by_cases hc : c.isFinalState = true
    · rw [List.find?_cons_of_pos hc, List.foldl_cons]
      refine Reads.foldl_absorb ?_
      rw [absorb, if_pos (by simp [h, hc])]
      exact ⟨rfl, rfl, rfl, rfl⟩
    · rw [List.find?_cons_of_neg hc, List.foldl_cons]
      refine reads_foldl_absorb l _ ?_
      rw [absorb, if_neg (by simp [hc])]
      exact h

/-- **What is read of a queue whose front is at one path.** -/
theorem fillInValues_spec {z : ZipStateTraverser τ π} {t : ComparableStateTraverser τ π}
    {front back : List (ComparableStateTraverser τ π)}
    (hq : z.traverserQueue = t :: front ++ back) (hf : ∀ c ∈ front, ZipT.equals t c = true)
    (hb : ∀ c ∈ back, ZipT.equals t c = false) :
    z.fillInValues.traverserQueue = z.traverserQueue ∧
      z.fillInValues.depth = t.stateTraverser.getDepth ∧
      z.fillInValues.stateLabel = t.stateTraverser.currentLabel ∧
      z.fillInValues.pruned = false ∧
      z.fillInValues.equalStates = (t :: front).length ∧
      match (t :: front).find? fun c => c.isFinalState with
      | none => z.fillInValues.final = false
      | some c => Reads z.fillInValues c := by
  rw [fillInValues, hq]
  simp only [List.cons_append]
  rw [dedup_append _ hf hb]
  obtain ⟨h1, h2, h3, h4⟩ := kept_foldl_absorb front (z.readTop t)
  refine ⟨h1.trans hq, h2, h3, h4, ?_, ?_⟩
  · rw [equalStates_foldl_absorb, List.length_cons, show (z.readTop t).equalStates = 1 from rfl]
    omega
  · by_cases ht : t.isFinalState = true
    · rw [List.find?_cons_of_pos ht]
      exact Reads.foldl_absorb ⟨ht, rfl, rfl, rfl⟩
    · rw [List.find?_cons_of_neg ht]
      exact reads_foldl_absorb front _ (show t.isFinalState = false by simpa using ht)

end ZipStateTraverser

/-! ## The zipped traverser over plain ones -/

instance : ZipT Transition Unit where
  less := ComparableStateTraverser.less
  equals := ComparableStateTraverser.equals
  preIncrement _ _ q := q

end Keyvi.Fsa
