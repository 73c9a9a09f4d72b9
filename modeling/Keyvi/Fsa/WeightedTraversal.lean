import Mathlib
import Keyvi.Fsa.ZipStateTraverser
import Keyvi.Library.StableSort

/-!
# Weighted traversal

`weighted_traversal.h`, and the specialisations of the comparable and the zipped traverser for it.
The heavier transitions of a state come first. The weights of a path differ between automata, so the
zipped traverser gives the transitions of all traversers at its path the greatest weight of their
label and sorts them again.
-/

namespace Keyvi.Fsa

/-- `WeightedTransition`. -/
structure WeightedTransition where
  state : Nat
  weight : Nat
  label : Byte
deriving DecidableEq, Repr

/-- `TraversalPayload<WeightedTransition>`. -/
structure WeightedPayload where
  minWeight : Nat
deriving DecidableEq, Repr

instance : Inhabited WeightedPayload := ⟨⟨0⟩⟩

/-- A child without an inner weight has the one of its parent. -/
instance : TransitionT WeightedTransition WeightedPayload where
  state := WeightedTransition.state
  label := WeightedTransition.label
  innerWeight := WeightedTransition.weight
  clear := ⟨[], 0⟩
  childWeight a parentWeight childState :=
    if a.getInnerWeight childState ≠ 0 then a.getInnerWeight childState else parentWeight
  add s w l _ payload st :=
    if payload.minWeight ≤ w then { st with transitions := st.transitions ++ [⟨s, w, l⟩] } else st
  postProcess _ st payload :=
    ({ st with transitions := StableSort.sort WeightedTransition.weight st.transitions }, payload)
  leave _ payload := payload
  filterByMinWeight payload w state := if 0 < state ∧ payload.minWeight ≤ w then state else 0

/-- A weighted traverser that is compared. -/
abbrev WeightedTraverser := ComparableStateTraverser WeightedTransition WeightedPayload

namespace WeightedTraverser

/-- The weight of the transition that was taken at a depth. -/
def weightAt (c : WeightedTraverser) (k : Nat) : Nat :=
  (c.stateTraverser.stack.traversalStates k).getNextInnerWeight

/-- `std::mismatch` over the first `n` depths with `CompareWeights`. -/
def mismatch (c rhs : WeightedTraverser) (n : Nat) : Nat :=
  ((List.range n).find? fun k => weightAt c k ≠ weightAt rhs k).getD n

/-- `operator<`: the weights first, then the labels. -/
def less (c rhs : WeightedTraverser) : Bool :=
  let k := mismatch c rhs (min c.stateTraverser.getDepth rhs.stateTraverser.getDepth - 1)
  if 0 < c.stateTraverser.getDepth ∧ 0 < rhs.stateTraverser.getDepth ∧
      weightAt c k ≠ weightAt rhs k then
    weightAt c k > weightAt rhs k
  else ComparableStateTraverser.less c rhs

/-- One transition in the first pass over `global_weights`. -/
def addWeight (m : Byte → Option Nat) (t : WeightedTransition) : Byte → Option Nat :=
  match m t.label with
  | none => Function.update m t.label (some t.weight)
  | some w => if w < t.weight then Function.update m t.label (some t.weight) else m

/-- The first pass: the greatest weight of every label. -/
def globalWeights (l : List WeightedTraverser) : Byte → Option Nat :=
  l.foldl (fun m c => c.stateTraverser.stack.getStates.transitions.foldl addWeight m) fun _ => none

/-- The second pass at one traverser: new weights, then `PostProcess`. -/
def applyWeights (m : Byte → Option Nat) (c : WeightedTraverser) : WeightedTraverser :=
  let stack := c.stateTraverser.stack
  let patched := { stack.getStates with
    transitions := stack.getStates.transitions.map fun t =>
      { t with weight := (m t.label).getD 0 } }
  { c with
    stateTraverser := { c.stateTraverser with
      stack := { stack with
        traversalStates := Function.update stack.traversalStates stack.currentDepth
          (TransitionT.postProcess stack.currentDepth patched stack.payload).1 } } }

/-- `PreIncrement`: nothing after `Prune`, and nothing for a single traverser. -/
def preIncrement (pruned : Bool) (equalStates : Nat) (queue : List WeightedTraverser) :
    List WeightedTraverser :=
  if pruned then queue
  else if 1 < equalStates then
    (queue.take equalStates).map (applyWeights (globalWeights (queue.take equalStates))) ++
      queue.drop equalStates
  else queue

end WeightedTraverser

instance : ZipT WeightedTransition WeightedPayload where
  less := WeightedTraverser.less
  equals := ComparableStateTraverser.equals
  preIncrement := WeightedTraverser.preIncrement

/-- The zipped traverser over weighted ones. -/
abbrev WeightedZip := ZipStateTraverser WeightedTransition WeightedPayload

namespace WeightedZip

/-- `ZipStateTraverser(fsas, advance)`: two or more traversers get common weights at their start
states before they are advanced. -/
def ofFsas (fsas : List Automata) (advance : Bool) : WeightedZip :=
  if fsas.length < 2 then ZipStateTraverser.ofFsas fsas default advance
  else
    let traversers := fsas.zipIdx.map fun f =>
      ComparableStateTraverser.ofAutomata f.1 (default : WeightedPayload) false f.2
    ZipStateTraverser.ofTraversers (traversers.map fun t =>
      let t := WeightedTraverser.applyWeights (WeightedTraverser.globalWeights traversers) t
      if advance then t.advance else t)

end WeightedZip

end Keyvi.Fsa
