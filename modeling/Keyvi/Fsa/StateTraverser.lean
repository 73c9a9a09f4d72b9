import Mathlib
import Keyvi.Fsa.Automata
import Keyvi.Library.Preorder

/-!
# The state traverser

`traversal_base.h` and `state_traverser.h`. A traverser keeps one list of transitions for every
depth and a position in each; the lists above the current depth are left over from earlier states
and are overwritten when the traverser descends again.

The template parameter `TransitionT` is a class here: it says what the specialisations change.
-/

namespace Keyvi.Fsa

/-- `TraversalState`: the transitions of a state and the one the traverser is at. -/
structure TraversalState (τ : Type) where
  transitions : List τ
  position : Nat

/-- What a specialisation of `TransitionT` defines; `π` is its `TraversalPayload` less the depth. -/
class TransitionT (τ : Type) (π : outParam Type) where
  state : τ → Nat
  label : τ → Byte
  innerWeight : τ → Nat
  clear : TraversalState τ
  childWeight : Automata → Nat → Nat → Nat
  add : Nat → Nat → Byte → Nat → π → TraversalState τ → TraversalState τ
  postProcess : Nat → TraversalState τ → π → TraversalState τ × π
  leave : Nat → π → π
  filterByMinWeight : π → Nat → Nat → Nat

open TransitionT

namespace TraversalState

variable {τ π : Type} [TransitionT τ π]

/-- `GetNextState`. -/
def getNextState (s : TraversalState τ) : Nat :=
  match s.transitions[s.position]? with
  | some t => state t
  | none => 0

/-- `GetNextTransition`, only read when there is a next state. -/
def getNextTransition (s : TraversalState τ) : Byte :=
  match s.transitions[s.position]? with
  | some t => label t
  | none => 0

/-- `GetNextInnerWeight`, only read when there is a next state. -/
def getNextInnerWeight (s : TraversalState τ) : Nat :=
  match s.transitions[s.position]? with
  | some t => innerWeight t
  | none => 0

/-- `operator++`. -/
def next (s : TraversalState τ) : TraversalState τ := { s with position := s.position + 1 }

end TraversalState

/-- `GetOutGoingTransitions`. -/
def Automata.getOutGoingTransitions {τ π : Type} [TransitionT τ π] (a : Automata)
    (startingState parentWeight depth : Nat) (payload : π) : TraversalState τ × π :=
  let filled := (a.outgoingLabels startingState).foldl
    (fun st c =>
      let childState := a.resolvePointer startingState c
      add childState (childWeight τ a parentWeight childState) c depth payload st) clear
  postProcess depth filled payload

/-- `TraversalStack`. The vector is resized as needed, so there is a list at every depth. -/
structure TraversalStack (τ π : Type) where
  traversalStates : Nat → TraversalState τ
  currentDepth : Nat
  payload : π

namespace TraversalStack

variable {τ π : Type} [TransitionT τ π]

/-- `GetStates`. -/
def getStates (s : TraversalStack τ π) : TraversalState τ := s.traversalStates s.currentDepth

/-- `--stack_; stack_.GetStates()++`, for a stack with more than one state. -/
def goUp (s : TraversalStack τ π) : TraversalStack τ π :=
  { traversalStates := Function.update s.traversalStates (s.currentDepth - 1)
      (s.traversalStates (s.currentDepth - 1)).next
    currentDepth := s.currentDepth - 1
    payload := leave τ s.currentDepth s.payload }

/-- `stack_++` and the transitions of the state that was entered. -/
def enter (s : TraversalStack τ π) (a : Automata) (state weight : Nat) : TraversalStack τ π :=
  let filled := a.getOutGoingTransitions (τ := τ) state weight (s.currentDepth + 1) s.payload
  { traversalStates := Function.update s.traversalStates (s.currentDepth + 1) filled.1
    currentDepth := s.currentDepth + 1
    payload := filled.2 }

/-- The next state that passes the filter. -/
def nextState (s : TraversalStack τ π) : Nat :=
  filterByMinWeight τ s.payload s.getStates.getNextInnerWeight s.getStates.getNextState

/-- The loop that goes up until there is a next state. -/
def findNext : Nat → TraversalStack τ π → TraversalStack τ π
  | 0, s => s
  | n + 1, s => if s.nextState ≠ 0 then s else findNext n s.goUp

end TraversalStack

/-- `StateTraverser`. -/
structure StateTraverser (τ π : Type) where
  fsa : Automata
  currentState : Nat
  currentWeight : Nat
  currentLabel : Byte
  stack : TraversalStack τ π

namespace StateTraverser

variable {τ π : Type} [TransitionT τ π]

/-- `StateTraverser::operator++`. -/
def advance (t : StateTraverser τ π) : StateTraverser τ π :=
  if t.currentState = 0 then t
  else
    let s := t.stack.findNext t.stack.currentDepth
    if s.nextState = 0 then
      { t with
        currentState := 0
        currentLabel := 0
        stack := s }
    else
      { t with
        currentState := s.nextState
        currentWeight := s.getStates.getNextInnerWeight
        currentLabel := s.getStates.getNextTransition
        stack := s.enter t.fsa s.nextState s.getStates.getNextInnerWeight }

/-- `StateTraverser::Prune`. -/
def prune (t : StateTraverser τ π) : StateTraverser τ π := { t with stack := t.stack.goUp }

/-- A traverser that has not been advanced, with the transitions of its start state. -/
def atState (f : Automata) (startState parentWeight : Nat) (payload : π) : StateTraverser τ π :=
  let filled := f.getOutGoingTransitions (τ := τ) startState parentWeight 0 payload
  { fsa := f
    currentState := startState
    currentWeight := 0
    currentLabel := 0
    stack :=
      { traversalStates := Function.update (fun _ => ⟨[], 0⟩) 0 filled.1
        currentDepth := 0
        payload := filled.2 } }

/-- `StateTraverser(f)`. -/
def ofAutomata (f : Automata) (payload : π) : StateTraverser τ π :=
  (atState f f.getStartState 0 payload).advance

/-- `StateTraverser(f, start_state, payload, advance)`. -/
def ofState (f : Automata) (startState : Nat) (payload : π) (advance : Bool) :
    StateTraverser τ π :=
  let t := atState f startState (f.getInnerWeight startState) payload
  if advance then t.advance else t

/-- `IsFinalState`. -/
def isFinalState (t : StateTraverser τ π) : Bool := t.fsa.isFinalState t.currentState

/-- `GetStateValue`. -/
def getStateValue (t : StateTraverser τ π) : Nat := t.fsa.getStateValue t.currentState

/-- `GetDepth`. -/
def getDepth (t : StateTraverser τ π) : Nat := t.stack.currentDepth

/-- `operator bool`. -/
def alive (t : StateTraverser τ π) : Bool := t.currentState ≠ 0

end StateTraverser

/-! ## Traversers walk a tree

`Visits` collects what a specialisation has to promise: the tree whose nodes it shows in its order
and what its payload says at each place. -/

/-- The tree that the specialisation shows of an automaton from a start state on: the labels below
a trail in the order they are visited, the transitions the stack holds for them, and the payload at
a trail with the labels still to visit there. -/
structure Walks {τ π : Type} [TransitionT τ π] (a : Automata) (s₀ : Nat)
    (children : List Byte → List Byte) (transition : List Byte → Byte → τ)
    (ok : π → List Byte → List Byte → Prop) : Prop where
  state : ∀ p c, c ∈ children p → state (transition p c) = a.trailState s₀ (c :: p)
  ne_zero : ∀ p c, c ∈ children p → a.trailState s₀ (c :: p) ≠ 0
  label : ∀ p c, label (transition p c) = c
  passes : ∀ π p c r, ok π p (c :: r) → (c :: r) <:+ children p →
    ∀ s, filterByMinWeight τ π (innerWeight (transition p c)) s = s
  exhausted : ∀ (π : π) (w : Nat), filterByMinWeight τ π w 0 = 0
  leave : ∀ π p c r, ok π (c :: p) [] → (c :: r) <:+ children p →
    ok (leave τ (p.length + 1) π) p r

/-- The transitions of a state that is entered are already those of the tree. -/
structure Visits {τ π : Type} [TransitionT τ π] (a : Automata) (s₀ : Nat)
    (children : List Byte → List Byte) (transition : List Byte → Byte → τ)
    (ok : π → List Byte → List Byte → Prop) : Prop
    extends Walks a s₀ children transition ok where
  expand : ∀ π p c r, ok π p (c :: r) → (c :: r) <:+ children p →
    ∃ st π', a.getOutGoingTransitions (a.trailState s₀ (c :: p)) (innerWeight (transition p c))
        (p.length + 1) π = (st, π') ∧
      st.transitions.drop st.position = (children (c :: p)).map (transition (c :: p)) ∧
      ok π' (c :: p) (children (c :: p))

section Visits

variable {τ π : Type} [TransitionT τ π] {a : Automata} {s₀ : Nat}
  {children : List Byte → List Byte} {transition : List Byte → Byte → τ}
  {ok : π → List Byte → List Byte → Prop}

/-- The lists below the current depth stand at the labels of the trail. -/
def Lower (transition : List Byte → Byte → τ) (states : Nat → TraversalState τ) :
    List Byte → List (List Byte) → Prop
  | [], _ => True
  | _ :: _, [] => False
  | c :: p, r :: rs =>
    (states p.length).transitions.drop (states p.length).position = (c :: r).map (transition p) ∧
      Lower transition states p rs

/-- The stack stands at the trail `p` with the labels `r` still to visit there and `rs` above. -/
structure StackAt (children : List Byte → List Byte) (transition : List Byte → Byte → τ)
    (ok : π → List Byte → List Byte → Prop) (s : TraversalStack τ π) (p : List Byte)
    (r : List Byte) (rs : List (List Byte)) : Prop where
  depth : s.currentDepth = p.length
  top : s.getStates.transitions.drop s.getStates.position = r.map (transition p)
  lower : Lower transition s.traversalStates p rs
  suffix : r <:+ children p
  ancestors : Preorder.Ancestors children p rs
  payload : ok s.payload p r

theorem Lower.congr {f g : Nat → TraversalState τ} : ∀ {p : List Byte} {rs : List (List Byte)},
    (∀ i < p.length, f i = g i) → Lower transition f p rs → Lower transition g p rs
  | [], _, _, _ => trivial
  | _ :: _, [], _, h => h.elim
  | c :: p, r :: rs, he, h => by
    refine ⟨?_, h.2.congr fun i hi => he i (by simp only [List.length_cons]; omega)⟩
    rw [← he p.length (by simp)]
    exact h.1

theorem getElem?_eq_of_drop {l m : List τ} {k : Nat} {t : τ} (h : l.drop k = t :: m) :
    l[k]? = some t := by
  have := List.head?_drop (l := l) (i := k)
  rw [h] at this
  simpa using this.symm

theorem drop_succ_of_drop {l m : List τ} {k : Nat} {t : τ} (h : l.drop k = t :: m) :
    l.drop (k + 1) = m := by
  rw [← List.drop_drop, h]
  rfl

namespace StackAt

variable {s : TraversalStack τ π} {p r : List Byte} {c : Byte} {rs : List (List Byte)}

omit [TransitionT τ π] in
theorem next_eq (h : StackAt children transition ok s p (c :: r) rs) :
    s.getStates.transitions[s.getStates.position]? = some (transition p c) :=
  getElem?_eq_of_drop (by simpa using h.top)

theorem nextInnerWeight (h : StackAt children transition ok s p (c :: r) rs) :
    s.getStates.getNextInnerWeight = innerWeight (transition p c) := by
  rw [TraversalState.getNextInnerWeight, h.next_eq]

theorem nextTransition (h : StackAt children transition ok s p (c :: r) rs)
    (hv : Walks a s₀ children transition ok) : s.getStates.getNextTransition = c := by
  rw [TraversalState.getNextTransition, h.next_eq]
  exact hv.label p c

theorem nextState (h : StackAt children transition ok s p (c :: r) rs)
    (hv : Walks a s₀ children transition ok) : s.nextState = a.trailState s₀ (c :: p) := by
  rw [TraversalStack.nextState, h.nextInnerWeight, TraversalState.getNextState, h.next_eq,
    hv.passes _ _ _ _ h.payload h.suffix]
  exact hv.state p c (h.suffix.subset List.mem_cons_self)

theorem nextState_nil (h : StackAt children transition ok s p [] rs)
    (hv : Walks a s₀ children transition ok) : s.nextState = 0 := by
  have hn : s.getStates.transitions[s.getStates.position]? = none := by
    have := h.top
    rw [List.map_nil, List.drop_eq_nil_iff] at this
    exact List.getElem?_eq_none this
  rw [TraversalStack.nextState, TraversalState.getNextState, hn]
  exact hv.exhausted _ _

/-- Leaving a trail moves the position of the level above on by one. -/
theorem goUp {r' : List Byte} (h : StackAt children transition ok s (c :: p) r (r' :: rs))
    (hok : ok (TransitionT.leave τ (p.length + 1) s.payload) p r') :
    StackAt children transition ok s.goUp p r' rs where
  depth := by
    show s.currentDepth - 1 = p.length
    rw [h.depth]
    rfl
  top := by
    have hd : s.currentDepth - 1 = p.length := by rw [h.depth]; rfl
    obtain ⟨hl, -⟩ := h.lower
    simp only [TraversalStack.getStates, TraversalStack.goUp, hd, Function.update_self,
      TraversalState.next]
    exact drop_succ_of_drop (by simpa using hl)
  lower := by
    have hd : s.currentDepth - 1 = p.length := by rw [h.depth]; rfl
    refine Lower.congr (fun i hi => ?_) h.lower.2
    simp only [TraversalStack.goUp, hd]
    exact (Function.update_of_ne (by omega) _ _).symm
  suffix := (List.suffix_cons c r').trans h.ancestors.1
  ancestors := h.ancestors.2
  payload := by
    show ok (TransitionT.leave τ s.currentDepth s.payload) p r'
    rw [h.depth]
    exact hok

/-- Descending writes the list of the new depth and nothing below it. -/
theorem enter (h : StackAt children transition ok s p (c :: r) rs)
    (hv : Visits a s₀ children transition ok) :
    StackAt children transition ok
      (s.enter a (a.trailState s₀ (c :: p)) (innerWeight (transition p c))) (c :: p)
      (children (c :: p)) (r :: rs) := by
  obtain ⟨st, π', he, hd, hok⟩ := hv.expand _ _ _ _ h.payload h.suffix
  have he' : s.enter a (a.trailState s₀ (c :: p)) (innerWeight (transition p c)) =
      ⟨Function.update s.traversalStates (p.length + 1) st, p.length + 1, π'⟩ := by
    rw [TraversalStack.enter, h.depth, he]
  rw [he']
  refine ⟨rfl, ?_, ⟨?_, ?_⟩, List.suffix_rfl, ⟨h.suffix, h.ancestors⟩, hok⟩
  · simpa [TraversalStack.getStates] using hd
  · have hp : Function.update s.traversalStates (p.length + 1) st p.length =
        s.traversalStates p.length := Function.update_of_ne (by omega) _ _
    have := h.top
    rw [TraversalStack.getStates, h.depth] at this
    simpa only [hp] using this
  · refine h.lower.congr fun i hi => (Function.update_of_ne (by omega) _ _).symm

/-- **The loop goes up to the next trail that is pending.** -/
theorem findNext {B : Nat} (hB : Preorder.Bounded children B)
    (hv : Walks a s₀ children transition ok) :
    ∀ {p : List Byte} {s : TraversalStack τ π} {r : List Byte} {rs : List (List Byte)},
      StackAt children transition ok s p r rs →
      match Preorder.pending children B p (r :: rs) with
      | [] => (s.findNext s.currentDepth).nextState = 0
      | q :: rest => ∃ c p' r' rs', q = c :: p' ∧ p' <:+ p ∧
          StackAt children transition ok (s.findNext s.currentDepth) p' (c :: r') rs' ∧
          rest = Preorder.pending children B q (children q :: r' :: rs') := by
  intro p
  induction p with
  | nil =>
    intro s r rs h
    have hd : s.currentDepth = 0 := h.depth
    obtain rfl : rs = [] := h.ancestors
    rw [hd, TraversalStack.findNext]
    cases r with
    | nil => exact h.nextState_nil hv
    | cons c r =>
      rw [Preorder.pending_descend hB]
      exact ⟨c, [], r, [], rfl, List.suffix_rfl, h, rfl⟩
  | cons d p ih =>
    intro s r rs h
    rw [show s.currentDepth = p.length + 1 from h.depth, TraversalStack.findNext]
    cases r with
    | nil =>
      rw [if_neg (by simpa using h.nextState_nil hv), Preorder.pending_up]
      cases rs with
      | nil => exact h.ancestors.elim
      | cons r' rs =>
        have hup := h.goUp (hv.leave _ _ _ _ h.payload h.ancestors.1)
        have := ih hup
        rw [hup.depth] at this
        rw [List.tail_cons]
        split at this
        case h_1 => exact this
        case h_2 =>
          obtain ⟨c, p', r'', rs', hq, hp', hs⟩ := this
          exact ⟨c, p', r'', rs', hq, hp'.trans (List.suffix_cons d p), hs⟩
    | cons c r =>
      have hne := hv.ne_zero (d :: p) c (h.suffix.subset List.mem_cons_self)
      rw [if_pos (by rwa [h.nextState hv]), Preorder.pending_descend hB]
      exact ⟨c, d :: p, r, rs, rfl, List.suffix_rfl, h, rfl⟩

end StackAt

/-- The traverser stands at the trail `p`, and `rest` is what it will still visit. -/
structure TraverserAt (a : Automata) (s₀ B : Nat) (children : List Byte → List Byte)
    (transition : List Byte → Byte → τ) (ok : π → List Byte → List Byte → Prop)
    (t : StateTraverser τ π) (p : List Byte) (rest : List (List Byte)) : Prop where
  fsa : t.fsa = a
  state : t.currentState = a.trailState s₀ p
  alive : t.currentState ≠ 0
  label : ∀ c ∈ p.head?, t.currentLabel = c
  stack : ∃ r rs, StackAt children transition ok t.stack p r rs ∧
    rest = Preorder.pending children B p (r :: rs)

/-- The traverser is at the first of these trails, or at its end when there is none. -/
def Arrives (a : Automata) (s₀ B : Nat) (children : List Byte → List Byte)
    (transition : List Byte → Byte → τ) (ok : π → List Byte → List Byte → Prop)
    (t : StateTraverser τ π) : List (List Byte) → Prop
  | [] => t.currentState = 0
  | q :: rest => q ≠ [] ∧ TraverserAt a s₀ B children transition ok t q rest

namespace TraverserAt

variable {B : Nat} {t : StateTraverser τ π} {p : List Byte} {rest : List (List Byte)}

omit [TransitionT τ π] in
theorem depth (h : TraverserAt a s₀ B children transition ok t p rest) :
    t.getDepth = p.length := by
  obtain ⟨r, rs, hs, -⟩ := h.stack
  exact hs.depth

/-- What `operator++` does to a traverser whose stack is known. -/
theorem advance_of_stackAt (hB : Preorder.Bounded children B)
    (hv : Visits a s₀ children transition ok) (hf : t.fsa = a) (ha : t.currentState ≠ 0)
    {r : List Byte} {rs : List (List Byte)} (hs : StackAt children transition ok t.stack p r rs) :
    Arrives a s₀ B children transition ok t.advance
      (Preorder.pending children B p (r :: rs)) := by
  have hn := hs.findNext hB hv.toWalks
  split at hn
  case h_1 he =>
    rw [he, Arrives, StateTraverser.advance, if_neg ha]
    simp only [hn, if_true]
  case h_2 q rest he =>
    obtain ⟨c, p', r', rs', rfl, -, hs', rfl⟩ := hn
    have hne := hv.ne_zero p' c (hs'.suffix.subset List.mem_cons_self)
    rw [he]
    refine ⟨by simp, ?_⟩
    rw [StateTraverser.advance, if_neg ha]
    simp only [hs'.nextState hv.toWalks, hs'.nextInnerWeight, hs'.nextTransition hv.toWalks,
      if_neg hne, hf]
    exact ⟨rfl, rfl, hne, by simp, _, _, hs'.enter hv, rfl⟩

/-- **`operator++` visits the next trail.** -/
theorem advance (h : TraverserAt a s₀ B children transition ok t p rest)
    (hB : Preorder.Bounded children B) (hv : Visits a s₀ children transition ok) :
    Arrives a s₀ B children transition ok t.advance rest := by
  obtain ⟨r, rs, hs, rfl⟩ := h.stack
  exact advance_of_stackAt hB hv h.fsa h.alive hs

/-- **`Prune` and then `operator++` visits the next trail that does not lie below.** -/
theorem prune_advance {c : Byte}
    (h : TraverserAt a s₀ B children transition ok t (c :: p) rest)
    (hB : Preorder.Bounded children B) (hnd : ∀ p, (children p).Nodup)
    (hv : Visits a s₀ children transition ok)
    (hup : ∀ π r r', ok π (c :: p) r → (c :: r') <:+ children p →
      ok (TransitionT.leave τ (p.length + 1) π) p r') :
    Arrives a s₀ B children transition ok t.prune.advance
      (rest.filter fun q => ¬ (c :: p) <:+ q) := by
  obtain ⟨r, rs, hs, rfl⟩ := h.stack
  cases rs with
  | nil => exact hs.ancestors.elim
  | cons r' rs =>
    rw [Preorder.filter_pending hB hnd hs.ancestors]
    exact advance_of_stackAt (t := t.prune) hB hv h.fsa h.alive
      (hs.goUp (hup _ _ _ hs.payload hs.ancestors.1))

end TraverserAt

end Visits

end Keyvi.Fsa
