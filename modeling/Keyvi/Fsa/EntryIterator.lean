import Mathlib
import Keyvi.Fsa.Traversal

/-!
# The entry iterator

`entry_iterator.h`. The iterator has its own loop over the same stack: it keeps the bytes of the
key beside it and stops at final states only.
-/

namespace Keyvi.Fsa

/-- `EntryIterator`; `fsa_` is null after `Clear`. -/
structure EntryIterator where
  fsa : Option Automata
  currentState : Nat
  currentValue : Nat
  traversalStack : List Byte
  stack : TraversalStack Transition Unit

namespace EntryIterator

/-- `GetKey`. -/
def getKey (it : EntryIterator) : Key := it.traversalStack.take it.stack.currentDepth

/-- `Clear`. -/
def clear (it : EntryIterator) : EntryIterator :=
  { it with
    fsa := none
    currentState := 0
    currentValue := 0 }

/-- The inner loop: go up until there is a next state. -/
def climb : Nat → TraversalStack Transition Unit → List Byte →
    TraversalStack Transition Unit × List Byte
  | 0, s, k => (s, k)
  | n + 1, s, k =>
    if s.getStates.getNextState ≠ 0 then (s, k) else climb n s.goUp k.dropLast

/-- The outer loop, at most `fuel` rounds. -/
def loop (a : Automata) : Nat → EntryIterator → Option EntryIterator
  | 0, _ => none
  | fuel + 1, it =>
    let up := climb it.stack.currentDepth it.stack it.traversalStack
    let nextState := up.1.getStates.getNextState
    if nextState = 0 then
      some (clear { it with
        stack := up.1
        traversalStack := up.2 })
    else
      let it' : EntryIterator :=
        { it with
          currentState := nextState
          traversalStack := up.2 ++ [up.1.getStates.getNextTransition]
          stack := up.1.enter a nextState 0 }
      if a.isFinalState nextState then
        some { it' with currentValue := a.getStateValue nextState }
      else
        loop a fuel it'

/-- `TraverseToNextFinalState`. -/
def traverseToNextFinalState (fuel : Nat) (it : EntryIterator) : Option EntryIterator :=
  if it.currentState = 0 then some it
  else
    match it.fsa with
    | none => some it
    | some a => loop a fuel it

/-- `EntryIterator()`. -/
def theEnd : EntryIterator := ⟨none, 0, 0, [], ⟨fun _ => ⟨[], 0⟩, 0, ()⟩⟩

/-- `EntryIterator(f, start_state)`. -/
def ofState (fuel : Nat) (f : Automata) (startState : Nat) : Option EntryIterator :=
  if 0 < f.numberOfKeys then
    traverseToNextFinalState fuel
      { fsa := some f
        currentState := startState
        currentValue := 0
        traversalStack := []
        stack := (StateTraverser.atState f startState 0 () : PlainTraverser).stack }
  else
    some theEnd

/-- `EntryIterator(f)`. -/
def ofAutomata (fuel : Nat) (f : Automata) : Option EntryIterator :=
  ofState fuel f f.getStartState

/-- `operator==` with the iterator at the end. -/
def atEnd (it : EntryIterator) : Bool := it.currentState = theEnd.currentState

/-- What `for (; it != end; ++it)` sees, at most `n` rounds. -/
def collect (fuel : Nat) : Nat → EntryIterator → Option (List (Key × Nat))
  | 0, _ => none
  | n + 1, it =>
    if it.atEnd then some []
    else do
      let it' ← traverseToNextFinalState fuel it
      let rest ← collect fuel n it'
      some ((it.getKey, it.currentValue) :: rest)

/-! ## The rounds of the loop -/

theorem climb_eq : ∀ (n : Nat) (s : TraversalStack Transition Unit) (k : List Byte),
    n = s.currentDepth → k.length = s.currentDepth →
    climb n s k = (s.findNext n, k.take (s.findNext n).currentDepth)
  | 0, s, k, hn, hk => by
    rw [climb, TraversalStack.findNext, List.take_of_length_le (by omega)]
  | n + 1, s, k, hn, hk => by
    rw [climb, TraversalStack.findNext]
    by_cases h : s.getStates.getNextState ≠ 0
    · rw [if_pos h, if_pos (show s.nextState ≠ 0 from h), List.take_of_length_le (by omega)]
    · have hd : s.goUp.currentDepth = n := by
        show s.currentDepth - 1 = n
        omega
      have hle := currentDepth_findNext_le n s.goUp
      rw [if_neg h, if_neg (show ¬ s.nextState ≠ 0 from h),
        climb_eq n s.goUp k.dropLast hd.symm (by rw [List.length_dropLast]; omega),
        List.dropLast_eq_take, List.take_take, min_eq_left (by omega)]
where
  currentDepth_findNext_le : ∀ (n : Nat) (s : TraversalStack Transition Unit),
      (s.findNext n).currentDepth ≤ s.currentDepth
    | 0, _ => le_rfl
    | n + 1, s => by
      rw [TraversalStack.findNext]
      split
      · exact le_rfl
      · exact (currentDepth_findNext_le n s.goUp).trans (Nat.sub_le _ _)

section

variable {a : Automata} {B s₀ : Nat}

/-- The iterator stands at the trail `p`, and the traversal has `rest` before it. -/
structure At (a : Automata) (s₀ B : Nat) (it : EntryIterator) (p : List Byte)
    (rest : List (List Byte)) : Prop where
  fsa : it.fsa = some a
  alive : it.currentState ≠ 0
  key : it.traversalStack = p.reverse
  stack : ∃ r rs,
    StackAt (a.children s₀) (Transition.at' a s₀) Transition.ok it.stack p r rs ∧
      rest = Preorder.pending (a.children s₀) B p (r :: rs)

theorem At.getKey {it : EntryIterator} {p : List Byte} {rest : List (List Byte)}
    (h : At a s₀ B it p rest) : it.getKey = p.reverse := by
  obtain ⟨r, rs, hs, -⟩ := h.stack
  rw [EntryIterator.getKey, h.key, hs.depth, List.take_of_length_le (by simp)]

/-- The iterator stands at the first final trail of the list, or at the end. -/
def Stops (a : Automata) (s₀ B : Nat) (it : EntryIterator) : List (List Byte) → Prop
  | [] => it.currentState = 0
  | q :: rest =>
    if a.isFinalState (a.trailState s₀ q) then
      At a s₀ B it q rest ∧ it.currentValue = a.getStateValue (a.trailState s₀ q)
    else Stops a s₀ B it rest

/-- **One call runs through the trails up to the next final one.** -/
theorem loop_stops (hT : a.Tree s₀ B) : ∀ {rest : List (List Byte)} {fuel : Nat}
    {it : EntryIterator} {p : List Byte}, rest.length < fuel → At a s₀ B it p rest →
    ∃ it', loop a fuel it = some it' ∧ Stops a s₀ B it' rest := by
  intro rest
  induction rest with
  | nil =>
    intro fuel it p hf h
    obtain ⟨fuel, rfl⟩ : ∃ n, fuel = n + 1 := ⟨fuel - 1, by simp at hf; omega⟩
    obtain ⟨r, rs, hs, hrest⟩ := h.stack
    have hn := hs.findNext (Automata.bounded_children hT) (Transition.visits hT).toWalks
    rw [← hrest] at hn
    rw [loop, climb_eq _ _ _ rfl (by rw [h.key, hs.depth, List.length_reverse])]
    simp only
    rw [if_pos (show (it.stack.findNext it.stack.currentDepth).getStates.getNextState = 0 from hn)]
    exact ⟨_, rfl, rfl⟩
  | cons q rest ih =>
    intro fuel it p hf h
    obtain ⟨fuel, rfl⟩ : ∃ n, fuel = n + 1 := ⟨fuel - 1, by simp at hf; omega⟩
    obtain ⟨r, rs, hs, hrest⟩ := h.stack
    have hv := Transition.visits (a := a) hT
    have hn := hs.findNext (Automata.bounded_children hT) hv.toWalks
    rw [← hrest] at hn
    obtain ⟨c, p', r', rs', rfl, hp', hs', rfl⟩ := hn
    have hstate : (it.stack.findNext it.stack.currentDepth).getStates.getNextState =
        a.trailState s₀ (c :: p') := hs'.nextState hv.toWalks
    have hne : a.trailState s₀ (c :: p') ≠ 0 :=
      (Automata.mem_children hT).mp (hs'.suffix.subset List.mem_cons_self)
    have hkey : (p.reverse.take p'.length) = p'.reverse := by
      have := List.prefix_iff_eq_take.mp (List.reverse_prefix.mpr hp')
      rw [List.length_reverse] at this
      exact this.symm
    rw [loop, climb_eq _ _ _ rfl (by rw [h.key, hs.depth, List.length_reverse])]
    simp only [hstate, if_neg hne, hs'.nextTransition hv.toWalks, hs'.depth, h.key, hkey]
    have hat : ∀ v, At a s₀ B
        { it with
          currentState := a.trailState s₀ (c :: p')
          currentValue := v
          traversalStack := p'.reverse ++ [c]
          stack := (it.stack.findNext it.stack.currentDepth).enter a
            (a.trailState s₀ (c :: p')) 0 } (c :: p')
        (Preorder.pending (a.children s₀) B (c :: p') (a.children s₀ (c :: p') :: r' :: rs')) :=
      fun v => ⟨h.fsa, hne, by simp, _, _, hs'.enter hv, rfl⟩
    by_cases hfin : a.isFinalState (a.trailState s₀ (c :: p'))
    · rw [if_pos hfin]
      refine ⟨_, rfl, ?_⟩
      rw [Stops, if_pos hfin]
      exact ⟨hat _, rfl⟩
    · obtain ⟨it', hit, hstop⟩ :=
        ih (Nat.lt_of_succ_lt_succ hf) (hat it.currentValue)
      rw [if_neg hfin]
      refine ⟨it', hit, ?_⟩
      rw [Stops, if_neg hfin]
      exact hstop

theorem traverseToNextFinalState_stops (hT : a.Tree s₀ B) {rest : List (List Byte)} {fuel : Nat}
    {it : EntryIterator} {p : List Byte} (hf : rest.length < fuel) (h : At a s₀ B it p rest) :
    ∃ it', traverseToNextFinalState fuel it = some it' ∧ Stops a s₀ B it' rest := by
  rw [traverseToNextFinalState, if_neg h.alive, h.fsa]
  exact loop_stops hT hf h

/-- The key and the value at a final trail. -/
def entryAt (a : Automata) (s₀ : Nat) (q : List Byte) : Key × Nat :=
  (q.reverse, a.getStateValue (a.trailState s₀ q))

/-- **The rounds see the final trails, one after the other.** -/
theorem collect_eq (hT : a.Tree s₀ B) (fuel : Nat) : ∀ {rest : List (List Byte)} {n : Nat}
    {it : EntryIterator}, rest.length < fuel → rest.length < n → Stops a s₀ B it rest →
    collect fuel n it =
      some ((rest.filter fun q => a.isFinalState (a.trailState s₀ q)).map (entryAt a s₀)) := by
  intro rest
  induction rest with
  | nil =>
    intro n it _ hn h
    obtain ⟨n, rfl⟩ : ∃ m, n = m + 1 := ⟨n - 1, by simp at hn; omega⟩
    have h0 : it.currentState = 0 := h
    simp [collect, atEnd, theEnd, h0]
  | cons q rest ih =>
    intro n it hf hn h
    simp only [List.length_cons] at hf hn
    by_cases hfin : a.isFinalState (a.trailState s₀ q)
    · rw [Stops, if_pos hfin] at h
      obtain ⟨hat, hval⟩ := h
      obtain ⟨n, rfl⟩ : ∃ m, n = m + 1 := ⟨n - 1, by omega⟩
      obtain ⟨it', hit, hstop⟩ := traverseToNextFinalState_stops hT (Nat.lt_of_succ_lt hf) hat
      have hend : it.atEnd = false := by simp [atEnd, theEnd, hat.alive]
      have hrest := ih (Nat.lt_of_succ_lt hf) (Nat.lt_of_succ_lt_succ hn) hstop
      simp only [List.filter_cons, hfin, if_true, List.map_cons]
      simp [collect, hend, hit, hrest, entryAt, hat.getKey, hval]
    · rw [Stops, if_neg hfin] at h
      simp only [List.filter_cons, hfin]
      exact ih (by omega) (by omega) h

end

end EntryIterator

end Keyvi.Fsa
