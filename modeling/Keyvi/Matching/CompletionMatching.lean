import Mathlib
import Keyvi.Fsa.ZipStateTraverser
import Keyvi.Matching.Match

/-!
# Completion

`prefix_completion_matching.h` and `multiword_completion_matching.h`. Both walk the query exactly and
then return what the traverser finds below; the multiword completer does not go on behind a space,
unless it has passed the separator, and returns what stands behind the separator.

The template parameter `innerTraverserType` is a class here.
-/

namespace Keyvi.Matching

open Fsa

/-- What the completers use of `innerTraverserType`. `advance` and `prune` are the code's where
`canAdvance` and `canPrune` hold; elsewhere the code leaves its containers. -/
class InnerTraverser (T : Type) where
  alive : T → Bool
  getDepth : T → Nat
  getStateLabel : T → Byte
  isFinalState : T → Bool
  getStateValue : T → Nat
  getFsa : T → Automata
  advance : T → T
  prune : T → T
  canAdvance : T → Bool
  canPrune : T → Bool

/-- A traverser of one automaton. -/
class SingleTraverser (T : Type) extends InnerTraverser T where
  ofState : Automata → Nat → T

/-- A traverser of several automata. -/
class ZippedTraverser (T : Type) extends InnerTraverser T where
  ofPairs : List (Automata × Nat) → T

instance {τ π : Type} [TransitionT τ π] [Inhabited π] : SingleTraverser (StateTraverser τ π) where
  alive := StateTraverser.alive
  getDepth := StateTraverser.getDepth
  getStateLabel := StateTraverser.currentLabel
  isFinalState := StateTraverser.isFinalState
  getStateValue := StateTraverser.getStateValue
  getFsa := StateTraverser.fsa
  advance := StateTraverser.advance
  prune := StateTraverser.prune
  canAdvance _ := true
  canPrune t := decide (0 < t.getDepth)
  ofState fsa state := StateTraverser.ofState fsa state default true

/-- The automaton of an exhausted zipped traverser is a null pointer; nobody asks for it. -/
instance {τ π : Type} [ZipT τ π] [Inhabited π] : ZippedTraverser (ZipStateTraverser τ π) where
  alive := ZipStateTraverser.alive
  getDepth := ZipStateTraverser.depth
  getStateLabel := ZipStateTraverser.stateLabel
  isFinalState := ZipStateTraverser.final
  getStateValue := ZipStateTraverser.stateValue
  getFsa z := z.fsa.getD (Automata.ofCells 0 0 [] [])
  advance := ZipStateTraverser.advance
  prune := ZipStateTraverser.prune
  canAdvance z := z.advance?.isSome
  canPrune := ZipStateTraverser.canPrune
  ofPairs pairs := ZipStateTraverser.ofPairs pairs default true

open InnerTraverser

/-- The automata in which there is a way along the query, with the states at its end. -/
def fsaStartStatePairs (fsas : List Automata) (query : Key) : List (Automata × Nat) :=
  (fsas.map fun fsa => (fsa, fsa.walk fsa.getStartState query)).filter fun f => f.2 ≠ 0

/-- The loop for the match of the query itself: it ends at the first final state. -/
def firstFinal (pairs : List (Automata × Nat)) : Option (Automata × Nat) :=
  pairs.find? fun f => f.1.isFinalState f.2

/-! ## Prefix completion -/

/-- `PrefixCompletionMatching`. -/
structure PrefixCompletionMatching (T : Type) where
  traverser : Option T
  firstMatch : Option Match
  traversalStack : List Byte
  prefixLength : Nat

namespace PrefixCompletionMatching

variable {T : Type}

/-- `PrefixCompletionMatching()`. -/
def empty : PrefixCompletionMatching T := ⟨none, none, [], 0⟩

/-- `FromSingleFsa` with a start state. -/
def fromSingleFsaAt [SingleTraverser T] (fsa : Automata) (startState : Nat) (query : Key) :
    PrefixCompletionMatching T :=
  if startState = 0 then empty
  else
    let state := fsa.walk startState query
    if state = 0 then empty
    else
      { traverser := some (SingleTraverser.ofState fsa state)
        firstMatch :=
          if fsa.isFinalState state then
            some (.make 0 query.length query 0 fsa (fsa.getStateValue state))
          else none
        traversalStack := query
        prefixLength := query.length }

/-- `FromSingleFsa`. -/
def fromSingleFsa [SingleTraverser T] (fsa : Automata) (query : Key) :
    PrefixCompletionMatching T :=
  fromSingleFsaAt fsa fsa.getStartState query

/-- `FromMulipleFsas`. -/
def fromMulipleFsas [ZippedTraverser T] (fsas : List Automata) (query : Key) :
    PrefixCompletionMatching T :=
  let pairs := fsaStartStatePairs fsas query
  if pairs = [] then empty
  else
    { traverser := some (ZippedTraverser.ofPairs pairs)
      firstMatch := (firstFinal pairs).map fun f =>
        .make 0 query.length query 0 f.1 (f.1.getStateValue f.2)
      traversalStack := query
      prefixLength := query.length }

variable [InnerTraverser T]

/-- `NextMatch`, at most `fuel` rounds of its loop. -/
def nextMatch : Nat → PrefixCompletionMatching T → Option (Option Match × PrefixCompletionMatching T)
  | 0, _ => none
  | fuel + 1, m =>
    match m.traverser with
    | none => some (none, m)
    | some t =>
      if alive t then
        let stack := resize m.traversalStack (m.prefixLength + getDepth t - 1) ++ [getStateLabel t]
        let next := { m with traversalStack := stack, traverser := some (advance t) }
        if isFinalState t then
          some (some (.make 0 (m.prefixLength + getDepth t) stack 0 (getFsa t) (getStateValue t)),
            next)
        else nextMatch fuel next
      else some (none, m)

/-- The matches of `NextMatch` until there is none, at most `rounds` calls. -/
def nextMatches (fuel : Nat) : Nat → PrefixCompletionMatching T → Option (List Match)
  | 0, _ => none
  | rounds + 1, m => do
    let next ← nextMatch fuel m
    match next.1 with
    | none => some []
    | some x => (nextMatches fuel rounds next.2).map (x :: ·)

/-- All matches, the first one included. -/
def allMatches (fuel rounds : Nat) (m : PrefixCompletionMatching T) : Option (List Match) :=
  (nextMatches fuel rounds m).map (m.firstMatch.toList ++ ·)

end PrefixCompletionMatching

/-! ## Multiword completion -/

/-- `Transform::BagOfWordsPartial`: all tokens but the last are sorted. -/
def bagOfWordsPartial (input : Key) : Key :=
  let strs := input.splitOnP fun c => c = 0x09 || c = 0x20
  if strs.length = 1 then input
  else
    List.intercalate [0x20] (strs.dropLast.mergeSort (fun v w => decide (v ≤ w)) ++
      strs.getLast?.toList)

/-- `MultiwordCompletionMatching`. -/
structure MultiwordCompletionMatching (T : Type) where
  traverser : Option T
  firstMatch : Option Match
  traversalStack : List Byte
  prefixLength : Nat
  multiwordSeparator : Byte
  multiwordBoundary : Nat

namespace MultiwordCompletionMatching

variable {T : Type}

/-- `MultiwordCompletionMatching()`. -/
def empty : MultiwordCompletionMatching T := ⟨none, none, [], 0, 0, 0⟩

/-- `FromSingleFsa` with a start state. -/
def fromSingleFsaAt [SingleTraverser T] (fsa : Automata) (startState : Nat) (query : Key)
    (multiwordSeparator : Byte) : MultiwordCompletionMatching T :=
  if startState = 0 then empty
  else
    let queryBow := bagOfWordsPartial query
    let state := fsa.walk startState queryBow
    if state = 0 then empty
    else
      { traverser := some (SingleTraverser.ofState fsa state)
        firstMatch :=
          if fsa.isFinalState state then
            some (.make 0 queryBow.length query 0 fsa (fsa.getStateValue state))
          else none
        traversalStack := queryBow
        prefixLength := queryBow.length
        multiwordSeparator := multiwordSeparator
        multiwordBoundary := 0 }

/-- `FromSingleFsa`. -/
def fromSingleFsa [SingleTraverser T] (fsa : Automata) (query : Key) (multiwordSeparator : Byte) :
    MultiwordCompletionMatching T :=
  fromSingleFsaAt fsa fsa.getStartState query multiwordSeparator

/-- `FromMulipleFsas`. -/
def fromMulipleFsas [ZippedTraverser T] (fsas : List Automata) (query : Key)
    (multiwordSeparator : Byte) : MultiwordCompletionMatching T :=
  let queryBow := bagOfWordsPartial query
  let pairs := fsaStartStatePairs fsas queryBow
  if pairs = [] then empty
  else
    { traverser := some (ZippedTraverser.ofPairs pairs)
      firstMatch := (firstFinal pairs).map fun f =>
        .make 0 queryBow.length query 0 f.1 (f.1.getStateValue f.2)
      traversalStack := queryBow
      prefixLength := queryBow.length
      multiwordSeparator := multiwordSeparator
      multiwordBoundary := 0 }

variable [InnerTraverser T]

/-- The boundary at a label: at the separator it is set, and it is reset when the traverser went
up. -/
def boundaryAt (m : MultiwordCompletionMatching T) (t : T) : Nat :=
  if getStateLabel t = m.multiwordSeparator then getDepth t
  else if getDepth t ≤ m.multiwordBoundary then 0
  else m.multiwordBoundary

/-- The string of a match: all of the path, or what stands behind the boundary. -/
def matchStr (m : MultiwordCompletionMatching T) (stack : List Byte) : Key :=
  if 0 < m.multiwordBoundary then stack.drop (m.prefixLength + m.multiwordBoundary) else stack

/-- `NextMatch`, at most `fuel` rounds of its loop. -/
def nextMatch : Nat → MultiwordCompletionMatching T →
    Option (Option Match × MultiwordCompletionMatching T)
  | 0, _ => none
  | fuel + 1, m =>
    match m.traverser with
    | none => some (none, m)
    | some t =>
      if alive t then
        let m := { m with multiwordBoundary := m.boundaryAt t }
        -- Only match up to the number of tokens of the query.
        if getStateLabel t = 0x20 ∧ m.multiwordBoundary = 0 then
          nextMatch fuel { m with traverser := some (advance (prune t)) }
        else
          let stack :=
            resize m.traversalStack (m.prefixLength + getDepth t - 1) ++ [getStateLabel t]
          let next := { m with traversalStack := stack, traverser := some (advance t) }
          if isFinalState t then
            some (some (.make 0 (m.prefixLength + getDepth t) (m.matchStr stack) 0 (getFsa t)
              (getStateValue t)), next)
          else nextMatch fuel next
      else some (none, m)

/-- The matches of `NextMatch` until there is none, at most `rounds` calls. -/
def nextMatches (fuel : Nat) : Nat → MultiwordCompletionMatching T → Option (List Match)
  | 0, _ => none
  | rounds + 1, m => do
    let next ← nextMatch fuel m
    match next.1 with
    | none => some []
    | some x => (nextMatches fuel rounds next.2).map (x :: ·)

/-- All matches, the first one included. -/
def allMatches (fuel rounds : Nat) (m : MultiwordCompletionMatching T) : Option (List Match) :=
  (nextMatches fuel rounds m).map (m.firstMatch.toList ++ ·)

end MultiwordCompletionMatching

end Keyvi.Matching
