import Mathlib
import Keyvi.Fsa.Automata

/-!
# Matches

`match.h`, the part that the matchers fill in, and the exact walk they begin with.
-/

namespace Keyvi.Matching

open Fsa

/-- `Match`. The score is an `uint32_t`. -/
structure Match where
  start : Nat
  endPosition : Nat
  matchedString : Key
  score : Nat
  fsa : Automata
  stateValue : Nat

/-- The constructor: a score that is a `size_t` is cut to 32 bits. -/
def Match.make (a b : Nat) (matchedItem : Key) (score : Nat) (fsa : Automata) (state : Nat) :
    Match :=
  ⟨a, b, matchedItem, score % 2 ^ 32, fsa, state⟩

/-- The loop that gives up as soon as there is no way. -/
def matchPrefix (fsa : Automata) : Nat → Key → Option Nat
  | state, [] => some state
  | state, c :: k =>
    let next := fsa.tryWalkTransition state c
    if next = 0 then none else matchPrefix fsa next k

theorem matchPrefix_eq (fsa : Automata) : ∀ (k : Key) (state : Nat), state ≠ 0 →
    matchPrefix fsa state k = if fsa.walk state k = 0 then none else some (fsa.walk state k)
  | [], state, h => by simp [matchPrefix, Automata.walk, h]
  | c :: k, state, h => by
    rw [matchPrefix, Automata.walk, if_neg h]
    by_cases h0 : fsa.tryWalkTransition state c = 0
    · simp [h0]
    · rw [if_neg h0]
      exact matchPrefix_eq fsa k _ h0

end Keyvi.Matching
