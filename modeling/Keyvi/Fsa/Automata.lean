import Mathlib
import Keyvi.Library.Varlen
import Keyvi.Util.Key

/-!
# The automaton as it is read

`Automata` of `fsa/automata.h` over its two mapped arrays. A state is an offset into them: the label
of its transition for `c` is at `s + c`, the pointer at the same place of the second array.
-/

namespace Keyvi.Fsa

def COMPACT_SIZE_WINDOW : Nat := 512

def FINAL_OFFSET_TRANSITION : Nat := 256

def FINAL_OFFSET_CODE : Byte := 1

def INNER_WEIGHT_TRANSITION_COMPACT : Nat := 260

/-- `labels_`, `transitions_compact_` (16 bit cells) and what the properties say of the file. -/
structure Automata where
  numberOfKeys : Nat
  startState : Nat
  labels : Nat → Byte
  transitionsCompact : Nat → Nat

namespace Automata

/-- `keyvi::util::decodeVarShort` at a cell; more than five units do not fit a `uint64_t`. -/
def decodeVarShort (a : Automata) (pos : Nat) : Nat :=
  Varlen.decode 32768 a.transitionsCompact 5 pos % 2 ^ 64

/-- `ResolvePointer`. The differences are differences of `uint64_t`. -/
def resolvePointer (a : Automata) (startingState : Nat) (c : Byte) : Nat :=
  let here := startingState + c.val
  let pt := a.transitionsCompact here
  if pt &&& 0xC000 = 0xC000 then
    pt &&& 0x3FFF
  else if pt &&& 0x8000 ≠ 0 then
    let pt := pt &&& 0x7FFF
    let overflowBucket := (pt >>> 4 + here + 2 ^ 64 - COMPACT_SIZE_WINDOW) % 2 ^ 64
    let resolved := (a.decodeVarShort overflowBucket <<< 3 + (pt &&& 0x7)) % 2 ^ 64
    if pt &&& 0x8 ≠ 0 then (here + 2 ^ 64 - resolved + COMPACT_SIZE_WINDOW) % 2 ^ 64 else resolved
  else
    (here + 2 ^ 64 - pt + COMPACT_SIZE_WINDOW) % 2 ^ 64

/-- `GetStartState`: an empty automaton has none. -/
def getStartState (a : Automata) : Nat := if a.numberOfKeys ≠ 0 then a.startState else 0

/-- `TryWalkTransition`. -/
def tryWalkTransition (a : Automata) (startingState : Nat) (c : Byte) : Nat :=
  if a.labels (startingState + c.val) = c then a.resolvePointer startingState c else 0

/-- `IsFinalState`. -/
def isFinalState (a : Automata) (state : Nat) : Bool :=
  a.labels (state + FINAL_OFFSET_TRANSITION) = FINAL_OFFSET_CODE

/-- `GetStateValue`. -/
def getStateValue (a : Automata) (state : Nat) : Nat :=
  a.decodeVarShort (state + FINAL_OFFSET_TRANSITION)

/-- `GetInnerWeight`. -/
def getInnerWeight (a : Automata) (state : Nat) : Nat :=
  if a.labels (state + INNER_WEIGHT_TRANSITION_COMPACT) ≠ 0 then 0
  else a.transitionsCompact (state + INNER_WEIGHT_TRANSITION_COMPACT)

/-- The labels that `GetOutGoingTransitions` finds at a state, by comparing the 256 cells with
`OUTGOING_TRANSITIONS_MASK`. -/
def outgoingLabels (a : Automata) (startingState : Nat) : List Byte :=
  (List.finRange 256).filter fun c => a.labels (startingState + c.val) = c

theorem mem_outgoingLabels {a : Automata} {s : Nat} {c : Byte} :
    c ∈ a.outgoingLabels s ↔ a.labels (s + c.val) = c := by
  simp [outgoingLabels]

theorem pairwise_outgoingLabels (a : Automata) (s : Nat) :
    (a.outgoingLabels s).Pairwise (· < ·) :=
  (List.pairwise_lt_finRange 256).filter _

theorem resolvePointer_of_mem {a : Automata} {s : Nat} {c : Byte} (h : c ∈ a.outgoingLabels s) :
    a.resolvePointer s c = a.tryWalkTransition s c := by
  rw [tryWalkTransition, if_pos (mem_outgoingLabels.mp h)]

/-! ## Exact walks

The loops `while (state != 0 && depth != length) state = TryWalkTransition(state, key[depth++])`.
-/

/-- The state at the end of an exact walk, 0 when there is no way. -/
def walk (a : Automata) : Nat → Key → Nat
  | s, [] => s
  | s, c :: k => if s = 0 then 0 else walk a (a.tryWalkTransition s c) k

/-- The walk along a trail, whose last label comes first. -/
def trailState (a : Automata) (s : Nat) : List Byte → Nat
  | [] => s
  | c :: p => if trailState a s p = 0 then 0 else a.tryWalkTransition (trailState a s p) c

@[simp] theorem walk_zero (a : Automata) (k : Key) : a.walk 0 k = 0 := by
  cases k <;> simp [walk]

theorem walk_append (a : Automata) (s : Nat) (j k : Key) :
    a.walk s (j ++ k) = a.walk (a.walk s j) k := by
  induction j generalizing s with
  | nil => rfl
  | cons c j ih =>
    rw [List.cons_append, walk, walk]
    split
    · simp
    · exact ih _

theorem walk_reverse (a : Automata) (s : Nat) (p : List Byte) :
    a.walk s p.reverse = a.trailState s p := by
  induction p with
  | nil => rfl
  | cons c p ih =>
    rw [List.reverse_cons, walk_append, ih, trailState]
    simp [walk]

theorem trailState_reverse (a : Automata) (s : Nat) (k : Key) :
    a.trailState s k.reverse = a.walk s k := by
  rw [← walk_reverse, List.reverse_reverse]

/-! ## What the generator writes

The automaton of a dictionary: exact walks find the keys with their values, every transition leads
to a state, every path leads to a key, and the number of keys is in the properties. Nothing is said
about which paths share a state.
-/

/-- The keys of the entries. -/
def keysOf (entries : List (Key × Nat)) : List Key := entries.map Prod.fst

/-- The automaton holds the entries. -/
structure Holds (a : Automata) (entries : List (Key × Nat)) : Prop where
  ascending : (keysOf entries).Pairwise (· < ·)
  nonempty : [] ∉ keysOf entries
  count : a.numberOfKeys = entries.length
  start : entries ≠ [] → a.startState ≠ 0
  final : ∀ k, k ∈ keysOf entries ↔
    a.walk a.getStartState k ≠ 0 ∧ a.isFinalState (a.walk a.getStartState k) = true
  value : ∀ e ∈ entries, a.getStateValue (a.walk a.getStartState e.1) = e.2
  target : ∀ p, a.walk a.getStartState p ≠ 0 →
    ∀ c ∈ a.outgoingLabels (a.walk a.getStartState p),
      a.resolvePointer (a.walk a.getStartState p) c ≠ 0
  leads : ∀ p, p ≠ [] → a.walk a.getStartState p ≠ 0 → ∃ k ∈ keysOf entries, p <+: k

end Automata

end Keyvi.Fsa
