import Mathlib
import Keyvi.Fsa.NearTraversal
import Keyvi.Matching.Match

/-!
# Near matching

`near_matching.h` on one automaton. The first bytes of the query are walked exactly; below that state
a near traverser visits what agrees with the rest of the query first. Without `greedy` the matcher
stops when it has left the deepest match it has seen.
-/

namespace Keyvi.Matching

open Fsa

/-- A near traverser that is compared. -/
abbrev NearTraverser := ComparableStateTraverser NearTransition NearPayload

/-- `NearMatching`. -/
structure NearMatching where
  traverser : Option NearTraverser
  exactPrefix : Key
  firstMatch : Option Match
  greedy : Bool
  matchedDepth : Nat

namespace NearMatching

/-- `NearMatching()`. -/
def empty : NearMatching := ⟨none, [], none, false, 0⟩

/-- `FromSingleFsaWithMatchedExactPrefix`. -/
def fromSingleFsaWithMatchedExactPrefix (fsa : Automata) (startState : Nat) (query : Key)
    (exactPrefix : Nat) (greedy : Bool) : NearMatching where
  traverser := some (ComparableStateTraverser.ofState fsa startState
    { lookupKey := query.drop exactPrefix } true 0)
  exactPrefix := query.take exactPrefix
  firstMatch :=
    if fsa.isFinalState startState then
      some (.make 0 query.length query exactPrefix fsa (fsa.getStateValue startState))
    else none
  greedy := greedy
  matchedDepth := 0

/-- `FromSingleFsa` with a start state. -/
def fromSingleFsaAt (fsa : Automata) (startState : Nat) (query : Key) (minimumExactPrefix : Nat)
    (greedy : Bool) : NearMatching :=
  if query.length < minimumExactPrefix ∨ startState = 0 then empty
  else
    match matchPrefix fsa startState (query.take minimumExactPrefix) with
    | none => empty
    | some state =>
      fromSingleFsaWithMatchedExactPrefix fsa state query minimumExactPrefix greedy

/-- `FromSingleFsa`. -/
def fromSingleFsa (fsa : Automata) (query : Key) (minimumExactPrefix : Nat) (greedy : Bool) :
    NearMatching :=
  fromSingleFsaAt fsa fsa.getStartState query minimumExactPrefix greedy

/-- The match at the state of the traverser. -/
def matchAt (exactPrefix : Key) (t : NearTraverser) : Match :=
  .make 0 (t.stateTraverser.getDepth + exactPrefix.length)
    (exactPrefix ++ t.labelStack.take t.stateTraverser.getDepth)
    (exactPrefix.length + t.stateTraverser.stack.payload.exactDepth)
    t.stateTraverser.fsa (t.stateTraverser.fsa.getStateValue t.stateTraverser.currentState)

/-- `NextMatch`, at most `fuel` rounds of its loop. -/
def nextMatch : Nat → NearMatching → Option (Option Match × NearMatching)
  | 0, _ => none
  | fuel + 1, n =>
    match n.traverser with
    | none => some (none, n)
    | some t =>
      if t.stateTraverser.getDepth > n.matchedDepth then
        if t.stateTraverser.isFinalState then
          some (some (matchAt n.exactPrefix t),
            { n with
              matchedDepth :=
                if n.greedy then n.matchedDepth else t.stateTraverser.stack.payload.exactDepth
              traverser := some t.advance })
        else
          nextMatch fuel { n with traverser := some t.advance }
      else some (none, n)

/-- The matches of `NextMatch` until there is none, at most `rounds` calls. -/
def nextMatches (fuel : Nat) : Nat → NearMatching → Option (List Match)
  | 0, _ => none
  | rounds + 1, n => do
    let next ← nextMatch fuel n
    match next.1 with
    | none => some []
    | some m => (nextMatches fuel rounds next.2).map (m :: ·)

/-- All matches, the first one included. -/
def allMatches (fuel rounds : Nat) (n : NearMatching) : Option (List Match) :=
  (nextMatches fuel rounds n).map (n.firstMatch.toList ++ ·)

/-! ## The rounds follow the order of the traverser -/

/-- What a matcher takes from a list of paths: it stops at a path that is not longer than the depth it
remembers. -/
def scan (greedy : Bool) (final : List Byte → Bool) (agree : List Byte → Nat) :
    Nat → List (List Byte) → List (List Byte)
  | _, [] => []
  | depth, p :: rest =>
    if depth < p.length then
      if final p then p :: scan greedy final agree (if greedy then depth else agree p) rest
      else scan greedy final agree depth rest
    else []

section

variable {a : Automata} {s₀ B : Nat} {w j : Key}

/-- The traverser is at the first of the trails; at its end it is at depth 0. -/
structure Arrives (a : Automata) (s₀ B : Nat) (w : Key) (t : NearTraverser)
    (l : List (List Byte)) : Prop where
  arrives : ComparableStateTraverser.Arrives a s₀ B (NearTransition.children a s₀ w)
    (NearTransition.at' a s₀) (NearTransition.Ok a s₀ w) t l
  depth : l = [] → t.stateTraverser.getDepth = 0

/-- The path is a key. -/
def finalAt (a : Automata) (s₀ : Nat) (p : List Byte) : Bool := a.isFinalState (a.trailState s₀ p)

/-- How far the path agrees with the key. -/
def agreeAt (w : Key) (p : List Byte) : Nat := commonPrefix p.reverse w

/-- The match of a path. -/
def matchOf (a : Automata) (s₀ : Nat) (w j : Key) (p : List Byte) : Match :=
  .make 0 (p.length + j.length) (j ++ p.reverse) (j.length + agreeAt w p) a
    (a.getStateValue (a.trailState s₀ p))

theorem getDepth_findNext {s : TraversalStack NearTransition NearPayload} :
    ∀ n, n = s.currentDepth → (s.findNext n).nextState = 0 → (s.findNext n).currentDepth = 0 := by
  intro n
  induction n generalizing s with
  | zero => intro hn _; exact hn.symm
  | succ n ih =>
    intro hn h
    rw [TraversalStack.findNext] at h ⊢
    split at h
    case isTrue hne => exact absurd h hne
    case isFalse hne =>
      rw [if_neg hne]
      refine ih ?_ h
      show n = s.currentDepth - 1
      omega

theorem arrives_advance (hT : a.Tree s₀ B) {t : NearTraverser} {p : List Byte}
    {rest : List (List Byte)}
    (h : ComparableStateTraverser.Before a B (NearTransition.children a s₀ w)
      (NearTransition.at' a s₀) (NearTransition.Ok a s₀ w) t p rest) :
    Arrives a s₀ B w t.advance rest where
  arrives := h.advance (NearTransition.bounded_children hT) (NearTransition.visits hT)
  depth hnil := by
    have harr := h.advance (NearTransition.bounded_children hT) (NearTransition.visits hT)
    rw [hnil] at harr
    have hdead : t.advance.alive = false := harr
    have hadv : t.stateTraverser.advance.alive = false := by
      rw [ComparableStateTraverser.advance] at hdead
      split at hdead
      · next ha => exact absurd ha (by rw [show t.stateTraverser.advance.alive = false from hdead]
                                       simp)
      · exact hdead
    rw [ComparableStateTraverser.advance, if_neg (by simp [hadv])]
    show t.stateTraverser.advance.stack.currentDepth = 0
    rw [StateTraverser.advance, if_neg h.alive] at hadv ⊢
    simp only at hadv ⊢
    split at hadv
    case isTrue hn =>
      rw [if_pos hn]
      exact getDepth_findNext _ rfl hn
    case isFalse hn => simp [StateTraverser.alive, hn] at hadv

theorem Arrives.matchAt_eq {t : NearTraverser} {p : List Byte} {rest : List (List Byte)}
    (h : Arrives a s₀ B w t (p :: rest)) : matchAt j t = matchOf a s₀ w j p := by
  have hat := h.arrives.2
  obtain ⟨r, rs, hs, -⟩ := hat.traverser.stack
  rw [matchAt, matchOf, hat.traverser.depth, hat.labels, hat.traverser.fsa, hat.traverser.state,
    hs.payload.exactDepth, List.take_of_length_le (by simp)]
  rfl

/-- One call finds the next path that `scan` takes. -/
theorem nextMatch_spec (hT : a.Tree s₀ B) (first : Option Match) (greedy : Bool) :
    ∀ {l : List (List Byte)} {fuel d : Nat} {t : NearTraverser}, l.length < fuel →
    Arrives a s₀ B w t l →
    match scan greedy (finalAt a s₀) (agreeAt w) d l with
    | [] => ∃ n, nextMatch fuel ⟨some t, j, first, greedy, d⟩ = some (none, n)
    | p :: ps => ∃ t' l' e, l'.length < l.length ∧ Arrives a s₀ B w t' l' ∧
        nextMatch fuel ⟨some t, j, first, greedy, d⟩ =
          some (some (matchOf a s₀ w j p), ⟨some t', j, first, greedy, e⟩) ∧
        scan greedy (finalAt a s₀) (agreeAt w) e l' = ps := by
  intro l
  induction l with
  | nil =>
    intro fuel d t hf h
    obtain ⟨fuel, rfl⟩ : ∃ n, fuel = n + 1 := ⟨fuel - 1, by simp at hf; omega⟩
    refine ⟨⟨some t, j, first, greedy, d⟩, ?_⟩
    rw [nextMatch]
    simp only
    rw [if_neg (by rw [h.depth rfl]; omega)]
  | cons p rest ih =>
    intro fuel d t hf h
    obtain ⟨fuel, rfl⟩ : ∃ n, fuel = n + 1 := ⟨fuel - 1, by simp at hf; omega⟩
    have hat := h.arrives.2
    have hadv : Arrives a s₀ B w t.advance rest := arrives_advance hT hat.before
    have hfin : t.stateTraverser.isFinalState = finalAt a s₀ p := by
      rw [StateTraverser.isFinalState, hat.traverser.fsa, hat.traverser.state]
      rfl
    obtain ⟨r, rs, hs, -⟩ := hat.traverser.stack
    have hnext : ∀ x, x = nextMatch (fuel + 1) ⟨some t, j, first, greedy, d⟩ → x =
        if d < p.length then
          if finalAt a s₀ p then
            some (some (matchOf a s₀ w j p), ⟨some t.advance, j, first, greedy,
              if greedy then d else agreeAt w p⟩)
          else nextMatch fuel ⟨some t.advance, j, first, greedy, d⟩
        else some (none, ⟨some t, j, first, greedy, d⟩) := by
      rintro x rfl
      rw [nextMatch]
      simp only [hat.traverser.depth, hfin, h.matchAt_eq, hs.payload.exactDepth, gt_iff_lt]
      rfl
    rw [hnext _ rfl, scan]
    by_cases hd : d < p.length
    · rw [if_pos hd, if_pos hd]
      by_cases hfp : finalAt a s₀ p = true
      · rw [if_pos hfp, if_pos hfp]
        exact ⟨t.advance, rest, _, Nat.lt_succ_self _, hadv, rfl, rfl⟩
      · rw [if_neg hfp, if_neg hfp]
        have := ih (d := d) (Nat.lt_of_succ_lt_succ hf) hadv
        split at this
        case h_1 => exact this
        case h_2 =>
          obtain ⟨t', l', e, hl, h'⟩ := this
          exact ⟨t', l', e, hl.trans (Nat.lt_succ_self _), h'⟩
    · rw [if_neg hd, if_neg hd]
      exact ⟨_, rfl⟩

/-- **All calls together take what `scan` takes.** -/
theorem nextMatches_spec (hT : a.Tree s₀ B) (first : Option Match) (greedy : Bool) (fuel : Nat) :
    ∀ {rounds : Nat} {l : List (List Byte)} {d : Nat} {t : NearTraverser}, l.length < fuel →
    l.length < rounds → Arrives a s₀ B w t l →
    nextMatches fuel rounds ⟨some t, j, first, greedy, d⟩ =
      some ((scan greedy (finalAt a s₀) (agreeAt w) d l).map (matchOf a s₀ w j)) := by
  intro rounds
  induction rounds with
  | zero => intro l d t _ hr; omega
  | succ rounds ih =>
    intro l d t hf hr h
    have hspec := nextMatch_spec hT first greedy (j := j) (d := d) hf h
    rw [nextMatches]
    split at hspec
    case h_1 hnil =>
      obtain ⟨n, hn⟩ := hspec
      rw [hn, hnil]
      rfl
    case h_2 p ps hcons =>
      obtain ⟨t', l', e, hl, harr, hn, hps⟩ := hspec
      have hih := ih (d := e) (hl.trans hf) (by omega) harr
      rw [hn, hcons]
      show Option.map _ (nextMatches fuel rounds ⟨some t', j, first, greedy, e⟩) = _
      rw [hih, hps]
      rfl

end

end NearMatching

end Keyvi.Matching
