import Mathlib
import Keyvi.Fsa.PersistenceRefinement
import Keyvi.Fsa.Traversal

/-!
# Rewriting with a dictionary

`fsa_transform.h`. `Normalize` walks as far as it can, remembers the last key on its way and goes back
behind it. Where no key was found it copies the byte it failed at instead of the one it started from,
and at the end of the input it does not look again at what it walked over.
-/

namespace Keyvi.Transform

open Fsa Fsa.Automata

/-- The variables of `Normalize`. -/
structure Normalizer where
  outputBuffer : List Byte
  state : Nat
  lastFinalState : Nat
  lastFinalStatePosition : Nat
  currentMatchingDepth : Nat
  offset : Nat

namespace Normalizer

/-- The walk goes on. -/
def matched (fsa : Automata) (n : Normalizer) (state : Nat) : Normalizer :=
  let n := { n with state := state, currentMatchingDepth := n.currentMatchingDepth + 1 }
  if fsa.isFinalState state then
    { n with lastFinalState := state, lastFinalStatePosition := n.currentMatchingDepth }
  else n

/-- The walk fails: a value or a byte is written, and the walk starts again. -/
def failed (fsa : Automata) (getValueAsString : Nat → List Byte) (input : List Byte)
    (n : Normalizer) : Normalizer :=
  let n :=
    if n.lastFinalState ≠ 0 then
      { n with
        outputBuffer := n.outputBuffer ++ getValueAsString (fsa.getStateValue n.lastFinalState)
        lastFinalState := 0
        offset := n.offset - (n.currentMatchingDepth - n.lastFinalStatePosition + 1) }
    else
      { n with
        outputBuffer := n.outputBuffer ++ [input.getD n.offset 0]
        offset := n.offset - n.currentMatchingDepth }
  { n with currentMatchingDepth := 0, state := fsa.getStartState }

/-- One round of the loop. -/
def round (fsa : Automata) (getValueAsString : Nat → List Byte) (input : List Byte)
    (n : Normalizer) : Normalizer :=
  let state := fsa.tryWalkTransition n.state (input.getD n.offset 0)
  let n := if state ≠ 0 then n.matched fsa state else n.failed fsa getValueAsString input
  { n with offset := n.offset + 1 }

/-- The loop, if the rounds are enough. -/
def loop (fsa : Automata) (getValueAsString : Nat → List Byte) (input : List Byte) :
    Nat → Normalizer → Option Normalizer
  | 0, _ => none
  | fuel + 1, n =>
    if n.offset < input.length then
      loop fsa getValueAsString input fuel (n.round fsa getValueAsString input)
    else some n

/-- What is written at the end of the input. -/
def finish (fsa : Automata) (getValueAsString : Nat → List Byte) (input : List Byte)
    (n : Normalizer) : List Byte :=
  if n.lastFinalState ≠ 0 then
    n.outputBuffer ++ getValueAsString (fsa.getStateValue n.lastFinalState) ++
      (List.range (n.currentMatchingDepth - n.lastFinalStatePosition)).map fun i =>
        input.getD (n.offset + (n.lastFinalStatePosition + i) - n.currentMatchingDepth) 0
  else n.outputBuffer

end Normalizer

/-- `Normalize`, with a number of rounds. -/
def normalize (fsa : Automata) (getValueAsString : Nat → List Byte) (rounds : Nat)
    (input : List Byte) : Option (List Byte) :=
  (Normalizer.loop fsa getValueAsString input rounds ⟨[], fsa.getStartState, 0, 0, 0, 0⟩).map
    (Normalizer.finish fsa getValueAsString input)

/-! ## The leftmost-longest rewriting -/

section Rules

variable (rules : List (Key × Nat)) (getValueAsString : Nat → List Byte)

/-- The length of the longest key that the input starts with, 0 if there is none. -/
def longestKey (input : List Byte) : Nat :=
  Nat.findGreatest (fun n => input.take n ∈ keysOf rules) input.length

/-- The value of a key. -/
def ruleValue (k : Key) : List Byte :=
  getValueAsString (((rules.find? fun e => e.1 = k).map Prod.snd).getD 0)

/-- Scanning from the left, the longest key is replaced; every other byte is copied. -/
def rewrite : Nat → List Byte → List Byte
  | 0, _ => []
  | _, [] => []
  | fuel + 1, x :: rest =>
    if longestKey rules (x :: rest) = 0 then x :: rewrite fuel rest
    else
      ruleValue rules getValueAsString ((x :: rest).take (longestKey rules (x :: rest))) ++
        rewrite fuel ((x :: rest).drop (longestKey rules (x :: rest)))

/-- The leftmost-longest rewriting of an input. -/
def leftmostLongest (input : List Byte) : List Byte :=
  rewrite rules getValueAsString input.length input

/-- How far a key can be followed behind some bytes. -/
def reach : List Byte → List Byte → Nat
  | _, [] => 0
  | front, x :: rest =>
    if ∃ k ∈ keysOf rules, front ++ [x] <+: k then reach (front ++ [x]) rest + 1 else 0

/-- The scan does not go wrong. Where no key matches, the byte at which the walk fails is the one it
started from; where a key matches and the walk goes on to the end of the input, the rest behind the
key is rewritten to itself. -/
def ScansWell : Nat → List Byte → Prop
  | 0, _ => True
  | _, [] => True
  | fuel + 1, x :: rest =>
    if longestKey rules (x :: rest) = 0 then
      (x :: rest)[reach rules [] (x :: rest)]? = some x ∧ ScansWell fuel rest
    else if reach rules [] (x :: rest) < (x :: rest).length then
      ScansWell fuel ((x :: rest).drop (longestKey rules (x :: rest)))
    else
      leftmostLongest rules getValueAsString
          ((x :: rest).drop (longestKey rules (x :: rest))) =
        (x :: rest).drop (longestKey rules (x :: rest))

/-- What `Normalize` writes. -/
def written : Nat → List Byte → List Byte
  | 0, _ => []
  | _, [] => []
  | fuel + 1, x :: rest =>
    if longestKey rules (x :: rest) = 0 then
      if reach rules [] (x :: rest) < (x :: rest).length then
        (x :: rest).getD (reach rules [] (x :: rest)) 0 :: written fuel rest
      else []
    else
      ruleValue rules getValueAsString ((x :: rest).take (longestKey rules (x :: rest))) ++
        if reach rules [] (x :: rest) < (x :: rest).length then
          written fuel ((x :: rest).drop (longestKey rules (x :: rest)))
        else (x :: rest).drop (longestKey rules (x :: rest))

end Rules

variable {rules : List (Key × Nat)} {getValueAsString : Nat → List Byte}

theorem longestKey_le (input : List Byte) : longestKey rules input ≤ input.length :=
  Nat.findGreatest_le _

theorem rewrite_fuel : ∀ (fuel fuel' : Nat) {input : List Byte}, input.length ≤ fuel →
    input.length ≤ fuel' →
      rewrite rules getValueAsString fuel input = rewrite rules getValueAsString fuel' input
  | fuel, fuel', [], _, _ => by cases fuel <;> cases fuel' <;> rfl
  | fuel + 1, fuel' + 1, x :: rest, h, h' => by
    simp only [List.length_cons] at h h'
    rw [rewrite, rewrite]
    by_cases h0 : longestKey rules (x :: rest) = 0
    · rw [if_pos h0, if_pos h0, rewrite_fuel fuel fuel' (by omega) (by omega)]
    · have hlen : ((x :: rest).drop (longestKey rules (x :: rest))).length ≤ rest.length := by
        rw [List.length_drop, List.length_cons]
        omega
      rw [if_neg h0, if_neg h0, rewrite_fuel fuel fuel' (by omega) (by omega)]

/-- **What is written is the rewriting exactly when the scan does not go wrong.** -/
theorem written_eq_iff : ∀ (fuel : Nat) {input : List Byte}, input.length ≤ fuel →
    (written rules getValueAsString fuel input = rewrite rules getValueAsString fuel input ↔
      ScansWell rules getValueAsString fuel input)
  | fuel, [], _ => by cases fuel <;> simp [written, rewrite, ScansWell]
  | fuel + 1, x :: rest, h => by
    simp only [List.length_cons] at h
    rw [written, rewrite, ScansWell]
    by_cases h0 : longestKey rules (x :: rest) = 0
    · rw [if_pos h0, if_pos h0, if_pos h0]
      by_cases hr : reach rules [] (x :: rest) < (x :: rest).length
      · rw [if_pos hr, List.cons.injEq, written_eq_iff fuel (by omega),
          List.getElem?_eq_getElem hr, Option.some.injEq, List.getD_eq_getElem _ _ hr]
      · -- A walk to the end of the input leaves its bytes out.
        rw [if_neg hr, List.getElem?_eq_none (by omega)]
        simp
    · have hlen : ((x :: rest).drop (longestKey rules (x :: rest))).length ≤ rest.length := by
        rw [List.length_drop, List.length_cons]
        omega
      rw [if_neg h0, if_neg h0, if_neg h0, List.append_cancel_left_eq]
      by_cases hr : reach rules [] (x :: rest) < (x :: rest).length
      · rw [if_pos hr, if_pos hr, written_eq_iff fuel (by omega)]
      · rw [if_neg hr, if_neg hr, leftmostLongest, rewrite_fuel _ fuel le_rfl (by omega)]
        exact eq_comm

/-! ## The loop -/

namespace Normalizer

variable {fsa : Automata} {input : List Byte} {n : Normalizer} {front rest : List Byte}

/-- The walk stands behind `front`, with `done` in front of it, and `rest` is left. -/
structure Walks (fsa : Automata) (rules : List (Key × Nat)) (input : List Byte) (n : Normalizer)
    (done front rest : List Byte) : Prop where
  split : input = done ++ (front ++ rest)
  offset : n.offset = done.length + front.length
  depth : n.currentMatchingDepth = front.length
  state : n.state = fsa.walk fsa.getStartState front
  alive : front ≠ [] → ∃ k ∈ keysOf rules, front <+: k
  last : n.lastFinalState =
    if Nat.findGreatest (fun i => (front ++ rest).take i ∈ keysOf rules) front.length = 0 then 0
    else fsa.walk fsa.getStartState
      (front.take (Nat.findGreatest (fun i => (front ++ rest).take i ∈ keysOf rules) front.length))
  position : 0 < Nat.findGreatest (fun i => (front ++ rest).take i ∈ keysOf rules) front.length →
    n.lastFinalStatePosition =
      Nat.findGreatest (fun i => (front ++ rest).take i ∈ keysOf rules) front.length

/-- An automaton without keys has no transition: its first labels are not 0. -/
def NoGhost (fsa : Automata) : Prop := fsa.getStartState = 0 → ∀ c, fsa.tryWalkTransition 0 c = 0

/-- A transition is there if some key goes on. -/
theorem tryWalk_eq (h : Holds fsa rules) (hg : NoGhost fsa)
    (halive : front ≠ [] → ∃ k ∈ keysOf rules, front <+: k) (x : Byte) :
    fsa.tryWalkTransition (fsa.walk fsa.getStartState front) x =
      fsa.walk fsa.getStartState (front ++ [x]) := by
  rw [walk_append]
  by_cases h0 : fsa.walk fsa.getStartState front = 0
  · have hf : front = [] := by
      by_contra hne
      exact (h.walk_ne_zero_iff hne).mpr (halive hne) h0
    subst hf
    have hs : fsa.getStartState = 0 := h0
    rw [h0, walk_zero, hg hs]
  · rw [walk, if_neg h0]
    rfl

theorem take_append_succ (front : List Byte) (x : Byte) (rest : List Byte) :
    (front ++ x :: rest).take (front.length + 1) = front ++ [x] := by
  rw [show front ++ x :: rest = (front ++ [x]) ++ rest by simp,
    List.take_left' (by simp)]

/-- The longest key with one byte more. -/
theorem findGreatest_succ (front : List Byte) (x : Byte) (rest : List Byte) :
    Nat.findGreatest (fun i => (front ++ x :: rest).take i ∈ keysOf rules) (front.length + 1) =
      if front ++ [x] ∈ keysOf rules then front.length + 1
      else Nat.findGreatest (fun i => (front ++ x :: rest).take i ∈ keysOf rules) front.length := by
  rw [Nat.findGreatest_succ, take_append_succ]

/-- **A round that goes on.** -/
theorem Walks.matched (getValueAsString : Nat → List Byte) (h : Holds fsa rules)
    (hg : NoGhost fsa) {done : List Byte} {x : Byte}
    (hn : Walks fsa rules input n done front (x :: rest))
    (hx : ∃ k ∈ keysOf rules, front ++ [x] <+: k) :
    Walks fsa rules input (n.round fsa getValueAsString input) done (front ++ [x]) rest ∧
      (n.round fsa getValueAsString input).outputBuffer = n.outputBuffer := by
  have hwalk : fsa.walk fsa.getStartState (front ++ [x]) ≠ 0 :=
    (h.walk_ne_zero_iff (by simp)).mpr hx
  have hinput : input.getD n.offset 0 = x := by
    rw [hn.offset, hn.split, ← List.append_assoc, List.getD_append_right _ _ _ _ (by simp)]
    simp
  have hstate : fsa.tryWalkTransition n.state (input.getD n.offset 0) =
      fsa.walk fsa.getStartState (front ++ [x]) := by
    rw [hinput, hn.state, tryWalk_eq h hg hn.alive]
  have hlist : front ++ [x] ++ rest = front ++ x :: rest := by simp
  have hlen : (front ++ [x]).length = front.length + 1 := by simp
  have hkey : fsa.isFinalState (fsa.walk fsa.getStartState (front ++ [x])) = true ↔
      front ++ [x] ∈ keysOf rules := by
    rw [h.final]
    exact (and_iff_right hwalk).symm
  have hsucc := @findGreatest_succ rules front x rest
  unfold round
  simp only [hstate, if_pos hwalk]
  unfold Normalizer.matched
  by_cases hfin : fsa.isFinalState (fsa.walk fsa.getStartState (front ++ [x])) = true
  · rw [if_pos (hkey.mp hfin)] at hsucc
    simp only [if_pos hfin]
    refine ⟨⟨by rw [hn.split, hlist], ?_, ?_, rfl, fun _ => hx, ?_, fun _ => ?_⟩, trivial⟩
    · show n.offset + 1 = _
      rw [hn.offset, hlen, Nat.add_assoc]
    · show n.currentMatchingDepth + 1 = _
      rw [hn.depth, hlen]
    · rw [hlist, hlen, hsucc, if_neg (Nat.succ_ne_zero _), List.take_of_length_le (by simp)]
    · rw [hlist, hlen, hsucc]
      show n.currentMatchingDepth + 1 = _
      rw [hn.depth]
  · rw [if_neg fun hk => hfin (hkey.mpr hk)] at hsucc
    simp only [if_neg hfin]
    refine ⟨⟨by rw [hn.split, hlist], ?_, ?_, rfl, fun _ => hx, ?_, ?_⟩, trivial⟩
    · show n.offset + 1 = _
      rw [hn.offset, hlen, Nat.add_assoc]
    · show n.currentMatchingDepth + 1 = _
      rw [hn.depth, hlen]
    · rw [hlist, hlen, hsucc]
      show n.lastFinalState = _
      rw [hn.last, List.take_append_of_le_length (Nat.findGreatest_le _)]
    · rw [hlist, hlen, hsucc]
      exact hn.position

/-- What is written when the walk fails or the input ends after a key. -/
theorem ruleValue_eq (getValueAsString : Nat → List Byte) (h : Holds fsa rules) {k : Key}
    (hk : k ∈ keysOf rules) :
    getValueAsString (fsa.getStateValue (fsa.walk fsa.getStartState k)) =
      ruleValue rules getValueAsString k := by
  unfold ruleValue
  cases hf : rules.find? fun e => e.1 = k with
  | none =>
    obtain ⟨e, he, rfl⟩ := List.mem_map.mp hk
    exact absurd (List.find?_eq_none.mp hf e he) (by simp)
  | some e =>
    have hek : e.1 = k := by simpa using List.find?_some hf
    rw [← hek, h.value e (List.mem_of_find?_eq_some hf)]
    rfl

/-- No key goes on behind `front`. -/
def Stops (rules : List (Key × Nat)) (front rest : List Byte) : Prop :=
  ∀ x ∈ rest.head?, ¬ ∃ k ∈ keysOf rules, front ++ [x] <+: k

/-- Where the walk stops, the longest key is the longest one on the way. -/
theorem longestKey_eq (hstop : Stops rules front rest) :
    longestKey rules (front ++ rest) =
      Nat.findGreatest (fun i => (front ++ rest).take i ∈ keysOf rules) front.length := by
  unfold longestKey
  refine le_antisymm ?_ (Nat.findGreatest_mono_right _ (by simp))
  by_cases h0 : Nat.findGreatest (fun i => (front ++ rest).take i ∈ keysOf rules)
      (front ++ rest).length = 0
  · rw [h0]
    exact Nat.zero_le _
  · have hkey := Nat.findGreatest_of_ne_zero (P := fun i => (front ++ rest).take i ∈ keysOf rules)
      rfl h0
    refine Nat.le_findGreatest ?_ hkey
    by_contra hlong
    cases rest with
    | nil =>
      have := Nat.findGreatest_le (P := fun i => (front ++ []).take i ∈ keysOf rules)
        (front ++ ([] : List Byte)).length
      rw [List.append_nil] at *
      omega
    | cons x rest =>
      refine hstop x rfl ⟨_, hkey, ?_⟩
      rw [← take_append_succ front x rest]
      exact List.take_prefix_take_left (by omega)

/-- **The walk goes on up to the reach.** -/
theorem Walks.loop (getValueAsString : Nat → List Byte) (h : Holds fsa rules)
    (hg : NoGhost fsa) {done : List Byte} :
    ∀ {rest front : List Byte} {n : Normalizer}, Walks fsa rules input n done front rest →
    ∃ front' rest' n', Walks fsa rules input n' done front' rest' ∧ Stops rules front' rest' ∧
      front' ++ rest' = front ++ rest ∧ n'.outputBuffer = n.outputBuffer ∧
      front'.length = front.length + reach rules front rest ∧
      ∀ rounds, loop fsa getValueAsString input (rounds + reach rules front rest) n =
        loop fsa getValueAsString input rounds n'
  | [], front, n, hn =>
    ⟨front, [], n, hn, (fun x hx => by cases hx), rfl, rfl, rfl, fun _ => rfl⟩
  | x :: rest, front, n, hn => by
    by_cases hx : ∃ k ∈ keysOf rules, front ++ [x] <+: k
    · obtain ⟨hm, hout⟩ := hn.matched getValueAsString h hg hx
      obtain ⟨front', rest', n', h1, h2, h3, h4, h5, h6⟩ := hm.loop getValueAsString h hg
      have hreach : reach rules front (x :: rest) = reach rules (front ++ [x]) rest + 1 := by
        rw [reach, if_pos hx]
      refine ⟨front', rest', n', h1, h2, by rw [h3]; simp, h4.trans hout, ?_, fun rounds => ?_⟩
      · rw [h5, hreach, List.length_append, List.length_singleton]
        omega
      · have hlt : n.offset < input.length := by
          rw [hn.offset, hn.split]
          simp only [List.length_append, List.length_cons]
          omega
        rw [hreach, ← Nat.add_assoc, Normalizer.loop, if_pos hlt, h6]
    · have hreach : reach rules front (x :: rest) = 0 := by rw [reach, if_neg hx]
      refine ⟨front, x :: rest, n, hn, ?_, rfl, rfl, by rw [hreach]; rfl,
        fun _ => by rw [hreach]; rfl⟩
      intro y hy
      obtain rfl : x = y := by simpa using hy
      exact hx

/-- **A round that fails** starts a new walk behind the longest key, or one byte further. -/
theorem Walks.failed (getValueAsString : Nat → List Byte) (h : Holds fsa rules)
    (hg : NoGhost fsa) {done : List Byte} {x : Byte}
    (hn : Walks fsa rules input n done front (x :: rest)) (hstop : Stops rules front (x :: rest)) :
    (n.round fsa getValueAsString input).outputBuffer =
        n.outputBuffer ++
          (if longestKey rules (front ++ x :: rest) = 0 then [x]
          else ruleValue rules getValueAsString
            ((front ++ x :: rest).take (longestKey rules (front ++ x :: rest)))) ∧
      ∀ m, m = max 1 (longestKey rules (front ++ x :: rest)) →
        Walks fsa rules input (n.round fsa getValueAsString input)
          (done ++ (front ++ x :: rest).take m) [] ((front ++ x :: rest).drop m) := by
  have hx : ¬ ∃ k ∈ keysOf rules, front ++ [x] <+: k := hstop x rfl
  have hinput : input.getD n.offset 0 = x := by
    rw [hn.offset, hn.split, ← List.append_assoc, List.getD_append_right _ _ _ _ (by simp)]
    simp
  have hstate : fsa.tryWalkTransition n.state (input.getD n.offset 0) = 0 := by
    rw [hinput, hn.state, tryWalk_eq h hg hn.alive]
    by_contra hne
    exact hx ((h.walk_ne_zero_iff (by simp)).mp hne)
  have hlong := longestKey_eq hstop
  have hle : longestKey rules (front ++ x :: rest) ≤ front.length := by
    rw [hlong]
    exact Nat.findGreatest_le _
  have hlast := hn.last
  have hposition := hn.position
  rw [← hlong] at hlast hposition
  -- Where the next walk starts.
  have hwalks : ∀ (m : Nat) (n' : Normalizer), m ≤ (front ++ x :: rest).length →
      n'.offset = done.length + m → n'.currentMatchingDepth = 0 → n'.state = fsa.getStartState →
      n'.lastFinalState = 0 →
      Walks fsa rules input n' (done ++ (front ++ x :: rest).take m) []
        ((front ++ x :: rest).drop m) := by
    intro m n' hm ho hd hs hl
    refine ⟨?_, ?_, hd, hs, fun hne => absurd rfl hne, ?_, fun hpos => ?_⟩
    · rw [hn.split, List.append_assoc, List.nil_append, List.take_append_drop]
    · rw [ho, List.length_append, List.length_take, Nat.min_eq_left hm]
      rfl
    · rw [hl, List.length_nil, Nat.findGreatest_zero, if_pos rfl]
    · rw [List.length_nil, Nat.findGreatest_zero] at hpos
      exact absurd hpos (lt_irrefl 0)
  have hround : n.round fsa getValueAsString input =
      { n.failed fsa getValueAsString input with
        offset := (n.failed fsa getValueAsString input).offset + 1 } := by
    unfold round
    simp only [hstate, ne_eq, not_true_eq_false, if_false]
  have hlen : (front ++ x :: rest).length = front.length + (rest.length + 1) := by
    rw [List.length_append, List.length_cons]
  by_cases h0 : longestKey rules (front ++ x :: rest) = 0
  · rw [if_pos h0] at hlast
    have hfailed : n.failed fsa getValueAsString input =
        ⟨n.outputBuffer ++ [input.getD n.offset 0], fsa.getStartState, n.lastFinalState,
          n.lastFinalStatePosition, 0, n.offset - n.currentMatchingDepth⟩ := by
      unfold Normalizer.failed
      rw [if_neg (not_not_intro hlast)]
    rw [hround, hfailed, if_pos h0, hinput]
    refine ⟨rfl, fun m hm => hwalks m _ (by omega) ?_ rfl rfl hlast⟩
    show n.offset - n.currentMatchingDepth + 1 = _
    rw [hn.offset, hn.depth]
    omega
  · have hkey : (front ++ x :: rest).take (longestKey rules (front ++ x :: rest)) ∈ keysOf rules :=
      Nat.findGreatest_of_ne_zero (P := fun i => (front ++ x :: rest).take i ∈ keysOf rules) rfl h0
    have htake : front.take (longestKey rules (front ++ x :: rest)) =
        (front ++ x :: rest).take (longestKey rules (front ++ x :: rest)) :=
      (List.take_append_of_le_length hle).symm
    rw [if_neg h0, htake] at hlast
    have halive : n.lastFinalState ≠ 0 := hlast ▸ h.walk_ne_zero hkey List.prefix_rfl
    have hfailed : n.failed fsa getValueAsString input =
        ⟨n.outputBuffer ++ getValueAsString (fsa.getStateValue n.lastFinalState),
          fsa.getStartState, 0, n.lastFinalStatePosition, 0,
          n.offset - (n.currentMatchingDepth - n.lastFinalStatePosition + 1)⟩ := by
      unfold Normalizer.failed
      rw [if_pos halive]
    rw [hround, hfailed, if_neg h0, hlast, ruleValue_eq getValueAsString h hkey]
    refine ⟨rfl, fun m hm => hwalks m _ (by omega) ?_ rfl rfl rfl⟩
    show n.offset - (n.currentMatchingDepth - n.lastFinalStatePosition + 1) + 1 = _
    rw [hn.offset, hn.depth, hposition (Nat.pos_of_ne_zero h0)]
    omega

/-- **At the end of the input** the bytes behind the last key are copied. -/
theorem Walks.finish (h : Holds fsa rules) {done : List Byte}
    (hn : Walks fsa rules input n done front []) :
    n.finish fsa getValueAsString input =
      n.outputBuffer ++
        (if longestKey rules front = 0 then []
        else ruleValue rules getValueAsString (front.take (longestKey rules front)) ++
          front.drop (longestKey rules front)) := by
  have hlong := @longestKey_eq rules front []
    (fun x hx => by cases hx)
  have hlast := hn.last
  have hposition := hn.position
  rw [← hlong, List.append_nil] at hlast hposition
  have hle := @longestKey_le rules front
  unfold Normalizer.finish
  by_cases h0 : longestKey rules front = 0
  · rw [if_pos h0] at hlast ⊢
    rw [if_neg (not_not_intro hlast), List.append_nil]
  · have hkey : front.take (longestKey rules front) ∈ keysOf rules :=
      Nat.findGreatest_of_ne_zero (P := fun i => front.take i ∈ keysOf rules) rfl h0
    rw [if_neg h0] at hlast ⊢
    have halive : n.lastFinalState ≠ 0 := hlast ▸ h.walk_ne_zero hkey List.prefix_rfl
    rw [if_pos halive, hlast, ruleValue_eq getValueAsString h hkey, hposition (Nat.pos_of_ne_zero h0), hn.depth,
      hn.offset, List.append_assoc]
    congr 2
    refine List.ext_getElem (by simp) fun i hi hi' => ?_
    rw [List.length_map, List.length_range] at hi
    rw [List.getElem_map, List.getElem_range, List.getElem_drop, hn.split,
      List.getD_append_right _ _ _ _ (by omega), List.append_nil,
      show done.length + front.length + (longestKey rules front + i) - front.length - done.length =
        longestKey rules front + i by omega, List.getD_eq_getElem _ _ (by omega)]

/-- **The loop writes what `written` says**, after enough rounds. -/
theorem finish_loop (getValueAsString : Nat → List Byte) (h : Holds fsa rules) (hg : NoGhost fsa) :
    ∀ (fuel : Nat) {done rest : List Byte} {n : Normalizer}, Walks fsa rules input n done [] rest →
    rest.length ≤ fuel → ∃ enough, ∀ rounds, enough ≤ rounds →
      (Normalizer.loop fsa getValueAsString input rounds n).map
          (Normalizer.finish fsa getValueAsString input) =
        some (n.outputBuffer ++ written rules getValueAsString fuel rest)
  | fuel, done, [], n, hn, _ => by
    have hend : ¬ n.offset < input.length := by
      rw [hn.offset, hn.split]
      simp
    refine ⟨1, fun rounds hr => ?_⟩
    obtain ⟨rounds, rfl⟩ := Nat.exists_eq_add_of_le' hr
    have hw : written rules getValueAsString fuel [] = [] := by cases fuel <;> rfl
    have h0 : longestKey rules ([] : List Byte) = 0 := Nat.le_zero.mp (longestKey_le [])
    rw [Normalizer.loop, if_neg hend, Option.map_some, hn.finish h, if_pos h0, hw]
  | fuel + 1, done, x :: rest, n, hn, hlen => by
    simp only [List.length_cons] at hlen
    obtain ⟨front, rest', n', h1, h2, h3, h4, h5, h6⟩ := hn.loop getValueAsString h hg
    rw [List.nil_append] at h3
    rw [List.length_nil, Nat.zero_add] at h5
    rw [written]
    cases rest' with
    | nil =>
      -- The walk goes on to the end of the input.
      rw [List.append_nil] at h3
      subst h3
      have hend : ¬ n'.offset < input.length := by
        rw [h1.offset, h1.split]
        simp
      refine ⟨reach rules [] (x :: rest) + 1, fun rounds hr => ?_⟩
      obtain ⟨rounds, rfl⟩ := Nat.exists_eq_add_of_le' hr
      rw [← Nat.add_assoc, Nat.add_right_comm, h6, Normalizer.loop, if_neg hend, Option.map_some,
        h1.finish h, h4]
      rw [if_neg (show ¬ reach rules [] (x :: rest) < (x :: rest).length by omega),
        if_neg (show ¬ reach rules [] (x :: rest) < (x :: rest).length by omega)]
    | cons y rest' =>
      obtain ⟨hout, hwalks⟩ := h1.failed getValueAsString h hg h2
      rw [h3] at hout hwalks
      have hnext := hwalks _ rfl
      have hlen' : ((x :: rest).drop (max 1 (longestKey rules (x :: rest)))).length ≤ fuel := by
        rw [List.length_drop, List.length_cons]
        omega
      obtain ⟨enough, henough⟩ := finish_loop getValueAsString h hg fuel hnext hlen'
      have hlt : n'.offset < input.length := by
        rw [h1.offset, h1.split]
        simp
      have hreach : reach rules [] (x :: rest) < (x :: rest).length := by
        rw [← h5, ← h3]
        simp
      refine ⟨enough + 1 + reach rules [] (x :: rest), fun rounds hr => ?_⟩
      obtain ⟨rounds, rfl⟩ := Nat.exists_eq_add_of_le' hr
      rw [show rounds + (enough + 1 + reach rules [] (x :: rest)) =
          rounds + enough + 1 + reach rules [] (x :: rest) by omega, h6, Normalizer.loop,
        if_pos hlt, henough _ (by omega), hout, h4, if_pos hreach, if_pos hreach,
        List.append_assoc]
      by_cases h0 : longestKey rules (x :: rest) = 0
      · have hy : (x :: rest).getD (reach rules [] (x :: rest)) 0 = y := by
          rw [← h5, ← h3, List.getD_append_right _ _ _ _ le_rfl, Nat.sub_self]
          rfl
        rw [if_pos h0, if_pos h0, hy, h0]
        rfl
      · rw [if_neg h0, if_neg h0,
          Nat.max_eq_right (Nat.pos_of_ne_zero h0)]

end Normalizer

/-- **`Normalize` gives the leftmost-longest rewriting exactly when the scan does not go wrong.** -/
theorem normalize_iff {fsa : Automata} (h : Holds fsa rules) (hg : Normalizer.NoGhost fsa)
    (input : List Byte) :
    ∃ enough output, (∀ rounds, enough ≤ rounds →
        normalize fsa getValueAsString rounds input = some output) ∧
      (output = leftmostLongest rules getValueAsString input ↔
        ScansWell rules getValueAsString input.length input) := by
  have hstart : Normalizer.Walks fsa rules input ⟨[], fsa.getStartState, 0, 0, 0, 0⟩ [] [] input :=
    ⟨rfl, rfl, rfl, rfl, fun hne => absurd rfl hne, by simp, fun hpos => by simp at hpos⟩
  obtain ⟨enough, henough⟩ := Normalizer.finish_loop getValueAsString h hg
    input.length hstart le_rfl
  exact ⟨enough, _, henough, written_eq_iff _ le_rfl⟩

/-- The rule that writes `61 62` as `7a`. -/
def ruleAB : Automata :=
  ofCells 1 3072 [(3169, 97), (2146, 98), (3328, 0), (2304, 0)]
    [(3169, 1633), (2146, 1634), (1280, 1)]

theorem ruleAB_holds : Holds ruleAB [([97, 98], 1)] := holds_of_check 2 (by decide +kernel)

theorem noGhost_ruleAB : Normalizer.NoGhost ruleAB := fun h => absurd h (by decide)

/-- `61 62 63` is written as `7a 63`. -/
theorem normalize_iff_rule :
    Holds ruleAB [([97, 98], 1)] ∧ Normalizer.NoGhost ruleAB ∧
    ∃ enough output, (∀ rounds, enough ≤ rounds →
        normalize ruleAB (fun _ => [122]) rounds [97, 98, 99] = some output) ∧
      (output = leftmostLongest [([97, 98], 1)] (fun _ => [122]) [97, 98, 99] ↔
        ScansWell [([97, 98], 1)] (fun _ => [122]) 3 [97, 98, 99]) :=
  ⟨ruleAB_holds, noGhost_ruleAB, normalize_iff ruleAB_holds noGhost_ruleAB [97, 98, 99]⟩

/-- Neither `61 63` nor `61` holds the key `61 62`; the first is written as `63 63` and the second as
nothing. -/
theorem normalize_changesInput :
    Holds ruleAB [([97, 98], 1)] ∧ Normalizer.NoGhost ruleAB ∧
    normalize ruleAB (fun _ => [122]) 4 [97, 99] = some [99, 99] ∧
    leftmostLongest [([97, 98], 1)] (fun _ => [122]) [97, 99] = [97, 99] ∧
    normalize ruleAB (fun _ => [122]) 4 [97] = some [] ∧
    leftmostLongest [([97, 98], 1)] (fun _ => [122]) [97] = [97] :=
  ⟨ruleAB_holds, noGhost_ruleAB, by decide +kernel, by decide +kernel, by decide +kernel,
    by decide +kernel⟩

end Keyvi.Transform
