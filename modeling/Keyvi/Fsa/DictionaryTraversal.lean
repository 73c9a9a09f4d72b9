import Mathlib
import Keyvi.Fsa.EntryIterator

/-!
# Walking a whole dictionary

The entry iterator sees the entries of a dictionary in their order, the state traverser every
prefix of a key once and before what extends it.
-/

namespace Keyvi.Fsa

open Automata

namespace Automata

variable {a : Automata} {entries : List (Key × Nat)}

/-- The final paths are the keys. -/
theorem Holds.filter_paths (h : Holds a entries) :
    (a.paths a.getStartState (depthOf entries)).filter
        (fun p => a.isFinalState (a.walk a.getStartState p)) = keysOf entries := by
  refine ((pairwise_paths h.tree).sublist List.filter_sublist).eq_of_mem_iff h.ascending fun k => ?_
  rw [List.mem_filter, Automata.mem_paths h.tree, h.final]
  constructor
  · rintro ⟨⟨-, hw⟩, hf⟩
    exact ⟨hw, hf⟩
  · rintro ⟨hw, hf⟩
    refine ⟨⟨?_, hw⟩, hf⟩
    rintro rfl
    exact h.nonempty ((h.final []).mpr ⟨hw, hf⟩)

theorem Holds.map_value (h : Holds a entries) :
    (keysOf entries).map (fun k => (k, a.getStateValue (a.walk a.getStartState k))) = entries := by
  rw [keysOf, List.map_map]
  conv_rhs => rw [← List.map_id entries]
  exact List.map_congr_left fun e he => Prod.ext rfl (h.value e he)

/-- The final trails with their values are the entries. -/
theorem Holds.entries_eq (h : Holds a entries) :
    ((Preorder.subtree (a.children a.getStartState) (depthOf entries) []).filter
        fun q => a.isFinalState (a.trailState a.getStartState q)).map
      (EntryIterator.entryAt a a.getStartState) = entries := by
  conv_rhs => rw [← h.map_value, ← h.filter_paths, paths, List.filter_map, List.map_map]
  have hf : ((fun p => a.isFinalState (a.walk a.getStartState p)) ∘ List.reverse) =
      fun q => a.isFinalState (a.trailState a.getStartState q) := by
    funext q
    simp [walk_reverse]
  rw [hf]
  refine List.map_congr_left fun q _ => ?_
  simp [EntryIterator.entryAt, walk_reverse]

end Automata

/-- **The entry iterator sees the entries.** -/
theorem EntryIterator.collect_entries {a : Automata} {entries : List (Key × Nat)}
    (h : Holds a entries) : ∃ N, ∀ fuel n, N ≤ fuel → N ≤ n →
      ∃ it, ofAutomata fuel a = some it ∧ collect fuel n it = some entries := by
  set rest := Preorder.subtree (a.children a.getStartState) (depthOf entries) [] with hrest
  refine ⟨rest.length + 1, fun fuel n hf hn => ?_⟩
  rw [ofAutomata, ofState, h.count]
  by_cases hne : entries = []
  · subst hne
    obtain ⟨n, rfl⟩ : ∃ m, n = m + 1 := ⟨n - 1, by omega⟩
    exact ⟨theEnd, rfl, rfl⟩
  · have hat : At a a.getStartState (depthOf entries)
        ⟨some a, a.getStartState, 0, [],
          (StateTraverser.atState a a.getStartState 0 () : PlainTraverser).stack⟩ [] rest :=
      ⟨rfl, h.start_ne_zero hne, rfl,
        (PlainTraverser.at_atState h.tree (h.start_ne_zero hne) 0).stack⟩
    have hlt : rest.length < fuel := hf
    obtain ⟨it, hit, hstop⟩ := traverseToNextFinalState_stops h.tree hlt hat
    rw [if_pos (List.length_pos_of_ne_nil hne)]
    refine ⟨it, hit, ?_⟩
    rw [collect_eq h.tree fuel hlt hn hstop, hrest, h.entries_eq]

namespace PlainTraverser

variable {a : Automata} {s₀ B : Nat}

/-- What `for (; traverser; traverser++)` sees, at most `n` rounds. -/
def visits : Nat → PlainTraverser → List PlainTraverser
  | 0, _ => []
  | n + 1, t => if t.alive then t :: visits n (StateTraverser.advance t) else []

/-- Depth, last label and state of a traverser. -/
def shown (t : PlainTraverser) : Nat × Option Byte × Nat :=
  (t.getDepth, some t.currentLabel, t.currentState)

/-- What a traverser at a path shows. -/
def expected (a : Automata) (s₀ : Nat) (p : Key) : Nat × Option Byte × Nat :=
  (p.length, p.getLast?, a.walk s₀ p)

theorem shown_eq {t : PlainTraverser} {p : List Byte} {rest : List (List Byte)} (hp : p ≠ [])
    (h : At a s₀ B t p rest) : shown t = expected a s₀ p.reverse := by
  obtain ⟨c, p, rfl⟩ := List.exists_cons_of_ne_nil hp
  rw [shown, expected, h.depth, h.label c rfl, h.state, walk_reverse]
  simp

theorem visits_eq (hT : a.Tree s₀ B) : ∀ {l : List (List Byte)} {n : Nat} {t : PlainTraverser},
    l.length < n → ArrivesAt a s₀ B t l →
    (visits n t).map shown = l.map fun q => expected a s₀ q.reverse
  | [], n + 1, t, _, h => by
    have h0 : t.currentState = 0 := h
    simp [visits, StateTraverser.alive, h0]
  | q :: rest, n + 1, t, hn, h => by
    have halive : t.alive = true := by simpa [StateTraverser.alive] using h.2.alive
    rw [visits, if_pos halive, List.map_cons, List.map_cons, shown_eq h.1 h.2,
      visits_eq hT (Nat.lt_of_succ_lt_succ hn) (PlainTraverser.advance hT h.2)]

/-- The traverser of a dictionary starts at its first path. -/
theorem arrives_ofAutomata {entries : List (Key × Nat)} (h : Holds a entries) :
    ArrivesAt a a.getStartState (depthOf entries) (StateTraverser.ofAutomata a ())
      (Preorder.subtree (a.children a.getStartState) (depthOf entries) []) := by
  by_cases hne : a.getStartState = 0
  · have hnil : Preorder.subtree (a.children a.getStartState) (depthOf entries) [] = [] := by
      refine List.eq_nil_iff_forall_not_mem.mpr fun q hq => ?_
      rw [Preorder.mem_subtree (bounded_children h.tree), extends_children_iff h.tree, hne,
        ← walk_reverse, walk_zero] at hq
      exact hq.2 rfl
    rw [hnil]
    show (StateTraverser.advance _).currentState = 0
    rw [StateTraverser.advance, if_pos (by exact hne)]
    exact hne
  · exact advance h.tree (at_atState h.tree hne 0)

end PlainTraverser

/-- **Both walks of a dictionary.** The iterator yields the entries in ascending order, the
traverser the prefixes of the keys in preorder. -/
theorem walks_of_holds {a : Automata} {entries : List (Key × Nat)} (h : Holds a entries) :
    (keysOf entries).Pairwise (· < ·) ∧
    (∃ N, ∀ fuel n, N ≤ fuel → N ≤ n → ∃ it, EntryIterator.ofAutomata fuel a = some it ∧
      EntryIterator.collect fuel n it = some entries) ∧
    ∃ prefixes : List Key, prefixes.Pairwise (· < ·) ∧
      (∀ p, p ∈ prefixes ↔ p ≠ [] ∧ ∃ k ∈ keysOf entries, p <+: k) ∧
      ∀ n, prefixes.length < n →
        (PlainTraverser.visits n (StateTraverser.ofAutomata a ())).map PlainTraverser.shown =
          prefixes.map (PlainTraverser.expected a a.getStartState) := by
  refine ⟨h.ascending, EntryIterator.collect_entries h,
    a.paths a.getStartState (depthOf entries), pairwise_paths h.tree, fun p => h.mem_paths, ?_⟩
  intro n hn
  rw [paths, List.length_map] at hn
  rw [PlainTraverser.visits_eq h.tree hn (PlainTraverser.arrives_ofAutomata h), paths,
    List.map_map]
  rfl

/-- A dictionary in which `61 62` and `62` end in one state and `61` is a prefix of a key. -/
def sharedSuffix : Automata :=
  ofCells 3 3072 [(3169, 97), (3170, 98), (2146, 98), (3328, 0)]
    [(3169, 1633), (3170, 2658), (2146, 1634), (2304, 10), (1280, 20)]

def sharedSuffixEntries : List (Key × Nat) := [([97], 10), ([97, 98], 20), ([98], 20)]

theorem sharedSuffix_holds : Holds sharedSuffix sharedSuffixEntries :=
  holds_of_check 2 (by decide +kernel)

theorem walks_of_sharedSuffix :
    (keysOf sharedSuffixEntries).Pairwise (· < ·) ∧
    (∃ N, ∀ fuel n, N ≤ fuel → N ≤ n → ∃ it, EntryIterator.ofAutomata fuel sharedSuffix = some it ∧
      EntryIterator.collect fuel n it = some sharedSuffixEntries) ∧
    ∃ prefixes : List Key, prefixes.Pairwise (· < ·) ∧
      (∀ p, p ∈ prefixes ↔ p ≠ [] ∧ ∃ k ∈ keysOf sharedSuffixEntries, p <+: k) ∧
      ∀ n, prefixes.length < n →
        (PlainTraverser.visits n (StateTraverser.ofAutomata sharedSuffix ())).map
            PlainTraverser.shown =
          prefixes.map (PlainTraverser.expected sharedSuffix sharedSuffix.getStartState) :=
  walks_of_holds sharedSuffix_holds

end Keyvi.Fsa
