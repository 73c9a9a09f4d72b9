import Mathlib
import Keyvi.Dictionary.DictionaryCompilerCommon
import Keyvi.Fsa.PersistState
import Keyvi.Library.SortedPrefixes

/-!
# The generator

`generator.h` with `unpacked_state_stack.h`. The states of the last key are open on a stack; a key that
shares only a part of it closes the others, from the last one on. The builder, with its
`PersistState`, is a parameter: it answers with an offset and the state as it leaves it. What is not
defined and an exception give `none`.
-/

namespace Keyvi.Fsa

open Keyvi.Dictionary (ValueHandle)

/-! ## The stack of unpacked states -/

namespace UnpackedState

/-- `SetTransitionValue`: that of the last transition. -/
def setTransitionValue (s : UnpackedState) (value : BitVec 64) : Option UnpackedState :=
  s.outgoing.getLast?.map fun t => { s with outgoing := s.outgoing.dropLast ++ [⟨t.label, value⟩] }

end UnpackedState

/-- `UnpackedStateStack`. A state that was not asked for yet is an empty one. -/
abbrev UnpackedStateStack := Nat → UnpackedState

namespace UnpackedStateStack

/-- The default of `weight_cut_off_`. -/
def weightCutOff : Nat := 30

/-- The states are empty. -/
def new : UnpackedStateStack := fun _ => .new

/-- A state is replaced by what is made of it. -/
def modify (s : UnpackedStateStack) (pos : Nat) (f : UnpackedState → UnpackedState) :
    UnpackedStateStack :=
  Function.update s pos (f (s pos))

/-- `Insert`. -/
def insert (s : UnpackedStateStack) (pos : Nat) (label : Byte) (value : BitVec 64) :
    UnpackedStateStack :=
  s.modify pos fun u => u.add label value

/-- `InsertFinalState`. -/
def insertFinalState (s : UnpackedStateStack) (pos : Nat) (value : BitVec 64)
    (noMinimization : Bool) : UnpackedStateStack :=
  s.modify pos fun u =>
    let u := u.addFinalState value
    if noMinimization then u.incrementNoMinimizationCounter else u

/-- `UpdateWeights`. -/
def updateWeights (s : UnpackedStateStack) (start stop weight : Nat) : UnpackedStateStack :=
  if weightCutOff < start then s
  else (List.range' start (min stop weightCutOff - start)).foldl
    (fun s i => s.modify i fun u => u.updateWeightIfHigher weight) s

/-- `PushTransitionPointer`. -/
def pushTransitionPointer (s : UnpackedStateStack) (pos : Nat) (value : BitVec 64)
    (minimizationCounter : Nat) : Option UnpackedStateStack :=
  ((s pos).setTransitionValue value).map fun u =>
    Function.update s pos { u with
      noMinimizationCounter := u.noMinimizationCounter + minimizationCounter }

/-- `Erase`. -/
def erase (s : UnpackedStateStack) (pos : Nat) : UnpackedStateStack := Function.update s pos .new

end UnpackedStateStack

/-! ## The generator -/

/-- `generator_state`. -/
inductive GeneratorState
  | feeding
  | finalizing
  | compiled
deriving DecidableEq, Repr

/-- `Generator`, over a builder. -/
structure Generator (B : Type) where
  builder : B
  stack : UnpackedStateStack
  lastKey : Key
  highestStack : Nat
  numberOfKeysAdded : Nat
  state : GeneratorState
  startState : BitVec 64

namespace Generator

variable {B : Type}

/-- The constructor. -/
def new (builder : B) : Generator B := ⟨builder, .new, [], 0, 0, .feeding, 0⟩

/-- `FeedStack`. -/
def feedStack (g : Generator B) (start : Nat) (key : Key) : Generator B :=
  { g with
    stack := (List.range' start (key.length - start)).foldl
      (fun s i => s.insert i (key.getD i 0) 0) g.stack
    highestStack := max g.highestStack key.length }

section Builder

variable (persist : B → UnpackedState → Option (BitVec 64 × UnpackedState × B))

/-- A round of `ConsumeStack`. -/
def consumeTop (g : Generator B) : Option (Generator B) := do
  let (transitionPointer, unpackedState, builder) ← persist g.builder (g.stack g.highestStack)
  let stack ← g.stack.pushTransitionPointer (g.highestStack - 1) transitionPointer
    unpackedState.noMinimizationCounter
  some { g with
    builder := builder
    stack := stack.erase g.highestStack
    highestStack := g.highestStack - 1 }

/-- That many rounds. -/
def consumeRounds : Nat → Generator B → Option (Generator B)
  | 0, g => some g
  | rounds + 1, g => (g.consumeTop persist).bind (consumeRounds rounds)

/-- `ConsumeStack`: a round lowers the highest stack by one. -/
def consumeStack (g : Generator B) (stop : Nat) : Option (Generator B) :=
  consumeRounds persist (g.highestStack - stop) g

/-- `Add` of a key and its handle. -/
def add (g : Generator B) (inputKey : Key) (handle : ValueHandle) : Option (Generator B) :=
  if g.state ≠ .feeding then none
  else
    let commonPrefixLength := Dictionary.getCommonPrefixLength g.lastKey inputKey
    if commonPrefixLength = inputKey.length ∧ g.lastKey.length = inputKey.length then some g
    else (g.consumeStack persist commonPrefixLength).map fun g =>
      let g := g.feedStack commonPrefixLength inputKey
      let stack := g.stack.insertFinalState inputKey.length (BitVec.ofNat 64 handle.valueIdx)
        handle.noMinimization
      { g with
        stack := if 0 < handle.weight then
            stack.updateWeights 0 (inputKey.length + 1) handle.weight
          else stack
        numberOfKeysAdded := g.numberOfKeysAdded + 1
        lastKey := inputKey }

end Builder

/-! ## What is stored

The entries as maps from keys: the value of a key, and the weight of a prefix.
-/

/-- Values of keys and weights of prefixes. -/
structure Content where
  value : Key → Option (BitVec 64)
  weight : Key → Nat

namespace Content

/-- What is behind a prefix. -/
def behind (t : Content) (p : Key) : Content :=
  ⟨fun k => t.value (p ++ k), fun k => t.weight (p ++ k)⟩

@[simp] theorem behind_value (t : Content) (p k : Key) : (t.behind p).value k = t.value (p ++ k) :=
  rfl

theorem behind_behind (t : Content) (p q : Key) : (t.behind p).behind q = t.behind (p ++ q) := by
  simp [behind, List.append_assoc]

/-- What the generator makes of entries: the weights end at the cut-off. -/
def ofEntries (entries : List (Key × ValueHandle)) : Content where
  value k := (entries.lookup k).map fun h => BitVec.ofNat 64 h.valueIdx
  weight p := if p.length < UnpackedStateStack.weightCutOff then
      SortedPrefixes.greatest ValueHandle.weight entries p
    else 0

end Content

/-- The value and the labels of a state are those of a content. -/
structure Describes (t : Content) (u : UnpackedState) : Prop where
  wellFormed : u.WellFormed
  final : ∀ v, ⟨256, v⟩ ∈ u.outgoing ↔ t.value [] = some v
  labels : ∀ c : Byte, (∃ v, ⟨c.val, v⟩ ∈ u.outgoing) ↔ ∃ k, t.value (c :: k) ≠ none

/-- A state that the builder has at the offset is the root of the content, with everything behind it. -/
inductive Stored (Has : UnpackedState → BitVec 64 → Prop) : Content → BitVec 64 → Prop
  | root {t : Content} {u : UnpackedState} {offset : BitVec 64} (has : Has u offset)
    (describes : Describes t u) (weight : u.weight = t.weight [])
    (targets : ∀ (c : Byte) v, ⟨c.val, v⟩ ∈ u.outgoing → Stored Has (t.behind [c]) v) :
    Stored Has t offset

/-- A state on the stack: a pending last transition has no target yet. -/
structure Open (Has : UnpackedState → BitVec 64 → Prop) (t : Content) (pending : Option Byte)
    (u : UnpackedState) : Prop extends Describes t u where
  targets : ∀ (c : Byte) v, ⟨c.val, v⟩ ∈ u.outgoing → some c ≠ pending →
    Stored Has (t.behind [c]) v
  last : ∀ c ∈ pending, ∃ init v, u.outgoing = init ++ [⟨c.val, v⟩]

/-- Two contents differ only behind a label. -/
structure SameBut (c : Byte) (t t' : Content) : Prop where
  nil : t'.value [] = t.value []
  behind : ∀ c' ≠ c, t'.behind [c'] = t.behind [c']

section States

variable {Has Has' : UnpackedState → BitVec 64 → Prop} {t t' : Content} {u u' : UnpackedState}
  {pending : Option Byte} {c : Byte}

theorem Stored.mono (hmono : ∀ u o, Has u o → Has' u o) {offset : BitVec 64} (h : Stored Has t offset) :
    Stored Has' t offset := by
  induction h with
  | root has describes weight _ ih => exact .root (hmono _ _ has) describes weight ih

theorem SameBut.value (h : SameBut c t t') {c' : Byte} (hc : c' ≠ c) (k : Key) :
    t'.value (c' :: k) = t.value (c' :: k) :=
  congrArg (fun s : Content => s.value k) (h.behind c' hc)

/-- A state with a key behind it has a transition. -/
theorem Describes.outgoing_ne_nil (h : Describes t u) (ht : ∃ k, t.value k ≠ none) :
    u.outgoing ≠ [] := by
  obtain ⟨k, hk⟩ := ht
  cases k with
  | nil =>
    obtain ⟨v, hv⟩ := Option.ne_none_iff_exists'.mp hk
    exact List.ne_nil_of_mem ((h.final v).mpr hv)
  | cons c k =>
    obtain ⟨v, hv⟩ := (h.labels c).mpr ⟨k, hk⟩
    exact List.ne_nil_of_mem hv

namespace Open

/-- Only the transitions count. -/
theorem congr (h : Open Has t pending u) (hu : u'.outgoing = u.outgoing) (hw : u'.WellFormed) :
    Open Has t pending u' := by
  refine ⟨⟨hw, ?_, ?_⟩, ?_, ?_⟩ <;> rw [hu]
  · exact h.final
  · exact h.labels
  · exact h.targets
  · exact h.last

theorem updateWeightIfHigher (h : Open Has t pending u) (weight : Nat) :
    Open Has t pending (u.updateWeightIfHigher weight) := by
  refine h.congr ?_ (h.wellFormed.updateWeightIfHigher weight)
  rw [UnpackedState.updateWeightIfHigher]
  split <;> rfl

theorem mono (h : Open Has t pending u) (hmono : ∀ u o, Has u o → Has' u o) :
    Open Has' t pending u :=
  ⟨h.toDescribes, fun c v hm hc => (h.targets c v hm hc).mono hmono, h.last⟩

/-- An empty state has nothing. -/
theorem empty (h : ∀ k, t.value k = none) : Open Has t none .new where
  wellFormed := UnpackedState.wellFormed_new
  final v := by simp [UnpackedState.new, h]
  labels c := by simp [UnpackedState.new, h]
  targets c v hm := absurd hm List.not_mem_nil
  last c hc := by cases hc

/-- `Add` of a label that is not there yet. -/
theorem add (h : Open Has t none u) (hnew : ∀ k, t.value (c :: k) = none) (hs : SameBut c t t')
    (hk : ∃ k, t'.value (c :: k) ≠ none) : Open Has t' (some c) (u.add c 0) where
  wellFormed := by
    refine h.wellFormed.add 0 fun x hx hl => ?_
    obtain ⟨k, hk⟩ := (h.labels c).mp ⟨x.value, by rw [← hl]; exact hx⟩
    exact hk (hnew k)
  final v := by
    have hne : (256 : Nat) ≠ c.val := c.isLt.ne'
    rw [hs.nil, ← h.final]
    simp [UnpackedState.add, hne]
  labels c' := by
    by_cases hc : c' = c
    · subst hc
      exact iff_of_true ⟨0, List.mem_append_right _ (List.mem_singleton.mpr rfl)⟩ hk
    · have hne : c'.val ≠ c.val := Fin.val_ne_of_ne hc
      simp only [hs.value hc]
      rw [← h.labels c']
      simp [UnpackedState.add, hne]
  targets c' v hm hc := by
    have hc' : c' ≠ c := fun he => hc (by rw [he])
    rw [hs.behind c' hc']
    rcases List.mem_append.mp hm with hm | hm
    · exact h.targets c' v hm (by simp)
    · have hl := congrArg UnpackedTransition.label (List.mem_singleton.mp hm)
      exact absurd (Fin.ext hl) hc'
  last c' hc := by
    obtain rfl := Option.some.inj hc
    exact ⟨u.outgoing, 0, rfl⟩

/-- `AddFinalState` of a state without a value. -/
theorem addFinalState (h : Open Has t none u) (hnew : t.value [] = none) {v : BitVec 64}
    (hv : t'.value [] = some v) (hs : ∀ c, t'.behind [c] = t.behind [c]) :
    Open Has t' none (u.addFinalState v) where
  wellFormed := by
    refine h.wellFormed.addFinalState v (Bool.eq_false_iff.mpr fun hf => ?_)
    obtain ⟨⟨l, w⟩, hx, rfl⟩ := h.wellFormed.final.mp hf
    rw [h.final, hnew] at hx
    cases hx
  final w := by
    have hnot : ⟨256, w⟩ ∉ u.outgoing := fun hm => by
      rw [h.final, hnew] at hm
      cases hm
    simp [UnpackedState.addFinalState, hnot, hv, eq_comm]
  labels c := by
    have hne : c.val ≠ 256 := c.isLt.ne
    have hvalue : ∀ k, t'.value (c :: k) = t.value (c :: k) := fun k =>
      congrArg (fun s : Content => s.value k) (hs c)
    simp only [hvalue]
    rw [← h.labels c]
    simp [UnpackedState.addFinalState, hne]
  targets c w hm _ := by
    rw [hs c]
    rcases List.mem_append.mp hm with hm | hm
    · exact h.targets c w hm (by simp)
    · have hl := congrArg UnpackedTransition.label (List.mem_singleton.mp hm)
      exact absurd hl c.isLt.ne
  last c hc := by cases hc

/-- More behind the pending label. -/
theorem extend (h : Open Has t (some c) u) (hs : SameBut c t t')
    (hk : ∃ k, t'.value (c :: k) ≠ none) : Open Has t' (some c) u where
  wellFormed := h.wellFormed
  final v := by rw [hs.nil, h.final]
  labels c' := by
    by_cases hc : c' = c
    · subst hc
      obtain ⟨init, v, ho⟩ := h.last c' rfl
      exact iff_of_true ⟨v, by rw [ho]; exact List.mem_append_right _ (List.mem_singleton.mpr rfl)⟩ hk
    · simp only [hs.value hc]
      exact h.labels c'
  targets c' v hm hc := by
    rw [hs.behind c' fun he => hc (by rw [he])]
    exact h.targets c' v hm hc
  last := h.last

/-- `SetTransitionValue` of the pending label. -/
theorem close (h : Open Has t (some c) u) {v : BitVec 64} (hv : Stored Has (t.behind [c]) v) :
    ∃ u', u.setTransitionValue v = some u' ∧ u'.weight = u.weight ∧ Open Has t none u' := by
  obtain ⟨init, w, ho⟩ := h.last c rfl
  have hset : u.setTransitionValue v = some { u with outgoing := init ++ [⟨c.val, v⟩] } := by
    rw [UnpackedState.setTransitionValue, ho, List.getLast?_concat, List.dropLast_concat]
    rfl
  have hmap : (init ++ [(⟨c.val, v⟩ : UnpackedTransition)]).map UnpackedTransition.label =
      u.outgoing.map UnpackedTransition.label := by
    rw [ho, List.map_append, List.map_append]
    rfl
  have hlabel : ∀ l, (∃ x ∈ init ++ [(⟨c.val, v⟩ : UnpackedTransition)], x.label = l) ↔
      ∃ x ∈ u.outgoing, x.label = l := fun l => by
    rw [← List.mem_map, ← List.mem_map, hmap]
  refine ⟨_, hset, rfl, ⟨⟨?_, ?_, ?_, h.wellFormed.weight⟩, ?_, ?_⟩, ?_, ?_⟩
  · show (List.map _ _).Nodup
    rw [hmap]
    exact h.wellFormed.labels
  · intro x hx
    obtain ⟨y, hy, hl⟩ := (hlabel x.label).mp ⟨x, hx, rfl⟩
    rw [← hl]
    exact h.wellFormed.bounded y hy
  · show u.isFinal = true ↔ _
    rw [h.wellFormed.final, hlabel]
  · intro w'
    have hne : (256 : Nat) ≠ c.val := c.isLt.ne'
    rw [← h.final, ho]
    simp [hne]
  · intro c'
    rw [← h.labels c', ho]
    by_cases hc : c' = c
    · subst hc
      exact iff_of_true ⟨v, by simp⟩ ⟨w, by simp⟩
    · have hne : c'.val ≠ c.val := Fin.val_ne_of_ne hc
      simp [hne]
  · intro c' w' hm _
    by_cases hc : c' = c
    · subst hc
      -- The label is there once, with the new target.
      have hnd := h.wellFormed.labels
      rw [← hmap, List.map_append, List.map_singleton] at hnd
      rcases List.mem_append.mp hm with hm | hm
      · exact absurd (List.mem_map.mpr ⟨_, hm, rfl⟩)
          fun hi => (List.nodup_append.mp hnd).2.2 c'.val hi c'.val (List.mem_singleton.mpr rfl) rfl
      · obtain rfl : w' = v := congrArg UnpackedTransition.value (List.mem_singleton.mp hm)
        exact hv
    · refine h.targets c' w' ?_ fun he => hc (Option.some.inj he)
      rw [ho]
      rcases List.mem_append.mp hm with hm | hm
      · exact List.mem_append_left _ hm
      · exact absurd (Fin.ext (congrArg UnpackedTransition.label (List.mem_singleton.mp hm))) hc
  · intro c' hc
    cases hc

end Open

end States

/-! ## The open path -/

/-- What a builder keeps: the states that it has got, by their offsets. -/
structure Keeps (persist : B → UnpackedState → Option (BitVec 64 × UnpackedState × B))
    (Has : B → UnpackedState → BitVec 64 → Prop) : Prop where
  answered : ∀ {b u r}, persist b u = some r → Has r.2.2 u r.1
  kept : ∀ {b u r}, persist b u = some r → ∀ u' offset, Has b u' offset → Has r.2.2 u' offset

/-- A well-formed state with a transition is refused. -/
def Refuses (persist : B → UnpackedState → Option (BitVec 64 × UnpackedState × B)) : Prop :=
  ∃ b u, u.WellFormed ∧ u.outgoing ≠ [] ∧ persist b u = none

/-- What a computation yields, unless the builder refuses a state on the way. -/
def Yields (persist : B → UnpackedState → Option (BitVec 64 × UnpackedState × B))
    (r : Option (Generator B)) (P : Generator B → Prop) : Prop :=
  (r = none ∧ Refuses persist) ∨ ∃ g, r = some g ∧ P g

section Yields

variable {persist : B → UnpackedState → Option (BitVec 64 × UnpackedState × B)}
  {P Q : Generator B → Prop} {r : Option (Generator B)}

theorem Yields.some {g : Generator B} (h : P g) : Yields persist (some g) P := .inr ⟨g, rfl, h⟩

theorem Yields.bind {f : Generator B → Option (Generator B)} (h : Yields persist r P)
    (hf : ∀ g, P g → Yields persist (f g) Q) : Yields persist (r.bind f) Q := by
  obtain ⟨rfl, hrefuses⟩ | ⟨g, rfl, hg⟩ := h
  · exact .inl ⟨rfl, hrefuses⟩
  · exact hf g hg

theorem Yields.map {f : Generator B → Generator B} (h : Yields persist r P)
    (hf : ∀ g, P g → Q (f g)) : Yields persist (r.map f) Q := by
  obtain ⟨rfl, hrefuses⟩ | ⟨g, rfl, hg⟩ := h
  · exact .inl ⟨rfl, hrefuses⟩
  · exact .inr ⟨f g, rfl, hf g hg⟩

theorem Yields.imp (h : Yields persist r P) (hPQ : ∀ g, P g → Q g) : Yields persist r Q := by
  obtain hrefuses | ⟨g, hr, hg⟩ := h
  · exact .inl hrefuses
  · exact .inr ⟨g, hr, hPQ g hg⟩

end Yields

/-- The states of a path are open, each waits for the next one. -/
structure OpenPath (Has : B → UnpackedState → BitVec 64 → Prop) (t : Content) (path : Key)
    (g : Generator B) : Prop where
  highest : g.highestStack = path.length
  states : ∀ i ≤ path.length, Open (Has g.builder) (t.behind (path.take i)) path[i]? (g.stack i)
  weight : ∀ i ≤ path.length, (g.stack i).weight = t.weight (path.take i)
  rest : ∀ i, path.length < i → g.stack i = .new

/-- Closing states leaves what the generator knows of its input. -/
structure SameFeed (g g' : Generator B) : Prop where
  lastKey : g'.lastKey = g.lastKey
  numberOfKeysAdded : g'.numberOfKeysAdded = g.numberOfKeysAdded
  state : g'.state = g.state

section Paths

variable {persist : B → UnpackedState → Option (BitVec 64 × UnpackedState × B)}
  {Has : B → UnpackedState → BitVec 64 → Prop} {t : Content} {g : Generator B}

/-- The last state of a path is stored. -/
theorem OpenPath.stored (hk : Keeps persist Has) {path : Key} (h : OpenPath Has t path g)
    {r : BitVec 64 × UnpackedState × B} (hr : persist g.builder (g.stack path.length) = some r) :
    Stored (Has r.2.2) (t.behind path) r.1 := by
  have hopen := h.states path.length le_rfl
  rw [List.take_length, List.getElem?_eq_none le_rfl] at hopen
  refine .root (hk.answered hr) hopen.toDescribes ?_ fun c v hm => ?_
  · rw [h.weight path.length le_rfl, List.take_length]
    simp [Content.behind]
  · exact (hopen.targets c v hm (by simp)).mono (hk.kept hr)

/-- The last state of a path has a transition. -/
theorem OpenPath.outgoing_ne_nil {path : Key} (h : OpenPath Has t path g)
    (ht : ∃ k, t.value (path ++ k) ≠ none) : (g.stack path.length).outgoing ≠ [] := by
  have hopen := h.states path.length le_rfl
  rw [List.take_length] at hopen
  exact hopen.toDescribes.outgoing_ne_nil ht

/-- What is pending has a key behind it. -/
theorem OpenPath.exists_key {p : Key} {c : Byte} (h : OpenPath Has t (p ++ [c]) g) :
    ∃ k, t.value (p ++ [c] ++ k) ≠ none := by
  have hopen := h.states p.length (by simp)
  have hget : (p ++ [c])[p.length]? = some c := List.getElem?_concat_length
  rw [hget, List.take_left] at hopen
  obtain ⟨init, v, ho⟩ := hopen.last c rfl
  obtain ⟨k, hk⟩ := (hopen.labels c).mp ⟨v, by rw [ho]; simp⟩
  exact ⟨k, by simpa [Content.behind, List.append_assoc] using hk⟩

/-- **One round closes the last state.** -/
theorem OpenPath.consumeTop (hk : Keeps persist Has) {p : Key} {c : Byte}
    (h : OpenPath Has t (p ++ [c]) g) :
    Yields persist (g.consumeTop persist) fun g' => OpenPath Has t p g' ∧ SameFeed g g' := by
  have hlen : (p ++ [c]).length = p.length + 1 := List.length_append
  have hhigh : g.highestStack = p.length + 1 := h.highest.trans hlen
  have hget : (p ++ [c])[p.length]? = some c := List.getElem?_concat_length
  have hopen := h.states p.length (by omega)
  rw [hget, List.take_left] at hopen
  cases hr : persist g.builder (g.stack (p.length + 1)) with
  | none =>
    refine .inl ⟨?_, _, _, (h.states (p.length + 1) hlen.ge).wellFormed, ?_, hr⟩
    · rw [Generator.consumeTop, hhigh, hr]
      rfl
    · have hne := h.outgoing_ne_nil h.exists_key
      rwa [hlen] at hne
  | some r =>
    have hstored := h.stored hk (by rw [hlen]; exact hr)
    rw [← Content.behind_behind] at hstored
    have hmono : ∀ u o, Has g.builder u o → Has r.2.2 u o := hk.kept hr
    obtain ⟨u', hset, hweight, hu'⟩ := (hopen.mono hmono).close hstored
    set pushed : UnpackedState := { u' with
      noMinimizationCounter := u'.noMinimizationCounter + r.2.1.noMinimizationCounter }
    have hpush : g.stack.pushTransitionPointer p.length r.1 r.2.1.noMinimizationCounter =
        some (Function.update g.stack p.length pushed) := by
      rw [UnpackedStateStack.pushTransitionPointer, hset]
      rfl
    set stack := UnpackedStateStack.erase (Function.update g.stack p.length pushed) (p.length + 1)
      with hstack
    have hbefore : ∀ i < p.length, stack i = g.stack i := fun i hi => by
      rw [hstack, UnpackedStateStack.erase, Function.update_of_ne (by omega),
        Function.update_of_ne hi.ne]
    have hlast : stack p.length = pushed := by
      rw [hstack, UnpackedStateStack.erase, Function.update_of_ne (by omega), Function.update_self]
    have hrest : ∀ i, p.length < i → stack i = .new := fun i hi => by
      rw [hstack, UnpackedStateStack.erase]
      rcases eq_or_ne i (p.length + 1) with rfl | hne
      · rw [Function.update_self]
      · rw [Function.update_of_ne hne, Function.update_of_ne (by omega)]
        exact h.rest i (by omega)
    refine .inr ⟨{ g with
      builder := r.2.2
      stack := stack
      highestStack := p.length }, ?_, ⟨rfl, fun i hi => ?_, fun i hi => ?_, hrest⟩, ⟨rfl, rfl, rfl⟩⟩
    · rw [Generator.consumeTop, hhigh, hr]
      simp only [Option.bind_eq_bind, Option.bind_some, Nat.add_sub_cancel, hpush]
      rfl
    · show Open (Has r.2.2) _ _ (stack i)
      rcases hi.lt_or_eq with hlt | rfl
      · have hi := (h.states i (by omega)).mono hmono
        rw [List.take_append_of_le_length hlt.le, List.getElem?_append_left hlt] at hi
        rwa [hbefore i hlt]
      · rw [hlast, List.take_length, List.getElem?_eq_none le_rfl]
        exact hu'.congr rfl ⟨hu'.wellFormed.labels, hu'.wellFormed.bounded, hu'.wellFormed.final,
          hu'.wellFormed.weight⟩
    · show (stack i).weight = _
      have hi' := h.weight i (by omega)
      rw [List.take_append_of_le_length hi] at hi'
      rcases hi.lt_or_eq with hlt | rfl
      · rw [hbefore i hlt, hi']
      · rw [hlast, ← hi']
        exact hweight

/-- **`ConsumeStack` closes what is behind a prefix of the path.** -/
theorem OpenPath.consumeStack (hk : Keeps persist Has) {p q : Key} (h : OpenPath Has t (p ++ q) g) :
    Yields persist (g.consumeStack persist p.length) fun g' =>
      OpenPath Has t p g' ∧ SameFeed g g' := by
  induction q using List.reverseRecOn generalizing g with
  | nil =>
    rw [List.append_nil] at h
    rw [Generator.consumeStack, h.highest, Nat.sub_self]
    exact .some ⟨h, rfl, rfl, rfl⟩
  | append_singleton q c ih =>
    have hrounds : g.highestStack - p.length = q.length + 1 := by
      rw [h.highest, List.length_append, List.length_append, List.length_singleton]
      omega
    rw [Generator.consumeStack, hrounds, consumeRounds]
    rw [← List.append_assoc] at h
    refine (h.consumeTop hk).bind fun g₁ h₁ => ?_
    have hrest := ih h₁.1
    rw [Generator.consumeStack, h₁.1.highest, List.length_append, Nat.add_sub_cancel_left] at hrest
    exact hrest.imp fun g₂ h₂ => ⟨h₂.1, h₂.2.lastKey.trans h₁.2.lastKey,
      h₂.2.numberOfKeysAdded.trans h₁.2.numberOfKeysAdded, h₂.2.state.trans h₁.2.state⟩

end Paths

/-! ## Adding a key -/

theorem updateWeightIfHigher_weight (u : UnpackedState) (weight : Nat) :
    (u.updateWeightIfHigher weight).weight = max u.weight weight := by
  rw [UnpackedState.updateWeightIfHigher]
  split
  · next h => exact (max_eq_right h.le).symm
  · next h => exact (max_eq_left (not_lt.mp h)).symm

theorem updateWeights_at (s : UnpackedStateStack) (stop weight i : Nat) :
    s.updateWeights 0 stop weight i =
      if i < min stop UnpackedStateStack.weightCutOff then (s i).updateWeightIfHigher weight
      else s i := by
  rw [UnpackedStateStack.updateWeights, if_neg (Nat.not_lt_zero _)]
  refine (SortedPrefixes.foldl_update (fun _ u => u.updateWeightIfHigher weight)
    List.nodup_range' s i).trans ?_
  refine if_congr ?_ rfl rfl
  rw [List.mem_range'_1]
  omega

theorem feedStack_at (g : Generator B) (start : Nat) (key : Key) (i : Nat) :
    (g.feedStack start key).stack i =
      if start ≤ i ∧ i < key.length then (g.stack i).add (key.getD i 0) 0 else g.stack i := by
  refine (SortedPrefixes.foldl_update (fun i u => u.add (key.getD i 0) 0)
    List.nodup_range' g.stack i).trans ?_
  refine if_congr ?_ rfl rfl
  rw [List.mem_range'_1]
  omega

/-- What `Add` does when the states behind the common prefix are closed. -/
def insertKey (g : Generator B) (start : Nat) (inputKey : Key) (handle : ValueHandle) :
    Generator B :=
  let g := g.feedStack start inputKey
  let stack := g.stack.insertFinalState inputKey.length (BitVec.ofNat 64 handle.valueIdx)
    handle.noMinimization
  { g with
    stack := if 0 < handle.weight then
        stack.updateWeights 0 (inputKey.length + 1) handle.weight
      else stack
    numberOfKeysAdded := g.numberOfKeysAdded + 1
    lastKey := inputKey }

section Add

variable {entries : List (Key × ValueHandle)} {key : Key} {handle : ValueHandle}

/-- The states of the path, without their weights. -/
def fedState (g : Generator B) (start : Nat) (key : Key) (handle : ValueHandle) (i : Nat) :
    UnpackedState :=
  if i = key.length then
    let u := (g.stack i).addFinalState (BitVec.ofNat 64 handle.valueIdx)
    if handle.noMinimization then u.incrementNoMinimizationCounter else u
  else if start ≤ i ∧ i < key.length then (g.stack i).add (key.getD i 0) 0
  else g.stack i

theorem insertKey_at (g : Generator B) (start i : Nat) :
    (g.insertKey start key handle).stack i =
      if 0 < handle.weight ∧ i < min (key.length + 1) UnpackedStateStack.weightCutOff then
        (g.fedState start key handle i).updateWeightIfHigher handle.weight
      else g.fedState start key handle i := by
  have hfed : (g.feedStack start key).stack.insertFinalState key.length
      (BitVec.ofNat 64 handle.valueIdx) handle.noMinimization i = g.fedState start key handle i := by
    rw [UnpackedStateStack.insertFinalState, UnpackedStateStack.modify, fedState]
    rcases eq_or_ne i key.length with rfl | hne
    · have hlast : (g.feedStack start key).stack key.length = g.stack key.length := by
        rw [feedStack_at, if_neg fun h => lt_irrefl _ h.2]
      rw [Function.update_self, if_pos rfl, hlast]
    · rw [Function.update_of_ne hne, if_neg hne, feedStack_at]
  rw [insertKey]
  dsimp only
  by_cases hw : 0 < handle.weight
  · rw [if_pos hw, updateWeights_at, hfed]
    simp only [hw, true_and]
  · rw [if_neg hw, hfed, if_neg fun h => hw h.1]

/-- A new entry changes the value of its key. -/
theorem value_concat (hnew : entries.lookup key = none) (k : Key) :
    (Content.ofEntries (entries ++ [(key, handle)])).value k =
      if k = key then some (BitVec.ofNat 64 handle.valueIdx)
      else (Content.ofEntries entries).value k := by
  rw [Content.ofEntries, Content.ofEntries]
  dsimp only
  rw [List.lookup_append, List.lookup_cons, List.lookup_nil]
  by_cases hk : k = key
  · subst hk
    simp [hnew]
  · have hne : (k == key) = false := beq_eq_false_iff_ne.mpr hk
    simp [hne, hk]

/-- A new entry may raise the weights of its prefixes. -/
theorem weight_concat (p : Key) :
    (Content.ofEntries (entries ++ [(key, handle)])).weight p =
      if p <+: key ∧ p.length < UnpackedStateStack.weightCutOff then
        max ((Content.ofEntries entries).weight p) handle.weight
      else (Content.ofEntries entries).weight p := by
  rw [Content.ofEntries, Content.ofEntries]
  dsimp only
  rw [SortedPrefixes.greatest_concat]
  by_cases hp : p <+: key <;> by_cases hl : p.length < UnpackedStateStack.weightCutOff <;>
    simp [hp, hl]

/-- What is not in front of the key has the same behind it. -/
theorem behind_concat (hnew : entries.lookup key = none) {q : Key} (hq : ¬ q <+: key) :
    (Content.ofEntries (entries ++ [(key, handle)])).behind q =
      (Content.ofEntries entries).behind q := by
  rw [Content.behind, Content.behind, Content.mk.injEq]
  constructor
  · funext k
    rw [value_concat hnew, if_neg]
    rintro rfl
    exact hq (List.prefix_append q k)
  · funext k
    rw [weight_concat, if_neg]
    exact fun h => hq ((List.prefix_append q k).trans h.1)

/-- At a prefix of the key only what is behind its next label changes. -/
theorem sameBut_concat (hnew : entries.lookup key = none) {i : Nat} (hi : i < key.length) :
    SameBut key[i] ((Content.ofEntries entries).behind (key.take i))
      ((Content.ofEntries (entries ++ [(key, handle)])).behind (key.take i)) where
  nil := by
    show (Content.ofEntries _).value (key.take i ++ []) = _
    rw [value_concat hnew, if_neg]
    · rfl
    · intro he
      have hlen := congrArg List.length he
      rw [List.append_nil, List.length_take] at hlen
      omega
  behind c hc := by
    rw [Content.behind_behind, Content.behind_behind]
    refine behind_concat hnew fun hp => hc ?_
    have hget := List.IsPrefix.getElem hp (i := i) (by simp; omega)
    rw [List.getElem_append_right (by simp)] at hget
    simpa using hget

variable {persist : B → UnpackedState → Option (BitVec 64 × UnpackedState × B)}
  {Has : B → UnpackedState → BitVec 64 → Prop} {g : Generator B}

section Fresh

variable {p : Key} {c : Byte} (hpc : p ++ [c] <+: key)
  (hnew : ∀ e ∈ entries, ¬ (p ++ [c]) <+: e.1)

include hpc

/-- On the path the key agrees with it, and behind its end goes on with the new label. -/
theorem take_path {i : Nat} (hi : i ≤ p.length) : key.take i = p.take i := by
  obtain ⟨k', rfl⟩ := hpc
  rw [List.append_assoc, List.take_append_of_le_length hi]

theorem prefix_take_path {i : Nat} (hi : p.length < i) : p ++ [c] <+: key.take i := by
  refine List.prefix_take_iff.mpr ⟨hpc, ?_⟩
  rw [List.length_append, List.length_singleton]
  exact hi

omit hpc

include hnew

/-- Behind the new label there is no entry. -/
theorem lookup_fresh {q : Key} (hq : p ++ [c] <+: q) : entries.lookup q = none := by
  rw [List.lookup_eq_none_iff]
  intro e he
  rw [bne_iff_ne]
  rintro rfl
  exact hnew e he hq

theorem content_fresh {q : Key} (hq : p ++ [c] <+: q) :
    (Content.ofEntries entries).value q = none ∧ (Content.ofEntries entries).weight q = 0 := by
  constructor
  · rw [Content.ofEntries]
    dsimp only
    rw [lookup_fresh hnew hq]
    rfl
  · rw [Content.ofEntries]
    dsimp only
    rw [SortedPrefixes.greatest_eq_zero fun e he hp => hnew e he (hq.trans hp), ite_self]

include hpc

/-- From the end of the path on there is nothing yet behind the next label. -/
theorem OpenPath.fresh (h : OpenPath Has (.ofEntries entries) p g) {i : Nat} (hi : p.length ≤ i) :
    Open (Has g.builder) ((Content.ofEntries entries).behind (key.take i)) none (g.stack i) ∧
      (g.stack i).weight = (Content.ofEntries entries).weight (key.take i) := by
  rcases hi.lt_or_eq with hlt | rfl
  · have hbehind := prefix_take_path hpc hlt
    rw [h.rest i hlt, (content_fresh hnew hbehind).2]
    exact ⟨.empty fun k => (content_fresh hnew (hbehind.trans (List.prefix_append _ k))).1, rfl⟩
  · have hp := h.states p.length le_rfl
    rw [List.getElem?_eq_none le_rfl] at hp
    rw [take_path hpc le_rfl]
    exact ⟨hp, h.weight p.length le_rfl⟩

/-- A state in front of the end of the key, before its weight is raised. -/
theorem OpenPath.fedInner (h : OpenPath Has (.ofEntries entries) p g) {i : Nat}
    (hi : i < key.length) :
    Open (Has g.builder) ((Content.ofEntries (entries ++ [(key, handle)])).behind (key.take i))
        (some key[i]) (g.fedState p.length key handle i) ∧
      (g.fedState p.length key handle i).weight =
        (Content.ofEntries entries).weight (key.take i) := by
  have hlook : entries.lookup key = none := lookup_fresh hnew hpc
  have hsame : SameBut key[i] _
      ((Content.ofEntries (entries ++ [(key, handle)])).behind (key.take i)) :=
    sameBut_concat hlook hi
  have hkeyBehind : ∃ k, ((Content.ofEntries (entries ++ [(key, handle)])).behind
      (key.take i)).value (key[i] :: k) ≠ none := by
    refine ⟨key.drop (i + 1), ?_⟩
    show (Content.ofEntries _).value (key.take i ++ key[i] :: key.drop (i + 1)) ≠ none
    rw [List.getElem_cons_drop, List.take_append_drop, value_concat hlook, if_pos rfl]
    exact Option.some_ne_none _
  rw [fedState, if_neg hi.ne]
  by_cases hpi : p.length ≤ i
  · rw [if_pos ⟨hpi, hi⟩, List.getD_eq_getElem _ _ hi]
    have hnext : ∀ k, ((Content.ofEntries entries).behind (key.take i)).value (key[i] :: k) =
        none := by
      intro k
      refine (content_fresh hnew ?_).1
      have hsnoc : key.take i ++ key[i] :: k = key.take (i + 1) ++ k := by
        rw [List.take_succ_eq_append_getElem hi, List.append_assoc]
        rfl
      rw [hsnoc]
      exact (prefix_take_path hpc (Nat.lt_succ_of_le hpi)).trans (List.prefix_append _ k)
    obtain ⟨hopen, hweight⟩ := h.fresh hpc hnew hpi
    exact ⟨hopen.add hnext hsame hkeyBehind, hweight⟩
  · rw [if_neg fun hc => hpi hc.1]
    have hip : i < p.length := not_le.mp hpi
    have hopen := h.states i hip.le
    have hget : p[i]? = some key[i] := by
      rw [List.getElem?_eq_getElem hip, ((List.prefix_append p [c]).trans hpc).getElem hip]
    rw [hget, ← take_path hpc hip.le] at hopen
    refine ⟨hopen.extend hsame hkeyBehind, ?_⟩
    rw [take_path hpc hip.le]
    exact h.weight i hip.le

/-- The state at the end of the key, before its weight is raised. -/
theorem OpenPath.fedLast (h : OpenPath Has (.ofEntries entries) p g) :
    Open (Has g.builder) ((Content.ofEntries (entries ++ [(key, handle)])).behind key) none
        (g.fedState p.length key handle key.length) ∧
      (g.fedState p.length key handle key.length).weight =
        (Content.ofEntries entries).weight key := by
  have hlook : entries.lookup key = none := lookup_fresh hnew hpc
  have hlen : p.length ≤ key.length := ((List.prefix_append p [c]).trans hpc).length_le
  obtain ⟨hopen, hweight⟩ := h.fresh hpc hnew hlen
  rw [List.take_length] at hopen hweight
  have hnone : ((Content.ofEntries entries).behind key).value [] = none := by
    rw [Content.behind_value, List.append_nil]
    exact (content_fresh hnew hpc).1
  have hvalue : ((Content.ofEntries (entries ++ [(key, handle)])).behind key).value [] =
      some (BitVec.ofNat 64 handle.valueIdx) := by
    rw [Content.behind_value, List.append_nil, value_concat hlook, if_pos rfl]
  have hfinal := hopen.addFinalState hnone hvalue fun c => by
    rw [Content.behind_behind, Content.behind_behind]
    refine behind_concat hlook fun hp => ?_
    have hle := hp.length_le
    rw [List.length_append, List.length_singleton] at hle
    omega
  rw [fedState, if_pos rfl]
  dsimp only
  split
  · exact ⟨hfinal.congr rfl ⟨hfinal.wellFormed.labels, hfinal.wellFormed.bounded,
      hfinal.wellFormed.final, hfinal.wellFormed.weight⟩, hweight⟩
  · exact ⟨hfinal, hweight⟩

end Fresh

/-- **A key behind the open path opens its states.** -/
theorem OpenPath.insertKey {p k' : Key} {c : Byte} (h : OpenPath Has (.ofEntries entries) p g)
    (hnew : ∀ e ∈ entries, ¬ (p ++ [c]) <+: e.1) :
    OpenPath Has (.ofEntries (entries ++ [(p ++ c :: k', handle)])) (p ++ c :: k')
      (g.insertKey p.length (p ++ c :: k') handle) := by
  set key := p ++ c :: k' with hkey
  have hlen : p.length < key.length := by simp [hkey]
  have hpc : p ++ [c] <+: key := ⟨k', by simp [hkey]⟩
  have hfed : ∀ i ≤ key.length, Open (Has g.builder)
      ((Content.ofEntries (entries ++ [(key, handle)])).behind (key.take i)) key[i]?
      (g.fedState p.length key handle i) ∧
      (g.fedState p.length key handle i).weight =
        (Content.ofEntries entries).weight (key.take i) := by
    intro i hi
    rcases hi.lt_or_eq with hlt | rfl
    · rw [List.getElem?_eq_getElem hlt]
      exact h.fedInner hpc hnew hlt
    · rw [List.getElem?_eq_none le_rfl, List.take_length]
      exact h.fedLast hpc hnew
  refine ⟨?_, fun i hi => ?_, fun i hi => ?_, fun i hi => ?_⟩
  · show max g.highestStack key.length = _
    rw [h.highest]
    exact max_eq_right hlen.le
  · rw [insertKey_at]
    split
    · exact (hfed i hi).1.updateWeightIfHigher _
    · exact (hfed i hi).1
  · have htakelen : (key.take i).length = i := by rw [List.length_take]; omega
    rw [insertKey_at, weight_concat, htakelen]
    by_cases hcut : i < UnpackedStateStack.weightCutOff
    · rw [if_pos (⟨List.take_prefix i key, hcut⟩ : _ ∧ _)]
      by_cases hw : 0 < handle.weight
      · rw [if_pos ⟨hw, by omega⟩, updateWeightIfHigher_weight, (hfed i hi).2]
      · rw [if_neg fun hc => hw hc.1, (hfed i hi).2, Nat.eq_zero_of_not_pos hw]
        exact (max_eq_left (Nat.zero_le _)).symm
    · rw [if_neg fun hc => hcut (lt_min_iff.mp hc.2).2, if_neg fun hc => hcut hc.2, (hfed i hi).2]
  · rw [insertKey_at, if_neg (by omega), fedState, if_neg hi.ne', if_neg (by omega)]
    exact h.rest i (by omega)

end Add

/-! ## The whole run -/

theorem getCommonPrefixLength_append : ∀ {p j k' : Key} {c : Byte}, p <+: j → ¬ (p ++ [c]) <+: j →
    Dictionary.getCommonPrefixLength j (p ++ c :: k') = p.length
  | [], [], k', c, _, _ => rfl
  | [], d :: j, k', c, _, hn => by
    have hdc : d ≠ c := fun he => hn (by simp [he])
    rw [List.nil_append, Dictionary.getCommonPrefixLength, if_neg hdc]
    rfl
  | b :: p, j, k', c, hp, hn => by
    obtain ⟨j, rfl⟩ := hp
    rw [List.cons_append, List.cons_append, Dictionary.getCommonPrefixLength, if_pos rfl,
      getCommonPrefixLength_append (List.prefix_append p j)
        fun h => hn (by simpa [List.cons_prefix_cons] using h)]
    rfl

/-- The generator has the entries of an abstract one open on its stack. -/
structure Refines (Has : B → UnpackedState → BitVec 64 → Prop) (abstract : Dictionary.Generator)
    (g : Generator B) : Prop where
  lastKey : g.lastKey = abstract.lastKey
  count : g.numberOfKeysAdded = abstract.entries.length
  feeding : g.state = .feeding
  path : OpenPath Has (.ofEntries abstract.entries) abstract.lastKey g
  below : ∀ e ∈ abstract.entries, e.1 ≤ abstract.lastKey

section Runs

variable {persist : B → UnpackedState → Option (BitVec 64 × UnpackedState × B)}
  {Has : B → UnpackedState → BitVec 64 → Prop} {g : Generator B} {abstract : Dictionary.Generator}

/-- **`Add` of a key that is not before the last one** takes the step of the abstract generator. -/
theorem Refines.add (hk : Keeps persist Has) (h : Refines Has abstract g) {key : Key}
    (handle : ValueHandle) (hle : abstract.lastKey ≤ key) :
    Yields persist (g.add persist key handle) (Refines Has (abstract.add key handle)) := by
  rw [Dictionary.Generator.add_eq, Generator.add, if_neg (not_not.mpr h.feeding), h.lastKey]
  dsimp only
  by_cases heq : abstract.lastKey = key
  · rw [if_pos ((Dictionary.getCommonPrefixLength_eq _ _).mpr heq), if_pos heq]
    exact .some h
  rw [if_neg fun hc => heq ((Dictionary.getCommonPrefixLength_eq _ _).mp hc), if_neg heq]
  obtain ⟨p, c, k', rfl, ⟨q, hq⟩, hn⟩ := SortedPrefixes.exists_step (lt_of_le_of_ne hle heq)
  rw [getCommonPrefixLength_append ⟨q, hq⟩ hn]
  have hpath := h.path
  rw [← hq] at hpath
  refine (hpath.consumeStack hk).map fun g₁ ⟨h₁, hs₁⟩ => ?_
  show Refines Has ⟨p ++ c :: k', abstract.entries ++ [(p ++ c :: k', handle)]⟩
    (g₁.insertKey p.length (p ++ c :: k') handle)
  refine ⟨rfl, ?_, hs₁.state.trans h.feeding, ?_, fun e he => ?_⟩
  · show g₁.numberOfKeysAdded + 1 = _
    rw [hs₁.numberOfKeysAdded, h.count, List.length_append]
    rfl
  · exact h₁.insertKey fun e he => SortedPrefixes.not_prefix_of_le hn hle (h.below e he)
  · rcases List.mem_append.mp he with he | he
    · exact (h.below e he).trans hle
    · rw [List.mem_singleton.mp he]

/-- **A run over sorted entries** follows the abstract generator. -/
theorem Refines.run (hk : Keeps persist Has) : ∀ {entries : List (Key × ValueHandle)}
    {abstract : Dictionary.Generator} {g : Generator B}, Refines Has abstract g →
    (entries.map Prod.fst).Pairwise (· ≤ ·) → (∀ e ∈ entries, abstract.lastKey ≤ e.1) →
    Yields persist (Run.run (fun g e => Generator.add persist g e.1 e.2) g entries)
      (Refines Has (entries.foldl (fun a e => a.add e.1 e.2) abstract))
  | [], abstract, g, h, _, _ => .some h
  | e :: entries, abstract, g, h, hsorted, hle => by
    rw [List.map_cons, List.pairwise_cons] at hsorted
    have hlast : (abstract.add e.1 e.2).lastKey = e.1 := by
      rw [Dictionary.Generator.add_eq]
      split
      · assumption
      · rfl
    have hrun : Run.run (fun g e => Generator.add persist g e.1 e.2) g (e :: entries) =
        (g.add persist e.1 e.2).bind fun g =>
          Run.run (fun g e => Generator.add persist g e.1 e.2) g entries := by
      rw [Run.run]
      cases g.add persist e.1 e.2 <;> rfl
    rw [hrun]
    refine (h.add hk e.2 (hle e List.mem_cons_self)).bind fun g₁ h₁ => ?_
    refine h₁.run hk hsorted.2 fun e' he' => ?_
    rw [hlast]
    exact hsorted.1 e'.1 (List.mem_map_of_mem he')

/-- A generator that has been closed over entries. -/
structure Closed (Has : B → UnpackedState → BitVec 64 → Prop) (entries : List (Key × ValueHandle))
    (g : Generator B) : Prop where
  state : g.state = .compiled
  count : g.numberOfKeysAdded = entries.length
  empty : entries = [] → g.startState = 1
  stored : entries ≠ [] → Stored (Has g.builder) (.ofEntries entries) g.startState

end Runs

end Generator

end Keyvi.Fsa
