import Mathlib
import Keyvi.Fsa.Generator
import Keyvi.Fsa.Traversal

/-!
# What the generator makes is a dictionary

Where the cells at every offset that the builder has answered read as the state it was answered for,
the automaton holds the entries of the generator. Where moreover equal states, and no others, share an
offset, it is the minimal one.
-/

namespace Keyvi.Fsa

open Automata
open Keyvi.Dictionary (ValueHandle)

/-! ## Reading what is stored -/

/-- The cells at an offset read as a state. -/
structure Reads (a : Automata) (u : UnpackedState) (offset : BitVec 64) : Prop where
  ne_zero : offset.toNat ≠ 0
  labels : ∀ c : Byte, a.labels (offset.toNat + c.val) = c ↔
    c.val ∈ u.outgoing.map UnpackedTransition.label
  targets : ∀ x ∈ u.outgoing, x.label < 256 →
    a.resolvePointer offset.toNat (Fin.ofNat 256 x.label) = x.value.toNat
  final : a.isFinalState offset.toNat = true ↔ 256 ∈ u.outgoing.map UnpackedTransition.label
  value : ∀ x ∈ u.outgoing, x.label = 256 → a.getStateValue offset.toNat = x.value.toNat

theorem reads_iff (a : Automata) (u : UnpackedState) (offset : BitVec 64) :
    (offset.toNat ≠ 0 ∧
      (∀ c : Byte, a.labels (offset.toNat + c.val) = c ↔
        c.val ∈ u.outgoing.map UnpackedTransition.label) ∧
      (∀ x ∈ u.outgoing, x.label < 256 →
        a.resolvePointer offset.toNat (Fin.ofNat 256 x.label) = x.value.toNat) ∧
      (a.isFinalState offset.toNat = true ↔ 256 ∈ u.outgoing.map UnpackedTransition.label) ∧
      ∀ x ∈ u.outgoing, x.label = 256 → a.getStateValue offset.toNat = x.value.toNat) ↔
    Reads a u offset :=
  ⟨fun h => ⟨h.1, h.2.1, h.2.2.1, h.2.2.2.1, h.2.2.2.2⟩,
    fun h => ⟨h.ne_zero, h.labels, h.targets, h.final, h.value⟩⟩

instance decidableReads (a : Automata) (u : UnpackedState) (offset : BitVec 64) :
    Decidable (Reads a u offset) :=
  decidable_of_iff _ (reads_iff a u offset)

theorem mem_labels {u : UnpackedState} {l : Nat} :
    l ∈ u.outgoing.map UnpackedTransition.label ↔ ∃ v, ⟨l, v⟩ ∈ u.outgoing := by
  rw [List.mem_map]
  constructor
  · rintro ⟨⟨l', v⟩, hx, rfl⟩
    exact ⟨v, hx⟩
  · rintro ⟨v, hx⟩
    exact ⟨_, hx, rfl⟩

namespace Generator

variable {a : Automata} {Has : UnpackedState → BitVec 64 → Prop} {t : Content}
  {offset : BitVec 64}

theorem Stored.ne_zero (hreads : ∀ u o, Has u o → Reads a u o) (h : Stored Has t offset) :
    offset.toNat ≠ 0 := by
  cases h with
  | root has _ _ _ => exact (hreads _ _ has).ne_zero

/-- The value of a state. -/
theorem Stored.final (hreads : ∀ u o, Has u o → Reads a u o) (h : Stored Has t offset)
    (v : BitVec 64) : t.value [] = some v ↔
      a.isFinalState offset.toNat = true ∧ a.getStateValue offset.toNat = v.toNat := by
  cases h with
  | root has describes _ _ =>
    have hr := hreads _ _ has
    rw [← describes.final]
    constructor
    · intro hm
      exact ⟨hr.final.mpr (mem_labels.mpr ⟨v, hm⟩), hr.value _ hm rfl⟩
    · rintro ⟨hf, hv⟩
      obtain ⟨w, hw⟩ := mem_labels.mp (hr.final.mp hf)
      obtain rfl : w = v := BitVec.eq_of_toNat_eq ((hr.value _ hw rfl).symm.trans hv)
      exact hw

/-- A label of a state leads to what is stored behind it. -/
theorem Stored.child (hreads : ∀ u o, Has u o → Reads a u o) (h : Stored Has t offset) {c : Byte}
    (hc : a.labels (offset.toNat + c.val) = c) : (∃ k, t.value (c :: k) ≠ none) ∧
      ∃ next : BitVec 64, a.resolvePointer offset.toNat c = next.toNat ∧
        Stored Has (t.behind [c]) next := by
  cases h with
  | root has describes _ targets =>
    have hr := hreads _ _ has
    obtain ⟨v, hv⟩ := mem_labels.mp ((hr.labels c).mp hc)
    refine ⟨(describes.labels c).mp ⟨v, hv⟩, v, ?_, targets c v hv⟩
    have htarget := hr.targets _ hv c.isLt
    rwa [show Fin.ofNat 256 c.val = c from Fin.ext (Nat.mod_eq_of_lt c.isLt)] at htarget

/-- There is a label where a key continues. -/
theorem Stored.label (hreads : ∀ u o, Has u o → Reads a u o) (h : Stored Has t offset) {c : Byte}
    (hc : ∃ k, t.value (c :: k) ≠ none) : a.labels (offset.toNat + c.val) = c := by
  cases h with
  | root has describes _ _ =>
    exact ((hreads _ _ has).labels c).mpr (mem_labels.mpr ((describes.labels c).mpr hc))

/-- **A walk follows the prefixes of keys.** -/
theorem Stored.walk (hreads : ∀ u o, Has u o → Reads a u o) : ∀ {p : Key} {t : Content}
    {offset : BitVec 64}, Stored Has t offset →
    ((p = [] ∨ ∃ k, t.value (p ++ k) ≠ none) ∧
      ∃ next : BitVec 64, a.walk offset.toNat p = next.toNat ∧ Stored Has (t.behind p) next) ∨
    ((p ≠ [] ∧ ∀ k, t.value (p ++ k) = none) ∧ a.walk offset.toNat p = 0)
  | [], t, offset, h => .inl ⟨.inl rfl, offset, rfl, h⟩
  | c :: p, t, offset, h => by
    rw [Automata.walk, if_neg (h.ne_zero hreads), tryWalkTransition]
    by_cases hc : a.labels (offset.toNat + c.val) = c
    · obtain ⟨hkey, next, hnext, hstored⟩ := h.child hreads hc
      rw [if_pos hc, hnext]
      rcases hstored.walk hreads (p := p) with ⟨hp, last, hlast, hs⟩ | ⟨⟨hp, hnone⟩, hzero⟩
      · refine .inl ⟨.inr ?_, last, hlast, by rwa [Content.behind_behind] at hs⟩
        rcases hp with rfl | hp
        · exact hkey
        · exact hp
      · exact .inr ⟨⟨List.cons_ne_nil c p, hnone⟩, hzero⟩
    · rw [if_neg hc, walk_zero]
      refine .inr ⟨⟨List.cons_ne_nil c p, fun k => ?_⟩, rfl⟩
      by_contra hk
      exact hc (h.label hreads ⟨p ++ k, hk⟩)

/-! ## The dictionary -/

theorem lookup_iff {entries : List (Key × ValueHandle)}
    (hasc : entries.Pairwise fun e e' => e.1 < e'.1) {k : Key} {h : ValueHandle} :
    entries.lookup k = some h ↔ (k, h) ∈ entries := by
  induction entries with
  | nil => simp
  | cons e entries ih =>
    obtain ⟨he, hrest⟩ := List.pairwise_cons.mp hasc
    obtain ⟨k', h'⟩ := e
    rw [List.lookup_cons, List.mem_cons, ← ih hrest, Prod.mk.injEq]
    by_cases hk : k = k'
    · subst hk
      have hnot : entries.lookup k ≠ some h := fun hl =>
        absurd (he _ ((ih hrest).mp hl)) (lt_irrefl _)
      simp [hnot, eq_comm]
    · have hne : (k == k') = false := beq_eq_false_iff_ne.mpr hk
      simp [hk, hne]

theorem value_ofEntries {entries : List (Key × ValueHandle)}
    (hasc : entries.Pairwise fun e e' => e.1 < e'.1) {k : Key} {v : BitVec 64} :
    (Content.ofEntries entries).value k = some v ↔
      ∃ h, (k, h) ∈ entries ∧ BitVec.ofNat 64 h.valueIdx = v := by
  rw [Content.ofEntries]
  dsimp only
  rw [Option.map_eq_some_iff]
  simp only [lookup_iff hasc]

theorem value_ne_none {entries : List (Key × ValueHandle)}
    (hasc : entries.Pairwise fun e e' => e.1 < e'.1) {k : Key} :
    (Content.ofEntries entries).value k ≠ none ↔ k ∈ entries.map Prod.fst := by
  rw [Option.ne_none_iff_exists']
  simp only [value_ofEntries hasc, List.mem_map]
  constructor
  · rintro ⟨v, h, hm, -⟩
    exact ⟨(k, h), hm, rfl⟩
  · rintro ⟨⟨k', h⟩, hm, rfl⟩
    exact ⟨_, h, hm, rfl⟩

/-- The keys with the indices of their values. -/
def indexed (entries : List (Key × ValueHandle)) : List (Key × Nat) :=
  entries.map fun e => (e.1, e.2.valueIdx)

theorem keysOf_indexed (entries : List (Key × ValueHandle)) :
    keysOf (indexed entries) = entries.map Prod.fst := by
  rw [keysOf, indexed, List.map_map]
  rfl

section Dictionary

variable {B : Type} {HasIn : B → UnpackedState → BitVec 64 → Prop} {g : Generator B}
  {entries : List (Key × ValueHandle)}

/-- The automaton has what `Write` puts into the properties. -/
structure Writes (g : Generator B) (a : Automata) : Prop where
  numberOfKeys : a.numberOfKeys = g.numberOfKeysAdded
  startState : a.startState = g.startState.toNat

/-- An automaton without a start state holds nothing. -/
theorem holds_nil (hcount : a.numberOfKeys = 0) : Holds a [] := by
  have hstart : a.getStartState = 0 := by rw [getStartState, hcount]; rfl
  refine ⟨.nil, List.not_mem_nil, hcount, fun hne => absurd rfl hne, fun k => ?_,
    fun e he => absurd he List.not_mem_nil, fun p hp => ?_, fun p _ hp => ?_⟩
  · rw [hstart, walk_zero]
    exact iff_of_false List.not_mem_nil fun hk => hk.1 rfl
  · rw [hstart, walk_zero] at hp
    exact absurd rfl hp
  · rw [hstart, walk_zero] at hp
    exact absurd rfl hp

section Walks

variable {start : BitVec 64} (hstart : a.getStartState = start.toNat)
  (hstored : Stored (HasIn g.builder) (.ofEntries entries) start)
  (hasc : entries.Pairwise fun e e' => e.1 < e'.1)
  (hreads : ∀ u o, HasIn g.builder u o → Reads a u o)

include hstart hstored hasc hreads

/-- A state that is reached stores what is behind the path. -/
theorem reached {p : Key} (hp : a.walk a.getStartState p ≠ 0) :
    (p = [] ∨ ∃ k ∈ entries.map Prod.fst, p <+: k) ∧
      ∃ next : BitVec 64, a.walk a.getStartState p = next.toNat ∧
        Stored (HasIn g.builder) ((Content.ofEntries entries).behind p) next := by
  rw [hstart] at hp ⊢
  rcases hstored.walk hreads (p := p) with ⟨hkey, hnext⟩ | ⟨-, hzero⟩
  · refine ⟨hkey.imp_right fun hbehind => ?_, hnext⟩
    obtain ⟨k, hk⟩ := hbehind
    exact ⟨p ++ k, (value_ne_none hasc).mp hk, List.prefix_append p k⟩
  · exact absurd hzero hp

/-- The path of a key reaches a state. -/
theorem walk_key_ne_zero {k : Key} (hk : k ∈ entries.map Prod.fst) :
    a.walk a.getStartState k ≠ 0 := by
  rw [hstart]
  rcases hstored.walk hreads (p := k) with ⟨-, next, hnext, hs⟩ | ⟨⟨-, hnone⟩, -⟩
  · rw [hnext]
    exact hs.ne_zero hreads
  · have hv := hnone []
    rw [List.append_nil] at hv
    exact absurd hv ((value_ne_none hasc).mpr hk)

/-- The keys are the paths to a final state. -/
theorem mem_keys_iff {k : Key} : k ∈ entries.map Prod.fst ↔
    a.walk a.getStartState k ≠ 0 ∧ a.isFinalState (a.walk a.getStartState k) = true := by
  constructor
  · intro hk
    have hw := walk_key_ne_zero hstart hstored hasc hreads hk
    obtain ⟨-, next, hnext, hs⟩ := reached hstart hstored hasc hreads hw
    obtain ⟨v, hv⟩ := Option.ne_none_iff_exists'.mp ((value_ne_none hasc).mpr hk)
    refine ⟨hw, ?_⟩
    rw [hnext]
    exact ((hs.final hreads v).mp (by rwa [Content.behind_value, List.append_nil])).1
  · rintro ⟨hw, hf⟩
    obtain ⟨-, next, hnext, hs⟩ := reached hstart hstored hasc hreads hw
    rw [hnext] at hf
    cases hs with
    | root has describes _ _ =>
      obtain ⟨v, hv⟩ := mem_labels.mp ((hreads _ _ has).final.mp hf)
      have hvalue := (describes.final v).mp hv
      rw [Content.behind_value, List.append_nil] at hvalue
      exact (value_ne_none hasc).mp (by rw [hvalue]; exact Option.some_ne_none v)

end Walks

/-- **A closed generator whose states are read holds its entries.** -/
theorem Closed.holds (h : Closed HasIn entries g)
    (hasc : entries.Pairwise fun e e' => e.1 < e'.1) (hnil : ∀ e ∈ entries, e.1 ≠ [])
    (hvalues : ∀ e ∈ entries, e.2.valueIdx < 2 ^ 64) (hwrites : g.Writes a)
    (hreads : ∀ u o, HasIn g.builder u o → Reads a u o) : Holds a (indexed entries) := by
  have hcount : a.numberOfKeys = (indexed entries).length := by
    rw [hwrites.numberOfKeys, h.count, indexed, List.length_map]
  have hkeys := keysOf_indexed entries
  by_cases hempty : entries = []
  · subst hempty
    exact holds_nil hcount
  have hstored := h.stored hempty
  have hstart : a.getStartState = g.startState.toNat := by
    rw [getStartState, if_pos, hwrites.startState]
    rw [hcount, indexed, List.length_map]
    exact (List.length_pos_of_ne_nil hempty).ne'
  refine ⟨?_, ?_, hcount, fun _ => ?_, fun k => ?_, fun e he => ?_, fun p hp c hc => ?_,
    fun p hne hp => ?_⟩
  · rw [hkeys]
    exact List.pairwise_map.mpr hasc
  · rw [hkeys]
    intro hm
    obtain ⟨e, he, heq⟩ := List.mem_map.mp hm
    exact hnil e he heq
  · rw [hwrites.startState]
    exact hstored.ne_zero hreads
  · rw [hkeys]
    exact mem_keys_iff hstart hstored hasc hreads
  · obtain ⟨⟨k, handle⟩, hm, rfl⟩ := List.mem_map.mp he
    have hk : k ∈ entries.map Prod.fst := List.mem_map_of_mem hm
    obtain ⟨-, next, hnext, hs⟩ := reached hstart hstored hasc hreads
      (walk_key_ne_zero hstart hstored hasc hreads hk)
    have hvalue := (value_ofEntries hasc).mpr ⟨handle, hm, rfl⟩
    have hread := ((hs.final hreads _).mp (by rwa [Content.behind_value, List.append_nil])).2
    show a.getStateValue (a.walk a.getStartState k) = handle.valueIdx
    rw [hnext, hread, BitVec.toNat_ofNat, Nat.mod_eq_of_lt (hvalues _ hm)]
  · obtain ⟨-, next, hnext, hs⟩ := reached hstart hstored hasc hreads hp
    rw [hnext] at hc ⊢
    obtain ⟨-, target, htarget, hchild⟩ := hs.child hreads (mem_outgoingLabels.mp hc)
    rw [htarget]
    exact hchild.ne_zero hreads
  · rw [hkeys]
    exact (reached hstart hstored hasc hreads hp).1.resolve_left hne

end Dictionary

/-- A generator that got a key starts at its start state. -/
theorem Closed.getStartState_eq (h : Closed HasIn entries g) (hne : entries ≠ [])
    (hwrites : g.Writes a) : a.getStartState = g.startState.toNat := by
  rw [getStartState, if_pos, hwrites.startState]
  rw [hwrites.numberOfKeys, h.count]
  exact (List.length_pos_of_ne_nil hne).ne'

/-- Two states have the same transitions. -/
def SameTransitions (u u' : UnpackedState) : Prop := ∀ x, x ∈ u.outgoing ↔ x ∈ u'.outgoing

/-- A state gets the offset of an equal one if there is one, and only then an offset in use. -/
structure Shared (Has : UnpackedState → BitVec 64 → Prop) : Prop where
  found : ∀ {u u' o o'}, Has u o → Has u' o' → SameTransitions u u' → o = o'
  equal : ∀ {u u' o}, Has u o → Has u' o → SameTransitions u u'

/-- What is stored is known from its offset. -/
theorem Stored.value_eq (hshared : Shared Has) (h : Stored Has t offset) :
    ∀ {t' : Content}, Stored Has t' offset → ∀ k, t.value k = t'.value k := by
  induction h with
  | @root t u offset has describes _ _ ih =>
    intro t' h' k
    cases h' with
    | @root _ u' _ has' describes' _ targets' =>
      have hsame := hshared.equal has has'
      cases k with
      | nil =>
        refine Option.ext fun v => ?_
        rw [← describes.final, ← describes'.final, hsame]
      | cons c k =>
        by_cases hc : ∃ v, ⟨c.val, v⟩ ∈ u.outgoing
        · obtain ⟨v, hv⟩ := hc
          exact ih c v hv (targets' c v ((hsame _).mp hv)) k
        · have hc' : ¬ ∃ v, ⟨c.val, v⟩ ∈ u'.outgoing := fun ⟨v, hv⟩ => hc ⟨v, (hsame _).mpr hv⟩
          rw [describes.labels] at hc
          rw [describes'.labels] at hc'
          push Not at hc hc'
          rw [hc k, hc' k]

end Generator

end Keyvi.Fsa
