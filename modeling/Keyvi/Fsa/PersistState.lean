import Mathlib
import Keyvi.Library.Run
import Keyvi.Fsa.SparseArrayBuilder

/-!
# Sharing of states

`PersistState`: a state is looked up in the hash table, and the offset of an equal one is taken
instead of writing it. What the table answers is an entry that was added and is equal; which ones it
has forgotten is left open.
-/

namespace Keyvi.Fsa

open UnpackedState SparseArrayBuilder

/-! ## Well-formed states -/

theorem RequestedPositions.has_set (r : RequestedPositions) (i : Fin 261) (j : Nat) :
    (r.set i).Has j ↔ r.Has j ∨ j = i := by
  unfold RequestedPositions.Has RequestedPositions.set
  simp only [BitVector.bit_set, Bool.or_eq_true, decide_eq_true_eq]
  have := i.isLt
  constructor
  · rintro ⟨hj, h | h⟩
    · exact .inl ⟨hj, h⟩
    · exact .inr h
  · rintro (⟨hj, h⟩ | rfl)
    · exact ⟨hj, .inl h⟩
    · exact ⟨this, .inr rfl⟩

theorem RequestedPositions.has_foldl_set {α : Type} (f : α → Fin 261) {j : Nat} :
    ∀ (l : List α) {r : RequestedPositions}, r.Has j → (l.foldl (fun r i => r.set (f i)) r).Has j
  | [], _, h => h
  | i :: l, r, h => has_foldl_set f l ((r.has_set (f i) j).mpr (.inl h))

namespace UnpackedState

/-- Every label is there at most once, and the position of a weight is reserved. -/
structure WellFormed (s : UnpackedState) : Prop where
  labels : (s.outgoing.map UnpackedTransition.label).Nodup
  bounded : ∀ t ∈ s.outgoing, t.label ≤ 256
  final : s.isFinal = true ↔ ∃ t ∈ s.outgoing, t.label = 256
  weight : 0 < s.weight → s.bitVector.Has 260

theorem wellFormed_new : new.WellFormed where
  labels := List.nodup_nil
  bounded _ h := absurd h List.not_mem_nil
  final := by simp [new]
  weight h := absurd h (lt_irrefl 0)

variable {s : UnpackedState}

theorem WellFormed.add (h : s.WellFormed) {label : Byte} (value : BitVec 64)
    (hlabel : ∀ t ∈ s.outgoing, t.label ≠ label) : (s.add label value).WellFormed where
  labels := by
    have hnew : label.val ∉ s.outgoing.map UnpackedTransition.label := by
      rintro hm
      obtain ⟨t, ht, he⟩ := List.mem_map.mp hm
      exact hlabel t ht he
    rw [UnpackedState.add, List.map_append, List.map_singleton, ← List.concat_eq_append]
    exact h.labels.concat hnew
  bounded t ht := by
    rcases List.mem_append.mp ht with ht | ht
    · exact h.bounded t ht
    · rw [List.mem_singleton.mp ht]
      exact label.isLt.le
  final := by
    have hne : label.val ≠ 256 := label.isLt.ne
    simp [UnpackedState.add, h.final, or_and_right, exists_or, hne]
  weight hw := (s.bitVector.has_set _ 260).mpr (.inl (h.weight hw))

theorem WellFormed.addFinalState (h : s.WellFormed) (value : BitVec 64) (hf : s.isFinal = false) :
    (s.addFinalState value).WellFormed where
  labels := by
    have hnew : 256 ∉ s.outgoing.map UnpackedTransition.label := by
      rintro hm
      obtain ⟨t, ht, he⟩ := List.mem_map.mp hm
      rw [h.final.mpr ⟨t, ht, he⟩] at hf
      cases hf
    rw [UnpackedState.addFinalState, List.map_append, List.map_singleton, ← List.concat_eq_append]
    exact h.labels.concat hnew
  bounded t ht := by
    rcases List.mem_append.mp ht with ht | ht
    · exact h.bounded t ht
    · rw [List.mem_singleton.mp ht]
  final := by simp [UnpackedState.addFinalState]
  weight hw := RequestedPositions.has_foldl_set _ _ (h.weight hw)

theorem WellFormed.updateWeightIfHigher (h : s.WellFormed) (weight : Nat) :
    (s.updateWeightIfHigher weight).WellFormed := by
  rw [UnpackedState.updateWeightIfHigher]
  split
  · exact ⟨h.labels, h.bounded, h.final, fun _ => (s.bitVector.has_set 260 260).mpr (.inr rfl)⟩
  · exact h

/-- A state has at most 257 transitions. -/
theorem WellFormed.length_le (h : s.WellFormed) : s.outgoing.length ≤ 257 := by
  have hsub : s.outgoing.map UnpackedTransition.label ⊆ List.range 257 := by
    intro label hl
    obtain ⟨t, ht, rfl⟩ := List.mem_map.mp hl
    rw [List.mem_range]
    exact Nat.lt_succ_of_le (h.bounded t ht)
  have hle := (h.labels.subperm hsub).length_le
  rwa [List.length_map, List.length_range] at hle

/-- Two states with the same transitions, values and presence of a weight. -/
structure Same (v u : UnpackedState) : Prop where
  transitions : ∀ t, t ∈ v.outgoing ↔ t ∈ u.outgoing
  final : v.isFinal = u.isFinal
  weight : 0 < v.weight ↔ 0 < u.weight

/-- The target that is read at a position. -/
def readTarget (o : ByteOrder) (p : SparseArrayPersistence) (position : Nat) : Option Nat :=
  (p.readTransitionValue o position).bind (p.resolveTransitionValue position)

/-- What is read at the labels of a state is its own. -/
structure Shows (o : ByteOrder) (p : SparseArrayPersistence) (offset : Nat) (v : UnpackedState) :
    Prop where
  transitions : ∀ label : Byte, p.readTransitionLabel (offset + label) = some label →
    ∃ t ∈ v.outgoing, t.label = label ∧ readTarget o p (offset + label) = some t.value.toNat
  final : p.readTransitionLabel (offset + 256) = some 1 →
    ∃ t ∈ v.outgoing, t.label = 256 ∧ p.readFinalValue offset = some t.value.toNat

theorem shows_iff (o : ByteOrder) (p : SparseArrayPersistence) (offset : Nat) (v : UnpackedState) :
    (∀ label : Byte, p.readTransitionLabel (offset + label) = some label →
      ∃ t ∈ v.outgoing, t.label = label ∧ readTarget o p (offset + label) = some t.value.toNat) ∧
    (p.readTransitionLabel (offset + 256) = some 1 →
      ∃ t ∈ v.outgoing, t.label = 256 ∧ p.readFinalValue offset = some t.value.toNat) ↔
    Shows o p offset v :=
  ⟨fun h => ⟨h.1, h.2⟩, fun h => ⟨h.transitions, h.final⟩⟩

instance decidableShows (o : ByteOrder) (p : SparseArrayPersistence) (offset : Nat)
    (v : UnpackedState) : Decidable (Shows o p offset v) :=
  decidable_of_iff _ (shows_iff o p offset v)

/-- The hash code tells apart two states of which only one has a weight. -/
def HashTells (hashBits : Nat) (v u : UnpackedState) : Prop :=
  (∀ t, t ∈ v.outgoing ↔ t ∈ u.outgoing) →
    v.getHashcode.toNat % 2 ^ hashBits = u.getHashcode.toNat % 2 ^ hashBits →
      (0 < v.weight ↔ 0 < u.weight)

variable {o : ByteOrder} {hashBits offset : Nat} {p : SparseArrayPersistence} {u v : UnpackedState}

/-- A transition that is found belongs to the state. -/
theorem Shows.mem (h : Shows o p offset v) {t : UnpackedTransition} (ht : t.label ≤ 256)
    (he : equalTransition o p offset t = some true) : t ∈ v.outgoing := by
  obtain ⟨label, value⟩ := t
  dsimp only at ht
  rw [equalTransition] at he
  obtain ⟨found, hfound, he⟩ := Option.bind_eq_some_iff.mp he
  dsimp only at hfound he
  split at he
  · next hlt =>
    split at he
    · cases he
    · next hlabel =>
      obtain ⟨pt, hpt, he⟩ := Option.bind_eq_some_iff.mp he
      obtain ⟨target, htarget, he⟩ := Option.bind_eq_some_iff.mp he
      have hvalue : value.toNat = target := by simpa using he
      have hl : found.val = label := not_not.mp hlabel
      obtain ⟨t, hm, htl, htv⟩ := h.transitions found (by rw [hl]; exact hfound)
      rw [hl, readTarget, hpt, Option.bind_some, htarget, Option.some.injEq, ← hvalue] at htv
      obtain ⟨tl, tv⟩ := t
      dsimp only at htl htv
      obtain rfl := BitVec.eq_of_toNat_eq htv
      obtain rfl : tl = label := htl.trans hl
      exact hm
  · next hge =>
    obtain rfl : label = 256 := by omega
    split at he
    · cases he
    · next hlabel =>
      obtain ⟨final, hfinal, he⟩ := Option.bind_eq_some_iff.mp he
      have hvalue : value.toNat = final := by simpa using he
      have hone : found = 1 := Fin.ext (not_not.mp hlabel)
      obtain ⟨t, hm, htl, htv⟩ := h.final (hone ▸ hfound)
      rw [hfinal, Option.some.injEq, ← hvalue] at htv
      obtain ⟨tl, tv⟩ := t
      dsimp only at htl htv
      obtain rfl := BitVec.eq_of_toNat_eq htv
      obtain rfl := htl
      exact hm

theorem equalTransitions_true : ∀ {ts : List UnpackedTransition},
    equalTransitions o p offset ts = some true →
      ∀ t ∈ ts, equalTransition o p offset t = some true
  | [], _, t, ht => absurd ht List.not_mem_nil
  | t₀ :: ts, h, t, ht => by
    rw [equalTransitions] at h
    obtain ⟨e, he, h⟩ := Option.bind_eq_some_iff.mp h
    cases e with
    | false => cases h
    | true =>
      rcases List.mem_cons.mp ht with rfl | ht
      · exact he
      · exact equalTransitions_true h t ht

/-- **An equal entry is the same state**, if its cells show it and the hash code tells of its
weight. -/
theorem Shows.same (h : Shows o p offset v) (hv : v.WellFormed) (hu : u.WellFormed)
    (htells : HashTells hashBits v u)
    (he : u.equals o hashBits p (v.pack hashBits offset) = some true) : Same v u := by
  rw [equals] at he
  split at he
  · cases he
  · next hpack =>
    obtain ⟨hhash, hlength⟩ := not_or.mp hpack
    have hsub : u.outgoing ⊆ v.outgoing := fun t ht =>
      h.mem (hu.bounded t ht) (equalTransitions_true he t ht)
    have hle : v.outgoing.length ≤ u.outgoing.length := by
      have hvl := hv.length_le
      have hmod : v.outgoing.length % 512 = u.outgoing.length := not_not.mp hlength
      omega
    have hperm : u.outgoing.Perm v.outgoing :=
      ((List.Nodup.of_map _ hu.labels).subperm hsub).perm_of_length_le hle
    have hmem : ∀ t, t ∈ v.outgoing ↔ t ∈ u.outgoing := fun t => hperm.mem_iff.symm
    refine ⟨hmem, ?_, htells hmem (not_not.mp hhash)⟩
    rw [Bool.eq_iff_iff, hv.final, hu.final]
    simp only [hmem]

end UnpackedState

/-! ## Runs -/

/-- A builder with its hash table. Beside each entry is the state that it was made for. -/
structure Build where
  builder : SparseArrayBuilder
  hashtable : List (PackedState × UnpackedState)

namespace Build

/-- Nothing is stored. -/
def new (memoryLimit : Nat) (innerWeight minimize : Bool) : Build :=
  ⟨.new (.new (persistenceMemoryLimit memoryLimit)) innerWeight minimize, []⟩

/-- A call of `PersistState`, with the entry that the hash table answers. -/
structure Call where
  state : UnpackedState
  existing : Option PackedState

variable (o : ByteOrder) (offsetBits hashBits : Nat)

/-- The hash table may answer with the entry. -/
def Answers (s : Build) (u : UnpackedState) (e : PackedState) : Prop :=
  u.noMinimizationCounter = 0 ∧ e ∈ s.hashtable.map Prod.fst ∧ HashEntry.isEmpty e = false ∧
    u.equals o hashBits s.builder.persistence e = some true

instance (s : Build) (u : UnpackedState) (e : PackedState) :
    Decidable (s.Answers o hashBits u e) :=
  inferInstanceAs (Decidable (_ ∧ _))

/-- `PersistState`: the offset, and what is stored then. -/
def persistState (s : Build) : Call → Option (Nat × Build)
  | ⟨u, some e⟩ =>
    if s.Answers o hashBits u e then
      if 0 < u.weight then
        (s.builder.updateWeightIfNeeded o e.offset u.weight).map fun b =>
          (e.offset, { s with builder := b })
      else some (e.offset, s)
    else none
  | ⟨u, none⟩ =>
    (s.builder.persistNew o offsetBits u).map fun (offset, u, b) =>
      if b.minimize && (b.numberOfStates < 1000000 || u.noMinimizationCounter < 8) then
        (offset, ⟨b, (u.pack hashBits offset, u) :: s.hashtable⟩)
      else (offset, { s with builder := b })

/-- One call. -/
def step (s : Build) (c : Call) : Option Build :=
  (s.persistState o offsetBits hashBits c).map Prod.snd

/-- The condition on a call: the state is well-formed, and the state that is found is shown by its
cells and told apart by the hash code. -/
def CallOk (s : Build) (c : Call) : Prop :=
  c.state.WellFormed ∧ ∀ entry ∈ s.hashtable, c.existing = some entry.1 →
    Shows o s.builder.persistence entry.1.offset entry.2 ∧ HashTells hashBits entry.2 c.state

/-- The entries are those of well-formed states. -/
def Recorded (s : Build) : Prop :=
  ∀ entry ∈ s.hashtable, entry.2.WellFormed ∧ entry.1 = entry.2.pack hashBits entry.1.offset

end Build

namespace SparseArrayBuilder

variable {b : SparseArrayBuilder} {u : UnpackedState} {offsetBits : Nat}

/-- What a search finds is found in one of its rounds. -/
theorem search_found {α : Type} {round : Nat → Option (Probe α)} {P : α → Prop}
    (hround : ∀ start a, round start = some (.found a) → P a) :
    ∀ {rounds start : Nat} {a : α}, search round rounds start = some a → P a
  | 0, _, _, h => by cases h
  | rounds + 1, start, a, h => by
    rw [search] at h
    obtain ⟨probe, hprobe, h⟩ := Option.bind_eq_some_iff.mp h
    cases probe with
    | next next => exact search_found hround h
    | found a' =>
      obtain rfl := Option.some.inj h
      exact hround start _ hprobe

/-- Only the scrambled zero byte of the state is set. -/
def Placed (u u' : UnpackedState) : Prop :=
  ∃ zerobyteState zerobyteLabel, u' = { u with
    zerobyteState := zerobyteState
    zerobyteLabel := zerobyteLabel }

theorem probeBucket_found {first start : Nat} {r : Nat × UnpackedState}
    (h : b.probeBucket offsetBits u first start = some (.found r)) : Placed u r.2 := by
  rw [probeBucket] at h
  obtain ⟨free, -, h⟩ := Option.bind_eq_some_iff.mp h
  dsimp only at h
  split at h
  · cases h
  split at h
  · cases h
  split at h
  · split at h
    · cases h
    · split at h
      · obtain ⟨free', -, h⟩ := Option.bind_eq_some_iff.mp h
        split at h
        · cases h
        · split at h
          · cases h
          · cases h
            exact ⟨_, _, rfl⟩
      · cases h
        exact ⟨_, _, rfl⟩
  · cases h

theorem findFreeBucket_placed {r : Nat × UnpackedState}
    (h : b.findFreeBucket offsetBits u = some r) : Placed u r.2 := by
  rw [findFreeBucket] at h
  obtain ⟨first, -, h⟩ := Option.bind_eq_some_iff.mp h
  obtain ⟨free, -, h⟩ := Option.bind_eq_some_iff.mp h
  exact search_found (P := fun r => Placed u r.2) (fun _ _ => probeBucket_found) h

theorem Placed.wellFormed {u' : UnpackedState} (h : Placed u u') (hu : u.WellFormed) :
    u'.WellFormed := by
  obtain ⟨z, l, rfl⟩ := h
  exact ⟨hu.labels, hu.bounded, hu.final, hu.weight⟩

end SparseArrayBuilder

namespace Build

variable {o : ByteOrder} {offsetBits hashBits : Nat} {s s' : Build} {c : Call}

theorem Recorded.persistState (h : Recorded hashBits s) (hc : c.state.WellFormed) {offset : Nat}
    (hs : s.persistState o offsetBits hashBits c = some (offset, s')) : Recorded hashBits s' := by
  obtain ⟨u, existing⟩ := c
  cases existing with
  | some e =>
    rw [Build.persistState] at hs
    split at hs
    · split at hs
      · obtain ⟨b, -, hb⟩ := Option.map_eq_some_iff.mp hs
        cases hb
        exact h
      · cases hs
        exact h
    · cases hs
  | none =>
    rw [Build.persistState] at hs
    obtain ⟨⟨offset', u', b⟩, hb, hs⟩ := Option.map_eq_some_iff.mp hs
    rw [persistNew] at hb
    obtain ⟨⟨offset₁, u₁⟩, hfind, hb⟩ := Option.bind_eq_some_iff.mp hb
    obtain ⟨b₁, -, hb⟩ := Option.bind_eq_some_iff.mp hb
    cases hb
    have hu₁ : u'.WellFormed := (findFreeBucket_placed hfind).wellFormed
      ⟨hc.labels, hc.bounded, hc.final, hc.weight⟩
    dsimp only at hs
    split at hs
    · cases hs
      intro entry hentry
      rcases List.mem_cons.mp hentry with rfl | hentry
      · exact ⟨hu₁, rfl⟩
      · exact h entry hentry
    · cases hs
      exact h

end Build

end Keyvi.Fsa
