import Mathlib
import Keyvi.Matching.TopCompletion

/-!
# Looking up the words of a text

`Dictionary::Lookup` and `Dictionary::LookupText`. One lookup walks the text from an offset and
keeps the last final state that a space or the end of the text follows. The lookups behind all
spaces are chained in a queue of iterators.
-/

namespace Keyvi.Matching

open Fsa Automata Dictionary

/-- `' '`. -/
def SPACE : Byte := 32

/-! ## `Lookup` -/

/-- The loop of `Lookup` over the text behind the offset; `last` is the last final state and its
position. -/
def lookupLoop (fsa : Automata) : Key → Nat → Nat → Nat × Nat → Nat × Nat
  | [], _, _, last => last
  | c :: rest, i, state, last =>
    let state := fsa.tryWalkTransition state c
    if state = 0 then last
    else
      lookupLoop fsa rest (i + 1) state
        (if fsa.isFinalState state ∧ (rest = [] ∨ rest.head? = some SPACE) then (state, i + 1)
          else last)

/-- The match of `Lookup`. -/
def lookupMatch (fsa : Automata) (text : Key) (offset : Nat) : Option Match :=
  let last := lookupLoop fsa (text.drop offset) offset fsa.getStartState (0, 0)
  if last.1 ≠ 0 then
    some (.make offset last.2 ((text.drop offset).take (last.2 - offset)) 0 fsa
      (fsa.getStateValue last.1))
  else none

/-- `[]() { return match_t(); }`. -/
def noMatch (_ : Unit) : Option (Option Match × Unit) := some (none, ())

/-- `Lookup(text, offset).begin()`. -/
def lookup (fsa : Automata) (text : Key) (offset : Nat) : Option (MatchIterator Unit) :=
  MatchIterator.make noMatch () (lookupMatch fsa text offset)

/-! ## `LookupText` -/

/-- What the functor of `LookupText` holds. -/
structure TextLookups where
  iterators : List (MatchIterator Unit)
  currentIt : MatchIterator Unit

namespace TextLookups

/-- `while (iterators.size() && !*current_it)`. -/
def skip : List (MatchIterator Unit) → MatchIterator Unit → TextLookups
  | [], currentIt => ⟨[], currentIt⟩
  | it :: iterators, currentIt =>
    if currentIt.currentMatch.isNone then skip iterators it else ⟨it :: iterators, currentIt⟩

/-- The functor; `*current_it++` is the match before the increment. -/
def next (s : TextLookups) : Option (Option Match × TextLookups) :=
  let s := skip s.iterators s.currentIt
  (s.currentIt.increment noMatch).map fun it =>
    (s.currentIt.currentMatch, { s with currentIt := it })

end TextLookups

/-- The positions behind the spaces of the text that is left. -/
def behindSpaces : Key → Nat → List Nat
  | [], _ => []
  | c :: rest, position =>
    if c ≠ SPACE then behindSpaces rest (position + 1)
    else (position + 1) :: behindSpaces rest (position + 1)

/-- The offsets of the lookups. The loop begins at position 1. -/
def lookupOffsets (text : Key) : List Nat := 0 :: behindSpaces (text.drop 1) 1

/-- `LookupText`: what its iterators run through, at most `rounds` matches. -/
def lookupText (rounds : Nat) (fsa : Automata) (text : Key) : Option (List Match) := do
  match ← (lookupOffsets text).mapM (lookup fsa text) with
  | [] => none
  | currentIt :: iterators =>
    let it ← MatchIterator.make TextLookups.next ⟨iterators, currentIt⟩ none
    it.collect TextLookups.next rounds

/-! ## One lookup finds the longest key -/

section

variable {fsa : Automata}

/-- The walk ends in a final state, and a space or the end of the text follows. -/
structure Stops (fsa : Automata) (state : Nat) (q rest : Key) : Prop where
  walk : fsa.walk state q ≠ 0
  final : fsa.isFinalState (fsa.walk state q) = true
  boundary : rest = [] ∨ rest.head? = some SPACE

/-- The longest way to stop, which has at least one byte. -/
structure LongestStop (fsa : Automata) (state : Nat) (text q rest : Key) : Prop where
  split : text = q ++ rest
  ne_nil : q ≠ []
  stops : Stops fsa state q rest
  longest : ∀ q' rest', text = q' ++ rest' → q' ≠ [] → Stops fsa state q' rest' →
    q'.length ≤ q.length

theorem stops_cons {state : Nat} (h : state ≠ 0) {c : Byte} {q rest : Key} :
    Stops fsa state (c :: q) rest ↔ Stops fsa (fsa.tryWalkTransition state c) q rest := by
  have hwalk : fsa.walk state (c :: q) = fsa.walk (fsa.tryWalkTransition state c) q := by
    rw [walk, if_neg h]
  constructor
  · rintro ⟨h1, h2, h3⟩
    rw [hwalk] at h1 h2
    exact ⟨h1, h2, h3⟩
  · rintro ⟨h1, h2, h3⟩
    rw [← hwalk] at h1 h2
    exact ⟨h1, h2, h3⟩

theorem stops_nil {state : Nat} (h : state ≠ 0) {rest : Key} :
    Stops fsa state [] rest ↔
      fsa.isFinalState state = true ∧ (rest = [] ∨ rest.head? = some SPACE) :=
  ⟨fun hs => ⟨hs.final, hs.boundary⟩, fun hs => ⟨h, hs.1, hs.2⟩⟩

/-- By induction on the text: the last pair belongs to the longest way to stop. -/
theorem lookupLoop_spec : ∀ (text : Key) (i state : Nat) (last : Nat × Nat),
    (state = 0 → ∀ c, fsa.tryWalkTransition 0 c = 0) →
    (lookupLoop fsa text i state last = last ∧
      ∀ q rest, text = q ++ rest → q ≠ [] → ¬ Stops fsa state q rest) ∨
    ∃ q rest, LongestStop fsa state text q rest ∧
      lookupLoop fsa text i state last = (fsa.walk state q, i + q.length)
  | [], i, state, last, _ => by
    refine .inl ⟨rfl, fun q rest hs hne _ => hne ?_⟩
    exact (List.append_eq_nil_iff.mp hs.symm).1
  | c :: text, i, state, last, h0 => by
    rw [lookupLoop]
    by_cases hn : fsa.tryWalkTransition state c = 0
    · refine .inl ⟨if_pos hn, ?_⟩
      rintro (_ | ⟨d, q⟩) rest hs hne hstop
      · exact hne rfl
      · obtain rfl : c = d := (List.cons.inj hs).1
        apply hstop.walk
        rw [walk]
        split
        · rfl
        · rw [hn, walk_zero]
    have hstate : state ≠ 0 := by
      rintro rfl
      exact hn (h0 rfl c)
    have hwalk : ∀ q, fsa.walk state (c :: q) = fsa.walk (fsa.tryWalkTransition state c) q :=
      fun q => by rw [walk, if_neg hstate]
    simp only [if_neg hn]
    rcases lookupLoop_spec text (i + 1) (fsa.tryWalkTransition state c)
      (if fsa.isFinalState (fsa.tryWalkTransition state c) ∧
          (text = [] ∨ text.head? = some SPACE)
        then (fsa.tryWalkTransition state c, i + 1) else last)
      (fun h => absurd h hn) with ⟨heq, hnone⟩ | ⟨q, rest, hq, heq⟩
    · -- Nothing behind this byte stops.
      have hbehind : ∀ q rest, c :: text = q ++ rest → q ≠ [] → Stops fsa state q rest →
          q = [c] ∧ rest = text := by
        rintro (_ | ⟨d, _ | ⟨e, q⟩⟩) rest hs hne hstop
        · exact absurd rfl hne
        · obtain ⟨rfl, rfl⟩ := List.cons.inj hs
          exact ⟨rfl, rfl⟩
        · obtain ⟨rfl, hs'⟩ := List.cons.inj hs
          exact absurd ((stops_cons hstate).mp hstop) (hnone (e :: q) rest hs' (by simp))
      rw [heq]
      split
      case isTrue hfinal =>
        refine .inr ⟨[c], text, ⟨rfl, by simp, ?_, ?_⟩, by rw [hwalk]; rfl⟩
        · exact (stops_cons hstate).mpr ((stops_nil hn).mpr hfinal)
        · intro q rest hs hne hstop
          rw [(hbehind q rest hs hne hstop).1]
      case isFalse hfinal =>
        refine .inl ⟨rfl, fun q rest hs hne hstop => hfinal ?_⟩
        obtain ⟨rfl, rfl⟩ := hbehind q rest hs hne hstop
        exact (stops_nil hn).mp ((stops_cons hstate).mp hstop)
    · refine .inr ⟨c :: q, rest, ⟨by rw [hq.split]; rfl, by simp,
        (stops_cons hstate).mpr hq.stops, ?_⟩, ?_⟩
      · rintro (_ | ⟨d, _ | ⟨e, q'⟩⟩) rest' hs hne hstop
        · simp
        · simp
        · obtain ⟨rfl, hs'⟩ := List.cons.inj hs
          have hle := hq.longest (e :: q') rest' hs' (by simp) ((stops_cons hstate).mp hstop)
          simpa using hle
      · rw [heq, hwalk, List.length_cons]
        congr 1
        omega

/-! ## The keys of a text -/

/-- What `SparseArrayPersistence` writes for an automaton without keys: the first two labels are
42, so that no label is found at offset 0. -/
def EmptyLabels (fsa : Automata) : Prop :=
  fsa.numberOfKeys = 0 → ∀ i < 256, fsa.labels i = if i < 2 then 42 else 0

/-- The key is in the text at the position and ends at a space or at the end of the text. -/
structure KeyAt (entries : List (Key × Nat)) (text : Key) (position : Nat) (e : Key × Nat) :
    Prop where
  mem : e ∈ entries
  occurs : e.1 <+: text.drop position
  boundary : position + e.1.length = text.length ∨
    text[position + e.1.length]? = some SPACE

/-- Position 0 and every position after a space. -/
def IsWordStart (text : Key) (position : Nat) : Prop :=
  position = 0 ∨ ∃ j, text[j]? = some SPACE ∧ position = j + 1

/-- The matches of a text: in the order of their positions, for every word start with a key the
longest one. -/
structure TextMatches (fsa : Automata) (entries : List (Key × Nat)) (text : Key)
    (ms : List Match) : Prop where
  ascending : ms.Pairwise fun m m' => m.start < m'.start
  sound : ∀ m ∈ ms, IsWordStart text m.start ∧ ∃ e, KeyAt entries text m.start e ∧
    (∀ e', KeyAt entries text m.start e' → e'.1.length ≤ e.1.length) ∧
    m = ⟨m.start, m.start + e.1.length, e.1, 0, fsa, e.2⟩
  complete : ∀ p, IsWordStart text p → (∃ e, KeyAt entries text p e) → ∃ m ∈ ms, m.start = p

variable {entries : List (Key × Nat)} {text : Key}

theorem tryWalkTransition_empty (h : EmptyLabels fsa) (h0 : fsa.numberOfKeys = 0) (c : Byte) :
    fsa.tryWalkTransition 0 c = 0 := by
  rw [tryWalkTransition, if_neg]
  rw [Nat.zero_add, h h0 c.val c.isLt]
  split
  case isTrue hc =>
    rintro rfl
    exact absurd hc (by decide)
  case isFalse hc =>
    rintro rfl
    exact hc (by decide)

theorem boundary_iff {position : Nat} {k rest : Key} (h : text.drop position = k ++ rest)
    (hk : k ≠ []) :
    (rest = [] ∨ rest.head? = some SPACE) ↔
      position + k.length = text.length ∨ text[position + k.length]? = some SPACE := by
  have hrest : rest = text.drop (position + k.length) := by
    rw [← List.drop_drop, h, List.drop_left]
  have hlen : k.length + rest.length = text.length - position := by
    rw [← List.length_append, ← h, List.length_drop]
  have hpos : 0 < k.length := List.length_pos_of_ne_nil hk
  have hend : rest = [] ↔ position + k.length = text.length := by
    rw [← List.length_eq_zero_iff]
    omega
  rw [hend, hrest, List.head?_drop]

/-- A key at a position is a way to stop there. -/
theorem keyAt_iff (h : Holds fsa entries) {position : Nat} {e : Key × Nat} :
    KeyAt entries text position e ↔ e ∈ entries ∧ ∃ rest, text.drop position = e.1 ++ rest ∧
      Stops fsa fsa.getStartState e.1 rest := by
  have hne : e ∈ entries → e.1 ≠ [] := by
    rintro hm heq
    exact h.nonempty (heq ▸ List.mem_map_of_mem hm)
  constructor
  · rintro ⟨hm, ⟨rest, hrest⟩, hb⟩
    have hf := (h.final e.1).mp (List.mem_map_of_mem hm)
    exact ⟨hm, rest, hrest.symm, hf.1, hf.2, (boundary_iff hrest.symm (hne hm)).mpr hb⟩
  · rintro ⟨hm, rest, hrest, hs⟩
    exact ⟨hm, ⟨rest, hrest.symm⟩, (boundary_iff hrest (hne hm)).mp hs.boundary⟩

/-- **One lookup finds the longest key at its offset.** -/
theorem lookupMatch_spec (h : Holds fsa entries) (h0 : EmptyLabels fsa) (text : Key)
    (offset : Nat) :
    (lookupMatch fsa text offset = none ∧ ∀ e, ¬ KeyAt entries text offset e) ∨
    ∃ e, KeyAt entries text offset e ∧
      (∀ e', KeyAt entries text offset e' → e'.1.length ≤ e.1.length) ∧
      lookupMatch fsa text offset = some ⟨offset, offset + e.1.length, e.1, 0, fsa, e.2⟩ := by
  have hstart : fsa.getStartState = 0 → ∀ c, fsa.tryWalkTransition 0 c = 0 := by
    intro hs
    refine tryWalkTransition_empty h0 ?_
    rw [h.count, h.eq_nil_of_start hs]
    rfl
  have hstop : ∀ e, KeyAt entries text offset e → ∃ rest, text.drop offset = e.1 ++ rest ∧
      e.1 ≠ [] ∧ Stops fsa fsa.getStartState e.1 rest := by
    intro e he
    obtain ⟨hm, rest, hs, hstop⟩ := (keyAt_iff h).mp he
    exact ⟨rest, hs, fun hnil => h.nonempty (hnil ▸ List.mem_map_of_mem hm), hstop⟩
  rcases lookupLoop_spec (text.drop offset) offset fsa.getStartState (0, 0) hstart with
    ⟨heq, hnone⟩ | ⟨q, rest, hq, heq⟩
  · refine .inl ⟨?_, fun e he => ?_⟩
    · rw [lookupMatch, heq]
      rfl
    · obtain ⟨rest, hs, hne, hstop⟩ := hstop e he
      exact hnone e.1 rest hs hne hstop
  · have hk : q ∈ keysOf entries := (h.final q).mpr ⟨hq.stops.walk, hq.stops.final⟩
    refine .inr ⟨(q, fsa.getStateValue (fsa.walk fsa.getStartState q)),
      (keyAt_iff h).mpr ⟨h.value_mem hk, rest, hq.split, hq.stops⟩, fun e he => ?_, ?_⟩
    · obtain ⟨rest', hs, hne, hstop⟩ := hstop e he
      exact hq.longest e.1 rest' hs hne hstop
    · rw [lookupMatch, heq, if_pos hq.stops.walk, Nat.add_sub_cancel_left, hq.split, List.take_left]
      rfl

/-! ## The queue of lookups -/

/-- The iterator of a lookup. -/
def lookupIterator (fsa : Automata) (text : Key) (offset : Nat) : MatchIterator Unit :=
  ⟨if (lookupMatch fsa text offset).isSome then some () else none, lookupMatch fsa text offset⟩

theorem lookup_eq (offset : Nat) :
    lookup fsa text offset = some (lookupIterator fsa text offset) := by
  rw [lookup, lookupIterator, MatchIterator.make]
  cases lookupMatch fsa text offset <;> rfl

theorem mapM_lookup (offsets : List Nat) :
    offsets.mapM (lookup fsa text) = some (offsets.map (lookupIterator fsa text)) := by
  induction offsets with
  | nil => rfl
  | cons offset offsets ih => simp [List.mapM_cons, lookup_eq, ih]

/-- The iterator whose match was returned is at its end. -/
theorem increment_noMatch (it : MatchIterator Unit)
    (h : it.matchFunctor = none → it.currentMatch = none) :
    it.increment noMatch = some ⟨none, none⟩ := by
  obtain ⟨_ | u, m⟩ := it
  · obtain rfl : m = none := h rfl
    rfl
  · rfl

theorem matchFunctor_lookupIterator (offset : Nat) :
    (lookupIterator fsa text offset).matchFunctor = none →
      (lookupIterator fsa text offset).currentMatch = none := by
  rw [lookupIterator]
  cases lookupMatch fsa text offset <;> simp

/-- By induction on the queue: the functor returns the first match in it. -/
theorem next_spec : ∀ (offsets : List Nat) (it : MatchIterator Unit),
    (it.matchFunctor = none → it.currentMatch = none) →
    (TextLookups.next ⟨offsets.map (lookupIterator fsa text), it⟩ =
        some (none, ⟨[], ⟨none, none⟩⟩) ∧
      it.currentMatch.toList ++ offsets.filterMap (lookupMatch fsa text) = []) ∨
    ∃ (m : Match) (rest : List Nat), TextLookups.next ⟨offsets.map (lookupIterator fsa text), it⟩ =
        some (some m, ⟨rest.map (lookupIterator fsa text), ⟨none, none⟩⟩) ∧
      it.currentMatch.toList ++ offsets.filterMap (lookupMatch fsa text) =
        m :: rest.filterMap (lookupMatch fsa text)
  | [], it, h => by
    rw [TextLookups.next]
    cases hc : it.currentMatch with
    | none => exact .inl ⟨by simp [TextLookups.skip, increment_noMatch it h, hc], rfl⟩
    | some m => exact .inr ⟨m, [], by simp [TextLookups.skip, increment_noMatch it h, hc], rfl⟩
  | offset :: offsets, it, h => by
    cases hc : it.currentMatch with
    | none =>
      have hskip : TextLookups.next ⟨(offset :: offsets).map (lookupIterator fsa text), it⟩ =
          TextLookups.next ⟨offsets.map (lookupIterator fsa text),
            lookupIterator fsa text offset⟩ := by
        simp [TextLookups.next, TextLookups.skip, hc]
      have hcur : (lookupIterator fsa text offset).currentMatch.toList ++
          offsets.filterMap (lookupMatch fsa text) =
          (offset :: offsets).filterMap (lookupMatch fsa text) := by
        rw [lookupIterator, List.filterMap_cons]
        cases lookupMatch fsa text offset <;> rfl
      have ih := next_spec offsets (lookupIterator fsa text offset)
        (matchFunctor_lookupIterator offset)
      rw [hskip, Option.toList_none, List.nil_append, ← hcur]
      exact ih
    | some m =>
      refine .inr ⟨m, offset :: offsets, ?_, rfl⟩
      simp [TextLookups.next, TextLookups.skip, hc, increment_noMatch it h]

/-- **The iterator runs through the matches of its queue.** -/
theorem collect_next : ∀ (rounds : Nat) (offsets : List Nat) (it : MatchIterator Unit)
    (c : Option Match), (it.matchFunctor = none → it.currentMatch = none) →
    (it.currentMatch.toList ++ offsets.filterMap (lookupMatch fsa text)).length < rounds →
    (MatchIterator.increment TextLookups.next
        ⟨some ⟨offsets.map (lookupIterator fsa text), it⟩, c⟩).bind
      (MatchIterator.collect TextLookups.next rounds) =
    some (it.currentMatch.toList ++ offsets.filterMap (lookupMatch fsa text))
  | rounds + 1, offsets, it, c, hit, hr => by
    rw [MatchIterator.increment]
    rcases next_spec offsets it hit with ⟨hnext, hnil⟩ | ⟨m, rest, hnext, hms⟩
    · rw [hnil]
      simp only [hnext, Option.map_some, Option.bind_some]
      rfl
    · rw [hms] at hr ⊢
      have ih := collect_next rounds rest ⟨none, none⟩ (some m) (fun _ => rfl)
        (by simpa using hr)
      simp only [hnext, Option.map_some, Option.bind_some, Option.isSome_some, if_true]
      rw [MatchIterator.collect]
      simp only
      rw [ih]
      rfl

theorem lookupText_eq (fsa : Automata) (text : Key) {rounds : Nat}
    (hr : (lookupOffsets text).length < rounds) :
    lookupText rounds fsa text = some ((lookupOffsets text).filterMap (lookupMatch fsa text)) := by
  have hlen := List.length_filterMap_le (lookupMatch fsa text) (lookupOffsets text)
  have hcur : (lookupIterator fsa text 0).currentMatch.toList ++
      (behindSpaces (text.drop 1) 1).filterMap (lookupMatch fsa text) =
      (lookupOffsets text).filterMap (lookupMatch fsa text) := by
    rw [lookupIterator, lookupOffsets, List.filterMap_cons]
    cases lookupMatch fsa text 0 <;> rfl
  have h := collect_next rounds (behindSpaces (text.drop 1) 1) (lookupIterator fsa text 0) none
    (matchFunctor_lookupIterator 0) (by rw [hcur]; omega)
  rw [hcur] at h
  rw [lookupText, mapM_lookup]
  exact h

/-! ## The word starts of a text -/

theorem mem_behindSpaces : ∀ {text : Key} {position p : Nat},
    p ∈ behindSpaces text position ↔ ∃ j, text[j]? = some SPACE ∧ p = position + j + 1
  | [], position, p => by simp [behindSpaces]
  | c :: text, position, p => by
    have ih : p ∈ behindSpaces text (position + 1) ↔
        ∃ j, text[j]? = some SPACE ∧ p = position + 1 + j + 1 := mem_behindSpaces
    have hshift : (∃ j, (c :: text)[j]? = some SPACE ∧ p = position + j + 1) ↔
        (c = SPACE ∧ p = position + 1) ∨
          ∃ j, text[j]? = some SPACE ∧ p = position + 1 + j + 1 := by
      constructor
      · rintro ⟨_ | j, hj, rfl⟩
        · exact .inl ⟨by simpa using hj, rfl⟩
        · exact .inr ⟨j, by simpa using hj, by omega⟩
      · rintro (⟨rfl, rfl⟩ | ⟨j, hj, rfl⟩)
        · exact ⟨0, by simp, rfl⟩
        · exact ⟨j + 1, by simpa using hj, by omega⟩
    rw [hshift, behindSpaces, ← ih]
    by_cases hc : c = SPACE <;> simp [hc]

theorem pairwise_behindSpaces : ∀ (text : Key) (position : Nat),
    (behindSpaces text position).Pairwise (· < ·)
  | [], _ => .nil
  | c :: text, position => by
    have ih := pairwise_behindSpaces text (position + 1)
    rw [behindSpaces]
    split
    · exact ih
    · refine List.pairwise_cons.mpr ⟨fun p hp => ?_, ih⟩
      obtain ⟨j, -, rfl⟩ := mem_behindSpaces.mp hp
      omega

/-- The loop misses the word start behind a space at the beginning. -/
theorem mem_lookupOffsets {p : Nat} :
    p ∈ lookupOffsets text ↔ IsWordStart text p ∧ p ≠ 1 := by
  rw [lookupOffsets, List.mem_cons, mem_behindSpaces, IsWordStart]
  constructor
  · rintro (rfl | ⟨j, hj, rfl⟩)
    · exact ⟨.inl rfl, by simp⟩
    · rw [List.getElem?_drop] at hj
      exact ⟨.inr ⟨1 + j, hj, rfl⟩, by omega⟩
  · rintro ⟨rfl | ⟨_ | j, hj, rfl⟩, hne⟩
    · exact .inl rfl
    · exact absurd rfl hne
    · refine .inr ⟨j, ?_, by omega⟩
      rwa [List.getElem?_drop, Nat.add_comm]

theorem pairwise_lookupOffsets (text : Key) : (lookupOffsets text).Pairwise (· < ·) := by
  refine List.pairwise_cons.mpr ⟨fun p hp => ?_, pairwise_behindSpaces _ _⟩
  obtain ⟨j, -, rfl⟩ := mem_behindSpaces.mp hp
  omega

/-- `LookupText` returns the matches of the text, given enough rounds. -/
def ReturnsMatches (fsa : Automata) (entries : List (Key × Nat)) (text : Key) : Prop :=
  ∃ ms, (∃ N, ∀ rounds, N ≤ rounds → lookupText rounds fsa text = some ms) ∧
    TextMatches fsa entries text ms

/-- What is returned are the matches at the offsets. -/
theorem returnsMatches_iff : ReturnsMatches fsa entries text ↔
    TextMatches fsa entries text ((lookupOffsets text).filterMap (lookupMatch fsa text)) := by
  constructor
  · rintro ⟨ms, ⟨N, hN⟩, hms⟩
    have h := hN (N + (lookupOffsets text).length + 1) (by omega)
    rw [lookupText_eq fsa text (by omega), Option.some_inj] at h
    rwa [h]
  · exact fun h => ⟨_, ⟨_, fun rounds hr => lookupText_eq fsa text hr⟩, h⟩

theorem start_lookupMatch {offset : Nat} {m : Match} (h : lookupMatch fsa text offset = some m) :
    m.start = offset := by
  rw [lookupMatch] at h
  split at h
  · obtain rfl := Option.some.inj h
    rfl
  · cases h

theorem start_mem_lookupOffsets {m : Match}
    (h : m ∈ (lookupOffsets text).filterMap (lookupMatch fsa text)) :
    m.start ∈ lookupOffsets text ∧ lookupMatch fsa text m.start = some m := by
  obtain ⟨offset, ho, hm⟩ := List.mem_filterMap.mp h
  rw [start_lookupMatch hm]
  exact ⟨ho, hm⟩

/-- **Looking up the words of a text.** `LookupText` returns the longest key of every word start
that has one, unless the text begins with a space and a key is behind it. -/
theorem lookupText_matches_iff (h : Holds fsa entries) (h0 : EmptyLabels fsa) (text : Key) :
    ReturnsMatches fsa entries text ↔
      ¬(text.head? = some SPACE ∧ ∃ e, KeyAt entries text 1 e) := by
  rw [returnsMatches_iff, List.head?_eq_getElem?]
  constructor
  · rintro hms ⟨hs, he⟩
    obtain ⟨m, hm, hstart⟩ := hms.complete 1 (.inr ⟨0, hs, rfl⟩) he
    have hmem := (start_mem_lookupOffsets hm).1
    rw [hstart] at hmem
    exact (mem_lookupOffsets.mp hmem).2 rfl
  · intro hno
    refine ⟨?_, fun m hm => ?_, fun p hp he => ?_⟩
    · refine List.pairwise_filterMap.mpr ((pairwise_lookupOffsets text).imp ?_)
      intro p q hpq m hm m' hm'
      rwa [start_lookupMatch hm, start_lookupMatch hm']
    · obtain ⟨ho, hm⟩ := start_mem_lookupOffsets hm
      refine ⟨(mem_lookupOffsets.mp ho).1, ?_⟩
      rcases lookupMatch_spec h h0 text m.start with ⟨hnone, -⟩ | ⟨e, he, hlong, heq⟩
      · rw [hnone] at hm
        cases hm
      · exact ⟨e, he, hlong, Option.some.inj (hm.symm.trans heq)⟩
    · have hne : p ≠ 1 := by
        rintro rfl
        refine hno ⟨?_, he⟩
        rcases hp with hp | ⟨j, hj, hp⟩
        · cases hp
        · obtain rfl : j = 0 := by omega
          exact hj
      rcases lookupMatch_spec h h0 text p with ⟨-, hnone⟩ | ⟨e, -, -, heq⟩
      · obtain ⟨e, he⟩ := he
        exact absurd he (hnone e)
      · exact ⟨_, List.mem_filterMap.mpr ⟨p, mem_lookupOffsets.mpr ⟨hp, hne⟩, heq⟩, rfl⟩

/-- The text `ab ab` begins with a key. -/
theorem lookupText_matches_two :
    ReturnsMatches keyAB.1 keyAB.2 [97, 98, 32, 97, 98] ↔
      ¬(([97, 98, 32, 97, 98] : Key).head? = some SPACE ∧
        ∃ e, KeyAt keyAB.2 [97, 98, 32, 97, 98] 1 e) :=
  lookupText_matches_iff (holds_of_mem keyAB (by simp)) (fun h => absurd h (by decide)) _

/-- In the text ` ab` the only key is not found. -/
theorem not_lookupText_matches : ¬ ReturnsMatches keyAB.1 keyAB.2 [32, 97, 98] := by
  intro h
  have hms := returnsMatches_iff.mp h
  have hnone : lookupMatch keyAB.1 [32, 97, 98] 0 = none :=
    Option.isNone_iff_eq_none.mp (by decide)
  have hnil : (lookupOffsets [32, 97, 98]).filterMap (lookupMatch keyAB.1 [32, 97, 98]) = [] := by
    rw [show lookupOffsets [32, 97, 98] = [0] by decide, List.filterMap_cons, hnone]
    rfl
  rw [hnil] at hms
  obtain ⟨m, hm, -⟩ := hms.complete 1 (.inr ⟨0, rfl, rfl⟩)
    ⟨([97, 98], 1), by decide, ⟨[], rfl⟩, .inl rfl⟩
  exact List.not_mem_nil hm

end

end Keyvi.Matching
