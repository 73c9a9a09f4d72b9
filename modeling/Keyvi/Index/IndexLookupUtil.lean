import Mathlib
import Keyvi.Matching.FuzzyDictionaries

/-!
# Fuzzy matching in the index

`GetFuzzy` of `base_index_reader.h` with the filters of `index_lookup_util.h`. The segments with a path
for the exact prefix are matched, zipped if there are several, and a match is dropped when its key is
deleted in the segment that it was found in.
-/

namespace Keyvi.Index

open Fsa Automata Fsa.Dictionary Utf8 Stringdistance Matching FuzzyMatching

section

variable {M : Type} (nextMatch : M → Option (Option Match × M))

/-- The loop of `NextFilteredMatch`, at most `rounds` rounds. -/
def nextUndeleted (isDeleted : Match → Bool) : Nat → M → Option (Option Match × M)
  | 0, _ => none
  | rounds + 1, matcher =>
    (nextMatch matcher).bind fun r =>
      match r.1 with
      | none => some (none, r.2)
      | some m => if isDeleted m then nextUndeleted isDeleted rounds r.2 else some (some m, r.2)

/-- The test for a deleted key, multi FSA case; `same` compares the pointers of two automata. -/
def isDeleted (same : Automata → Automata → Bool) (deletedKeysMap : List (Automata × List Key))
    (m : Match) : Bool :=
  match deletedKeysMap.find? fun dk => same dk.1 m.fsa with
  | none => false
  | some dk => dk.2.contains m.matchedString

end

section

variable {M : Type} {nextMatch : M → Option (Option Match × M)} {matcher : M} {l : List Match}

/-- The matcher returns the matches of a list one after the other. -/
inductive Emits (nextMatch : M → Option (Option Match × M)) : M → List Match → Prop
  | done {matcher matcher' : M} (h : nextMatch matcher = some (none, matcher')) :
      Emits nextMatch matcher []
  | next {matcher matcher' : M} {m : Match} {l : List Match}
      (h : nextMatch matcher = some (some m, matcher')) (hl : Emits nextMatch matcher' l) :
      Emits nextMatch matcher (m :: l)

theorem Emits.collect (h : Emits nextMatch matcher l) : ∀ {rounds : Nat} {m : Match},
    l.length + 1 < rounds →
      MatchIterator.collect nextMatch rounds ⟨some matcher, some m⟩ = some (m :: l) := by
  induction h with
  | done h =>
    intro rounds m hr
    obtain ⟨rounds, rfl⟩ := Nat.exists_eq_add_of_le' (show 2 ≤ rounds from hr)
    simp [MatchIterator.collect, MatchIterator.increment, h]
  | next h hl ih =>
    intro rounds m hr
    obtain ⟨rounds, rfl⟩ := Nat.exists_eq_add_of_le' (show 1 ≤ rounds by omega)
    rw [MatchIterator.collect]
    simp only [MatchIterator.increment, h, Option.map_some, Option.isSome_some, if_true,
      Option.bind_some]
    rw [ih (by rw [List.length_cons] at hr; omega), Option.map_some]

/-- One call of the filtered matcher, by induction on the matches that are left. -/
theorem Emits.nextUndeleted (isDeleted : Match → Bool) (h : Emits nextMatch matcher l) :
    ∀ {rounds : Nat}, l.length < rounds →
      match l.filter fun m => !isDeleted m with
      | [] => ∃ matcher', nextUndeleted nextMatch isDeleted rounds matcher = some (none, matcher')
      | m :: rest => ∃ matcher' l',
          nextUndeleted nextMatch isDeleted rounds matcher = some (some m, matcher') ∧
          Emits nextMatch matcher' l' ∧ (l'.filter fun m => !isDeleted m) = rest ∧
          l'.length < l.length := by
  induction h with
  | done h =>
    intro rounds hr
    obtain ⟨rounds, rfl⟩ := Nat.exists_eq_add_of_le' (show 1 ≤ rounds from hr)
    rw [List.filter_nil]
    exact ⟨_, by rw [Index.nextUndeleted, h]; rfl⟩
  | next h hl ih =>
    rename_i matcher matcher' m l
    intro rounds hr
    obtain ⟨rounds, rfl⟩ := Nat.exists_eq_add_of_le' (show 1 ≤ rounds by omega)
    rw [List.length_cons] at hr
    rw [Index.nextUndeleted, h, Option.bind_some]
    dsimp only
    cases hm : isDeleted m with
    | false =>
      rw [List.filter_cons_of_pos (by simp [hm]), if_neg Bool.false_ne_true]
      exact ⟨_, l, rfl, hl, rfl, Nat.lt_succ_self _⟩
    | true =>
      rw [List.filter_cons_of_neg (by simp [hm]), if_pos rfl]
      have hnext := ih (show l.length < rounds by omega)
      split at hnext
      · next hnil => exact hnext
      · next rest hcons =>
        obtain ⟨matcher'', l', h1, h2, h3, h4⟩ := hnext
        exact ⟨matcher'', l', h1, h2, h3, by rw [List.length_cons]; omega⟩

end

/-! ## The result -/

section

variable {segments : List (Fsa.Dictionary × List Key)} {u : Fsa.Dictionary} {q : List Char}
  {n dist : Nat} {same : Automata → Automata → Bool}

/-- The pointers to the automata of different segments differ. -/
structure PointersApart (same : Automata → Automata → Bool)
    (segments : List (Fsa.Dictionary × List Key)) : Prop where
  self : ∀ s ∈ segments, same s.1.1 s.1.1 = true
  apart : segments.Pairwise fun s s' => same s'.1.1 s.1.1 = false ∧ same s.1.1 s'.1.1 = false

theorem PointersApart.eq_of_same (h : PointersApart same segments) {s s' : Fsa.Dictionary × List Key}
    (hs : s ∈ segments) (hs' : s' ∈ segments) (hsame : same s'.1.1 s.1.1 = true) : s' = s := by
  by_contra hne
  have : Std.Symm fun s s' : Fsa.Dictionary × List Key =>
      same s'.1.1 s.1.1 = false ∧ same s.1.1 s'.1.1 = false := ⟨fun _ _ h => h.symm⟩
  have hapart := h.apart.forall hs hs' (Ne.symm hne)
  rw [hapart.1] at hsame
  cases hsame

end

end Keyvi.Index
