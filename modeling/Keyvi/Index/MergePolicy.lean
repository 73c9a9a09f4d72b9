import Mathlib

/-!
# Merge policies

A policy looks at the segments in order, oldest first, and elects some of those that are not marked
for a merge already. The simple policy takes whatever is not marked; the tiered policy takes
adjacent segments only. What a policy asks a segment is a parameter: whether it is marked and
whether it has deleted keys. The score of a candidate is a floating point number, so the tiered
policy is stated for any comparison of two candidates.
-/

namespace Keyvi.Index

namespace SimpleMergePolicy

def maxSegmentPerMerge : Nat := 500

variable {S : Type} (markedForMerge hasDeletedKeys : S → Bool)

/-- The loop over the segments. -/
def collect (toMerge : List S) : List S → List S
  | [] => toMerge
  | s :: segments =>
    let toMerge := if markedForMerge s then toMerge else toMerge ++ [s]
    if toMerge.length > maxSegmentPerMerge then toMerge else collect toMerge segments

/-- `SimpleMergePolicy::SelectMergeSegments`. -/
def selectMergeSegments (segments : List S) : Option (List S) :=
  match collect markedForMerge [] segments with
  | [] => none
  | [s] => if hasDeletedKeys s then some [s] else none
  | toMerge => some toMerge

theorem collect_append : ∀ (acc segments : List S),
    ∃ l, collect markedForMerge acc segments = acc ++ l ∧ l.Sublist segments ∧
      ∀ s ∈ l, markedForMerge s = false
  | acc, [] => ⟨[], by simp [collect]⟩
  | acc, s :: segments => by
    rw [collect]
    cases hm : markedForMerge s with
    | true =>
      simp only [if_true]
      split
      · exact ⟨[], by simp⟩
      · obtain ⟨l, h, hl, hu⟩ := collect_append acc segments
        exact ⟨l, h, hl.cons s, hu⟩
    | false =>
      simp only [Bool.false_eq_true, if_false]
      split
      · exact ⟨[s], rfl, (List.nil_sublist segments).cons_cons s, by simpa using hm⟩
      · obtain ⟨l, h, hl, hu⟩ := collect_append (acc ++ [s]) segments
        exact ⟨s :: l, by simpa using h, hl.cons_cons s, by simpa [hm] using hu⟩

variable {markedForMerge hasDeletedKeys}

theorem collect_eq_of_length {segments : List S} {l : List S}
    (h : selectMergeSegments markedForMerge hasDeletedKeys segments = some l) :
    collect markedForMerge [] segments = l := by
  unfold selectMergeSegments at h
  split at h
  · cases h
  · next hs =>
    rw [hs]
    split at h
    · exact Option.some.inj h
    · cases h
  · exact Option.some.inj h

/-- The elected segments are some of the unmarked ones, in order. -/
theorem selectMergeSegments_sublist {segments l : List S}
    (h : selectMergeSegments markedForMerge hasDeletedKeys segments = some l) :
    l.Sublist segments ∧ l ≠ [] ∧ ∀ s ∈ l, markedForMerge s = false := by
  have hl := collect_eq_of_length h
  have hne : l ≠ [] := by
    rintro rfl
    simp [selectMergeSegments, hl] at h
  obtain ⟨l', hc, hs, hu⟩ := collect_append markedForMerge [] segments
  rw [hl, List.nil_append] at hc
  subst hc
  exact ⟨hs, hne, hu⟩

/-- No marked segment lies between two of the segments the policy takes. -/
def NoGap (markedForMerge : S → Bool) (segments : List S) : Prop :=
  ∀ pre m post, segments = pre ++ m :: post → markedForMerge m = true →
    (∀ s ∈ pre, markedForMerge s = true) ∨ (∀ s ∈ post, markedForMerge s = true) ∨
      maxSegmentPerMerge < (pre.filter fun s => !markedForMerge s).length

theorem collect_marked : ∀ {acc segments : List S}, (∀ s ∈ segments, markedForMerge s = true) →
    collect markedForMerge acc segments = acc
  | _, [], _ => rfl
  | acc, s :: segments, h => by
    rw [collect, if_pos (h s List.mem_cons_self)]
    split
    · rfl
    · exact collect_marked fun x hx => h x (List.mem_cons_of_mem _ hx)

/-- Once a segment has been taken, the rest is taken in order up to the first marked one. -/
theorem collect_isPrefix : ∀ (acc segments : List S),
    (∀ pre m post, segments = pre ++ m :: post → markedForMerge m = true →
      (∀ s ∈ post, markedForMerge s = true) ∨
        maxSegmentPerMerge < acc.length + (pre.filter fun s => !markedForMerge s).length) →
    ∃ l, collect markedForMerge acc segments = acc ++ l ∧ l <+: segments
  | acc, [], _ => ⟨[], by simp [collect]⟩
  | acc, s :: segments, h => by
    rw [collect]
    cases hm : markedForMerge s with
    | true =>
      refine ⟨[], ?_, List.nil_prefix⟩
      simp only [if_true, List.append_nil]
      split
      · rfl
      · next hlen =>
        rcases h [] s segments rfl hm with hpost | hlt
        · exact collect_marked hpost
        · exact absurd (by simpa using hlt) hlen
    | false =>
      simp only [Bool.false_eq_true, if_false]
      split
      · exact ⟨[s], rfl, ⟨segments, rfl⟩⟩
      · obtain ⟨l, hl, ⟨rest, hrest⟩⟩ := collect_isPrefix (acc ++ [s]) segments
          fun pre m post he hmarked => by
            rcases h (s :: pre) m post (by rw [he]; rfl) hmarked with hpost | hlt
            · exact .inl hpost
            · refine .inr ?_
              simp only [List.filter_cons, hm, Bool.not_false, if_true, List.length_cons] at hlt
              simp only [List.length_append, List.length_singleton]
              omega
        exact ⟨s :: l, by simpa using hl, ⟨rest, by rw [List.cons_append, hrest]⟩⟩

/-- Without a gap the simple policy elects adjacent segments. -/
theorem collect_adjacent : ∀ {segments : List S}, NoGap markedForMerge segments →
    collect markedForMerge [] segments <:+: segments
  | [], _ => List.nil_infix
  | s :: segments, h => by
    cases hm : markedForMerge s with
    | true =>
      have htail : NoGap markedForMerge segments := by
        intro pre m post he hmarked
        rcases h (s :: pre) m post (by rw [he]; rfl) hmarked with hpre | hpost | hlt
        · exact .inl fun x hx => hpre x (List.mem_cons_of_mem _ hx)
        · exact .inr (.inl hpost)
        · exact .inr (.inr (by simpa [List.filter_cons, hm] using hlt))
      rw [collect, if_pos hm]
      exact (collect_adjacent htail).trans (List.suffix_cons s segments).isInfix
    | false =>
      have hstep : collect markedForMerge [] (s :: segments) =
          collect markedForMerge [s] segments := by
        rw [collect]
        simp [hm, maxSegmentPerMerge]
      rw [hstep]
      obtain ⟨l, hl, ⟨rest, hrest⟩⟩ := collect_isPrefix [s] segments
        fun pre m post he hmarked => by
          rcases h (s :: pre) m post (by rw [he]; rfl) hmarked with hpre | hpost | hlt
          · exact absurd (hpre s List.mem_cons_self) (by simp [hm])
          · exact .inl hpost
          · refine .inr ?_
            simp only [List.filter_cons, hm, Bool.not_false, if_true, List.length_cons] at hlt
            simp only [List.length_singleton]
            omega
      rw [hl]
      exact ⟨[], rest, by simp [hrest]⟩

end SimpleMergePolicy

namespace TieredMergePolicy

def maxSegmentPerMerge : Nat := 20

variable {S : Type} (markedForMerge hasDeletedKeys : S → Bool) (better : List S → List S → Bool)

/-- The inner loop: the segments from here on, up to a marked one. -/
def candidate (acc : List S) : List S → List S
  | [] => acc
  | s :: segments =>
    if markedForMerge s then acc
    else
      let acc := acc ++ [s]
      if acc.length = maxSegmentPerMerge then acc else candidate acc segments

/-- The outer loop over the start index; an empty `best` is a best score of -1. -/
def bestCandidate (best : List S) : List S → List S
  | [] => best
  | s :: segments =>
    match candidate markedForMerge [] (s :: segments) with
    | [] => bestCandidate best segments
    | c :: cs =>
      if cs.isEmpty && !hasDeletedKeys c then bestCandidate best segments
      else if best.isEmpty || better (c :: cs) best then bestCandidate (c :: cs) segments
      else bestCandidate best segments

/-- `TieredMergePolicy::SelectMergeSegments`. -/
def selectMergeSegments (segments : List S) : Option (List S) :=
  match bestCandidate markedForMerge hasDeletedKeys better [] segments with
  | [] => none
  | best => some best

theorem candidate_eq_append : ∀ (acc segments : List S), ∃ l,
    candidate markedForMerge acc segments = acc ++ l ∧ l <+: segments ∧
      ∀ s ∈ l, markedForMerge s = false
  | acc, [] => ⟨[], by simp [candidate]⟩
  | acc, s :: segments => by
    rw [candidate]
    cases hm : markedForMerge s with
    | true => exact ⟨[], by simp⟩
    | false =>
      simp only [Bool.false_eq_true, if_false]
      split
      · exact ⟨[s], rfl, ⟨segments, rfl⟩, by simpa using hm⟩
      · obtain ⟨l, h, ⟨rest, hl⟩, hu⟩ := candidate_eq_append (acc ++ [s]) segments
        refine ⟨s :: l, by simpa using h, ⟨rest, by rw [List.cons_append, hl]⟩, ?_⟩
        simpa [hm] using hu

theorem bestCandidate_adjacent {all : List S} : ∀ {best segments : List S},
    segments <:+ all → (best <:+: all ∧ ∀ s ∈ best, markedForMerge s = false) →
      bestCandidate markedForMerge hasDeletedKeys better best segments <:+: all ∧
        ∀ s ∈ bestCandidate markedForMerge hasDeletedKeys better best segments,
          markedForMerge s = false
  | best, [], _, hb => hb
  | best, s :: segments, hs, hb => by
    have hs' : segments <:+ all := (List.suffix_cons s segments).trans hs
    obtain ⟨l, h, hl, hu⟩ := candidate_eq_append markedForMerge [] (s :: segments)
    rw [List.nil_append] at h
    rw [bestCandidate, h]
    cases l with
    | nil => exact bestCandidate_adjacent hs' hb
    | cons c cs =>
      simp only
      split
      · exact bestCandidate_adjacent hs' hb
      · split
        · exact bestCandidate_adjacent hs' ⟨hl.isInfix.trans hs.isInfix, hu⟩
        · exact bestCandidate_adjacent hs' hb

variable {markedForMerge hasDeletedKeys better}

/-- **The tiered policy elects adjacent segments**, all of them unmarked. -/
theorem selectMergeSegments_adjacent {segments l : List S}
    (h : selectMergeSegments markedForMerge hasDeletedKeys better segments = some l) :
    l <:+: segments ∧ l ≠ [] ∧ ∀ s ∈ l, markedForMerge s = false := by
  have hinf := bestCandidate_adjacent markedForMerge hasDeletedKeys better
    (List.suffix_refl segments) ⟨List.nil_infix, by simp⟩
  unfold selectMergeSegments at h
  split at h
  · cases h
  · next best hne =>
    obtain rfl := Option.some.inj h
    exact ⟨hinf.1, hne, hinf.2⟩

end TieredMergePolicy

end Keyvi.Index
