import Mathlib
import Keyvi.Fsa.ZipRefinement
import Keyvi.Matching.CompletionMatching

/-!
# What the completers return of a list of paths

A completer sees its traverser only through the paths it shows one after the other. For every
traverser that follows a list of paths the matches are a function of that list.
-/

namespace Keyvi.Matching

open Fsa InnerTraverser

/-- A traverser shows the paths of a list one after the other; `Prune` leaves out what lies below the
first. A path is final or not, and is found in some automaton with some value. -/
structure Follows {T : Type} [InnerTraverser T] (R : T → List (List Byte) → Prop)
    (final : List Byte → Bool) (found : List Byte → Automata × Nat) : Prop where
  exhausted : ∀ t, R t [] → alive t = false
  alive : ∀ t p L, R t (p :: L) → alive t = true
  nonempty : ∀ t p L, R t (p :: L) → p ≠ []
  depth : ∀ t p L, R t (p :: L) → getDepth t = p.length
  label : ∀ t p L, R t (p :: L) → ∀ c ∈ p.head?, getStateLabel t = c
  isFinal : ∀ t p L, R t (p :: L) → isFinalState t = final p
  finds : ∀ t p L, R t (p :: L) → final p = true → (getFsa t, getStateValue t) = found p
  next : ∀ t p L, R t (p :: L) → R (advance t) L
  skip : ∀ t p L, R t (p :: L) → R (advance (prune t)) (Move.skip.agenda (p :: L))

variable {T : Type} [InnerTraverser T] {R : T → List (List Byte) → Prop}
  {final : List Byte → Bool} {found : List Byte → Automata × Nat}

/-- The traversal stack at the next path. -/
theorem resize_stack {query : Key} {prev p : List Byte} {c : Byte} (h : p <:+ prev) :
    resize (query ++ prev.reverse) (query.length + (c :: p).length - 1) ++ [c] =
      query ++ (c :: p).reverse := by
  have htake := List.prefix_iff_eq_take.mp (List.reverse_prefix.mpr h)
  have hlen := h.length_le
  rw [List.length_reverse] at htake
  rw [resize_of_le (by simp only [List.length_append, List.length_reverse, List.length_cons]; omega),
    List.length_cons, show query.length + (p.length + 1) - 1 = query.length + p.length by omega,
    List.take_length_add_append, ← htake, List.reverse_cons, List.append_assoc]

/-! ## Prefix completion -/

namespace PrefixCompletionMatching

/-- The match of a path below the query. -/
def matchOf (found : List Byte → Automata × Nat) (query : Key) (p : List Byte) : Match :=
  .make 0 (query.length + p.length) (query ++ p.reverse) 0 (found p).1 (found p).2

/-- The matcher is at the first path of a list. -/
structure Ready (R : T → List (List Byte) → Prop) (query : Key) (L : List (List Byte))
    (m : PrefixCompletionMatching T) : Prop where
  traverser : ∃ t, m.traverser = some t ∧ R t L
  stack : ∃ prev, m.traversalStack = query ++ prev.reverse ∧ Preorder.Continues prev L
  prefixLength : m.prefixLength = query.length

/-- One call of `NextMatch` goes to the next final path. -/
theorem nextMatch_spec (hf : Follows R final found) {query : Key} :
    ∀ {fuel : Nat} {L : List (List Byte)} {m : PrefixCompletionMatching T}, L.length < fuel →
    Ready R query L m →
    (L.filter final = [] ∧ ∃ m', nextMatch fuel m = some (none, m')) ∨
      ∃ p L' m', L.filter final = p :: L'.filter final ∧ L'.length < L.length ∧
        nextMatch fuel m = some (some (matchOf found query p), m') ∧ Ready R query L' m'
  | fuel + 1, [], m, _, h => by
    obtain ⟨t, ht, hR⟩ := h.traverser
    refine .inl ⟨rfl, m, ?_⟩
    rw [nextMatch, ht]
    simp [hf.exhausted t hR]
  | fuel + 1, p :: L, m, hlen, h => by
    obtain ⟨t, ht, hR⟩ := h.traverser
    obtain ⟨prev, hs, hc⟩ := h.stack
    obtain ⟨c, p, rfl⟩ := List.exists_cons_of_ne_nil (hf.nonempty t _ L hR)
    have hstack : resize m.traversalStack (m.prefixLength + getDepth t - 1) ++ [getStateLabel t] =
        query ++ (c :: p).reverse := by
      rw [hs, h.prefixLength, hf.depth t _ L hR, hf.label t _ L hR c rfl]
      exact resize_stack hc.1
    have hready : Ready R query L { m with
        traversalStack := query ++ (c :: p).reverse
        traverser := some (advance t) } :=
      ⟨⟨_, rfl, hf.next t _ L hR⟩, ⟨_, rfl, hc.2⟩, h.prefixLength⟩
    rw [nextMatch, ht]
    simp only [hf.alive t _ L hR, if_true, hstack, hf.isFinal t _ L hR]
    by_cases hfin : final (c :: p) = true
    · refine .inr ⟨c :: p, L, _, List.filter_cons_of_pos hfin, by simp, ?_, hready⟩
      rw [if_pos hfin, matchOf, ← hf.finds t _ L hR hfin, h.prefixLength, hf.depth t _ L hR]
    · rw [if_neg hfin, List.filter_cons_of_neg hfin]
      have hlen' : L.length < fuel := by simpa using hlen
      rcases nextMatch_spec hf hlen' hready with h' | ⟨q, L', m', h1, h2, h3⟩
      · exact .inl h'
      · exact .inr ⟨q, L', m', h1, by simp only [List.length_cons]; omega, h3⟩

/-- **The matches are the final paths.** -/
theorem nextMatches_eq (hf : Follows R final found) {query : Key} {fuel : Nat} :
    ∀ {rounds : Nat} {L : List (List Byte)} {m : PrefixCompletionMatching T}, L.length < fuel →
    L.length < rounds → Ready R query L m →
    nextMatches fuel rounds m = some ((L.filter final).map (matchOf found query))
  | rounds + 1, L, m, hfuel, hrounds, h => by
    rw [nextMatches]
    rcases nextMatch_spec hf hfuel h with ⟨hnil, m', hm⟩ | ⟨p, L', m', hL, hlen, hm, h'⟩
    · rw [hm, hnil]
      rfl
    · rw [hm, hL]
      simp only [Option.bind_eq_bind, Option.bind_some]
      rw [nextMatches_eq hf (by omega) (by omega) h']
      rfl

end PrefixCompletionMatching

/-! ## Multiword completion -/

namespace MultiwordCompletionMatching

/-- The boundary at a path. -/
def boundaryOf (separator : Byte) (boundary : Nat) (p : List Byte) : Nat :=
  if p.head? = some separator then p.length
  else if p.length ≤ boundary then 0
  else boundary

/-- The paths that are returned, each with its boundary. -/
def scan (separator : Byte) (final : List Byte → Bool) (boundary : Nat) :
    List (List Byte) → List (List Byte × Nat)
  | [] => []
  | p :: L =>
    let b := boundaryOf separator boundary p
    if p.head? = some 0x20 ∧ b = 0 then scan separator final b (Move.skip.agenda (p :: L))
    else if final p then (p, b) :: scan separator final b L
    else scan separator final b L
termination_by L => L.length
decreasing_by
  · exact Nat.lt_succ_of_le (List.length_filter_le _ _)
  · simp
  · simp

/-- The string of a path below the query. -/
def strOf (queryBow : Key) (x : List Byte × Nat) : Key :=
  if 0 < x.2 then (queryBow ++ x.1.reverse).drop (queryBow.length + x.2)
  else queryBow ++ x.1.reverse

/-- The match of a path below the query. -/
def matchOf (found : List Byte → Automata × Nat) (queryBow : Key) (x : List Byte × Nat) : Match :=
  .make 0 (queryBow.length + x.1.length) (strOf queryBow x) 0 (found x.1).1 (found x.1).2

/-- The matcher is at the first path of a list. -/
structure Ready (R : T → List (List Byte) → Prop) (queryBow : Key) (separator : Byte)
    (boundary : Nat) (L : List (List Byte)) (m : MultiwordCompletionMatching T) : Prop where
  traverser : ∃ t, m.traverser = some t ∧ R t L
  stack : ∃ prev, m.traversalStack = queryBow ++ prev.reverse ∧ Preorder.Continues prev L
  prefixLength : m.prefixLength = queryBow.length
  separator : m.multiwordSeparator = separator
  boundary : m.multiwordBoundary = boundary
  nodup : L.Nodup

/-- One call of `NextMatch` goes to the next path that is returned. -/
theorem nextMatch_spec (hf : Follows R final found) {queryBow : Key} {separator : Byte} :
    ∀ {fuel boundary : Nat} {L : List (List Byte)} {m : MultiwordCompletionMatching T},
    L.length < fuel → Ready R queryBow separator boundary L m →
    (scan separator final boundary L = [] ∧ ∃ m', nextMatch fuel m = some (none, m')) ∨
      ∃ x b L' m', scan separator final boundary L = x :: scan separator final b L' ∧
        L'.length < L.length ∧
        nextMatch fuel m = some (some (matchOf found queryBow x), m') ∧
        Ready R queryBow separator b L' m'
  | fuel + 1, boundary, [], m, _, h => by
    obtain ⟨t, ht, hR⟩ := h.traverser
    refine .inl ⟨by rw [scan], m, ?_⟩
    rw [nextMatch, ht]
    simp [hf.exhausted t hR]
  | fuel + 1, boundary, p :: L, m, hlen, h => by
    obtain ⟨t, ht, hR⟩ := h.traverser
    obtain ⟨prev, hs, hc⟩ := h.stack
    have hlen' : L.length < fuel := by simpa using hlen
    have hboundary : m.boundaryAt t = boundaryOf separator boundary p := by
      obtain ⟨c, p, rfl⟩ := List.exists_cons_of_ne_nil (hf.nonempty t _ L hR)
      rw [boundaryAt, boundaryOf, hf.label t _ L hR c rfl, hf.depth t _ L hR, h.separator,
        h.boundary]
      simp
    have hspace : getStateLabel t = 0x20 ↔ p.head? = some 0x20 := by
      obtain ⟨c, p, rfl⟩ := List.exists_cons_of_ne_nil (hf.nonempty t _ L hR)
      rw [hf.label t _ L hR c rfl]
      simp
    have hstack : resize m.traversalStack (m.prefixLength + getDepth t - 1) ++ [getStateLabel t] =
        queryBow ++ p.reverse := by
      obtain ⟨c, p, rfl⟩ := List.exists_cons_of_ne_nil (hf.nonempty t _ L hR)
      rw [hs, h.prefixLength, hf.depth t _ L hR, hf.label t _ L hR c rfl]
      exact resize_stack hc.1
    have hready : Ready R queryBow separator (boundaryOf separator boundary p) L { m with
        traversalStack := queryBow ++ p.reverse
        traverser := some (advance t)
        multiwordBoundary := boundaryOf separator boundary p } :=
      ⟨⟨_, rfl, hf.next t _ L hR⟩, ⟨_, rfl, hc.2⟩, h.prefixLength, h.separator, rfl,
        h.nodup.of_cons⟩
    have hpruned : Ready R queryBow separator (boundaryOf separator boundary p)
        (Move.skip.agenda (p :: L)) { m with
        traverser := some (advance (prune t))
        multiwordBoundary := boundaryOf separator boundary p } := by
      have hp : p ∉ L := (List.nodup_cons.mp h.nodup).1
      exact ⟨⟨_, rfl, hf.skip t _ L hR⟩,
        ⟨prev, hs, hc.2.filter hc.1 List.suffix_rfl hp⟩, h.prefixLength, h.separator, rfl,
        h.nodup.of_cons.filter _⟩
    rw [nextMatch, ht, scan]
    simp only [hf.alive t _ L hR, if_true, hstack, hf.isFinal t _ L hR, hboundary, hspace]
    by_cases hsp : p.head? = some 0x20 ∧ boundaryOf separator boundary p = 0
    · -- A space in front of the separator: what lies below is not returned.
      rw [if_pos hsp, if_pos hsp]
      have hle : (Move.skip.agenda (p :: L)).length ≤ L.length := List.length_filter_le _ _
      have hlt : (Move.skip.agenda (p :: L)).length < fuel := by omega
      rcases nextMatch_spec hf hlt hpruned with h' | ⟨x, b, L', m', h1, h2, h3⟩
      · exact .inl h'
      · exact .inr ⟨x, b, L', m', h1, by simp only [List.length_cons]; omega, h3⟩
    · rw [if_neg hsp, if_neg hsp]
      by_cases hfin : final p = true
      · rw [if_pos hfin, if_pos hfin]
        refine .inr ⟨_, _, L, _, rfl, by simp, ?_, hready⟩
        rw [matchOf, matchStr, strOf, ← hf.finds t _ L hR hfin, h.prefixLength, hf.depth t _ L hR]
      · rw [if_neg hfin, if_neg hfin]
        rcases nextMatch_spec hf hlen' hready with h' | ⟨x, b, L', m', h1, h2, h3⟩
        · exact .inl h'
        · exact .inr ⟨x, b, L', m', h1, by simp only [List.length_cons]; omega, h3⟩

/-- **The matches are what the scan takes.** -/
theorem nextMatches_eq (hf : Follows R final found) {queryBow : Key} {separator : Byte}
    {fuel : Nat} : ∀ {rounds boundary : Nat} {L : List (List Byte)}
    {m : MultiwordCompletionMatching T}, L.length < fuel → L.length < rounds →
    Ready R queryBow separator boundary L m →
    nextMatches fuel rounds m =
      some ((scan separator final boundary L).map (matchOf found queryBow))
  | rounds + 1, boundary, L, m, hfuel, hrounds, h => by
    rw [nextMatches]
    rcases nextMatch_spec hf hfuel h with ⟨hnil, m', hm⟩ | ⟨x, b, L', m', hL, hlen, hm, h'⟩
    · rw [hm, hnil]
      rfl
    · rw [hm, hL]
      simp only [Option.bind_eq_bind, Option.bind_some]
      rw [nextMatches_eq hf (by omega) (by omega) h']
      rfl

end MultiwordCompletionMatching

end Keyvi.Matching
