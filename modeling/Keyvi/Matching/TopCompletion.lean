import Mathlib
import Keyvi.Fsa.WeightedRefinement
import Keyvi.Library.TopQueue
import Keyvi.Matching.CompletionDictionaries

/-!
# The best completions

`Dictionary::GetPrefixCompletion` with a number of completions. A weighted traverser shows what lies
behind the query, and the functor of the iterator passes over matches that are lighter than the
lightest of the best weights so far. The match of the query itself is not compared.
-/

namespace Keyvi.Matching

open Fsa Automata Dictionary

/-- `fsa::WeightedStateTraverser`. -/
abbrev WeightedStateTraverser := StateTraverser WeightedTransition WeightedPayload

/-- `IntInnerWeightsValueStoreReader::GetWeight`: the value, cut to 32 bits. -/
def getWeight (fsaValue : Nat) : Nat := fsaValue % 2 ^ 32

/-- `Match::GetWeight`. -/
def Match.getWeight (m : Match) : Nat := Matching.getWeight m.stateValue

/-! ## `MatchIterator` -/

/-- `MatchIterator`. The functor is released when there is no more match. -/
structure MatchIterator (S : Type) where
  matchFunctor : Option S
  currentMatch : Option Match

namespace MatchIterator

variable {S : Type} (call : S → Option (Option Match × S))

/-- `increment`. -/
def increment (it : MatchIterator S) : Option (MatchIterator S) :=
  match it.matchFunctor with
  | none => some it
  | some s => (call s).map fun r => ⟨if r.1.isSome then some r.2 else none, r.1⟩

/-- `MatchIterator(match_functor, first_match)`. -/
def make (s : S) (firstMatch : Option Match) : Option (MatchIterator S) :=
  if firstMatch.isSome then some ⟨some s, firstMatch⟩ else increment call ⟨some s, none⟩

/-- The matches up to the end of the iterator, at most `rounds` of them. -/
def collect : Nat → MatchIterator S → Option (List Match)
  | 0, _ => none
  | rounds + 1, it =>
    match it.currentMatch with
    | none => some []
    | some m => ((increment call it).bind (collect rounds)).map (m :: ·)

end MatchIterator

/-! ## `GetPrefixCompletion` -/

/-- What the functor of `GetPrefixCompletion` holds: the matcher and the best weights. -/
structure BestMatches (T : Type) where
  data : PrefixCompletionMatching T
  bestWeights : List Nat

namespace BestMatches

variable {T : Type} [InnerTraverser T]

/-- The functor, at most `rounds` rounds of its loop. -/
def next (fuel : Nat) : Nat → BestMatches T → Option (Option Match × BestMatches T)
  | 0, _ => none
  | rounds + 1, s => do
    let r ← s.data.nextMatch fuel
    match r.1 with
    | none => some (none, { s with data := r.2 })
    | some m =>
      if TopQueue.admits s.bestWeights m.getWeight then
        some (some m, ⟨r.2, TopQueue.put m.getWeight s.bestWeights⟩)
      else next fuel rounds { s with data := r.2 }

end BestMatches

/-- `GetPrefixCompletion(query, top_n)`: what its iterators run through. -/
def getPrefixCompletion (fuel rounds : Nat) (fsa : Automata) (query : Key) (topN : Nat) :
    Option (List Match) :=
  if fsa.getStartState = 0 then some []
  else
    let data : PrefixCompletionMatching WeightedStateTraverser :=
      .fromSingleFsaAt fsa fsa.getStartState query
    -- The queue is filled with zeros.
    let bestWeights := List.replicate topN 0
    (MatchIterator.make (BestMatches.next fuel rounds) ⟨data, bestWeights⟩ data.firstMatch).bind
      (MatchIterator.collect (BestMatches.next fuel rounds) rounds)

/-! ## The iterator selects among the matches -/

section Select

variable {T : Type} [InnerTraverser T] {R : T → List (List Byte) → Prop}
  {final : List Byte → Bool} {found : List Byte → Automata × Nat} {query : Key} {fuel : Nat}

/-- The matches of the paths. -/
abbrev matchesOf (final : List Byte → Bool) (found : List Byte → Automata × Nat) (query : Key)
    (L : List (List Byte)) : List Match :=
  (L.filter final).map (PrefixCompletionMatching.matchOf found query)

/-- One call of the functor goes to the next match that is admitted. -/
theorem BestMatches.next_spec (hf : Follows R final found) :
    ∀ {rounds : Nat} {L : List (List Byte)} {s : BestMatches T}, L.length < fuel →
    L.length < rounds → PrefixCompletionMatching.Ready R query L s.data →
    (TopQueue.select Match.getWeight s.bestWeights (matchesOf final found query L) = [] ∧
        ∃ s', next fuel rounds s = some (none, s')) ∨
      ∃ x L' s', TopQueue.select Match.getWeight s.bestWeights (matchesOf final found query L) =
          x :: TopQueue.select Match.getWeight s'.bestWeights (matchesOf final found query L') ∧
        L'.length < L.length ∧ next fuel rounds s = some (some x, s') ∧
        PrefixCompletionMatching.Ready R query L' s'.data
  | rounds + 1, L, s, hfuel, hrounds, h => by
    rw [next]
    rcases PrefixCompletionMatching.nextMatch_spec hf hfuel h with
      ⟨hnil, m', hm⟩ | ⟨p, L', m', hL, hlen, hm, h'⟩
    · refine .inl ⟨?_, _, by rw [hm]; rfl⟩
      rw [matchesOf, hnil]
      rfl
    · rw [hm, matchesOf, hL, List.map_cons, TopQueue.select]
      simp only [Option.bind_eq_bind, Option.bind_some]
      by_cases ha : TopQueue.admits s.bestWeights
          (PrefixCompletionMatching.matchOf found query p).getWeight = true
      · rw [if_pos ha, if_pos ha]
        exact .inr ⟨_, L', _, rfl, hlen, rfl, h'⟩
      · rw [if_neg ha, if_neg ha]
        have hlen' : L'.length < rounds := by omega
        rcases next_spec hf (s := { s with data := m' }) (by omega) hlen' h' with
          h1 | ⟨x, L'', s', h1, h2, h3⟩
        · exact .inl h1
        · exact .inr ⟨x, L'', s', h1, by omega, h3⟩

/-- **The iterator runs through the matches that are admitted.** -/
theorem MatchIterator.collect_next (hf : Follows R final found) {n : Nat} :
    ∀ {rounds : Nat} {L : List (List Byte)} {s : BestMatches T}, L.length < fuel →
    L.length < n → L.length < rounds → PrefixCompletionMatching.Ready R query L s.data →
    ∀ c : Option Match,
    (increment (BestMatches.next fuel n) ⟨some s, c⟩).bind
        (collect (BestMatches.next fuel n) rounds) =
      some (TopQueue.select Match.getWeight s.bestWeights (matchesOf final found query L))
  | rounds + 1, L, s, hfuel, hn, hrounds, h, c => by
    rw [increment]
    rcases BestMatches.next_spec hf hfuel hn h with
      ⟨hnil, s', hs⟩ | ⟨x, L', s', hL, hlen, hs, h'⟩
    · rw [hnil]
      simp only [hs, Option.map_some, Option.bind_some]
      rfl
    · rw [hL]
      simp only [hs, Option.map_some, Option.bind_some, Option.isSome_some, if_true]
      rw [collect]
      simp only
      rw [collect_next hf (by omega) (by omega) (by omega) h' (some x)]
      rfl

/-- The first match is returned in front of them. -/
theorem MatchIterator.collect_make (hf : Follows R final found) {n rounds : Nat}
    {L : List (List Byte)} {s : BestMatches T} (hfuel : L.length < fuel) (hn : L.length < n)
    (hrounds : L.length + 1 < rounds) (h : PrefixCompletionMatching.Ready R query L s.data)
    (firstMatch : Option Match) :
    (make (BestMatches.next fuel n) s firstMatch).bind (collect (BestMatches.next fuel n) rounds) =
      some (firstMatch.toList ++
        TopQueue.select Match.getWeight s.bestWeights (matchesOf final found query L)) := by
  cases firstMatch with
  | none => exact collect_next hf hfuel hn (by omega) h none
  | some m =>
    obtain ⟨rounds, rfl⟩ : ∃ r, rounds = r + 1 := ⟨rounds - 1, by omega⟩
    rw [make, if_pos Option.isSome_some, Option.bind_some, collect]
    simp only
    rw [collect_next hf hfuel hn (by omega) h (some m)]
    rfl

end Select

/-! ## The weighted traverser follows the paths behind the query -/

section Weighted

variable {s : Source} {B : Nat} {p : List Byte}

/-- A source alone has the greatest weights. -/
theorem weightIn_alone (hm : s.meets p = true) :
    ∀ c ∈ s.listed p, weightIn [s] s p c = greatestWeight [s] (c :: p) := by
  intro c hc
  refine le_antisymm (greatestWeight_le.mp le_rfl s (List.mem_singleton_self s) hm hc) ?_
  refine greatestWeight_le.mpr fun s' hs' _ _ => ?_
  rw [List.mem_singleton.mp hs']

theorem meets_of_trailState (h : s.fsa.trailState s.start p ≠ 0) : s.meets p = true :=
  WeightedTraverser.meets_of_hasPath (decide_eq_true h)

/-- A weighted traverser shows the tree in the order of the weights. -/
theorem visits_weighted (hT : s.fsa.Tree s.start B) :
    Visits s.fsa s.start (weightedChildren [s] s) (commonTransition [s] s)
      WeightedTraverser.noMinimum where
  toWalks := WeightedTraverser.walks [s] s
  expand payload p c r hok hr := by
    have hne := (WeightedTraverser.walks [s] s).ne_zero p c (hr.subset List.mem_cons_self)
    refine ⟨_, payload, getOutGoingTransitions_own [s] s (c :: p) hok _, ?_, hok⟩
    exact ownTransitions_eq hT hne (weightIn_alone (meets_of_trailState hne))

/-- A traverser that starts at a state shows its tree. -/
theorem arrives_weighted (hT : s.fsa.Tree s.start B) (h0 : s.start ≠ 0) :
    Arrives s.fsa s.start B (weightedChildren [s] s) (commonTransition [s] s)
      WeightedTraverser.noMinimum (SingleTraverser.ofState s.fsa s.start : WeightedStateTraverser)
      (Preorder.subtree (weightedChildren [s] s) B []) := by
  have hB : Preorder.Bounded (weightedChildren [s] s) B := WeightedTraverser.bounded hT
  have hat : TraverserAt s.fsa s.start B (weightedChildren [s] s) (commonTransition [s] s)
      WeightedTraverser.noMinimum
      (StateTraverser.atState s.fsa s.start (s.fsa.getInnerWeight s.start) default) []
      (Preorder.subtree (weightedChildren [s] s) B []) := by
    refine ⟨rfl, rfl, h0, by simp, weightedChildren [s] s [], [],
      ⟨rfl, ?_, trivial, List.suffix_rfl, rfl, rfl⟩, (Preorder.pending_root hB).symm⟩
    have hown := getOutGoingTransitions_own [s] s [] (show (default : WeightedPayload).minWeight = 0
      from rfl) 0
    rw [← ownTransitions_eq hT (p := []) h0 (weightIn_alone rfl)]
    simp only [StateTraverser.atState, TraversalStack.getStates, Function.update_self]
    exact congrArg (fun r => r.1.transitions.drop r.1.position) hown
  exact hat.advance hB (visits_weighted hT)

end Weighted

/-! ## The completions of a dictionary -/

variable {d : Dictionary} {query : Key}

/-- The state behind the query. -/
def behind (d : Dictionary) (query : Key) : Source := ⟨0, d.1, stateAt d query⟩

/-- The paths behind the query, the heavier ones first. -/
def heaviestBehind (d : Dictionary) (query : Key) : List (List Byte) :=
  sortedTrails (weightedStep [behind d query]) (behind d query).hasPath (depthOf d.2)

theorem tree_behind (h : Holds d.1 d.2) (query : Key) :
    (behind d query).fsa.Tree (behind d query).start (depthOf d.2) :=
  h.tree_walk query

theorem mem_heaviestBehind (h : Holds d.1 d.2) {p : List Byte} :
    p ∈ heaviestBehind d query ↔ p ≠ [] ∧ d.1.trailState (stateAt d query) p ≠ 0 := by
  rw [heaviestBehind, mem_sortedTrails
    (fun q hq => WeightedTraverser.length_le_of_hasPath (tree_behind h query) hq)
    (fun p q hpq hq => Source.hasPath_of_suffix hpq hq), Source.hasPath, decide_eq_true_eq]
  rfl

theorem nodup_heaviestBehind (h : Holds d.1 d.2) : (heaviestBehind d query).Nodup := by
  refine (pairwise_sortedTrails (weightedStep_inj [behind d query])
    (fun q hq => WeightedTraverser.length_le_of_hasPath (tree_behind h query) hq)).imp ?_
  intro p q hlt he
  rw [he] at hlt
  exact lt_irrefl _ hlt

/-- The keys behind the query are the paths whose match is returned. -/
theorem mem_filter_heaviestBehind (h : Holds d.1 d.2) {p : List Byte} :
    p ∈ (heaviestBehind d query).filter (keyBehind d query) ↔
      p ≠ [] ∧ query ++ p.reverse ∈ keysOf d.2 := by
  rw [List.mem_filter, mem_heaviestBehind h, keyBehind, hasKey, decide_eq_true_eq, and_assoc]
  refine and_congr_right fun _ => and_iff_right_of_imp fun hk => ?_
  have hwalk := ((h.final _).mp hk).1
  rwa [walk_append, walk_reverse] at hwalk

/-- All matches behind the query. -/
def allBehind (d : Dictionary) (query : Key) : List Match :=
  matchesOf (keyBehind d query) (foundSingle d query) query (heaviestBehind d query)

theorem follows_weighted (h : Holds d.1 d.2) (query : Key) :
    Follows (fun (t : WeightedStateTraverser) L =>
        Arrives d.1 (stateAt d query) (depthOf d.2) (weightedChildren [behind d query]
          (behind d query)) (commonTransition [behind d query] (behind d query))
          WeightedTraverser.noMinimum t L)
      (keyBehind d query) (foundSingle d query) :=
  follows_of_visits h (WeightedTraverser.bounded (tree_behind h query)) nodup_sortedLabels
    (visits_weighted (tree_behind h query)) fun _ _ _ _ _ hok _ => hok

/-- Without a path for the query there are no matches. -/
theorem allBehind_eq_nil (h : Holds d.1 d.2) (h0 : stateAt d query = 0) :
    allBehind d query = [] := by
  have hnil : heaviestBehind d query = [] := by
    refine List.eq_nil_iff_forall_not_mem.mpr fun p hp => ?_
    have hne := ((mem_heaviestBehind h).mp hp).2
    rw [h0, ← walk_reverse, walk_zero] at hne
    exact hne rfl
  rw [allBehind, matchesOf, hnil]
  rfl

/-- **`GetPrefixCompletion` runs through the match of the query and what its queue selects.** -/
theorem getPrefixCompletion_eq (h : Holds d.1 d.2) (query : Key) (n : Nat) {fuel rounds : Nat}
    (hf : (heaviestBehind d query).length < fuel)
    (hr : (heaviestBehind d query).length + 1 < rounds) :
    getPrefixCompletion fuel rounds d.1 query n =
      some ((firstSingle d query query).toList ++
        TopQueue.select Match.getWeight (List.replicate n 0) (allBehind d query)) := by
  by_cases h0 : stateAt d query = 0
  · rw [firstSingle_eq_none h h0, allBehind_eq_nil h h0, getPrefixCompletion]
    split
    · rfl
    · next hs =>
      obtain ⟨fuel, rfl⟩ : ∃ k, fuel = k + 1 := ⟨fuel - 1, by omega⟩
      obtain ⟨rounds, rfl⟩ : ∃ k, rounds = k + 1 := ⟨rounds - 1, by omega⟩
      rw [PrefixCompletionMatching.fromSingleFsaAt, if_neg hs]
      simp only
      rw [if_pos (show d.1.walk d.1.getStartState query = 0 from h0)]
      rfl
  · rw [getPrefixCompletion, if_neg (start_ne_zero h0), PrefixCompletionMatching.fromSingleFsaAt,
      if_neg (start_ne_zero h0)]
    simp only
    rw [if_neg (show d.1.walk d.1.getStartState query ≠ 0 from h0)]
    have hcontinues : Preorder.Continues [] (heaviestBehind d query) :=
      Preorder.continues_subtree (WeightedTraverser.bounded (tree_behind h query))
    rw [MatchIterator.collect_make (follows_weighted h query) hf (by omega) hr
      ⟨⟨_, rfl, arrives_weighted (tree_behind h query) h0⟩, ⟨[], by simp, hcontinues⟩, rfl⟩,
      ← firstSingle_eq h h0]
    rfl

/-- The matches are keys that start with the query, each once and with its own value; a key that is
left out is lighter than `n` of them. The weight of a key is the one that `GetWeight` gives for it. -/
structure BestCompletions (d : Dictionary) (query : Key) (n : Nat) (ms : List Match) : Prop where
  starts : ∀ m ∈ ms, query <+: m.matchedString
  own : ∀ m ∈ ms, (m.matchedString, m.stateValue) ∈ d.2
  once : (ms.map Match.matchedString).Nodup
  best : ∀ e ∈ d.2, query <+: e.1 → e.1 ∉ ms.map Match.matchedString →
    n ≤ ms.countP fun m => getWeight e.2 < m.getWeight

theorem mem_allBehind (h : Holds d.1 d.2) {m : Match} (hm : m ∈ allBehind d query) :
    query <+: m.matchedString ∧ m.matchedString ≠ query ∧
      (m.matchedString, m.stateValue) ∈ d.2 := by
  obtain ⟨p, hp, rfl⟩ := List.mem_map.mp hm
  obtain ⟨hne, hk⟩ := (mem_filter_heaviestBehind h).mp hp
  refine ⟨List.prefix_append _ _, fun he => hne ?_, valueOf_mem h (decide_eq_true hk)⟩
  exact List.reverse_eq_nil_iff.mp (List.append_right_eq_self.mp he)

theorem mem_firstSingle (h : Holds d.1 d.2) {m : Match}
    (hm : m ∈ (firstSingle d query query).toList) :
    m.matchedString = query ∧ (m.matchedString, m.stateValue) ∈ d.2 := by
  rw [firstSingle] at hm
  split at hm
  · next hk =>
    obtain rfl := List.mem_singleton.mp hm
    exact ⟨rfl, valueOf_mem h hk⟩
  · cases hm

/-- The strings of the matches behind the query are different. -/
theorem nodup_allBehind (h : Holds d.1 d.2) :
    ((allBehind d query).map Match.matchedString).Nodup := by
  rw [allBehind, matchesOf, List.map_map]
  refine ((nodup_heaviestBehind h).filter _).map fun p q hpq => ?_
  exact List.reverse_injective (List.append_cancel_left hpq)

/-- Each key with the query is the match of the query or lies behind it. -/
theorem exists_match (h : Holds d.1 d.2) {e : Key × Nat} (he : e ∈ d.2) (hq : query <+: e.1) :
    e.1 ∈ ((firstSingle d query query).toList).map Match.matchedString ∨
      ∃ m ∈ allBehind d query, m.matchedString = e.1 ∧ m.getWeight = getWeight e.2 := by
  obtain ⟨k, v⟩ := e
  obtain ⟨w, rfl⟩ := hq
  have hkey : query ++ w ∈ keysOf d.2 := List.mem_map_of_mem he
  rcases eq_or_ne w [] with rfl | hne
  · refine .inl ?_
    rw [List.append_nil] at hkey ⊢
    rw [firstSingle, if_pos (show hasKey d query = true from decide_eq_true hkey)]
    simp [Match.make]
  · have hp : w.reverse ∈ (heaviestBehind d query).filter (keyBehind d query) := by
      rw [mem_filter_heaviestBehind h, List.reverse_reverse]
      exact ⟨List.reverse_ne_nil_iff.mpr hne, hkey⟩
    refine .inr ⟨_, List.mem_map_of_mem hp, ?_, ?_⟩
    · show query ++ w.reverse.reverse = query ++ w
      rw [List.reverse_reverse]
    · show getWeight (valueOf d (query ++ w.reverse.reverse)) = getWeight v
      rw [List.reverse_reverse, valueOf_eq h he]

/-- **The best completions.** The iterator ends; it has passed over keys only that are lighter than
`n` of those it returned. -/
theorem getPrefixCompletion_best (h : Holds d.1 d.2) (query : Key) (n : Nat) (hn : 1 ≤ n) :
    ∃ ms, (∃ N, ∀ fuel rounds, N ≤ fuel → N ≤ rounds →
        getPrefixCompletion fuel rounds d.1 query n = some ms) ∧
      BestCompletions d query n ms := by
  have hsub := TopQueue.select_sublist Match.getWeight (allBehind d query) (List.replicate n 0)
  refine ⟨_, ⟨(heaviestBehind d query).length + 2, fun fuel rounds hf hr =>
    getPrefixCompletion_eq h query n (by omega) (by omega)⟩, ⟨?_, ?_, ?_, ?_⟩⟩
  · intro m hm
    rcases List.mem_append.mp hm with hm | hm
    · rw [(mem_firstSingle h hm).1]
    · exact (mem_allBehind h (hsub.subset hm)).1
  · intro m hm
    rcases List.mem_append.mp hm with hm | hm
    · exact (mem_firstSingle h hm).2
    · exact (mem_allBehind h (hsub.subset hm)).2.2
  · rw [List.map_append, List.nodup_append]
    refine ⟨?_, (nodup_allBehind h).sublist (hsub.map _), ?_⟩
    · rw [firstSingle]
      split
      · exact List.nodup_singleton _
      · exact List.nodup_nil
    · intro k hk k' hk' he
      obtain ⟨m, hm, rfl⟩ := List.mem_map.mp hk
      obtain ⟨m', hm', rfl⟩ := List.mem_map.mp hk'
      rw [(mem_firstSingle h hm).1] at he
      exact (mem_allBehind h (hsub.subset hm')).2.1 he.symm
  · intro e he hq hout
    rw [List.map_append, List.mem_append, not_or] at hout
    obtain ⟨m, hm, hs, hweight⟩ := (exists_match h he hq).resolve_left hout.1
    have hleft : m ∉ TopQueue.select Match.getWeight (List.replicate n 0) (allBehind d query) :=
      fun hm' => hout.2 (hs ▸ List.mem_map_of_mem hm')
    have hcount := TopQueue.le_countP_of_left_out (by omega) hm hleft
    rw [hweight] at hcount
    exact hcount.trans ((List.sublist_append_right _ _).countP_le)

/-- With one place `61 63` is left out: its weight is 2 and that of `61 62` is 3. -/
theorem getPrefixCompletion_best_one :
    (getPrefixCompletion 9 9 keysABAC.1 [97] 1).map (fun ms => ms.map Match.completion) =
        some [⟨0, 2, [97, 98], 0, 3⟩] ∧
      ∃ ms, (∃ N, ∀ fuel rounds, N ≤ fuel → N ≤ rounds →
          getPrefixCompletion fuel rounds keysABAC.1 [97] 1 = some ms) ∧
        BestCompletions keysABAC [97] 1 ms :=
  ⟨by decide +kernel, getPrefixCompletion_best
    (holds_of_mem keysABAC (by simp)) [97] 1 le_rfl⟩

end Keyvi.Matching
