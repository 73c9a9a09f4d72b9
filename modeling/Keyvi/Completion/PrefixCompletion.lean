import Mathlib
import Keyvi.Fsa.BoundedWeightedStateTraverser
import Keyvi.Matching.TopCompletion

/-!
# Completion with a bounded traverser

`PrefixCompletion::GetCompletions`. Every transition that the traverser counts stands for a key of its
own, so what is left out is lighter than enough keys. The traverser does not take the label 0.
-/

namespace Keyvi.Completion

open Fsa Automata Dictionary Matching BoundedWeightedStateTraverser

/-- The loop along the query: the state and the depth at its end. -/
def walkQuery (fsa : Automata) : Nat → Key → Nat → Nat × Nat
  | state, [], depth => (state, depth)
  | state, c :: query, depth =>
    if state = 0 then (state, depth)
    else walkQuery fsa (fsa.tryWalkTransition state c) query (depth + 1)

/-- `delegate_payload`. -/
structure DelegatePayload where
  traverser : BoundedWeightedStateTraverser
  traversalStack : List Byte

/-- `tfunc`, at most `fuel` rounds of its loop. -/
def tfunc (sort : List (Nat × Byte) → List (Nat × Byte)) (queryLength : Nat) :
    Nat → DelegatePayload → Option (Option Match × DelegatePayload)
  | 0, _ => none
  | fuel + 1, data =>
    let t := data.traverser
    if t.atEnd then some (none, data)
    else
      let stack := resize data.traversalStack (queryLength + t.currentDepth - 1) ++ [t.currentLabel]
      let next : DelegatePayload := ⟨t.advance sort, stack⟩
      if t.fsa.isFinalState t.currentState then
        let matchStr := stack.take (queryLength + t.currentDepth)
        some (some (.make 0 (t.currentDepth + queryLength) matchStr 0 t.fsa
          (t.fsa.getStateValue t.currentState)), next)
      else tfunc sort queryLength fuel next

/-- `GetCompletions`: what its iterators run through. -/
def getCompletions (sort : List (Nat × Byte) → List (Nat × Byte)) (fuel rounds : Nat)
    (fsa : Automata) (query : Key) (numberOfResults : Nat) : Option (List Match) :=
  let (state, depth) := walkQuery fsa fsa.getStartState query 0
  if depth = query.length then
    let data : DelegatePayload := ⟨.ofState sort fsa state numberOfResults, query⟩
    let firstMatch :=
      if fsa.isFinalState state then
        some (Match.make 0 query.length query 0 fsa (fsa.getStateValue state))
      else none
    (MatchIterator.make (tfunc sort query.length fuel) data firstMatch).bind
      (MatchIterator.collect (tfunc sort query.length fuel) rounds)
  else some []

section

variable {a : Automata} {s₀ : Nat} {sort : List (Nat × Byte) → List (Nat × Byte)}

/-- The loop reaches the end of the query if there is a way along all but its last byte. -/
theorem walkQuery_depth (fsa : Automata) : ∀ (query : Key) (state depth : Nat),
    (walkQuery fsa state query depth).2 = depth + query.length ↔
      (query = [] ∨ fsa.walk state query.dropLast ≠ 0)
  | [], state, depth => by simp [walkQuery]
  | [c], state, depth => by
    rw [walkQuery]
    by_cases h : state = 0
    · simp [h]
    · simp [h, walk, walkQuery]
  | c :: d :: query, state, depth => by
    rw [walkQuery]
    by_cases h : state = 0
    · simp [h]
    · have ih := walkQuery_depth fsa (d :: query) (fsa.tryWalkTransition state c) (depth + 1)
      have hlen : depth + (c :: d :: query).length = depth + 1 + (d :: query).length := by
        simp only [List.length_cons]
        omega
      rw [if_neg h, hlen, ih, List.dropLast_cons_cons, walk, if_neg h]
      simp

theorem walkQuery_state (fsa : Automata) : ∀ (query : Key) (state depth : Nat),
    (walkQuery fsa state query depth).1 = fsa.walk state query
  | [], state, depth => rfl
  | c :: query, state, depth => by
    rw [walkQuery, walk]
    by_cases h : state = 0
    · rw [if_pos h, if_pos h, h]
    · rw [if_neg h, if_neg h, walkQuery_state fsa query]

/-! ## The iterator runs through what the traverser visits -/

/-- The path is a key. -/
def finalAt (a : Automata) (s₀ : Nat) (p : List Byte) : Bool := a.isFinalState (a.trailState s₀ p)

/-- The match of a path behind the query. -/
def matchOf (a : Automata) (s₀ : Nat) (query : Key) (p : List Byte) : Match :=
  .make 0 (p.length + query.length) (query ++ p.reverse) 0 a (a.getStateValue (a.trailState s₀ p))

/-- One call of the functor goes to the next key. -/
theorem tfunc_spec (query : Key) {prev : List Byte} {t : BoundedWeightedStateTraverser}
    {L : List (List Byte)} (hv : Visits sort a s₀ prev t L) : ∀ {fuel : Nat}, L.length < fuel →
    (L.filter (finalAt a s₀) = [] ∧
        ∃ s, tfunc sort query.length fuel ⟨t, query ++ prev.reverse⟩ = some (none, s)) ∨
      ∃ p L' t', L.filter (finalAt a s₀) = p :: L'.filter (finalAt a s₀) ∧ L'.length < L.length ∧
        tfunc sort query.length fuel ⟨t, query ++ prev.reverse⟩ =
          some (some (matchOf a s₀ query p), ⟨t', query ++ p.reverse⟩) ∧
        Visits sort a s₀ p t' L' := by
  induction hv with
  | @finished prev t hend =>
    intro fuel hfuel
    obtain ⟨fuel, rfl⟩ : ∃ k, fuel = k + 1 := ⟨fuel - 1, by omega⟩
    refine .inl ⟨rfl, ⟨t, query ++ prev.reverse⟩, ?_⟩
    rw [tfunc, if_pos hend]
  | @visit prev p c t L hend hfsa hstate hlabel hdepth hprev hnext ih =>
    intro fuel hfuel
    obtain ⟨fuel, rfl⟩ : ∃ k, fuel = k + 1 := ⟨fuel - 1, by omega⟩
    have hstack : resize (query ++ prev.reverse) (query.length + t.currentDepth - 1) ++
        [t.currentLabel] = query ++ (c :: p).reverse := by
      rw [hdepth, hlabel]
      exact resize_stack hprev
    have htake : (query ++ (c :: p).reverse).take (query.length + t.currentDepth) =
        query ++ (c :: p).reverse := by
      refine List.take_of_length_le ?_
      simp [hdepth]
    rw [tfunc]
    simp only [hend, Bool.false_eq_true, if_false, hstack, htake, hfsa, hstate]
    by_cases hf : finalAt a s₀ (c :: p) = true
    · refine .inr ⟨c :: p, L, _, List.filter_cons_of_pos hf, by simp, ?_, hnext⟩
      rw [if_pos (show a.isFinalState (a.trailState s₀ (c :: p)) = true from hf), matchOf, hdepth,
        List.length_cons]
    · rw [if_neg (show ¬ a.isFinalState (a.trailState s₀ (c :: p)) = true from hf),
        List.filter_cons_of_neg hf]
      have hlen : L.length < fuel := by simpa using hfuel
      rcases ih hlen with h | ⟨q, L', t', h1, h2, h3⟩
      · exact .inl h
      · exact .inr ⟨q, L', t', h1, by simp only [List.length_cons]; omega, h3⟩

/-- **The iterator runs through the keys that are visited.** -/
theorem collect_tfunc (query : Key) {fuel : Nat} : ∀ {rounds : Nat} {prev : List Byte}
    {t : BoundedWeightedStateTraverser} {L : List (List Byte)} (c : Option Match),
    Visits sort a s₀ prev t L → L.length < fuel → L.length < rounds →
    (MatchIterator.increment (tfunc sort query.length fuel)
        ⟨some ⟨t, query ++ prev.reverse⟩, c⟩).bind
      (MatchIterator.collect (tfunc sort query.length fuel) rounds) =
    some ((L.filter (finalAt a s₀)).map (matchOf a s₀ query))
  | rounds + 1, prev, t, L, c, hv, hfuel, hrounds => by
    rw [MatchIterator.increment]
    rcases tfunc_spec query hv hfuel with ⟨hnil, s, hs⟩ | ⟨p, L', t', hL, hlen, hs, hv'⟩
    · rw [hnil]
      simp only [hs, Option.map_some, Option.bind_some]
      rfl
    · rw [hL]
      simp only [hs, Option.map_some, Option.bind_some, Option.isSome_some, if_true]
      rw [MatchIterator.collect]
      simp only
      rw [collect_tfunc query (some _) hv' (by omega) (by omega)]
      rfl

end

/-! ## Every counted transition stands for a key -/

/-- The greatest weight of the keys below a prefix. -/
def greatestBelow (d : Dictionary) (weight : Key × Nat → Nat) (p : Key) : Nat :=
  ((d.2.filter fun e => p <+: e.1).map weight).foldr max 0

/-- The inner weights are the greatest weights below, capped. -/
structure InnerWeights (d : Dictionary) (weight : Key × Nat → Nat) : Prop where
  holds : Holds d.1 d.2
  inner : ∀ p, stateAt d p ≠ 0 →
    d.1.getInnerWeight (stateAt d p) = min 65535 (greatestBelow d weight p)

section

variable {d : Dictionary} {weight : Key × Nat → Nat} {query p q : Key}
  {sort : List (Nat × Byte) → List (Nat × Byte)}

theorem foldr_max_mem (l : List Nat) : l.foldr max 0 = 0 ∨ l.foldr max 0 ∈ l := by
  induction l with
  | nil => exact .inl rfl
  | cons x l ih =>
    rw [List.foldr_cons]
    rcases max_choice x (l.foldr max 0) with h | h
    · rw [h]
      exact .inr List.mem_cons_self
    · rw [h]
      exact ih.imp_right (List.mem_cons_of_mem _)

theorem greatestBelow_le {w : Nat} :
    greatestBelow d weight p ≤ w ↔ ∀ e ∈ d.2, p <+: e.1 → weight e ≤ w := by
  rw [greatestBelow, foldr_max_le, List.forall_mem_map]
  simp only [List.mem_filter, decide_eq_true_eq, and_imp]

theorem exists_greatestBelow (h : greatestBelow d weight p ≠ 0) :
    ∃ e ∈ d.2, p <+: e.1 ∧ weight e = greatestBelow d weight p := by
  rw [greatestBelow] at h ⊢
  have hm := (foldr_max_mem ((d.2.filter fun e => decide (p <+: e.1)).map weight)).resolve_left h
  obtain ⟨e, he, heq⟩ := List.mem_map.mp hm
  obtain ⟨he, hp⟩ := List.mem_filter.mp he
  exact ⟨e, he, of_decide_eq_true hp, heq⟩

theorem greatestBelow_mono (h : p <+: q) : greatestBelow d weight q ≤ greatestBelow d weight p :=
  greatestBelow_le.mpr fun e he hq => greatestBelow_le.mp le_rfl e he (h.trans hq)

/-- The state of a path behind the query. -/
theorem trailState_eq (d : Dictionary) (query : Key) (p : List Byte) :
    d.1.trailState (stateAt d query) p = stateAt d (query ++ p.reverse) :=
  (stateAt_append d query p).symm

/-- A transition that is counted has an inner weight of its own. -/
theorem weightOf_of_ne {s₀ : Nat} {a : Automata} {q : List Byte} (hne : q ≠ [])
    (h : weightOf a s₀ q ≠ weightOf a s₀ q.tail) :
    a.getInnerWeight (a.trailState s₀ q) ≠ 0 ∧
      weightOf a s₀ q = a.getInnerWeight (a.trailState s₀ q) := by
  obtain ⟨c, q, rfl⟩ := List.exists_cons_of_ne_nil hne
  rw [weightOf] at h ⊢
  split at h
  · exact absurd rfl h
  · next h0 => exact ⟨h0, if_neg h0⟩

/-- The number of keys with the query that are heavier than the entry. -/
def heavier (d : Dictionary) (weight : Key × Nat → Nat) (query : Key) (e : Key × Nat) : Nat :=
  d.2.countP fun e' => decide (query <+: e'.1) && decide (weight e < weight e')

/-- The keys that a counted path can stand for. -/
def StandsFor (d : Dictionary) (weight : Key × Nat → Nat) (query : Key) (q : List Byte)
    (e : Key × Nat) : Prop :=
  e ∈ d.2 ∧ query ++ q.reverse <+: e.1 ∧
    min 65535 (weight e) = weightOf d.1 (stateAt d query) q

theorem exists_standsFor (h : InnerWeights d weight) {q : List Byte} (hne : q ≠ [])
    (h0 : d.1.trailState (stateAt d query) q ≠ 0)
    (hw : weightOf d.1 (stateAt d query) q ≠ weightOf d.1 (stateAt d query) q.tail) :
    ∃ e, StandsFor d weight query q e := by
  obtain ⟨hinner, heq⟩ := weightOf_of_ne hne hw
  rw [trailState_eq] at h0 hinner heq
  rw [h.inner _ h0] at hinner heq
  have hg : greatestBelow d weight (query ++ q.reverse) ≠ 0 := by
    intro hg
    rw [hg] at hinner
    exact hinner (Nat.min_zero _)
  obtain ⟨e, he, hp, hwe⟩ := exists_greatestBelow hg
  exact ⟨e, he, hp, by rw [hwe, heq]⟩

/-- **No key stands for two counted paths.** The upper one would give its weight to the parent of the
lower one. -/
theorem eq_of_standsFor (h : InnerWeights d weight) {q r : List Byte} {e : Key × Nat}
    (hq : StandsFor d weight query q e) (hr : StandsFor d weight query r e) (hqr : q <:+ r)
    (hne : q ≠ []) (h0 : d.1.trailState (stateAt d query) r ≠ 0)
    (hw : weightOf d.1 (stateAt d query) r ≠ weightOf d.1 (stateAt d query) r.tail)
    (hwq : d.1.getInnerWeight (d.1.trailState (stateAt d query) q) =
      weightOf d.1 (stateAt d query) q) : q = r := by
  obtain ⟨c, r, rfl⟩ : ∃ c r', r = c :: r' := by
    cases r with
    | nil => exact absurd (List.suffix_nil.mp hqr) hne
    | cons c r => exact ⟨c, r, rfl⟩
  rcases List.suffix_cons_iff.mp hqr with heq | hqr
  · exact heq
  -- The weight of the parent is between the two, which are the weight of the key.
  have hrne : r ≠ [] := by
    rintro rfl
    exact hne (List.suffix_nil.mp hqr)
  have h0r := trailState_of_suffix (List.suffix_cons c r) h0
  have h0q := trailState_of_suffix hqr h0r
  have hinner : d.1.getInnerWeight (d.1.trailState (stateAt d query) r) =
      weightOf d.1 (stateAt d query) (c :: r) := by
    have hle : min 65535 (weight e) ≤ min 65535 (greatestBelow d weight (query ++ r.reverse)) := by
      refine min_le_min le_rfl (greatestBelow_le.mp le_rfl e hr.1 (List.IsPrefix.trans ?_ hr.2.1))
      exact (List.prefix_append_right_inj query).mpr
        (List.reverse_prefix.mpr (List.suffix_cons c r))
    have hge : min 65535 (greatestBelow d weight (query ++ r.reverse)) ≤
        min 65535 (greatestBelow d weight (query ++ q.reverse)) :=
      min_le_min le_rfl (greatestBelow_mono
        ((List.prefix_append_right_inj query).mpr (List.reverse_prefix.mpr hqr)))
    rw [trailState_eq] at hwq h0q h0r ⊢
    rw [h.inner _ h0q, ← hq.2.2] at hwq
    rw [h.inner _ h0r, ← hr.2.2]
    omega
  refine absurd ?_ hw
  obtain ⟨x, r, rfl⟩ := List.exists_cons_of_ne_nil hrne
  have hpos := (weightOf_of_ne (List.cons_ne_nil _ _) hw).1
  rw [List.tail_cons, ← hinner, weightOf, if_neg]
  intro hz
  rw [hinner] at hz
  exact hpos ((weightOf_of_ne (List.cons_ne_nil _ _) hw).2 ▸ hz)

/-- **What is outweighed is lighter than enough keys.** -/
theorem le_heavier_of_outweighed (h : InnerWeights d weight) {n : Nat}
    {visited counted : List (List Byte)} (hp : Progress d.1 (stateAt d query) visited counted)
    {r : List Byte} (ho : Outweighed d.1 (stateAt d query) n counted r) {e : Key × Nat}
    (he : min 65535 (weight e) ≤ weightOf d.1 (stateAt d query) r) :
    n ≤ heavier d weight query e := by
  classical
  have hok : ∀ q ∈ counted, ∃ e, StandsFor d weight query q e := fun q hq =>
    exists_standsFor h (hp.counted_ok q hq).1 (hp.counted_ok q hq).2.1 (hp.counted_ok q hq).2.2.1
  let key : List Byte → Key × Nat := fun q =>
    if hq : ∃ e, StandsFor d weight query q e then hq.choose else ([], 0)
  have hkey : ∀ q ∈ counted, StandsFor d weight query q (key q) := by
    intro q hq
    simp only [key, dif_pos (hok q hq)]
    exact (hok q hq).choose_spec
  have hinj : ∀ q ∈ counted, ∀ r ∈ counted, key q = key r → q = r := by
    intro q hq r hr heq
    have hsq := hkey q hq
    have hsr := hkey r hr
    rw [← heq] at hsr
    obtain ⟨hneq, h0q, hwq, -⟩ := hp.counted_ok q hq
    obtain ⟨hner, h0r, hwr, -⟩ := hp.counted_ok r hr
    rcases List.prefix_or_prefix_of_prefix hsq.2.1 hsr.2.1 with hpre | hpre
    · have hs := List.reverse_prefix.mp ((List.prefix_append_right_inj query).mp hpre)
      exact eq_of_standsFor h hsq hsr hs hneq h0r hwr (weightOf_of_ne hneq hwq).2.symm
    · have hs := List.reverse_prefix.mp ((List.prefix_append_right_inj query).mp hpre)
      exact (eq_of_standsFor h hsr hsq hs hner h0q hwq (weightOf_of_ne hner hwr).2.symm).symm
  rw [Outweighed, List.countP_eq_length_filter] at ho
  rw [heavier, List.countP_eq_length_filter]
  have hnd : ((counted.filter fun q => decide (weightOf d.1 (stateAt d query) r <
      weightOf d.1 (stateAt d query) q)).map key).Nodup := by
    refine List.Nodup.map_on (fun q hq s hs => ?_) (hp.counted_nodup.filter _)
    exact hinj q (List.mem_filter.mp hq).1 s (List.mem_filter.mp hs).1
  have hsub : (counted.filter fun q => decide (weightOf d.1 (stateAt d query) r <
      weightOf d.1 (stateAt d query) q)).map key ⊆ d.2.filter fun e' =>
        decide (query <+: e'.1) && decide (weight e < weight e') := by
    intro e' he'
    obtain ⟨q, hq, rfl⟩ := List.mem_map.mp he'
    obtain ⟨hq, hlt⟩ := List.mem_filter.mp hq
    have hs := hkey q hq
    have hlt := of_decide_eq_true hlt
    rw [← hs.2.2] at hlt
    have hlt : weight e < weight (key q) := by omega
    exact List.mem_filter.mpr ⟨hs.1, Bool.and_eq_true_iff.mpr
      ⟨decide_eq_true ((List.prefix_append _ _).trans hs.2.1), decide_eq_true hlt⟩⟩
  have hle := (List.subperm_of_subset hnd hsub).length_le
  rw [List.length_map] at hle
  exact ho.trans hle

/-- Below a path no key is heavier than the path, when weights are capped. -/
theorem min_le_weightOf (h : InnerWeights d weight) {r : List Byte} (hne : r ≠ []) {e : Key × Nat}
    (he : e ∈ d.2) (hr : query ++ r.reverse <+: e.1)
    (h0 : d.1.trailState (stateAt d query) r ≠ 0) :
    min 65535 (weight e) ≤ weightOf d.1 (stateAt d query) r := by
  obtain ⟨c, r, rfl⟩ := List.exists_cons_of_ne_nil hne
  have hinner : d.1.getInnerWeight (d.1.trailState (stateAt d query) (c :: r)) =
      min 65535 (greatestBelow d weight (query ++ (c :: r).reverse)) := by
    rw [trailState_eq] at h0 ⊢
    exact h.inner _ h0
  have hle : min 65535 (weight e) ≤
      d.1.getInnerWeight (d.1.trailState (stateAt d query) (c :: r)) := by
    rw [hinner]
    exact min_le_min le_rfl (greatestBelow_le.mp le_rfl e he hr)
  rw [weightOf]
  split
  · omega
  · exact hle

/-! ## The completions -/

/-- The matches are keys that start with the query, each once; a key that is left out is lighter than
`n` of the keys with the query. -/
structure TopCompletions (d : Dictionary) (weight : Key × Nat → Nat) (query : Key) (n : Nat)
    (ms : List Match) : Prop where
  keys : ∀ m ∈ ms, ∃ e ∈ d.2, query <+: e.1 ∧ m = .make 0 e.1.length e.1 0 d.1 e.2
  once : (ms.map Match.matchedString).Nodup
  best : ∀ e ∈ d.2, query <+: e.1 → e.1 ∉ ms.map Match.matchedString →
    n ≤ heavier d weight query e

/-- The iterators of `GetCompletions` end, and run through the top completions. -/
def ReturnsTop (sort : List (Nat × Byte) → List (Nat × Byte)) (d : Dictionary)
    (weight : Key × Nat → Nat) (query : Key) (n : Nat) : Prop :=
  ∃ ms, (∃ N, ∀ fuel rounds, N ≤ fuel → N ≤ rounds →
      getCompletions sort fuel rounds d.1 query n = some ms) ∧
    TopCompletions d weight query n ms

/-- Keys with a zero byte behind the query are light, and the state 0 does not pass for a final
one where the last byte of the query has no transition. -/
structure WithoutZeros (d : Dictionary) (weight : Key × Nat → Nat) (query : Key) (n : Nat) : Prop
    where
  light : ∀ e ∈ d.2, query <+: e.1 → 0 ∈ e.1.drop query.length → n ≤ heavier d weight query e
  nowhere : stateAt d query = 0 → query = [] ∨ stateAt d query.dropLast ≠ 0 →
    d.1.isFinalState 0 = false

theorem stateAt_ne_zero (h : Holds d.1 d.2) {e : Key × Nat} (he : e ∈ d.2) (hq : query <+: e.1) :
    stateAt d query ≠ 0 := by
  obtain ⟨w, hw⟩ := hq
  have hne := ((h.final e.1).mp (List.mem_map_of_mem he)).1
  rw [← hw, walk_append] at hne
  intro h0
  rw [show d.1.walk d.1.getStartState query = 0 from h0, walk_zero] at hne
  exact hne rfl

/-- Where the walk ends early there are no matches. -/
theorem getCompletions_short (hw : ¬ (query = [] ∨ stateAt d query.dropLast ≠ 0)) (n : Nat)
    (fuel rounds : Nat) : getCompletions sort fuel rounds d.1 query n = some [] := by
  have hdepth := walkQuery_depth d.1 query d.1.getStartState 0
  rw [Nat.zero_add] at hdepth
  rw [getCompletions]
  exact if_neg (mt hdepth.mp hw)

/-- The matches of the paths that were visited. -/
def visitedMatches (d : Dictionary) (query : Key) (L : List (List Byte)) : List Match :=
  (if d.1.isFinalState (stateAt d query) then
      [Match.make 0 query.length query 0 d.1 (valueOf d query)] else []) ++
    (L.filter (finalAt d.1 (stateAt d query))).map (matchOf d.1 (stateAt d query) query)

/-- Otherwise the matches are that of the query and those of the paths that are visited. -/
theorem getCompletions_eq (hw : query = [] ∨ stateAt d query.dropLast ≠ 0) {n : Nat}
    {L : List (List Byte)}
    (hv : Visits sort d.1 (stateAt d query) [] (ofState sort d.1 (stateAt d query) n) L)
    {fuel rounds : Nat} (hf : L.length < fuel) (hr : L.length + 1 < rounds) :
    getCompletions sort fuel rounds d.1 query n = some (visitedMatches d query L) := by
  have hdepth := walkQuery_depth d.1 query d.1.getStartState 0
  have hstate : (walkQuery d.1 d.1.getStartState query 0).1 = stateAt d query :=
    walkQuery_state d.1 query _ _
  rw [Nat.zero_add] at hdepth
  rw [getCompletions, visitedMatches]
  simp only [hstate]
  rw [if_pos (hdepth.mpr hw)]
  have hcollect : ∀ {rounds : Nat} (c : Option Match), L.length < rounds →
      (MatchIterator.increment (tfunc sort query.length fuel)
          ⟨some ⟨ofState sort d.1 (stateAt d query) n, query⟩, c⟩).bind
        (MatchIterator.collect (tfunc sort query.length fuel) rounds) =
      some ((L.filter (finalAt d.1 (stateAt d query))).map (matchOf d.1 (stateAt d query) query)) :=
    fun c hrounds => by simpa using collect_tfunc query c hv hf hrounds
  by_cases hfin : d.1.isFinalState (stateAt d query) = true
  · obtain ⟨rounds, rfl⟩ : ∃ k, rounds = k + 1 := ⟨rounds - 1, by omega⟩
    rw [if_pos hfin, if_pos hfin, MatchIterator.make, Option.isSome_some, if_pos rfl]
    show ((MatchIterator.increment _ _).bind _).map _ = _
    rw [hcollect _ (by omega)]
    rfl
  · rw [if_neg hfin, if_neg hfin, MatchIterator.make, Option.isSome_none, if_neg (by simp)]
    exact hcollect none (by omega)

/-- No state, no completion but the one of the state 0. -/
theorem returnsTop_of_zero (h : InnerWeights d weight) {n : Nat} (h0 : stateAt d query = 0) :
    ReturnsTop sort d weight query n ↔ WithoutZeros d weight query n := by
  have hno : ∀ e ∈ d.2, ¬ query <+: e.1 := fun e he hq => stateAt_ne_zero h.holds he hq h0
  have hempty : TopCompletions d weight query n [] :=
    ⟨by simp, by simp, fun e he hq => absurd hq (hno e he)⟩
  by_cases hw : query = [] ∨ stateAt d query.dropLast ≠ 0
  · have hend : (ofState sort d.1 (stateAt d query) n).atEnd = true := by
      rw [h0, ofState, advance, if_pos]
      · rfl
      · rfl
    have heq : ∀ fuel rounds, 2 ≤ fuel → 2 ≤ rounds →
        getCompletions sort fuel rounds d.1 query n = some (visitedMatches d query []) :=
      fun fuel rounds hf hr => getCompletions_eq hw (.finished hend) (by simp; omega) (by simp; omega)
    constructor
    · rintro ⟨ms, ⟨N, hN⟩, ht⟩
      refine ⟨fun e he hq => absurd hq (hno e he), fun _ _ => ?_⟩
      by_contra hfin
      have hms := (hN (N + 2) (N + 2) (by omega) (by omega)).symm.trans
        (heq (N + 2) (N + 2) (by omega) (by omega))
      rw [visitedMatches, h0, if_pos (by simpa using hfin)] at hms
      obtain ⟨e, he, hq, -⟩ := ht.keys (.make 0 query.length query 0 d.1 (valueOf d query)) (by
        rw [Option.some.inj hms]
        simp)
      exact hno e he hq
    · intro hz
      refine ⟨[], ⟨2, fun fuel rounds hf hr => ?_⟩, hempty⟩
      rw [heq fuel rounds hf hr, visitedMatches, h0, hz.nowhere h0 hw]
      rfl
  · refine iff_of_true ⟨[], ⟨0, fun fuel rounds _ _ => getCompletions_short hw n fuel rounds⟩,
      hempty⟩ ⟨fun e he hq => absurd hq (hno e he), fun _ h => absurd h hw⟩

/-- The strings of the matches are the query, if it is a key, and the keys that were visited. -/
theorem mem_visitedMatches (h : Holds d.1 d.2) (h0 : stateAt d query ≠ 0) {L : List (List Byte)}
    (hL : ∀ q ∈ L, d.1.trailState (stateAt d query) q ≠ 0) {k : Key} :
    k ∈ (visitedMatches d query L).map Match.matchedString ↔
      k ∈ keysOf d.2 ∧ ∃ q ∈ [] :: L, k = query ++ q.reverse := by
  have hkey : ∀ {q : List Byte}, d.1.trailState (stateAt d query) q ≠ 0 →
      (finalAt d.1 (stateAt d query) q = true ↔ query ++ q.reverse ∈ keysOf d.2) := by
    intro q hq
    rw [trailState_eq] at hq
    rw [finalAt, trailState_eq, h.final]
    exact (and_iff_right hq).symm
  have hroot : d.1.isFinalState (stateAt d query) = true ↔ query ∈ keysOf d.2 := by
    rw [h.final]
    exact (and_iff_right h0).symm
  rw [visitedMatches, List.map_append, List.mem_append, List.map_map]
  constructor
  · rintro (hk | hk)
    · split at hk
      · next hfin =>
        obtain rfl : k = query := by simpa [Match.make] using hk
        exact ⟨hroot.mp hfin, [], List.mem_cons_self, by simp⟩
      · cases hk
    · obtain ⟨q, hq, rfl⟩ := List.mem_map.mp hk
      obtain ⟨hq, hfin⟩ := List.mem_filter.mp hq
      exact ⟨(hkey (hL q hq)).mp hfin, q, List.mem_cons_of_mem _ hq, rfl⟩
  · rintro ⟨hk, q, hq, rfl⟩
    rcases List.mem_cons.mp hq with rfl | hq
    · rw [List.reverse_nil, List.append_nil] at hk ⊢
      rw [if_pos (hroot.mpr hk)]
      exact .inl (by simp [Match.make])
    · exact .inr (List.mem_map_of_mem (List.mem_filter.mpr ⟨hq, (hkey (hL q hq)).mpr hk⟩))

/-- The matches are keys with their values. -/
theorem keys_visitedMatches (h : Holds d.1 d.2) (h0 : stateAt d query ≠ 0) {L : List (List Byte)}
    (hL : ∀ q ∈ L, d.1.trailState (stateAt d query) q ≠ 0) :
    ∀ m ∈ visitedMatches d query L, ∃ e ∈ d.2, query <+: e.1 ∧
      m = .make 0 e.1.length e.1 0 d.1 e.2 := by
  intro m hm
  have hstring : m = .make 0 m.matchedString.length m.matchedString 0 d.1
      (valueOf d m.matchedString) := by
    rcases List.mem_append.mp hm with hm | hm
    · split at hm
      · rw [List.mem_singleton.mp hm]
        rfl
      · cases hm
    · obtain ⟨q, -, rfl⟩ := List.mem_map.mp hm
      simp [matchOf, Match.make, valueOf, trailState_eq, Nat.add_comm]
  obtain ⟨hk, q, -, hq⟩ := (mem_visitedMatches h h0 hL).mp (List.mem_map_of_mem hm)
  refine ⟨(m.matchedString, valueOf d m.matchedString), h.value_mem hk, ?_, hstring⟩
  rw [hq]
  exact List.prefix_append _ _

theorem nodup_visitedMatches {L : List (List Byte)} (hL : ([] :: L).Nodup) :
    ((visitedMatches d query L).map Match.matchedString).Nodup := by
  obtain ⟨hnil, hL⟩ := List.nodup_cons.mp hL
  rw [visitedMatches, List.map_append, List.map_map, List.nodup_append]
  refine ⟨?_, (hL.filter _).map fun p q hpq => ?_, ?_⟩
  · split
    · exact List.nodup_singleton _
    · exact List.nodup_nil
  · exact List.reverse_injective (List.append_cancel_left hpq)
  · rintro k hk k' hk' rfl
    obtain ⟨q, hq, rfl⟩ := List.mem_map.mp hk'
    have hkq : query ++ q.reverse = query := by
      split at hk
      · simpa [matchOf, Match.make] using hk
      · cases hk
    rw [List.reverse_eq_nil_iff.mp (List.append_right_eq_self.mp hkq)] at hq
    exact hnil (List.mem_filter.mp hq).1

/-- **What is visited are the top completions.** -/
theorem topCompletions_of_finished (h : InnerWeights d weight) (h0 : stateAt d query ≠ 0) {n : Nat}
    {L counted : List (List Byte)} (hfin : Finished d.1 (stateAt d query) n L counted) :
    TopCompletions d weight query n (visitedMatches d query L) ↔
      ∀ e ∈ d.2, query <+: e.1 → 0 ∈ e.1.drop query.length → n ≤ heavier d weight query e := by
  have hL : ∀ q ∈ L, d.1.trailState (stateAt d query) q ≠ 0 := fun q hq => (hfin.visited_ok q hq).2.1
  have hmem := fun {k : Key} => mem_visitedMatches h.holds h0 hL (k := k)
  constructor
  · intro ht e he hq hz
    refine ht.best e he hq fun hm => ?_
    obtain ⟨-, q, hqL, heq⟩ := hmem.mp hm
    rw [heq, List.drop_left, List.mem_reverse] at hz
    rcases List.mem_cons.mp hqL with rfl | hqL
    · cases hz
    · exact (hfin.visited_ok q hqL).2.2.1 hz
  · intro hz
    refine ⟨keys_visitedMatches h.holds h0 hL, nodup_visitedMatches (List.nodup_cons.mpr
      ⟨fun hnil => (hfin.visited_ok _ hnil).1 rfl, hfin.visited_nodup⟩), fun e he hq hout => ?_⟩
    obtain ⟨w, hw⟩ := hq
    have hkey : e.1 ∈ keysOf d.2 := List.mem_map_of_mem he
    by_cases hzero : 0 ∈ w
    · refine hz e he ⟨w, hw⟩ ?_
      rwa [← hw, List.drop_left]
    · -- The path of the key was not visited: a path above it is outweighed.
      have hne : w.reverse ≠ [] := by
        intro hnil
        refine hout (hmem.mpr ⟨hkey, [], List.mem_cons_self, ?_⟩)
        rw [← hw, List.reverse_eq_nil_iff.mp hnil]
        rfl
      have hstate : d.1.trailState (stateAt d query) w.reverse ≠ 0 := by
        rw [trailState_eq, List.reverse_reverse, hw]
        exact stateAt_ne_zero h.holds he List.prefix_rfl
      rcases hfin.covered _ hne hstate (by simpa using hzero) with hv | ⟨r, hrne, hr, ho⟩
      · refine absurd (hmem.mpr ⟨hkey, _, List.mem_cons_of_mem _ hv, ?_⟩) hout
        rw [List.reverse_reverse, hw]
      · refine le_heavier_of_outweighed h hfin.toProgress ho (min_le_weightOf h hrne he ?_
          (trailState_of_suffix hr hstate))
        rw [← hw, List.prefix_append_right_inj]
        have hpre := List.reverse_prefix.mpr hr
        rwa [List.reverse_reverse] at hpre

/-- From a state the completions are the top ones unless a key needs a zero byte. -/
theorem returnsTop_of_ne_zero (h : InnerWeights d weight) (hsort : Sorts sort)
    (h0 : stateAt d query ≠ 0) {n : Nat} (hn : 1 ≤ n) :
    ReturnsTop sort d weight query n ↔
      ∀ e ∈ d.2, query <+: e.1 → 0 ∈ e.1.drop query.length → n ≤ heavier d weight query e := by
  have hw : query = [] ∨ stateAt d query.dropLast ≠ 0 := by
    rcases List.eq_nil_or_concat query with hnil | ⟨q, c, rfl⟩
    · exact .inl hnil
    · refine .inr fun hz => h0 ?_
      rw [List.concat_eq_append] at hz ⊢
      rw [List.dropLast_concat] at hz
      rw [stateAt, walk_append, show d.1.walk d.1.getStartState q = 0 from hz, walk_zero]
  have hpaths : ∀ p, d.1.trailState (stateAt d query) p ≠ 0 → p ∈ [] :: heaviestBehind d query := by
    intro p hp
    rcases eq_or_ne p [] with rfl | hne
    · exact List.mem_cons_self
    · exact List.mem_cons_of_mem _ ((mem_heaviestBehind h.holds).mpr ⟨hne, hp⟩)
  obtain ⟨L, counted, hv, hfin⟩ := ofState_visits hn hsort h0 hpaths
  have heq : ∀ fuel rounds, L.length + 2 ≤ fuel → L.length + 2 ≤ rounds →
      getCompletions sort fuel rounds d.1 query n = some (visitedMatches d query L) :=
    fun fuel rounds hf hr => getCompletions_eq hw hv (by omega) (by omega)
  rw [← topCompletions_of_finished h h0 hfin]
  constructor
  · rintro ⟨ms, ⟨N, hN⟩, ht⟩
    have hms := (hN (N + L.length + 2) (N + L.length + 2) (by omega) (by omega)).symm.trans
      (heq _ _ (by omega) (by omega))
    rwa [Option.some.inj hms] at ht
  · intro ht
    exact ⟨visitedMatches d query L, ⟨L.length + 2, heq⟩, ht⟩

/-- **The completions are the top ones if and only if no key needs a zero byte and the state 0 is not
taken for a key.** -/
theorem getCompletions_top_iff (h : InnerWeights d weight) (hsort : Sorts sort) (query : Key)
    {n : Nat} (hn : 1 ≤ n) :
    ReturnsTop sort d weight query n ↔ WithoutZeros d weight query n := by
  by_cases h0 : stateAt d query = 0
  · exact returnsTop_of_zero h h0
  · rw [returnsTop_of_ne_zero h hsort h0 hn]
    exact ⟨fun hz => ⟨hz, fun h => absurd h h0⟩, WithoutZeros.light⟩

end

/-- The key `61 62` with its weight at each state above. -/
def weightedKeyAB : Dictionary :=
  (ofCells 1 3072 [(3169, 97), (2146, 98), (3328, 0), (2304, 0), (3332, 0), (2308, 0), (1284, 0)]
    [(3169, 1633), (2146, 1634), (3332, 1), (2308, 1), (1284, 1), (1280, 1)], [([97, 98], 1)])

/-- The key `61 00` with its weight at each state above. -/
def weightedKeyA0 : Dictionary :=
  (ofCells 1 3072 [(3169, 97), (2048, 0), (3328, 0), (2304, 0), (3332, 0), (2308, 0), (1284, 0)]
    [(3169, 1633), (2048, 1536), (3332, 1), (2308, 1), (1284, 1), (1280, 1)], [([97, 0], 1)])

theorem innerWeights_of_check {a : Automata} {k : Key} {v : Nat} (h : Holds a [(k, v)])
    (hc : ∀ p ∈ k.inits, a.getInnerWeight (stateAt (a, [(k, v)]) p) =
      min 65535 (greatestBelow (a, [(k, v)]) Prod.snd p)) :
    InnerWeights (a, [(k, v)]) Prod.snd := by
  refine ⟨h, fun p hp => hc p ((List.mem_inits _ _).mpr ?_)⟩
  rcases eq_or_ne p [] with rfl | hne
  · exact List.nil_prefix
  · obtain ⟨k', hk', hpre⟩ := h.leads p hne hp
    rwa [show k' = k by simpa [keysOf] using hk'] at hpre

theorem innerWeights_weightedKeyAB : InnerWeights weightedKeyAB Prod.snd :=
  innerWeights_of_check (holds_of_check 2 (by decide +kernel)) (by decide +kernel)

theorem innerWeights_weightedKeyA0 : InnerWeights weightedKeyA0 Prod.snd :=
  innerWeights_of_check (holds_of_check 2 (by decide +kernel)) (by decide +kernel)

theorem sorts_sort : Sorts (StableSort.sort Prod.fst) :=
  ⟨StableSort.sort_perm Prod.fst, StableSort.pairwise_le Prod.fst⟩

theorem getCompletions_top_iff_one :
    ReturnsTop (StableSort.sort Prod.fst) weightedKeyAB Prod.snd [97] 1 ↔
      WithoutZeros weightedKeyAB Prod.snd [97] 1 :=
  getCompletions_top_iff innerWeights_weightedKeyAB sorts_sort [97] le_rfl

/-- The key `61 00` is not found for `61`, and nothing is heavier. -/
theorem not_getCompletions_top :
    InnerWeights weightedKeyA0 Prod.snd ∧ Sorts (StableSort.sort Prod.fst) ∧
      ¬ ReturnsTop (StableSort.sort Prod.fst) weightedKeyA0 Prod.snd [97] 1 := by
  refine ⟨innerWeights_weightedKeyA0, sorts_sort, fun h => ?_⟩
  rw [returnsTop_of_ne_zero innerWeights_weightedKeyA0 sorts_sort (by decide +kernel) le_rfl] at h
  exact absurd (h ([97, 0], 1) (by decide) (by decide) (by decide)) (by decide +kernel)

end Keyvi.Completion
