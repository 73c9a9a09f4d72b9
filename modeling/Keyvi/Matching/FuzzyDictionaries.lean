import Mathlib
import Keyvi.Matching.FuzzyMatching

/-!
# Fuzzy matching on several dictionaries

`fuzzy_matching.h` on several automata: those with a path for the exact prefix are zipped. The keys that
are found are the near keys of the merged dictionary. A key is found in the newest dictionary that has
it, but the exact prefix itself in the oldest.
-/

namespace Keyvi.Matching

open Fsa Automata Dictionary Utf8 Stringdistance StringAlignment

namespace FuzzyMatching

/-! ## The matcher -/

/-- `FilterWithExactPrefix`. -/
def filterWithExactPrefix (query : Key) (minimumExactPrefix : Nat) :
    List Automata → Option (List (Automata × Nat))
  | [] => some []
  | fsa :: fsas =>
    (matchExact fsa query minimumExactPrefix fsa.getStartState 0 0).bind fun r =>
      (filterWithExactPrefix query minimumExactPrefix fsas).map fun pairs =>
        if r.1 ≠ 0 ∧ r.2 = minimumExactPrefix then (fsa, r.1) :: pairs else pairs

/-- `FromMulipleFsasWithMatchedExactPrefix`. -/
def fromMulipleFsasWithMatchedExactPrefix (memory : Nat → Nat → Nat) (fuel : Nat)
    (fsaStartStatePairs : List (Automata × Nat)) (query : Key) (maxEditDistance exactPrefix : Nat) :
    Option (FuzzyMatching ZipTraverser) :=
  if fsaStartStatePairs = [] then some empty
  else
    let codepoints := utf8to32 query
    let metric := (List.range exactPrefix).foldl
      (fun w i => (NeedlemanWunsch.put damerauLevenshtein w (codepoints.getD i 0) i).2)
      (NeedlemanWunsch.new damerauLevenshtein memory codepoints 20 maxEditDistance)
    (CodePointStateTraverser.ofTraverser fuel
      (ZipStateTraverser.ofPairs fsaStartStatePairs () false : ZipTraverser)).bind fun traverser =>
        match fsaStartStatePairs.find? fun f =>
            f.1.isFinalState f.2 && decide (metric.getScore ≤ maxEditDistance) with
        | some f =>
          (getCandidate metric 0).map fun candidate =>
            ⟨some metric, some traverser, maxEditDistance, exactPrefix,
              some (.make 0 exactPrefix candidate metric.getScore f.1 (f.1.getStateValue f.2))⟩
        | none => some ⟨some metric, some traverser, maxEditDistance, exactPrefix, none⟩

/-- `FromMulipleFsas`. -/
def fromMulipleFsas (memory : Nat → Nat → Nat) (fuel : Nat) (fsas : List Automata) (query : Key)
    (maxEditDistance minimumExactPrefix : Nat) : Option (FuzzyMatching ZipTraverser) :=
  (filterWithExactPrefix query minimumExactPrefix fsas).bind fun pairs =>
    fromMulipleFsasWithMatchedExactPrefix memory fuel pairs query maxEditDistance minimumExactPrefix

section

variable {ds : List Dictionary} {u : Dictionary} {q : List Char} {n dist : Nat}

/-! ## The exact prefix -/

/-- The dictionaries with a path for the exact prefix, in their order. -/
theorem filterWithExactPrefix_spec (hn : n ≤ q.length) : ∀ ds : List Dictionary,
    filterWithExactPrefix (bytesOf q) n (ds.map Prod.fst) =
      some ((onPath ds (bytesOf (q.take n))).map fun d => (d.1, stateAt d (bytesOf (q.take n))))
  | [] => rfl
  | d :: ds => by
    obtain ⟨depth, hexact, hdepth⟩ := matchExact_spec d.1 n [] q d.1.getStartState hn
    rw [List.nil_append, bytesOf_nil, List.length_nil, List.length_nil] at hexact
    rw [List.length_nil, Nat.zero_add] at hdepth
    have hcons : onPath (d :: ds) (bytesOf (q.take n)) =
        if stateAt d (bytesOf (q.take n)) ≠ 0 then d :: onPath ds (bytesOf (q.take n))
        else onPath ds (bytesOf (q.take n)) := by
      rw [onPath, List.filter_cons]
      simp only [decide_eq_true_eq]
      rfl
    rw [List.map_cons, filterWithExactPrefix, hexact, Option.bind_some,
      filterWithExactPrefix_spec hn ds, Option.map_some, hcons]
    dsimp only
    by_cases h0 : stateAt d (bytesOf (q.take n)) = 0
    · rw [if_neg fun h => h.1 h0, if_neg fun h => h h0]
    · rw [if_pos ⟨h0, hdepth h0⟩, if_pos h0]
      rfl

/-! ## The zipped traverser -/

theorem listsBehind_pathsBehind (hd : ∀ d ∈ ds, Holds d.1 d.2) (hu : IsUnion ds u) (exact : Key) :
    ListsBehind u exact (pathsBehind ds u exact) where
  nodup := MultiwordCompletionMatching.nodup_pathsBehind hd hu
  mem p := by
    have hT : u.1.Tree (stateAt u exact) (bound ds + depthOf u.2) :=
      Dictionary.Tree.mono (hu.holds.tree_walk exact) (Nat.le_add_left _ _)
    rw [pathsBehind, Preorder.mem_subtree (bounded_children hT), extends_children_iff hT,
      stateAt_append]

/-- The traversers of the dictionaries with a path for the exact prefix. -/
theorem ofPairs_onPath (ds : List Dictionary) (exact : Key) :
    (ZipStateTraverser.ofPairs ((onPath ds exact).map fun d => (d.1, stateAt d exact)) () false :
      ZipTraverser) =
      ZipStateTraverser.ofTraversers ((Dictionary.sources (onPath ds exact) exact).map atStart) := by
  have hpos : ((onPath ds exact).map fun d => (d.1, stateAt d exact)).filter (fun f => 0 < f.2) =
      (onPath ds exact).map fun d => (d.1, stateAt d exact) := by
    rw [List.filter_eq_self]
    intro f hf
    obtain ⟨d, hm, rfl⟩ := List.mem_map.mp hf
    exact decide_eq_true (Nat.pos_of_ne_zero (mem_onPath.mp hm).2)
  rw [ZipStateTraverser.ofPairs, hpos, List.zipIdx_map, List.map_map, Dictionary.sources,
    List.map_map]
  rfl

/-- The zipped traverser shows the keys behind the exact prefix, and stays where it can be moved. -/
theorem follows_zip_canPrune (hd : ∀ d ∈ ds, Holds d.1 d.2) (hu : IsMerge ds u) (query : Key) :
    Follows (fun (z : ZipTraverser) L =>
        ZipTraverser.At (sources (onPath ds query) query) (bound ds + depthOf u.2) z L ∧
        ZipTraverser.Agenda (bound ds + depthOf u.2) (sources (onPath ds query) query) L ∧
        z.canPrune = true)
      (keyBehind u query) (foundNewest ds query) := by
  have h : Follows (fun (z : ZipTraverser) L =>
        ZipTraverser.At (sources (onPath ds query) query) (bound ds + depthOf u.2) z L ∧
        ZipTraverser.Agenda (bound ds + depthOf u.2) (sources (onPath ds query) query) L)
      (keyBehind u query) (foundNewest ds query) := follows_zip hd hu
  refine ⟨fun z hz => h.exhausted z ⟨hz.1, hz.2.1⟩, fun z p L hz => h.alive z p L ⟨hz.1, hz.2.1⟩,
    fun z p L hz => h.nonempty z p L ⟨hz.1, hz.2.1⟩, fun z p L hz => h.depth z p L ⟨hz.1, hz.2.1⟩,
    fun z p L hz => h.label z p L ⟨hz.1, hz.2.1⟩, fun z p L hz => h.isFinal z p L ⟨hz.1, hz.2.1⟩,
    fun z p L hz => h.finds z p L ⟨hz.1, hz.2.1⟩, fun z p L hz => ?_, fun z p L hz => ?_⟩
  · obtain ⟨hat, hL⟩ := h.next z p L ⟨hz.1, hz.2.1⟩
    exact ⟨hat, hL, ZipTraverser.advance_canPrune hz.2.2 hat⟩
  · obtain ⟨hat, hL⟩ := h.skip z p L ⟨hz.1, hz.2.1⟩
    exact ⟨hat, hL, ZipTraverser.advance_canPrune (ZipTraverser.prune_canPrune hz.2.2) hat⟩

/-- The zipped traverser before its first step: it stands above the texts behind the exact prefix. -/
theorem before_zip (hd : ∀ d ∈ ds, Holds d.1 d.2) (hu : IsUnion ds u)
    (htext : ∀ k ∈ keysOf u.2, ∃ s, k = bytesOf s) (hnil : onPath ds (bytesOf (q.take n)) ≠ []) :
    Before (fun (z : ZipTraverser) L =>
        ZipTraverser.At (sources (onPath ds (bytesOf (q.take n))) (bytesOf (q.take n)))
          (bound ds + depthOf u.2) z L ∧
        ZipTraverser.Agenda (bound ds + depthOf u.2)
          (sources (onPath ds (bytesOf (q.take n))) (bytesOf (q.take n))) L ∧
        z.canPrune = true)
      ⟨ZipStateTraverser.ofPairs ((onPath ds (bytesOf (q.take n))).map fun d =>
        (d.1, stateAt d (bytesOf (q.take n)))) () false, [], [], 0, 0⟩ []
      (pathsBehind ds u (bytesOf (q.take n))) := by
  have hw := wellFormed_onPath (bytesOf (q.take n)) hd (Nat.le_add_right (bound ds) (depthOf u.2))
  have hunion := union_onPath (bytesOf (q.take n)) hd hu
  have hL := listsBehind_pathsBehind hd hu (bytesOf (q.take n))
  have hcontinues : Preorder.Continues [] (pathsBehind ds u (bytesOf (q.take n))) :=
    continues_pathsBehind hu
  have hstart : ∀ s ∈ sources (onPath ds (bytesOf (q.take n))) (bytesOf (q.take n)), s.start ≠ 0 := by
    intro s hs
    obtain ⟨d, hi, -, hst⟩ := mem_sources.mp hs
    rw [hst]
    exact (mem_onPath.mp (List.mem_of_getElem? hi)).2
  have hne : sources (onPath ds (bytesOf (q.take n))) (bytesOf (q.take n)) ≠ [] := by
    obtain ⟨d, hd'⟩ := List.exists_mem_of_ne_nil _ hnil
    obtain ⟨s, hs, -⟩ := exists_source (j := bytesOf (q.take n)) hd'
    exact List.ne_nil_of_mem hs
  obtain ⟨hcan, hat⟩ := at_advance_atStart hw hunion.agenda hstart hne fun s hs =>
    hunion.filter_subtree hw hs
  rw [← ofPairs_onPath] at hcan hat
  refine ⟨⟨[], ⟨hat, hunion.agenda, ZipTraverser.advance_canPrune hcan hat⟩, ?_, ⟨rfl, rfl, rfl⟩,
    hcontinues, hL.nodup, fun p hp => ?_⟩,
    fun v c rest heq => pathOf_suffix_iff.mp
      (parent_suffix hcontinues heq)⟩
  · show (ZipStateTraverser.advance? _).isSome = true
    rw [ZipTraverser.advance?_eq (of_decide_eq_true hcan)]
    rfl
  · rcases List.mem_cons.mp hp with rfl | hp
    · exact ⟨[], List.nil_prefix⟩
    · exact hL.beginsText hu.holds htext hp

/-! ## What is found -/

/-- Where a key is found: the exact prefix in the oldest dictionary, all others in the newest. -/
def source (ds : List Dictionary) (q : List Char) (n : Nat) (k : List Char) : Option Dictionary :=
  if k = q.take n then oldest ds (bytesOf k) else newest ds (bytesOf k)

/-- A near key is in a dictionary with a path for the exact prefix. -/
theorem Near.exists_onPath (hd : ∀ d ∈ ds, Holds d.1 d.2) (hu : IsMerge ds u) {k : List Char}
    (hk : Near u q n dist k) :
    ∃ d, d ∈ onPath ds (bytesOf (q.take n)) ∧ hasKey d (bytesOf k) = true := by
  obtain ⟨d, hm, hkd⟩ := hu.hasKey_iff.mp (decide_eq_true hk.key)
  obtain ⟨v, rfl⟩ := hk.exactPrefix
  have hkd' := hkd
  rw [bytesOf_append] at hkd'
  exact ⟨d, onPath_of_hasKey hd hm hkd', hkd⟩

/-- Every key of the merged dictionary is found somewhere. -/
theorem source_of_mem (hu : IsMerge ds u) {k : List Char} (hk : bytesOf k ∈ keysOf u.2) :
    source ds q n k = some ((source ds q n k).getD u) := by
  obtain ⟨d, hm, hkd⟩ := hu.hasKey_iff.mp (decide_eq_true hk)
  rw [source]
  split
  · obtain ⟨d', hold⟩ : ∃ d', oldest ds (bytesOf k) = some d' :=
      Option.isSome_iff_exists.mp (List.find?_isSome.mpr ⟨d, hm, hkd⟩)
    rw [hold, Option.getD_some]
  · obtain ⟨d', hnew⟩ := exists_newest hkd hm
    rw [hnew, Option.getD_some]

/-- Behind the exact prefix the zipped traverser reads the value of the newest dictionary. -/
theorem foundNewest_pathOf (hd : ∀ d ∈ ds, Holds d.1 d.2) (hu : IsMerge ds u) {k : List Char}
    (hne : k ≠ []) (hk : bytesOf (q.take n ++ k) ∈ keysOf u.2) :
    foundNewest ds (bytesOf (q.take n)) (pathOf k) =
      (((source ds q n (q.take n ++ k)).getD u).1,
        valueOf ((source ds q n (q.take n ++ k)).getD u) (bytesOf (q.take n ++ k))) := by
  obtain ⟨d, hm, hkd⟩ := hu.hasKey_iff.mp (decide_eq_true hk)
  obtain ⟨d', hnew⟩ := exists_newest hkd hm
  have hneq : q.take n ++ k ≠ q.take n := fun heq => hne (by simpa using heq)
  rw [source, if_neg hneq, hnew, Option.getD_some, foundNewest, pathOf, List.reverse_reverse,
    newest_onPath hd, ← bytesOf_append, hnew]

/-- The loop over the dictionaries with the exact prefix ends at the oldest that has it as a key. -/
theorem find_exactPrefix (hd : ∀ d ∈ ds, Holds d.1 d.2) (near : Bool) :
    ((onPath ds (bytesOf (q.take n))).map fun d => (d.1, stateAt d (bytesOf (q.take n)))).find?
        (fun f => f.1.isFinalState f.2 && near) =
      if near = true then
        (oldest ds (bytesOf (q.take n))).map fun d => (d.1, stateAt d (bytesOf (q.take n)))
      else none := by
  cases near with
  | true =>
    rw [if_pos rfl, ← fsaStartStatePairs_eq, ← firstFinal_eq hd, firstFinal]
    simp only [Bool.and_true]
  | false =>
    rw [if_neg Bool.false_ne_true, List.find?_eq_none]
    simp

/-- The loop over the dictionaries with the exact prefix: it ends without a match, and the exact
prefix is no near key, or it leaves the match of the exact prefix. -/
theorem exactPrefix_spec (hd : ∀ d ∈ ds, Holds d.1 d.2) (hu : IsMerge ds u) (hq : q ≠ [])
    (hn : n ≤ q.length) (hdist : dist < 2 ^ 31) (memory : Nat → Nat → Nat) :
    let exact := bytesOf (q.take n)
    let metric := metricOf memory q dist n
    let pair := ((onPath ds exact).map fun d => (d.1, stateAt d exact)).find? fun f =>
      f.1.isFinalState f.2 && decide (metric.getScore ≤ dist)
    (pair = none ∧ ¬ Near u q n dist (q.take n)) ∨
      ∃ d, pair = some (d.1, stateAt d exact) ∧ Near u q n dist (q.take n) ∧
        getCandidate metric 0 = some exact ∧
        Match.make 0 n exact metric.getScore d.1 (valueOf d exact) =
          textMatch ((source ds q n (q.take n)).getD u) q (q.take n) := by
  dsimp only
  have hpos : bytesOf (q.take n) ∈ keysOf u.2 → 0 < n := by
    intro hkey
    refine Nat.pos_of_ne_zero fun hzero => hu.holds.nonempty ?_
    rw [hzero, List.take_zero, bytesOf_nil] at hkey
    exact hkey
  rw [find_exactPrefix hd]
  by_cases hle : (metricOf memory q dist n).getScore ≤ dist
  · rw [if_pos (decide_eq_true hle)]
    have hfrom : source ds q n (q.take n) = oldest ds (bytesOf (q.take n)) := if_pos rfl
    cases hold : oldest ds (bytesOf (q.take n)) with
    | none =>
      refine .inl ⟨rfl, fun hnear => ?_⟩
      have hsome := source_of_mem (q := q) (n := n) hu hnear.key
      rw [hfrom, hold] at hsome
      cases hsome
    | some d =>
      have hkd : hasKey d (bytesOf (q.take n)) = true :=
        List.find?_some (p := fun d => hasKey d (bytesOf (q.take n))) hold
      have hkey : bytesOf (q.take n) ∈ keysOf u.2 :=
        of_decide_eq_true (hu.hasKey_iff.mpr ⟨d, List.mem_of_find?_eq_some hold, hkd⟩)
      have hnear : Near u q n dist (q.take n) :=
        (metricOf_score_le_iff hq hn memory hkey (hpos hkey)).mp hle
      obtain ⟨hcandidate, hmake⟩ := hnear.firstMatch_eq hq hn hdist memory (hpos hkey) d
      exact .inr ⟨d, rfl, hnear, hcandidate, by rw [hmake, hfrom, hold, Option.getD_some]⟩
  · rw [if_neg (by simpa using hle)]
    exact .inl ⟨rfl, fun hnear => hle
      ((metricOf_score_le_iff hq hn memory hnear.key (hpos hnear.key)).mpr hnear)⟩

/-- The keys that are found once the exact prefix has matched in some dictionary. -/
theorem matched_merges (hd : ∀ d ∈ ds, Holds d.1 d.2) (hu : IsMerge ds u)
    (htext : ∀ d ∈ ds, ∀ k ∈ keysOf d.2, ∃ s, k = bytesOf s)
    (hq : q ≠ []) (hn : n ≤ q.length) (hdist : dist < 2 ^ 31)
    (hnil : onPath ds (bytesOf (q.take n)) ≠ []) {fuel : Nat}
    (hfuel : (pathsBehind ds u (bytesOf (q.take n))).length < fuel) (memory : Nat → Nat → Nat) :
    ∃ found, (fromMulipleFsasWithMatchedExactPrefix memory fuel
        ((onPath ds (bytesOf (q.take n))).map fun d => (d.1, stateAt d (bytesOf (q.take n))))
        (bytesOf q) dist n).bind (allMatches fuel) = some found ∧
      (∀ x, x ∈ found ↔ ∃ k d, Near u q n dist k ∧ source ds q n k = some d ∧ x = textMatch d q k) ∧
      (found.map Match.matchedString).Nodup := by
  have htext' : ∀ k ∈ keysOf u.2, ∃ s, k = bytesOf s := by
    intro k hk
    obtain ⟨d, hm, hkd⟩ := hu.hasKey_iff.mp (decide_eq_true hk)
    exact htext d hm k (of_decide_eq_true hkd)
  have hall : ∀ x, (∃ k d, Near u q n dist k ∧ source ds q n k = some d ∧ x = textMatch d q k) ↔
      ∃ k, Near u q n dist k ∧ x = textMatch ((source ds q n k).getD u) q k := by
    intro x
    constructor
    · rintro ⟨k, d, hnear, hs, rfl⟩
      exact ⟨k, hnear, by rw [hs, Option.getD_some]⟩
    · rintro ⟨k, hnear, rfl⟩
      exact ⟨k, _, hnear, source_of_mem hu hnear.key, rfl⟩
  simp only [hall]
  rw [fromMulipleFsasWithMatchedExactPrefix, if_neg (by simpa using hnil)]
  have hfollows : Follows _ (keyBehind u (bytesOf (q.take n))) _ :=
    follows_zip_canPrune hd hu (bytesOf (q.take n))
  have hwraps := wraps_zip
    (wellFormed_onPath (bytesOf (q.take n)) hd (Nat.le_add_right (bound ds) (depthOf u.2)))
  obtain ⟨t, ht, hremaining⟩ := (before_zip hd hu.isUnion htext' hnil).advance hwraps hfuel
  rw [CodePointStateTraverser.ofTraverser, ht, Option.bind_some, utf8to32_bytesOf]
  rw [show (List.range n).foldl
    (fun w i => (NeedlemanWunsch.put damerauLevenshtein w ((codepointsOf q).getD i 0) i).2)
      (NeedlemanWunsch.new damerauLevenshtein memory (codepointsOf q) 20 dist) =
        metricOf memory q dist n from rfl]
  have hmatches := allMatches_spec dist hwraps hfollows hq hn hremaining hfuel memory
  have hspec : ∀ first, (∀ x, first = some x ↔ Near u q n dist (q.take n) ∧
      x = textMatch ((source ds q n (q.take n)).getD u) q (q.take n)) → _ :=
    fun first hfirst => found_spec first (foundNewest ds (bytesOf (q.take n))) hu.holds htext' hdist
      (listsBehind_pathsBehind hd hu.isUnion (bytesOf (q.take n)))
      (fun k => (source ds q n k).getD u)
      (fun k hne hnear => foundNewest_pathOf hd hu hne hnear.key) hfirst
  obtain ⟨hpair, hnot⟩ | ⟨d, hpair, hnear, hcandidate, hmake⟩ :=
    exactPrefix_spec hd hu hq hn hdist memory
  · rw [hpair]
    dsimp only
    rw [Option.bind_some, hmatches]
    exact ⟨_, rfl, hspec _ fun x => iff_of_false (by simp) fun hx => hnot hx.1⟩
  · rw [hpair]
    dsimp only
    rw [hcandidate, Option.map_some, Option.bind_some, hmatches]
    refine ⟨_, rfl, hspec _ fun x => ?_⟩
    rw [Option.some.injEq, show d.1.getStateValue
      (stateAt d (bytesOf (q.take n))) = valueOf d (bytesOf (q.take n)) from rfl, hmake, eq_comm]
    exact (and_iff_right hnear).symm

/-- **Several dictionaries**: what is found are the near keys of the merged dictionary, each once. The
exact prefix has the value of the oldest dictionary, every other key that of the newest. -/
theorem fuzzyMatching_merges (hd : ∀ d ∈ ds, Holds d.1 d.2) (hu : IsMerge ds u)
    (htext : ∀ d ∈ ds, ∀ k ∈ keysOf d.2, ∃ s, k = bytesOf s)
    (hq : q ≠ []) (hn : n ≤ q.length) (hdist : dist < 2 ^ 31) {fuel : Nat}
    (hfuel : (pathsBehind ds u (bytesOf (q.take n))).length < fuel) (memory : Nat → Nat → Nat) :
    ∃ found, (fromMulipleFsas memory fuel (ds.map Prod.fst) (bytesOf q) dist n).bind
        (allMatches fuel) = some found ∧
      (∀ x, x ∈ found ↔ ∃ k d, Near u q n dist k ∧ source ds q n k = some d ∧ x = textMatch d q k) ∧
      (found.map Match.matchedString).Nodup := by
  rw [fromMulipleFsas, filterWithExactPrefix_spec hn, Option.bind_some]
  by_cases hnil : onPath ds (bytesOf (q.take n)) = []
  · -- Without a path for the exact prefix there is no near key.
    rw [hnil, List.map_nil, fromMulipleFsasWithMatchedExactPrefix, if_pos rfl, Option.bind_some,
      allMatches_empty (by omega)]
    refine ⟨[], rfl, fun x => iff_of_false List.not_mem_nil fun ⟨k, _, hk, _⟩ => ?_, .nil⟩
    obtain ⟨d, hm⟩ := hk.exists_onPath hd hu
    exact List.ne_nil_of_mem hm.1 hnil
  · exact matched_merges hd hu htext hq hn hdist hnil hfuel memory

/-- The query `61 63` over two dictionaries, the newer with another value of `61 62`. -/
theorem fuzzyMatching_merges_two : ∃ found,
    (fromMulipleFsas (fun _ _ => 0) 100 ([keyAB, keysABAC].map Prod.fst) (bytesOf ['a', 'c'])
        1 1).bind (allMatches 100) = some found ∧
    (∀ x, x ∈ found ↔ ∃ k d, Near keysABAC ['a', 'c'] 1 1 k ∧
      source [keyAB, keysABAC] ['a', 'c'] 1 k = some d ∧ x = textMatch d ['a', 'c'] k) ∧
    (found.map Match.matchedString).Nodup :=
  fuzzyMatching_merges holds_newer isMerge_newer texts_keysABAC (by simp) (by decide) (by decide)
    (by decide +kernel) fun _ _ => 0

end

end FuzzyMatching

end Keyvi.Matching
