import Mathlib
import Keyvi.Matching.FuzzyCompletions

/-!
# Fuzzy matching

`fuzzy_matching.h` on one automaton. The first code points of the query are walked exactly, by bytes;
below, a path is pruned when its row of the distance, or its length, is out of reach. What is returned
are the keys within the distance, each once, in the order of the traversal.
-/

namespace Keyvi.Matching

open Fsa Automata Dictionary Utf8 Stringdistance StringAlignment

/-- `FuzzyMatching`. -/
structure FuzzyMatching (T : Type) where
  metric : Option NeedlemanWunsch
  traverser : Option (CodePointStateTraverser T)
  maxEditDistance : Nat
  exactPrefix : Nat
  firstMatch : Option Match

namespace FuzzyMatching

/-- `FuzzyMatching()`. -/
def empty {T : Type} : FuzzyMatching T := ⟨none, none, 0, 0, none⟩

/-- The loop of the exact match: the state and the depth. -/
def matchExact (fsa : Automata) (query : Key) : Nat → Nat → Nat → Nat → Option (Nat × Nat)
  | 0, state, _, depth => some (state, depth)
  | n + 1, state, utf8Depth, depth =>
    if state = 0 then some (state, depth)
    else
      (getCharLength (query.getD utf8Depth 0)).bind fun codePointLength =>
        let next := FuzzyMultiwordCompletionMatching.matchCodepoint fsa query codePointLength state
          utf8Depth
        matchExact fsa query n next.1 next.2 (depth + 1)

/-- `FromSingleFsaWithMatchedExactPrefix`. Cells of the metric that were not set hold what the memory
holds. -/
def fromSingleFsaWithMatchedExactPrefix (memory : Nat → Nat → Nat) (fuel : Nat) (fsa : Automata)
    (startState : Nat) (query : Key) (maxEditDistance exactPrefix : Nat) :
    Option (FuzzyMatching WeightedStateTraverser) :=
  if startState = 0 then some empty
  else
    let codepoints := utf8to32 query
    let metric := (List.range exactPrefix).foldl
      (fun w i => (NeedlemanWunsch.put damerauLevenshtein w (codepoints.getD i 0) i).2)
      (NeedlemanWunsch.new damerauLevenshtein memory codepoints 20 maxEditDistance)
    (CodePointStateTraverser.ofTraverser fuel
      (StateTraverser.ofState fsa startState default false : WeightedStateTraverser)).bind
      fun traverser =>
        if fsa.isFinalState startState && decide (metric.getScore ≤ maxEditDistance) then
          (getCandidate metric 0).map fun candidate =>
            ⟨some metric, some traverser, maxEditDistance, exactPrefix,
              some (.make 0 exactPrefix candidate metric.getScore fsa (fsa.getStateValue startState))⟩
        else some ⟨some metric, some traverser, maxEditDistance, exactPrefix, none⟩

/-- `FromSingleFsa`. -/
def fromSingleFsa (memory : Nat → Nat → Nat) (fuel : Nat) (fsa : Automata) (query : Key)
    (maxEditDistance minimumExactPrefix : Nat) : Option (FuzzyMatching WeightedStateTraverser) :=
  (matchExact fsa query minimumExactPrefix fsa.getStartState 0 0).bind fun r =>
    if r.2 ≠ minimumExactPrefix then some empty
    else fromSingleFsaWithMatchedExactPrefix memory fuel fsa r.1 query maxEditDistance
      minimumExactPrefix

variable {T : Type} [InnerTraverser T]

/-- `NextMatch`, at most `rounds` rounds of its loop. -/
def nextMatch (fuel : Nat) : Nat → FuzzyMatching T → Option (Option Match × FuzzyMatching T)
  | 0, _ => none
  | rounds + 1, m =>
    match m.traverser, m.metric with
    | some t, some w =>
      if t.alive then
        let candidateLength := m.exactPrefix + t.getDepth
        let put := NeedlemanWunsch.put damerauLevenshtein w t.getStateLabel (candidateLength - 1)
        if put.2.inputSequence.length > candidateLength ∧ put.1 > m.maxEditDistance ∨
            put.2.inputSequence.length + m.maxEditDistance < candidateLength then
          (t.prune.bind fun t => t.advance fuel).bind fun t =>
            nextMatch fuel rounds { m with traverser := some t, metric := some put.2 }
        else if t.isFinalState && decide (put.2.getScore ≤ m.maxEditDistance) then
          (getCandidate put.2 0).bind fun candidate =>
            (t.advance fuel).map fun t' =>
              (some (.make 0 candidateLength candidate put.2.getScore t.getFsa t.getStateValue),
                { m with traverser := some t', metric := some put.2 })
        else
          (t.advance fuel).bind fun t =>
            nextMatch fuel rounds { m with traverser := some t, metric := some put.2 }
      else some (none, m)
    | _, _ => some (none, m)

/-- The matches of `NextMatch` until there is none, at most `n` calls. -/
def nextMatches (fuel rounds : Nat) : Nat → FuzzyMatching T → Option (List Match)
  | 0, _ => none
  | n + 1, m =>
    (nextMatch fuel rounds m).bind fun next =>
      match next.1 with
      | none => some []
      | some found => (nextMatches fuel rounds n next.2).map (found :: ·)

/-- All matches, the first one included. -/
def allMatches (fuel : Nat) (m : FuzzyMatching T) : Option (List Match) :=
  (nextMatches fuel fuel fuel m).map (m.firstMatch.toList ++ ·)

end FuzzyMatching

/-! ## The metric -/

theorem put_lastPutPosition (cost : CostFunction) (w : NeedlemanWunsch) (codepoint position : Nat) :
    (NeedlemanWunsch.put cost w codepoint position).2.lastPutPosition = position := by
  unfold NeedlemanWunsch.put
  dsimp only
  split_ifs <;> rfl

/-- The metric has the code points of a text. -/
structure DistanceOk (input : List Nat) (d : Nat) (g : List Char) (w : NeedlemanWunsch) : Prop where
  inv : ∃ path, NeedlemanWunsch.Inv input d path w ∧ codepointsOf g <+: path

theorem DistanceOk.restrict {input : List Nat} {d : Nat} {g v : List Char} {w : NeedlemanWunsch}
    (h : DistanceOk input d g w) (hv : v <+: g) : DistanceOk input d v w := by
  obtain ⟨path, hinv, hg⟩ := h.inv
  obtain ⟨u, rfl⟩ := hv
  rw [codepointsOf_append] at hg
  exact ⟨path, hinv, (List.prefix_append _ _).trans hg⟩

/-- What is out of reach stays there. -/
def OutOfReach (d : Nat) (path input : List Nat) : Prop :=
  ∀ more, d < Stringdistance.distance (path ++ more) input

/-- The test on the score is the test on the distance. -/
theorem score_le_iff {d score dist : Nat} (h : Agrees d score dist) : score ≤ d ↔ dist ≤ d := by
  constructor
  · intro hle
    by_contra hlt
    exact absurd (h.2 (not_le.mp hlt)) (not_lt.mpr hle)
  · intro hle
    rw [h.1 hle]
    exact hle

/-- **One `Put`** of the code point behind a text. -/
theorem DistanceOk.put {input : List Nat} {d : Nat} {v : List Char} {c : Char} {w : NeedlemanWunsch}
    (hne : input ≠ []) (h : DistanceOk input d v w) {w' : NeedlemanWunsch} {score : Nat}
    (hput : NeedlemanWunsch.put damerauLevenshtein w c.toNat v.length = (score, w')) :
    DistanceOk input d (v ++ [c]) w' ∧ w'.inputSequence = input ∧
      (d < score → v.length + 1 < input.length → OutOfReach d (codepointsOf (v ++ [c])) input) ∧
      (v.length + 1 ≤ input.length + d →
        Agrees d w'.getScore (Stringdistance.distance (codepointsOf (v ++ [c])) input)) ∧
      getCandidate w' 0 = some (bytesOf (v ++ [c])) := by
  obtain ⟨path, hinv, hg⟩ := h.inv
  have hlen : v.length ≤ path.length := by simpa using hg.length_le
  obtain ⟨hinv', hscore⟩ := hinv.put hne (p := (c.toNat, v.length)) hlen
  have hlast : w'.lastPutPosition = v.length := by
    have hlast := put_lastPutPosition damerauLevenshtein w c.toNat v.length
    rwa [hput] at hlast
  have hpath := putPath_codepointsOf hg c
  rw [hpath, hput] at hinv'
  rw [hpath, hput] at hscore
  have hlength : (codepointsOf (v ++ [c])).length = v.length + 1 := by simp
  refine ⟨⟨_, hinv', List.prefix_rfl⟩, hinv'.inputSequence, fun hd hshort more => ?_, fun hle => ?_, ?_⟩
  · refine NeedlemanWunsch.lt_distance_append (fun j hj => ?_) more
    rw [hlength]
    exact hscore hd hshort j hj
  · have hagrees := hinv'.getScore_agrees (List.length_pos_iff.mp (by omega))
    rwa [hlength, Nat.min_eq_left hle, ← hlength] at hagrees
  · exact getCandidate_eq hinv'.compareSequence (by simp [hlast]) (Nat.zero_le _)

/-! ## The matches of a run -/

namespace FuzzyMatching

/-- The distance of a key to the query, over code points. -/
def scoreOf (query key : Key) : Nat := Stringdistance.distance (utf8to32 key) (utf8to32 query)

/-- The match of a key, where it was found. -/
def matchOf (found : Automata × Nat) (query key : Key) : Match :=
  .make 0 (utf8to32 key).length key (scoreOf query key) found.1 found.2

/-- A path behind the exact prefix that ends in a key within the distance. -/
def within (d : Dictionary) (query exact : Key) (maxEditDistance : Nat) (p : List Byte) : Bool :=
  keyBehind d exact p && decide (scoreOf query (exact ++ p.reverse) ≤ maxEditDistance)

section

variable {T : Type} [InnerTraverser T] {R : T → List (List Byte) → Prop} {fuel : Nat}
  {t : CodePointStateTraverser T} {g v : List Char} {c : Char} {L : List (List Byte)}

variable {d : Dictionary} {q : List Char} {n dist : Nat} {found : List Byte → Automata × Nat}

/-- What holds of the matcher when its traverser goes on from a prefix of `g`. -/
structure Running (q : List Char) (n dist : Nat) (g : List Char) (m : FuzzyMatching T) : Prop where
  maxEditDistance : m.maxEditDistance = dist
  exactPrefix : m.exactPrefix = n
  metric : ∃ w, m.metric = some w ∧ DistanceOk (codepointsOf q) dist (q.take n ++ g) w

theorem scoreOf_text (q u : List Char) : scoreOf (bytesOf q) (bytesOf u) =
    Stringdistance.distance (codepointsOf u) (codepointsOf q) := by
  rw [scoreOf, utf8to32_bytesOf, utf8to32_bytesOf]

theorem within_pathOf (u : List Char) : within d (bytesOf q) (bytesOf (q.take n)) dist (pathOf u) =
    (hasKey d (bytesOf (q.take n ++ u)) &&
      decide (Stringdistance.distance (codepointsOf (q.take n ++ u)) (codepointsOf q) ≤ dist)) := by
  rw [within, keyBehind, pathOf, List.reverse_reverse, ← bytesOf_append, scoreOf_text]

/-- Below a path that is out of reach nothing is within the distance. -/
theorem not_within_of_outOfReach {u : List Char}
    (hout : OutOfReach dist (codepointsOf (q.take n ++ u)) (codepointsOf q)) {p : List Byte}
    (hp : complete p = true) (htext : BeginsText p) (hup : pathOf u <:+ p) :
    within d (bytesOf q) (bytesOf (q.take n)) dist p = false := by
  obtain ⟨s, hs⟩ := htext
  obtain ⟨s, -, hs⟩ := exists_text hs (of_decide_eq_true hp)
  obtain rfl : p = pathOf s := by rw [pathOf, ← hs, List.reverse_reverse]
  obtain ⟨more, rfl⟩ := pathOf_suffix_iff.mp hup
  have hfar := hout (codepointsOf more)
  rw [← codepointsOf_append, List.append_assoc] at hfar
  rw [within_pathOf, decide_eq_false (not_le.mpr hfar), Bool.and_false]

/-- Pruning below a text drops none of the texts within the distance when none is at or below it. -/
theorem filter_pruned {near : List Byte → Bool} {u : List Char} {L : List (List Byte)}
    (hnot : ∀ p ∈ pathOf u :: L, complete p = true → pathOf u <:+ p → near p = false) :
    ((L.filter complete).filter fun p => ¬ pathOf u <:+ p).filter near =
      (pathOf u :: L.filter complete).filter near := by
  rw [List.filter_cons_of_neg (by
    rw [hnot _ List.mem_cons_self (complete_pathOf _) List.suffix_rfl]
    exact Bool.false_ne_true)]
  rw [List.filter_filter, List.filter_filter, List.filter_filter]
  refine List.filter_congr fun p hp => ?_
  by_cases hsuffix : pathOf u <:+ p
  · by_cases hcomplete : complete p = true
    · rw [hnot p (List.mem_cons_of_mem _ hp) hcomplete hsuffix]
      simp
    · simp [hcomplete]
  · simp [hsuffix]

/-- What one call of `NextMatch` gives when the texts `M` are left: the first one that is within the
distance, and what is left behind it. -/
def Answered (R : T → List (List Byte) → Prop) (fuel : Nat) (d : Dictionary) (q : List Char)
    (n dist : Nat) (found : List Byte → Automata × Nat) (M : List (List Byte))
    (r : Option (Option Match × FuzzyMatching T)) : Prop :=
  ∃ answer m', r = some (answer, m') ∧
    match M.filter (within d (bytesOf q) (bytesOf (q.take n)) dist) with
    | [] => answer = none
    | p :: rest => answer = some (matchOf (found p) (bytesOf q) (bytesOf (q.take n) ++ p.reverse)) ∧
      ∃ t' g' M', m'.traverser = some t' ∧ Remaining R fuel t' g' M' ∧ Running q n dist g' m' ∧
        M'.filter (within d (bytesOf q) (bytesOf (q.take n)) dist) = rest ∧ M'.length < M.length

omit [InnerTraverser T] in
/-- More texts that are not within the distance change nothing. -/
theorem Answered.mono {M M' : List (List Byte)} {r : Option (Option Match × FuzzyMatching T)}
    (h : Answered R fuel d q n dist found M r)
    (hsame : M.filter (within d (bytesOf q) (bytesOf (q.take n)) dist) =
      M'.filter (within d (bytesOf q) (bytesOf (q.take n)) dist)) (hle : M.length ≤ M'.length) :
    Answered R fuel d q n dist found M' r := by
  obtain ⟨answer, m', hr, hanswer⟩ := h
  refine ⟨answer, m', hr, ?_⟩
  rw [hsame] at hanswer
  split at hanswer
  · exact hanswer
  · obtain ⟨hx, t', g', M'', h1, h2, h3, h4, h5⟩ := hanswer
    exact ⟨hx, t', g', M'', h1, h2, h3, h4, h5.trans_le hle⟩

/-- The rest of a call, from the next text on. -/
theorem answered_next {rounds : Nat} {t : CodePointStateTraverser T} {g : List Char}
    {M M' : List (List Byte)}
    (hcall : ∀ {m : FuzzyMatching T} {t : CodePointStateTraverser T} {g : List Char}
      {M : List (List Byte)}, m.traverser = some t → Remaining R fuel t g M →
      Running q n dist g m → M.length < rounds →
      Answered R fuel d q n dist found M (nextMatch fuel rounds m))
    {t' : Option (CodePointStateTraverser T)} (ht : t' = some t) (hremaining : Remaining R fuel t g M)
    {m : FuzzyMatching T} (hrun : Running q n dist g { m with traverser := some t })
    (hk : M.length < rounds)
    (hsame : M.filter (within d (bytesOf q) (bytesOf (q.take n)) dist) =
      M'.filter (within d (bytesOf q) (bytesOf (q.take n)) dist)) (hle : M.length ≤ M'.length) :
    Answered R fuel d q n dist found M'
      (t'.bind fun t => nextMatch fuel rounds { m with traverser := some t }) := by
  rw [ht, Option.bind_some]
  exact (hcall rfl hremaining hrun hk).mono hsame hle

/-- The match of a text that is within the distance. -/
theorem answered_found (hw : Wraps R)
    (hf : Follows R (keyBehind d (bytesOf (q.take n))) found) (hn : n ≤ q.length)
    {t : CodePointStateTraverser T} {v : List Char} {c : Char} {L : List (List Byte)}
    (hat : AtPath R t (pathOf (v ++ [c])) L) (hfuel : L.length < fuel) {w : NeedlemanWunsch}
    (hagrees : Agrees dist w.getScore (Stringdistance.distance
      (codepointsOf (q.take n ++ (v ++ [c]))) (codepointsOf q)))
    (hcandidate : getCandidate w 0 = some (bytesOf (q.take n ++ (v ++ [c]))))
    (hfound : within d (bytesOf q) (bytesOf (q.take n)) dist (pathOf (v ++ [c])) = true)
    {m : FuzzyMatching T} (hrun : ∀ t' : CodePointStateTraverser T,
      Running q n dist (v ++ [c]) { m with traverser := some t' }) :
    Answered R fuel d q n dist found (pathOf (v ++ [c]) :: L.filter complete)
      ((getCandidate w 0).bind fun candidate =>
        (t.advance fuel).map fun t' =>
          (some (.make 0 (n + (v.length + 1)) candidate w.getScore t.getFsa t.getStateValue),
            { m with traverser := some t' })) := by
  obtain ⟨t₁, ht₁, hremaining⟩ := (hat.before hw).advance hw hfuel
  refine ⟨_, _, by rw [hcandidate, Option.bind_some, ht₁, Option.map_some], ?_⟩
  rw [List.filter_cons_of_pos hfound]
  refine ⟨?_, t₁, v ++ [c], L.filter complete, rfl, hremaining, hrun t₁, rfl, Nat.lt_succ_self _⟩
  rw [within_pathOf (v ++ [c]), Bool.and_eq_true] at hfound
  have hkey : keyBehind d (bytesOf (q.take n)) (pathOf (v ++ [c])) = true := by
    rw [keyBehind, pathOf, List.reverse_reverse, ← bytesOf_append]
    exact hfound.1
  have hlength : (q.take n ++ (v ++ [c])).length = n + (v.length + 1) := by
    rw [length_take_append hn, List.length_append, List.length_singleton]
  rw [← hf.finds _ _ _ hat.here hkey, pathOf, List.reverse_reverse, ← bytesOf_append, matchOf,
    scoreOf_text, utf8to32_bytesOf, length_codepointsOf, hlength,
    ← hagrees.1 (of_decide_eq_true hfound.2)]
  rfl

/-- **One call of `NextMatch`** returns the first of the texts left that is within the distance, by
induction on its rounds. -/
theorem nextMatch_spec (hw : Wraps R)
    (hf : Follows R (keyBehind d (bytesOf (q.take n))) found)
    (hq : q ≠ []) (hn : n ≤ q.length) :
    ∀ (rounds : Nat) {m : FuzzyMatching T} {t : CodePointStateTraverser T} {g : List Char}
      {M : List (List Byte)}, m.traverser = some t → Remaining R fuel t g M → Running q n dist g m →
      M.length < rounds → Answered R fuel d q n dist found M (nextMatch fuel rounds m)
  | rounds + 1, m, t, g, _, ht, .ended hend, hrun, _ => by
    obtain ⟨w, hmetric, -⟩ := hrun.metric
    refine ⟨none, m, ?_, rfl⟩
    rw [nextMatch, ht, hmetric]
    exact if_neg (by
      rw [CodePointStateTraverser.alive, hw.exhausted _ hend.here]
      simp)
  | rounds + 1, m, t, g, _, ht, .here (v := v) (c := c) (L := L) hat hv hfuel, hrun, hk => by
    obtain ⟨metric, traverser, maxEditDistance, exactPrefix, firstMatch⟩ := m
    obtain ⟨hmax, hexact, w, hmetric, hok⟩ := hrun
    obtain rfl : dist = maxEditDistance := hmax.symm
    obtain rfl : n = exactPrefix := hexact.symm
    obtain rfl : traverser = some t := ht
    obtain rfl : metric = some w := hmetric
    rw [List.length_cons] at hk
    obtain ⟨halive, hlabel, hdepth⟩ := hat.label_depth hw
    have hposition : n + (v.length + 1) - 1 = (q.take n ++ v).length := by
      rw [length_take_append hn]
      rfl
    have hlen : (q.take n ++ v).length + 1 = n + (v.length + 1) := by
      rw [length_take_append hn]
      rfl
    have hinput : (codepointsOf q).length = q.length := length_codepointsOf q
    have hcall := @nextMatch_spec hw hf hq hn rounds
    generalize hput : NeedlemanWunsch.put damerauLevenshtein w c.toNat (q.take n ++ v).length = put
    obtain ⟨score, w'⟩ := put
    obtain ⟨hok', hsequence, hout, hagrees, hcandidate⟩ := (hok.restrict
      ((List.prefix_append_right_inj _).mpr hv)).put (codepointsOf_ne_nil hq) hput
    rw [hlen, List.append_assoc] at hout hagrees
    rw [List.append_assoc] at hok' hcandidate
    rw [nextMatch]
    dsimp only
    rw [if_pos halive, hlabel, hdepth, hposition, hput]
    dsimp only
    rw [hsequence, hinput]
    rw [hinput] at hout hagrees
    have hhere : ∀ t' : CodePointStateTraverser T, Running q n dist (v ++ [c])
        ⟨some w', some t', dist, n, firstMatch⟩ := fun t' => ⟨rfl, rfl, w', rfl, hok'⟩
    split
    · next hprune =>
      -- Nothing at or below the text is within the distance.
      have hfar : OutOfReach dist (codepointsOf (q.take n ++ (v ++ [c]))) (codepointsOf q) := by
        rcases hprune with ⟨hshort, hscore⟩ | hlong
        · exact hout hscore hshort
        · refine fun more => NeedlemanWunsch.lt_distance_of_length ?_
          simp only [List.length_append, length_codepointsOf, List.length_take_of_le hn,
            List.length_singleton]
          omega
      have hnot : ∀ p ∈ pathOf (v ++ [c]) :: L, complete p = true → pathOf (v ++ [c]) <:+ p →
          within d (bytesOf q) (bytesOf (q.take n)) dist p = false := fun p hp hcomplete hsuffix =>
        not_within_of_outOfReach hfar hcomplete (hat.text p hp) hsuffix
      obtain ⟨t₂, ht₂, hremaining⟩ := hat.prune_advance hw hfuel
      have hless : ((L.filter complete).filter fun q => ¬ pathOf (v ++ [c]) <:+ q).length ≤
          (L.filter complete).length := List.length_filter_le _ _
      refine answered_next hcall ht₂ hremaining
        (m := ⟨some w', some t, dist, n, firstMatch⟩) ?_ (by omega)
        (filter_pruned hnot) (hless.trans (Nat.le_succ _))
      exact ⟨rfl, rfl, w', rfl, hok'.restrict ((List.prefix_append_right_inj _).mpr
        (List.prefix_append _ _))⟩
    · next hkeep =>
      obtain ⟨-, hreach⟩ := not_or.mp hkeep
      have hagrees := hagrees (by omega)
      have hfinal : t.isFinalState = hasKey d (bytesOf (q.take n ++ (v ++ [c]))) := by
        rw [CodePointStateTraverser.isFinalState, hf.isFinal _ _ _ hat.here, keyBehind, pathOf,
          List.reverse_reverse, ← bytesOf_append]
      have hscore : decide (w'.getScore ≤ dist) = decide (Stringdistance.distance
          (codepointsOf (q.take n ++ (v ++ [c]))) (codepointsOf q) ≤ dist) :=
        decide_eq_decide.mpr (score_le_iff hagrees)
      rw [hfinal, hscore, ← within_pathOf (v ++ [c])]
      split
      · -- A key within the distance, so its match is returned.
        next hfound =>
        exact answered_found hw hf hn hat hfuel hagrees hcandidate hfound
          (m := ⟨some w', some t, dist, n, firstMatch⟩) hhere
      · next hskip =>
        obtain ⟨t₁, ht₁, hremaining⟩ := (hat.before hw).advance hw hfuel
        exact answered_next hcall ht₁ hremaining (m := ⟨some w', some t, dist, n, firstMatch⟩)
          (hhere t₁) (by omega) (List.filter_cons_of_neg hskip).symm (Nat.le_succ _)

/-- **All calls** return the texts left that are within the distance, by induction on them. -/
theorem nextMatches_spec (hw : Wraps R)
    (hf : Follows R (keyBehind d (bytesOf (q.take n))) found)
    (hq : q ≠ []) (hn : n ≤ q.length) (rounds : Nat) :
    ∀ (calls : Nat) {m : FuzzyMatching T} {t : CodePointStateTraverser T} {g : List Char}
      {M : List (List Byte)}, m.traverser = some t → Remaining R fuel t g M → Running q n dist g m →
      M.length < rounds → M.length < calls → nextMatches fuel rounds calls m =
        some ((M.filter (within d (bytesOf q) (bytesOf (q.take n)) dist)).map fun p =>
          matchOf (found p) (bytesOf q) (bytesOf (q.take n) ++ p.reverse))
  | calls + 1, m, t, g, M, ht, hremaining, hrun, hrounds, hcalls => by
    obtain ⟨r, m', hnext, hr⟩ := nextMatch_spec hw hf hq hn rounds ht hremaining hrun hrounds
    rw [nextMatches, hnext, Option.bind_some]
    split at hr
    · next hnil =>
      subst hr
      rw [hnil]
      rfl
    · next p rest hcons =>
      obtain ⟨rfl, t', g', M', ht', hremaining', hrun', hrest, hless⟩ := hr
      dsimp only
      rw [nextMatches_spec hw hf hq hn rounds calls ht' hremaining' hrun' (by omega) (by omega),
        hcons, hrest]
      rfl

end

/-! ## The exact prefix -/

section

variable {fsa : Automata} {query : Key}

theorem matchExact_zero (n utf8Depth depth : Nat) :
    matchExact fsa query n 0 utf8Depth depth = some (0, depth) := by
  cases n with
  | zero => rfl
  | succ n => exact if_pos rfl

/-- **The exact match** walks along the query, by induction on the code points that are left. -/
theorem matchExact_spec (fsa : Automata) : ∀ (n : Nat) (q₁ q₂ : List Char) (state : Nat),
    n ≤ q₂.length → ∃ depth, matchExact fsa (bytesOf (q₁ ++ q₂)) n state (bytesOf q₁).length
      q₁.length = some (fsa.walk state (bytesOf (q₂.take n)), depth) ∧
      (fsa.walk state (bytesOf (q₂.take n)) ≠ 0 → depth = q₁.length + n)
  | 0, q₁, q₂, state, _ => ⟨q₁.length, rfl, fun _ => rfl⟩
  | n + 1, q₁, [], _, hn => by simp at hn
  | n + 1, q₁, c :: q₂, state, hn => by
    by_cases h0 : state = 0
    · rw [h0, matchExact_zero, walk_zero]
      exact ⟨_, rfl, fun h => absurd rfl h⟩
    · obtain ⟨b, bs, hb, hlead, hwidth, -, -⟩ := encode_spec c
      have hfirst : (bytesOf (q₁ ++ c :: q₂)).getD (bytesOf q₁).length 0 = b := by
        rw [bytesOf_append, List.getD_append_right _ _ _ _ le_rfl, Nat.sub_self, bytesOf_cons, hb]
        rfl
      obtain ⟨utf8Depth, hmatch, hdepth⟩ := FuzzyMultiwordCompletionMatching.matchCodepoint_spec
        (bytesOf q₂) (encode c) (bytesOf q₁) h0
        (show bytesOf (q₁ ++ c :: q₂) = bytesOf q₁ ++ (encode c ++ bytesOf q₂) by simp)
      have hlength : (encode c).length = width b := by
        rw [hb, List.length_cons, hwidth]
      rw [hlength] at hmatch
      rw [matchExact, if_neg h0, hfirst, getCharLength_lead hlead, Option.bind_some]
      dsimp only
      rw [hmatch]
      have hwalk : fsa.walk state (bytesOf ((c :: q₂).take (n + 1))) =
          fsa.walk (fsa.walk state (encode c)) (bytesOf (q₂.take n)) := by
        rw [List.take_succ_cons, bytesOf_cons, walk_append]
      rw [hwalk]
      by_cases hnext : fsa.walk state (encode c) = 0
      · rw [hnext, matchExact_zero, walk_zero]
        exact ⟨_, rfl, fun h => absurd rfl h⟩
      · have hrest := matchExact_spec fsa n (q₁ ++ [c]) q₂ (fsa.walk state (encode c))
          (Nat.le_of_succ_le_succ hn)
        have hlength' : (bytesOf (q₁ ++ [c])).length = utf8Depth := by
          rw [hdepth hnext, bytesOf_append, bytesOf_cons, bytesOf_nil, List.append_nil]
        rw [List.append_assoc, List.singleton_append, hlength', List.length_append,
          List.length_singleton, Nat.add_assoc, Nat.add_comm 1 n] at hrest
        exact hrest

/-- The metric that has the first code points of the query. -/
def metricOf (memory : Nat → Nat → Nat) (q : List Char) (dist n : Nat) : NeedlemanWunsch :=
  (List.range n).foldl
    (fun w i => (NeedlemanWunsch.put damerauLevenshtein w ((codepointsOf q).getD i 0) i).2)
    (NeedlemanWunsch.new damerauLevenshtein memory (codepointsOf q) 20 dist)

theorem metricOf_succ {q : List Char} (memory : Nat → Nat → Nat) (dist : Nat) {n : Nat}
    (hlt : n < q.length) : metricOf memory q dist (n + 1) =
      (NeedlemanWunsch.put damerauLevenshtein (metricOf memory q dist n) q[n].toNat
        (q.take n).length).2 := by
  have hcode : (codepointsOf q).getD n 0 = q[n].toNat := by
    rw [List.getD_eq_getElem _ _ (by simpa using hlt)]
    exact List.getElem_map _
  have htake : (q.take n).length = n := by rw [List.length_take]; omega
  rw [metricOf, List.range_succ, List.foldl_append, List.foldl_cons, List.foldl_nil, hcode, htake]
  rfl

theorem distanceOk_metricOf {q : List Char} (hq : q ≠ []) (memory : Nat → Nat → Nat) (dist : Nat) :
    ∀ n ≤ q.length, DistanceOk (codepointsOf q) dist (q.take n) (metricOf memory q dist n)
  | 0, _ => ⟨[], NeedlemanWunsch.inv_new memory _ 20 dist, List.nil_prefix⟩
  | n + 1, hn => by
    rw [metricOf_succ memory dist hn, List.take_succ_eq_append_getElem hn]
    exact ((distanceOk_metricOf hq memory dist n (by omega)).put (codepointsOf_ne_nil hq) rfl).1

/-- The score and the candidate of an exact prefix that is not empty. -/
theorem metricOf_reads {q : List Char} (hq : q ≠ []) (memory : Nat → Nat → Nat) (dist : Nat) {n : Nat}
    (hpos : 0 < n) (hn : n ≤ q.length) :
    Agrees dist (metricOf memory q dist n).getScore
        (Stringdistance.distance (codepointsOf (q.take n)) (codepointsOf q)) ∧
      getCandidate (metricOf memory q dist n) 0 = some (bytesOf (q.take n)) := by
  obtain ⟨n, rfl⟩ := Nat.exists_eq_add_one_of_ne_zero hpos.ne'
  obtain ⟨-, -, -, hagrees, hcandidate⟩ := (distanceOk_metricOf hq memory dist n (by omega)).put
    (c := q[n]) (codepointsOf_ne_nil hq) rfl
  rw [metricOf_succ memory dist hn, List.take_succ_eq_append_getElem hn]
  refine ⟨hagrees ?_, hcandidate⟩
  rw [List.length_take, length_codepointsOf]
  omega

end

/-! ## All matches -/

section

variable {d : Dictionary} {q : List Char} {n dist : Nat}

/-- A key with the exact prefix of the query, within the distance. -/
structure Near (d : Dictionary) (q : List Char) (n dist : Nat) (k : List Char) : Prop where
  key : bytesOf k ∈ keysOf d.2
  exactPrefix : q.take n <+: k
  distance : Stringdistance.distance (codepointsOf k) (codepointsOf q) ≤ dist

/-- The match of a text: its score is the distance. -/
def textMatch (d : Dictionary) (q k : List Char) : Match :=
  ⟨0, k.length, bytesOf k, Stringdistance.distance (codepointsOf k) (codepointsOf q), d.1,
    valueOf d (bytesOf k)⟩

/-- The distance of a near key is not cut. -/
theorem Near.make_eq (hdist : dist < 2 ^ 31) {k : List Char} (hk : Near d q n dist k)
    (d' : Dictionary) : Match.make 0 k.length (bytesOf k)
      (Stringdistance.distance (codepointsOf k) (codepointsOf q)) d'.1 (valueOf d' (bytesOf k)) =
        textMatch d' q k := by
  have := hk.distance
  rw [Match.make, Nat.mod_eq_of_lt (by omega), textMatch]

theorem Near.matchOf_eq (hdist : dist < 2 ^ 31) {k : List Char} (hk : Near d q n dist k)
    (d' : Dictionary) : matchOf (d'.1, valueOf d' (bytesOf k)) (bytesOf q) (bytesOf k) =
      textMatch d' q k := by
  rw [matchOf, scoreOf_text, utf8to32_bytesOf, length_codepointsOf, hk.make_eq hdist]

theorem allMatches_empty {T : Type} [InnerTraverser T] {fuel : Nat} (h : 0 < fuel) :
    allMatches fuel (empty : FuzzyMatching T) = some [] := by
  obtain ⟨fuel, rfl⟩ := Nat.exists_eq_add_one_of_ne_zero h.ne'
  rfl

/-- A list has the paths behind a key, each once. -/
structure ListsBehind (d : Dictionary) (exact : Key) (L : List (List Byte)) : Prop where
  nodup : L.Nodup
  mem : ∀ p, p ∈ L ↔ p ≠ [] ∧ stateAt d (exact ++ p.reverse) ≠ 0

theorem listsBehind_heaviest (h : Holds d.1 d.2) (exact : Key) :
    ListsBehind d exact (heaviestBehind d exact) where
  nodup := nodup_heaviestBehind h
  mem p := by rw [mem_heaviestBehind h, stateAt_append]

section

variable {L : List (List Byte)} {first : Option Match} {found : List Byte → Automata × Nat}

/-- The paths begin texts. -/
theorem ListsBehind.beginsText (hL : ListsBehind d (bytesOf (q.take n)) L) (h : Holds d.1 d.2)
    (htext : ∀ k ∈ keysOf d.2, ∃ s, k = bytesOf s) {p : List Byte} (hp : p ∈ L) : BeginsText p := by
  obtain ⟨hne, hstate⟩ := (hL.mem p).mp hp
  obtain ⟨k, hk, hpre⟩ := (h.walk_ne_zero_iff (by simp [hne])).mp hstate
  obtain ⟨s, rfl⟩ := htext k hk
  obtain ⟨s, rfl⟩ := bytesOf_prefix_iff.mp ((List.prefix_append _ _).trans hpre)
  rw [bytesOf_append, List.prefix_append_right_inj] at hpre
  exact ⟨s, hpre⟩

/-- Every path that is left is that of a text. -/
theorem ListsBehind.exists_pathOf (hL : ListsBehind d (bytesOf (q.take n)) L) (h : Holds d.1 d.2)
    (htext : ∀ k ∈ keysOf d.2, ∃ s, k = bytesOf s) {p : List Byte} (hp : p ∈ L.filter complete) :
    ∃ k, p = pathOf k := by
  obtain ⟨hp, hcomplete⟩ := List.mem_filter.mp hp
  obtain ⟨s, hs⟩ := hL.beginsText h htext hp
  obtain ⟨s, -, hs⟩ := exists_text hs (of_decide_eq_true hcomplete)
  exact ⟨s, by rw [pathOf, ← hs, List.reverse_reverse]⟩

/-- The paths behind the exact prefix that are within the distance are those of the near keys. -/
theorem ListsBehind.mem_within (hL : ListsBehind d (bytesOf (q.take n)) L) (h : Holds d.1 d.2)
    {k : List Char} :
    pathOf k ∈ (L.filter complete).filter (within d (bytesOf q) (bytesOf (q.take n)) dist) ↔
      k ≠ [] ∧ Near d q n dist (q.take n ++ k) := by
  rw [List.mem_filter, List.mem_filter, hL.mem, within_pathOf, Bool.and_eq_true,
    decide_eq_true_eq, hasKey, decide_eq_true_eq]
  constructor
  · rintro ⟨⟨⟨hne, -⟩, -⟩, hkey, hdistance⟩
    exact ⟨fun hnil => hne (by rw [hnil]; rfl), hkey, List.prefix_append _ _, hdistance⟩
  · rintro ⟨hne, hkey, -, hdistance⟩
    have hpath : pathOf k ≠ [] := fun hnil => hne (pathOf_injective hnil)
    refine ⟨⟨⟨hpath, ?_⟩, complete_pathOf k⟩, hkey, hdistance⟩
    rw [pathOf, List.reverse_reverse]
    rw [bytesOf_append] at hkey
    exact (h.walk_ne_zero_iff (fun hnil => h.nonempty (hnil ▸ hkey))).mpr ⟨_, hkey, List.prefix_rfl⟩

variable (first found) in
/-- What is found by a matcher: the first match and the near keys behind the exact prefix. -/
theorem found_spec (h : Holds d.1 d.2) (htext : ∀ k ∈ keysOf d.2, ∃ s, k = bytesOf s)
    (hdist : dist < 2 ^ 31) (hL : ListsBehind d (bytesOf (q.take n)) L)
    (source : List Char → Dictionary)
    (hfound : ∀ k, k ≠ [] → Near d q n dist (q.take n ++ k) → found (pathOf k) =
      ((source (q.take n ++ k)).1, valueOf (source (q.take n ++ k)) (bytesOf (q.take n ++ k))))
    (hfirst : ∀ x, first = some x ↔
      Near d q n dist (q.take n) ∧ x = textMatch (source (q.take n)) q (q.take n)) :
    let all := first.toList ++ ((L.filter complete).filter
      (within d (bytesOf q) (bytesOf (q.take n)) dist)).map fun p =>
        matchOf (found p) (bytesOf q) (bytesOf (q.take n) ++ p.reverse)
    (∀ x, x ∈ all ↔ ∃ k, Near d q n dist k ∧ x = textMatch (source k) q k) ∧
      (all.map Match.matchedString).Nodup := by
  dsimp only
  have hmatch : ∀ k, k ≠ [] → Near d q n dist (q.take n ++ k) →
      matchOf (found (pathOf k)) (bytesOf q) (bytesOf (q.take n) ++ (pathOf k).reverse) =
        textMatch (source (q.take n ++ k)) q (q.take n ++ k) := fun k hne hnear => by
    rw [hfound k hne hnear, pathOf, List.reverse_reverse, ← bytesOf_append, hnear.matchOf_eq hdist]
  refine ⟨fun x => ?_, ?_⟩
  · rw [List.mem_append, Option.mem_toList, List.mem_map]
    constructor
    · rintro (hx | ⟨p, hp, rfl⟩)
      · obtain ⟨hnear, rfl⟩ := (hfirst x).mp hx
        exact ⟨_, hnear, rfl⟩
      · obtain ⟨k, rfl⟩ := hL.exists_pathOf h htext (List.mem_of_mem_filter hp)
        obtain ⟨hne, hnear⟩ := (hL.mem_within h).mp hp
        exact ⟨_, hnear, hmatch k hne hnear⟩
    · rintro ⟨k, hnear, rfl⟩
      obtain ⟨u, rfl⟩ := hnear.exactPrefix
      by_cases hu : u = []
      · subst hu
        rw [List.append_nil] at hnear ⊢
        exact .inl ((hfirst _).mpr ⟨hnear, rfl⟩)
      · exact .inr ⟨pathOf u, (hL.mem_within h).mpr ⟨hu, hnear⟩, hmatch u hu hnear⟩
  · rw [List.map_append, List.map_map]
    refine List.nodup_append.mpr ⟨?_, ?_, ?_⟩
    · cases first with
      | none => exact .nil
      | some x => exact List.nodup_singleton _
    · refine List.Nodup.map (fun (p p' : List Byte) hp => ?_) ((hL.nodup.filter _).filter _)
      exact List.reverse_injective (List.append_cancel_left hp)
    · intro w hw w' hw' heq
      obtain ⟨x, hx, rfl⟩ := List.mem_map.mp hw
      obtain ⟨p, hp, rfl⟩ := List.mem_map.mp hw'
      obtain ⟨-, rfl⟩ := (hfirst x).mp (Option.mem_toList.mp hx)
      have hne := ((hL.mem p).mp (List.mem_of_mem_filter (List.mem_of_mem_filter hp))).1
      have hnil : bytesOf (q.take n) = bytesOf (q.take n) ++ p.reverse := heq
      exact hne (by simpa using List.self_eq_append_right.mp hnil)

variable (dist) in
/-- The matches of a matcher whose traverser stands above the paths. -/
theorem allMatches_spec {T : Type} [InnerTraverser T] {R : T → List (List Byte) → Prop} {fuel : Nat}
    {t : CodePointStateTraverser T} (hw : Wraps R)
    (hf : Follows R (keyBehind d (bytesOf (q.take n))) found) (hq : q ≠ []) (hn : n ≤ q.length)
    (hremaining : Remaining R fuel t [] (L.filter complete)) (hfuel : L.length < fuel)
    (memory : Nat → Nat → Nat) (first : Option Match) :
    allMatches fuel ⟨some (metricOf memory q dist n), some t, dist, n, first⟩ =
      some (first.toList ++ ((L.filter complete).filter
        (within d (bytesOf q) (bytesOf (q.take n)) dist)).map fun p =>
          matchOf (found p) (bytesOf q) (bytesOf (q.take n) ++ p.reverse)) := by
  have hbound : (L.filter complete).length < fuel := (List.length_filter_le _ _).trans_lt hfuel
  rw [allMatches, nextMatches_spec hw hf hq hn fuel fuel
    (m := ⟨some (metricOf memory q dist n), some t, dist, n, first⟩) rfl hremaining
    ⟨rfl, rfl, _, rfl, ?_⟩ hbound hbound]
  · rfl
  · rw [List.append_nil]
    exact distanceOk_metricOf hq memory dist n hn

/-- The score of the exact prefix is within the distance when the prefix is near. -/
theorem metricOf_score_le_iff (hq : q ≠ []) (hn : n ≤ q.length) (memory : Nat → Nat → Nat)
    (hkey : bytesOf (q.take n) ∈ keysOf d.2) (hpos : 0 < n) :
    (metricOf memory q dist n).getScore ≤ dist ↔ Near d q n dist (q.take n) := by
  obtain ⟨hagrees, -⟩ := metricOf_reads hq memory dist hpos hn
  rw [score_le_iff hagrees]
  exact ⟨fun hle => ⟨hkey, List.prefix_rfl, hle⟩, fun hnear => hnear.distance⟩

/-- The match of the exact prefix. -/
theorem Near.firstMatch_eq (hq : q ≠ []) (hn : n ≤ q.length) (hdist : dist < 2 ^ 31)
    (memory : Nat → Nat → Nat) (hpos : 0 < n) (hnear : Near d q n dist (q.take n)) (d' : Dictionary) :
    getCandidate (metricOf memory q dist n) 0 = some (bytesOf (q.take n)) ∧
      Match.make 0 n (bytesOf (q.take n)) (metricOf memory q dist n).getScore d'.1
        (valueOf d' (bytesOf (q.take n))) = textMatch d' q (q.take n) := by
  obtain ⟨hagrees, hcandidate⟩ := metricOf_reads hq memory dist hpos hn
  have hlength : (q.take n).length = n := by rw [List.length_take]; omega
  have hmake := hnear.make_eq hdist d'
  rw [hlength] at hmake
  exact ⟨hcandidate, by rw [hagrees.1 hnear.distance]; exact hmake⟩

end

/-- The keys that are found once the exact prefix has matched. -/
theorem matched_finds (h : Holds d.1 d.2) (htext : ∀ k ∈ keysOf d.2, ∃ s, k = bytesOf s)
    (hq : q ≠ []) (hn : n ≤ q.length) (hdist : dist < 2 ^ 31)
    (h0 : stateAt d (bytesOf (q.take n)) ≠ 0) {fuel : Nat}
    (hfuel : (heaviestBehind d (bytesOf (q.take n))).length < fuel) (memory : Nat → Nat → Nat) :
    ∃ found, (fromSingleFsaWithMatchedExactPrefix memory fuel d.1 (stateAt d (bytesOf (q.take n)))
        (bytesOf q) dist n).bind (allMatches fuel) = some found ∧
      (∀ x, x ∈ found ↔ ∃ k, Near d q n dist k ∧ x = textMatch d q k) ∧
      (found.map Match.matchedString).Nodup := by
  rw [fromSingleFsaWithMatchedExactPrefix, if_neg h0]
  have hfollows := follows_weighted h (bytesOf (q.take n))
  obtain ⟨t, ht, hremaining⟩ := (FuzzyMultiwordCompletionMatching.before_start h htext
    h0).advance hfollows.wraps hfuel
  rw [CodePointStateTraverser.ofTraverser, ht, Option.bind_some, utf8to32_bytesOf]
  rw [show (List.range n).foldl
    (fun w i => (NeedlemanWunsch.put damerauLevenshtein w ((codepointsOf q).getD i 0) i).2)
      (NeedlemanWunsch.new damerauLevenshtein memory (codepointsOf q) 20 dist) =
        metricOf memory q dist n from rfl]
  have hmatches := allMatches_spec dist hfollows.wraps hfollows hq hn hremaining hfuel memory
  have hspec : ∀ first, (∀ x, first = some x ↔
      Near d q n dist (q.take n) ∧ x = textMatch d q (q.take n)) → _ :=
    fun first hfirst => found_spec first (foundSingle d (bytesOf (q.take n))) h htext hdist
      (listsBehind_heaviest h _) (fun _ => d) (fun k _ _ => by
        rw [foundSingle, pathOf, List.reverse_reverse, ← bytesOf_append]) hfirst
  have hfinal : d.1.isFinalState (stateAt d (bytesOf (q.take n))) = true ↔
      bytesOf (q.take n) ∈ keysOf d.2 := by
    rw [h.final]
    exact (and_iff_right h0).symm
  by_cases hkey : bytesOf (q.take n) ∈ keysOf d.2
  · have hpos : 0 < n := by
      refine Nat.pos_of_ne_zero fun hzero => h.nonempty ?_
      rw [hzero, List.take_zero, bytesOf_nil] at hkey
      exact hkey
    rw [hfinal.mpr hkey, Bool.true_and]
    by_cases hle : (metricOf memory q dist n).getScore ≤ dist
    · have hnear : Near d q n dist (q.take n) :=
        (metricOf_score_le_iff hq hn memory hkey hpos).mp hle
      obtain ⟨hcandidate, hmake⟩ := hnear.firstMatch_eq hq hn hdist memory hpos d
      rw [if_pos (decide_eq_true hle), hcandidate, Option.map_some, Option.bind_some, hmatches]
      refine ⟨_, rfl, hspec _ fun x => ?_⟩
      rw [Option.some.injEq, show d.1.getStateValue
        (stateAt d (bytesOf (q.take n))) = valueOf d (bytesOf (q.take n)) from rfl, hmake, eq_comm]
      exact (and_iff_right hnear).symm
    · rw [if_neg (by simpa using hle), Option.bind_some, hmatches]
      exact ⟨_, rfl, hspec _ fun x => iff_of_false (by simp) fun hx => hle
        ((metricOf_score_le_iff hq hn memory hkey hpos).mpr hx.1)⟩
  · have hnot : d.1.isFinalState (stateAt d (bytesOf (q.take n))) = false :=
      Bool.eq_false_iff.mpr fun hf => hkey (hfinal.mp hf)
    rw [hnot, Bool.false_and, if_neg Bool.false_ne_true, Option.bind_some, hmatches]
    exact ⟨_, rfl, hspec _ fun x => iff_of_false (by simp) fun hx => hkey hx.1.key⟩

/-- **Fuzzy matching finds the near keys**, each once and with its distance, whatever the memory
holds. -/
theorem fuzzyMatching_finds (h : Holds d.1 d.2) (htext : ∀ k ∈ keysOf d.2, ∃ s, k = bytesOf s)
    (hq : q ≠ []) (hn : n ≤ q.length) (hdist : dist < 2 ^ 31) {fuel : Nat}
    (hfuel : (heaviestBehind d (bytesOf (q.take n))).length < fuel) (memory : Nat → Nat → Nat) :
    ∃ found, (fromSingleFsa memory fuel d.1 (bytesOf q) dist n).bind (allMatches fuel) = some found ∧
      (∀ x, x ∈ found ↔ ∃ k, Near d q n dist k ∧ x = textMatch d q k) ∧
      (found.map Match.matchedString).Nodup := by
  obtain ⟨depth, hexact, hdepth⟩ := matchExact_spec d.1 n [] q d.1.getStartState hn
  rw [List.nil_append, bytesOf_nil, List.length_nil, List.length_nil] at hexact
  rw [List.length_nil, Nat.zero_add] at hdepth
  rw [fromSingleFsa, hexact, Option.bind_some]
  dsimp only
  by_cases h0 : stateAt d (bytesOf (q.take n)) = 0
  · -- Without a path for the exact prefix there is no near key.
    have hnone : ∀ k, ¬ Near d q n dist k := by
      intro k hk
      have hwalk := ((h.final _).mp hk.key).1
      obtain ⟨u, rfl⟩ := hk.exactPrefix
      rw [bytesOf_append, walk_append] at hwalk
      rw [stateAt] at h0
      rw [h0, walk_zero] at hwalk
      exact hwalk rfl
    have hempty : (if depth ≠ n then some empty else fromSingleFsaWithMatchedExactPrefix memory fuel
        d.1 (d.1.walk d.1.getStartState (bytesOf (q.take n))) (bytesOf q) dist n) = some empty := by
      split
      · rfl
      · exact if_pos h0
    rw [hempty, Option.bind_some, allMatches_empty (by omega)]
    refine ⟨[], rfl, fun x => iff_of_false List.not_mem_nil ?_, .nil⟩
    rintro ⟨k, hk, -⟩
    exact hnone k hk
  rw [if_neg (not_not.mpr (hdepth h0))]
  exact matched_finds h htext hq hn hdist h0 hfuel memory

/-- The key `61 62` is found for the query `61 63`. -/
theorem fuzzyMatching_finds_keyAB : ∃ found,
    (fromSingleFsa (fun _ _ => 0) 100 keyAB.1 (bytesOf ['a', 'c']) 1 1).bind (allMatches 100) =
      some found ∧
    (∀ x, x ∈ found ↔ ∃ k, Near keyAB ['a', 'c'] 1 1 k ∧ x = textMatch keyAB ['a', 'c'] k) ∧
    (found.map Match.matchedString).Nodup :=
  fuzzyMatching_finds (holds_of_mem keyAB (by simp)) (fun k hk => ⟨['a', 'b'], by
    rw [List.mem_singleton.mp hk]
    decide +kernel⟩) (by simp) (by decide) (by decide) (by decide +kernel) fun _ _ => 0

end

end FuzzyMatching

end Keyvi.Matching
