import Mathlib
import Keyvi.Matching.FuzzyMultiwordCompletionMatching

/-!
# The fuzzy completions of a dictionary

What `NextMatch` returns, in every run: a match is found at a key whose path is not pruned, and the
metric has its code points with those of the bag of words in front.
-/

namespace Keyvi.Matching

open Fsa Automata Dictionary Utf8 Stringdistance StringAlignment

/-! ## Runs -/

/-- What is said of a completion: it belongs to a key that begins with the first code points of the bag
of words, and its score is the distance of the bag of words to the best prefix of the key. -/
structure Belongs (d : Dictionary) (bow : List Char) (n maxEditDistance : Nat) (x : Match)
    (k : List Char) : Prop where
  key : bytesOf k ∈ keysOf d.2
  exactPrefix : bow.take n <+: k
  start : x.start = 0
  endPosition : x.endPosition = k.length
  matchedString : ∃ pos, x.matchedString = bytesOf (k.drop pos)
  fsa : x.fsa = d.1
  stateValue : x.stateValue = valueOf d (bytesOf k)
  score : x.score = NeedlemanWunsch.distanceToBestPrefix (codepointsOf k) (codepointsOf bow)
  inside : x.score ≤ maxEditDistance

/-- What has to hold of a key behind the first code points of the query: they are those of the bag of
words, and a prefix of the key is within the distance. -/
structure FitsAt (q bow : List Char) (n maxEditDistance : Nat) (u : List Char) : Prop where
  ne_nil : q ≠ []
  exactPrefix : q.take n = bow.take n
  inside : NeedlemanWunsch.distanceToBestPrefix (codepointsOf (bow.take n ++ u)) (codepointsOf bow) ≤
    maxEditDistance

/-- The paths that are found, of a list in the order of the traverser: those of keys, when they are not
pruned. The path that is measured has the first code points of the bag of words in front. -/
def foundBehind (d : Dictionary) (q bow : List Char)
    (n maxEditDistance separator numberOfTokens : Nat) (M : List (List Byte)) (s : Tokens) :
    List (List Byte) :=
  (unpruned separator numberOfTokens maxEditDistance (codepointsOf (bow.take n)) (codepointsOf bow)
    M s).filter (keyBehind d (bytesOf (q.take n)))

section

variable {d : Dictionary} {q bow v : List Char} {c : Char} {n dist separator number : Nat}
  {M : List (List Byte)} {s : Tokens}

theorem foundBehind_passed
    (hvisited : (s.visit number separator c.toNat (v.length + 1)).1 = true)
    (hreach : Reaches dist (codepointsOf (bow.take n ++ v ++ [c])) (codepointsOf bow)) :
    foundBehind d q bow n dist separator number (pathOf (v ++ [c]) :: M) s =
      (if keyBehind d (bytesOf (q.take n)) (pathOf (v ++ [c])) then [pathOf (v ++ [c])] else []) ++
        foundBehind d q bow n dist separator number M
          (s.visit number separator c.toNat (v.length + 1)).2 := by
  rw [List.append_assoc, codepointsOf_append] at hreach
  rw [foundBehind, unpruned_cons, if_pos ⟨hvisited, hreach⟩, List.filter_cons]
  split <;> rfl

theorem foundBehind_pruned
    (hnot : ¬ ((s.visit number separator c.toNat (v.length + 1)).1 = true ∧
      Reaches dist (codepointsOf (bow.take n ++ v ++ [c])) (codepointsOf bow))) :
    foundBehind d q bow n dist separator number (pathOf (v ++ [c]) :: M) s =
      foundBehind d q bow n dist separator number (M.filter fun q => ¬ pathOf (v ++ [c]) <:+ q)
        (s.visit number separator c.toNat (v.length + 1)).2 := by
  rw [List.append_assoc, codepointsOf_append] at hnot
  rw [foundBehind, unpruned_cons, if_neg hnot]
  rfl

end

/-- The condition on the query, when it is a key that is matched exactly, and on the keys behind its
first code points, in the order of the traverser. -/
structure Fits (d : Dictionary) (q bow : List Char)
    (n maxEditDistance separator numberOfTokens : Nat) : Prop where
  whole : n = q.length → bytesOf q ∈ keysOf d.2 → q = bow
  behind : n ≤ q.length → ∀ u, pathOf u ∈ foundBehind d q bow n maxEditDistance separator
      numberOfTokens ((heaviestBehind d (bytesOf (q.take n))).filter complete) ⟨[], 0⟩ →
    FitsAt q bow n maxEditDistance u

namespace FuzzyMultiwordCompletionMatching

section

variable {T : Type} [InnerTraverser T] {R : T → List (List Byte) → Prop} {fuel : Nat}
  {d : Dictionary} {q bow : List Char} {n dist separator number score₀ : Nat}

/-- What holds of the matcher when its traverser goes on from a prefix of `g`. -/
structure Running (bow : List Char) (n dist separator number score₀ : Nat) (g : List Char)
    (m : FuzzyMultiwordCompletionMatching T) : Prop where
  maxEditDistance : m.maxEditDistance = dist
  prefixLength : m.prefixLength = n
  numberOfTokens : m.numberOfTokens = number
  multiwordSeparator : m.multiwordSeparator = separator
  metric : ∃ w, m.distanceMetric = some w ∧ Measures bow dist score₀ (bow.take n ++ g) w

/-- The match at a path, with the score of the metric there. -/
def FoundAt (d : Dictionary) (q bow : List Char) (n dist score₀ : Nat) (p : List Byte) (x : Match) :
    Prop :=
  ∃ u pos score, p = pathOf u ∧ ScoreOk bow dist score₀ (bow.take n ++ u) score ∧
    x = .make 0 (n + u.length) (bytesOf ((bow.take n ++ u).drop pos)) score d.1
      (valueOf d (bytesOf (q.take n ++ u)))

/-- A match at a key that fits belongs to the key. -/
theorem FoundAt.belongs {p : List Byte} {x : Match} (h : FoundAt d q bow n dist score₀ p x)
    (hlen : bow.length = q.length) (hn : n ≤ q.length) (hdist : dist < 2 ^ 31)
    (hkey : keyBehind d (bytesOf (q.take n)) p = true)
    (hfits : ∀ u, p = pathOf u → FitsAt q bow n dist u) :
    ∃ k, bytesOf (q.take n) ++ p.reverse = bytesOf k ∧ Belongs d bow n dist x k := by
  obtain ⟨u, pos, score, rfl, hscore, rfl⟩ := h
  obtain ⟨hne, htake, hinside⟩ := hfits u rfl
  have hbow : bow ≠ [] := by
    rintro rfl
    exact hne (List.length_eq_zero_iff.mp hlen.symm)
  have hvalue : score % 2 ^ 32 = NeedlemanWunsch.distanceToBestPrefix
      (codepointsOf (bow.take n ++ u)) (codepointsOf bow) := by
    rw [(hscore.agrees hbow).1 hinside, Nat.mod_eq_of_lt (by omega)]
  rw [keyBehind, pathOf, List.reverse_reverse, ← bytesOf_append] at hkey
  refine ⟨q.take n ++ u, by rw [pathOf, List.reverse_reverse, bytesOf_append],
    of_decide_eq_true hkey, ?_, rfl, ?_, ⟨pos, ?_⟩, rfl, rfl, ?_, ?_⟩
  · rw [htake]
    exact List.prefix_append _ _
  · show n + u.length = _
    rw [length_take_append hn]
  · rw [htake]
    rfl
  · rw [htake]
    exact hvalue
  · exact hvalue.le.trans hinside

/-- A match that belongs to its key is at one that fits. Without a query the score is what the memory
holds. -/
theorem FoundAt.fitsAt {u k : List Char} {x : Match} (h : FoundAt d q bow n dist score₀ (pathOf u) x)
    (hlen : bow.length = q.length) (hn : n ≤ q.length) (hscore₀ : score₀ % 2 ^ 32 ≠ 0)
    (hk : bytesOf (q.take n) ++ (pathOf u).reverse = bytesOf k) (hx : Belongs d bow n dist x k) :
    FitsAt q bow n dist u := by
  obtain ⟨u', pos, score, hu, hscore, rfl⟩ := h
  obtain rfl := pathOf_injective hu
  rw [pathOf, List.reverse_reverse, ← bytesOf_append] at hk
  obtain rfl := bytesOf_injective hk
  have htake : q.take n = bow.take n := by
    have hlength : (bow.take n).length = (q.take n).length := by
      rw [List.length_take, List.length_take, hlen]
    exact ((List.prefix_of_prefix_length_le hx.exactPrefix (List.prefix_append _ _)
      hlength.le).eq_of_length hlength).symm
  refine ⟨?_, htake, ?_⟩
  · rintro rfl
    obtain rfl : bow = [] := List.length_eq_zero_iff.mp hlen
    -- The distance of an empty text to any key is 0.
    refine hscore₀ ?_
    rw [← hscore.empty rfl]
    refine hx.score.trans (Nat.le_zero.mp ?_)
    exact (nearest_le_of_le _ _ _ (Nat.zero_le _)).trans (osa_zero _ _ _).le
  · rw [← htake]
    exact hx.score.ge.trans hx.inside

/-- What one call of `NextMatch` gives when the paths `F` are to be found: the match at the first one,
and less than `k` texts are left then. -/
def Answered (R : T → List (List Byte) → Prop) (fuel : Nat) (d : Dictionary) (q bow : List Char)
    (n dist separator number score₀ : Nat) (F : List (List Byte)) (k : Nat)
    (r : Option (Option Match × FuzzyMultiwordCompletionMatching T)) : Prop :=
  ∃ answer m', r = some (answer, m') ∧
    match F with
    | [] => answer = none
    | p :: rest => ∃ x, answer = some x ∧ FoundAt d q bow n dist score₀ p x ∧
      ∃ t' g' M, m'.traverser = some t' ∧ Remaining R fuel t' g' M ∧
        Running bow n dist separator number score₀ g' m' ∧
        foundBehind d q bow n dist separator number M m'.tokens = rest ∧ M.length < k

omit [InnerTraverser T] in
theorem Answered.mono {F : List (List Byte)} {k k' : Nat}
    {r : Option (Option Match × FuzzyMultiwordCompletionMatching T)}
    (h : Answered R fuel d q bow n dist separator number score₀ F k r) (hk : k ≤ k') :
    Answered R fuel d q bow n dist separator number score₀ F k' r := by
  obtain ⟨answer, m', hr, hanswer⟩ := h
  refine ⟨answer, m', hr, ?_⟩
  cases F with
  | nil => exact hanswer
  | cons p rest =>
    obtain ⟨x, hx, hfound, t', g', M, h1, h2, h3, h4, h5⟩ := hanswer
    exact ⟨x, hx, hfound, t', g', M, h1, h2, h3, h4, h5.trans_le hk⟩

/-- The rest of a call, from the next text on. -/
theorem answered_next {rounds : Nat} {t : CodePointStateTraverser T} {g : List Char}
    {M : List (List Byte)}
    (hcall : ∀ {m : FuzzyMultiwordCompletionMatching T} {t : CodePointStateTraverser T}
      {g : List Char} {M : List (List Byte)}, m.traverser = some t → Remaining R fuel t g M →
      Running bow n dist separator number score₀ g m → M.length < rounds →
      Answered R fuel d q bow n dist separator number score₀
        (foundBehind d q bow n dist separator number M m.tokens) M.length (nextMatch fuel rounds m))
    {t' : Option (CodePointStateTraverser T)} (ht : t' = some t) (hremaining : Remaining R fuel t g M)
    {m : FuzzyMultiwordCompletionMatching T}
    (hrun : Running bow n dist separator number score₀ g { m with traverser := some t })
    (hk : M.length < rounds) {k : Nat} (hle : M.length ≤ k) :
    Answered R fuel d q bow n dist separator number score₀
      (foundBehind d q bow n dist separator number M m.tokens) k
      (t'.bind fun t => nextMatch fuel rounds { m with traverser := some t }) := by
  rw [ht, Option.bind_some]
  exact (hcall rfl hremaining hrun hk).mono hle

/-- A match at a key whose path is not pruned. -/
theorem answered_found (hw : Wraps R)
    (hf : Follows R (keyBehind d (bytesOf (q.take n))) (foundSingle d (bytesOf (q.take n))))
    (hn : n ≤ bow.length) {t : CodePointStateTraverser T} {v : List Char} {c : Char}
    {L : List (List Byte)} (hat : AtPath R t (pathOf (v ++ [c])) L) (hfuel : L.length < fuel)
    (hkey : keyBehind d (bytesOf (q.take n)) (pathOf (v ++ [c])) = true)
    {w : NeedlemanWunsch} {boundary : Nat}
    (hscore : ScoreOk bow dist score₀ (bow.take n ++ v ++ [c]) w.getScore)
    (hcandidate : ∀ pos ≤ (bow.take n ++ v).length + 1,
      getCandidate w pos = some (bytesOf ((bow.take n ++ v ++ [c]).drop pos)))
    (hboundary : boundary ≤ v.length + 1) {m : FuzzyMultiwordCompletionMatching T}
    (hrun : ∀ t' : CodePointStateTraverser T,
      Running bow n dist separator number score₀ (v ++ [c]) { m with traverser := some t' }) :
    Answered R fuel d q bow n dist separator number score₀ (pathOf (v ++ [c]) ::
        foundBehind d q bow n dist separator number (L.filter complete) m.tokens)
      ((L.filter complete).length + 1)
      ((getCandidate w (if 0 < boundary then n + boundary else 0)).bind fun matchStr =>
        (t.advance fuel).map fun t' =>
          (some (.make 0 (n + (v.length + 1)) matchStr w.getScore t.getFsa t.getStateValue),
            { m with traverser := some t' })) := by
  have hfound := hf.finds _ _ _ hat.here hkey
  -- The string begins behind the separator that was passed, if there is one.
  have hpos : (if 0 < boundary then n + boundary else 0) ≤ (bow.take n ++ v).length + 1 := by
    rw [length_take_append hn]
    split_ifs <;> omega
  obtain ⟨t₁, ht₁, hremaining⟩ := (hat.before hw).advance hw hfuel
  rw [pathOf, foundSingle, List.reverse_reverse, ← bytesOf_append, Prod.mk.injEq] at hfound
  rw [hcandidate _ hpos, Option.bind_some, ht₁, Option.map_some]
  refine ⟨_, _, rfl, _, rfl, ⟨v ++ [c], if 0 < boundary then n + boundary else 0, w.getScore, rfl, ?_,
    ?_⟩, t₁, _, _, rfl, hremaining, hrun t₁, rfl, Nat.lt_succ_self _⟩
  · rwa [← List.append_assoc]
  · rw [← hfound.2, ← List.append_assoc, List.length_append, List.length_singleton]
    exact congrArg (fun fsa => Match.make 0 _ _ _ fsa _) hfound.1

/-- **One call of `NextMatch`** returns the match at the first path that is found, by induction on its
rounds. -/
theorem nextMatch_spec (hw : Wraps R)
    (hf : Follows R (keyBehind d (bytesOf (q.take n))) (foundSingle d (bytesOf (q.take n))))
    (hn : n ≤ bow.length) :
    ∀ (rounds : Nat) {m : FuzzyMultiwordCompletionMatching T} {t : CodePointStateTraverser T}
      {g : List Char} {M : List (List Byte)}, m.traverser = some t → Remaining R fuel t g M →
      Running bow n dist separator number score₀ g m → M.length < rounds →
      Answered R fuel d q bow n dist separator number score₀
        (foundBehind d q bow n dist separator number M m.tokens) M.length (nextMatch fuel rounds m)
  | rounds + 1, m, t, g, _, ht, .ended hend, hrun, _ => by
    obtain ⟨w, hmetric, -⟩ := hrun.metric
    rw [foundBehind, unpruned]
    refine ⟨none, m, ?_, rfl⟩
    rw [nextMatch, ht, hmetric]
    exact if_neg (by
      rw [CodePointStateTraverser.alive, hw.exhausted _ hend.here]
      simp)
  | rounds + 1, m, t, g, _, ht, .here (v := v) (c := c) (L := L) hat hv hfuel, hrun, hk => by
    obtain ⟨traverser, firstMatch, distanceMetric, maxEditDistance, prefixLength, numberOfTokens,
      multiwordSeparator, tokens⟩ := m
    obtain ⟨hmaxEditDistance, hprefixLength, hnumberOfTokens, hmultiwordSeparator,
      w, hmetric, hmeasures⟩ := hrun
    obtain rfl : dist = maxEditDistance := hmaxEditDistance.symm
    obtain rfl : n = prefixLength := hprefixLength.symm
    obtain rfl : number = numberOfTokens := hnumberOfTokens.symm
    obtain rfl : separator = multiwordSeparator := hmultiwordSeparator.symm
    obtain rfl : traverser = some t := ht
    obtain rfl : distanceMetric = some w := hmetric
    rw [List.length_cons] at hk ⊢
    obtain ⟨halive, hlabel, hdepth⟩ := hat.label_depth hw
    have hposition : n + (v.length + 1) - 1 = (bow.take n ++ v).length := by
      rw [length_take_append hn v]
      rfl
    have hcall := @nextMatch_spec hw hf hn rounds
    have hless : ((L.filter complete).filter fun q => ¬ pathOf (v ++ [c]) <:+ q).length ≤
        (L.filter complete).length := List.length_filter_le _ _
    have habove := hmeasures.restrict ((List.prefix_append_right_inj (bow.take n)).mpr hv)
    obtain ⟨t₁, ht₁, hremaining₁⟩ := (hat.before hw).advance hw hfuel
    obtain ⟨t₂, ht₂, hremaining₂⟩ := hat.prune_advance hw hfuel
    rw [nextMatch]
    dsimp only
    rw [if_pos halive, hlabel, hdepth, hposition]
    split
    · next hvisited =>
      generalize hput : NeedlemanWunsch.put damerauLevenshteinCompletion w c.toNat
        (bow.take n ++ v).length = put
      obtain ⟨score, w'⟩ := put
      obtain ⟨hmeasured, hreach, hscoreOk, hcandidate⟩ := habove.put hput
      dsimp only
      have hhere : Measures bow dist score₀ (bow.take n ++ (v ++ [c])) w' := by
        rw [← List.append_assoc]
        exact hmeasured
      split
      · -- The row is out of reach.
        next hscore =>
        rw [foundBehind_pruned fun h => absurd (hreach.mpr h.2) (not_le.mpr hscore)]
        exact answered_next hcall ht₂ hremaining₂ (m := ⟨some t, firstMatch, some w', dist, n, number,
          separator, _⟩) ⟨rfl, rfl, rfl, rfl, w', rfl, hmeasured.restrict (List.prefix_append _ _)⟩
          (by omega) (by omega)
      · next hscore =>
        have hfinal : t.isFinalState = keyBehind d (bytesOf (q.take n)) (pathOf (v ++ [c])) :=
          hf.isFinal _ _ _ hat.here
        rw [foundBehind_passed hvisited (hreach.mp (not_lt.mp hscore)), hfinal]
        split
        · -- The path is a key, so its match is returned.
          next hkey =>
          exact answered_found hw hf hn hat hfuel hkey hscoreOk hcandidate
            (Tokens.boundary_visit_le hvisited)
            (m := ⟨some t, firstMatch, some w', dist, n, number, separator, _⟩)
            (fun _ => ⟨rfl, rfl, rfl, rfl, w', rfl, hhere⟩)
        · exact answered_next hcall ht₁ hremaining₁ (m := ⟨some t, firstMatch, some w', dist, n,
            number, separator, _⟩) ⟨rfl, rfl, rfl, rfl, w', rfl, hhere⟩ (by omega) (Nat.le_succ _)
    · -- A separator after another number of tokens.
      next hvisited =>
      rw [foundBehind_pruned fun h => hvisited h.1]
      exact answered_next hcall ht₂ hremaining₂ (m := ⟨some t, firstMatch, some w, dist, n, number,
        separator, _⟩) ⟨rfl, rfl, rfl, rfl, w, rfl, habove⟩ (by omega) (by omega)

/-- **All calls** return the matches at the paths that are found, by induction on them. -/
theorem nextMatches_spec (hw : Wraps R)
    (hf : Follows R (keyBehind d (bytesOf (q.take n))) (foundSingle d (bytesOf (q.take n))))
    (hn : n ≤ bow.length) (rounds : Nat) :
    ∀ (calls : Nat) {m : FuzzyMultiwordCompletionMatching T} {t : CodePointStateTraverser T}
      {g : List Char} {M : List (List Byte)}, m.traverser = some t → Remaining R fuel t g M →
      Running bow n dist separator number score₀ g m → M.length < rounds → M.length < calls →
      ∃ found, nextMatches fuel rounds calls m = some found ∧
        List.Forall₂ (FoundAt d q bow n dist score₀)
          (foundBehind d q bow n dist separator number M m.tokens) found
  | calls + 1, m, t, g, M, ht, hremaining, hrun, hrounds, hcalls => by
    obtain ⟨r, m', hnext, hr⟩ := nextMatch_spec hw hf hn rounds ht hremaining hrun hrounds
    rw [nextMatches, hnext, Option.bind_some]
    cases hF : foundBehind d q bow n dist separator number M m.tokens with
    | nil =>
      rw [hF] at hr
      obtain rfl : r = none := hr
      exact ⟨[], rfl, .nil⟩
    | cons p rest =>
      rw [hF] at hr
      obtain ⟨x, rfl, hx, t', g', M', ht', hremaining', hrun', hrest, hless⟩ := hr
      obtain ⟨found, hfound, hall⟩ := nextMatches_spec hw hf hn rounds calls ht' hremaining' hrun'
        (by omega) (by omega)
      rw [hrest] at hall
      exact ⟨x :: found, by dsimp only; rw [hfound]; rfl, .cons hx hall⟩

end

/-! ## The exact prefix -/

section

variable {fsa : Automata} {query : Key} {codepoints : List Nat}

theorem allMatches_empty {T : Type} [InnerTraverser T] {fuel : Nat} (h : 0 < fuel) :
    allMatches fuel (empty : FuzzyMultiwordCompletionMatching T) = some [] := by
  obtain ⟨fuel, rfl⟩ := Nat.exists_eq_add_one_of_ne_zero h.ne'
  rfl

/-- The bytes of a code point are walked. -/
theorem matchCodepoint_spec (post : Key) : ∀ (seg pre : Key) {state : Nat}, state ≠ 0 →
    query = pre ++ (seg ++ post) →
    ∃ utf8Depth,
      matchCodepoint fsa query seg.length state pre.length = (fsa.walk state seg, utf8Depth) ∧
      (fsa.walk state seg ≠ 0 → utf8Depth = (pre ++ seg).length)
  | [], pre, _, _, _ => ⟨pre.length, rfl, fun _ => by simp⟩
  | b :: seg, pre, state, h0, hq => by
    have hb : query.getD pre.length 0 = b := by
      rw [hq, List.getD_append_right _ _ _ _ le_rfl, Nat.sub_self]
      rfl
    rw [List.length_cons, matchCodepoint, hb, Automata.walk, if_neg h0]
    split
    · next hnext =>
      rw [hnext, walk_zero]
      exact ⟨_, rfl, fun h => absurd rfl h⟩
    · next hnext =>
      have hrest := matchCodepoint_spec post seg (pre ++ [b]) hnext (by simp [hq])
      rw [List.length_append, List.length_singleton] at hrest
      obtain ⟨utf8Depth, hmatch, hdepth⟩ := hrest
      refine ⟨utf8Depth, hmatch, fun h => ?_⟩
      rw [hdepth h, List.append_assoc, List.singleton_append]

theorem matchExact_zero (n utf8Depth depth : Nat) (w : NeedlemanWunsch) :
    matchExact fsa query codepoints n 0 utf8Depth depth w = some (0, depth, w) := by
  cases n with
  | zero => rfl
  | succ n => exact if_pos rfl

/-- **The exact match**, by induction on the code points that are left: the walk along the query, and
the metric of the bag of words. -/
theorem matchExact_spec (fsa : Automata) {bow : List Char} {dist score₀ : Nat} :
    ∀ (n : Nat) (q₁ q₂ : List Char) (state : Nat) {w : NeedlemanWunsch}, n ≤ q₂.length →
    bow.length = (q₁ ++ q₂).length →
    Measures bow dist score₀ (bow.take q₁.length) w →
    ∃ depth w', matchExact fsa (bytesOf (q₁ ++ q₂)) (codepointsOf bow) n state (bytesOf q₁).length
        q₁.length w = some (fsa.walk state (bytesOf (q₂.take n)), depth, w') ∧
      (fsa.walk state (bytesOf (q₂.take n)) ≠ 0 → depth = q₁.length + n ∧
        Measures bow dist score₀ (bow.take (q₁.length + n)) w')
  | 0, q₁, q₂, state, w, _, _, hw => ⟨q₁.length, w, rfl, fun _ => ⟨rfl, hw⟩⟩
  | n + 1, q₁, [], _, _, hn, _, _ => by simp at hn
  | n + 1, q₁, c :: q₂, state, w, hn, hlen, hw => by
    by_cases h0 : state = 0
    · rw [h0, matchExact_zero, walk_zero]
      exact ⟨_, _, rfl, fun h => absurd rfl h⟩
    · have hlt : q₁.length < bow.length := by
        rw [hlen, List.length_append, List.length_cons]
        omega
      obtain ⟨b, bs, hb, hlead, hwidth, -, -⟩ := encode_spec c
      have hfirst : (bytesOf (q₁ ++ c :: q₂)).getD (bytesOf q₁).length 0 = b := by
        rw [bytesOf_append, List.getD_append_right _ _ _ _ le_rfl, Nat.sub_self, bytesOf_cons, hb]
        rfl
      obtain ⟨utf8Depth, hmatch, hdepth⟩ := matchCodepoint_spec (bytesOf q₂) (encode c)
        (bytesOf q₁) h0 (show bytesOf (q₁ ++ c :: q₂) = bytesOf q₁ ++ (encode c ++ bytesOf q₂) by simp)
      have hlength : (encode c).length = width b := by
        rw [hb, List.length_cons, hwidth]
      rw [hlength] at hmatch
      -- The metric is given the code point of the bag of words.
      have hput := Measures.put (v := bow.take q₁.length) (c := bow[q₁.length]) hw rfl
      have htake : bow.take q₁.length ++ [bow[q₁.length]] = bow.take (q₁.length + 1) :=
        (List.take_succ_eq_append_getElem hlt).symm
      have hcode : (codepointsOf bow).getD q₁.length 0 = bow[q₁.length].toNat := by
        rw [List.getD_eq_getElem _ _ (by simpa using hlt)]
        exact List.getElem_map _
      rw [htake, List.length_take, Nat.min_eq_left hlt.le] at hput
      rw [matchExact, if_neg h0, hfirst, getCharLength_lead hlead, Option.bind_some]
      dsimp only
      rw [hmatch, hcode]
      have hwalk : fsa.walk state (bytesOf ((c :: q₂).take (n + 1))) =
          fsa.walk (fsa.walk state (encode c)) (bytesOf (q₂.take n)) := by
        rw [List.take_succ_cons, bytesOf_cons, walk_append]
      rw [hwalk]
      by_cases hnext : fsa.walk state (encode c) = 0
      · rw [hnext, matchExact_zero, walk_zero]
        exact ⟨_, _, rfl, fun h => absurd rfl h⟩
      · have hput' : Measures bow dist score₀ (bow.take (q₁ ++ [c]).length)
            (NeedlemanWunsch.put damerauLevenshteinCompletion w bow[q₁.length].toNat q₁.length).2 := by
          rw [List.length_append, List.length_singleton]
          exact hput.1
        have hrest := matchExact_spec fsa n (q₁ ++ [c]) q₂ (fsa.walk state (encode c))
          (Nat.le_of_succ_le_succ hn) (by simpa using hlen) hput'
        have hlength' : (bytesOf (q₁ ++ [c])).length = utf8Depth := by
          rw [hdepth hnext, bytesOf_append, bytesOf_cons, bytesOf_nil, List.append_nil]
        rw [List.append_assoc, List.singleton_append, hlength', List.length_append,
          List.length_singleton, Nat.add_assoc, Nat.add_comm 1 n] at hrest
        exact hrest

end

/-! ## All completions -/

section

variable {d : Dictionary} {q bow : List Char} {n dist : Nat}

/-- The key that the exact match finds. -/
def wholeFound (d : Dictionary) (q : List Char) (n : Nat) : List Key :=
  if n = q.length ∧ hasKey d (bytesOf q) = true then [bytesOf q] else []

/-- The paths that `NextMatch` finds. -/
def pathsFound (d : Dictionary) (q bow : List Char) (n maxEditDistance : Nat) (separator : Byte) :
    List (List Byte) :=
  if n ≤ q.length then
    foundBehind d q bow n maxEditDistance separator.val (numberOfTokensOf (bytesOf q))
      ((heaviestBehind d (bytesOf (q.take n))).filter complete) ⟨[], 0⟩
  else []

/-- The keys that are found, in their order. -/
def keysFound (d : Dictionary) (q bow : List Char) (n maxEditDistance : Nat) (separator : Byte) :
    List Key :=
  wholeFound d q n ++ (pathsFound d q bow n maxEditDistance separator).map fun p =>
    bytesOf (q.take n) ++ p.reverse

/-- Every completion belongs to a key, whatever the memory holds. -/
def Completes (d : Dictionary) (q bow : List Char) (n maxEditDistance : Nat) (separator : Byte) :
    Prop :=
  ∀ fuel, (heaviestBehind d (bytesOf (q.take n))).length < fuel → ∀ memory, ∃ found,
    (fromSingleFsa memory fuel d.1 (bytesOf q) maxEditDistance n separator).bind (allMatches fuel) =
      some found ∧ ∀ x ∈ found, ∃ k, Belongs d bow n maxEditDistance x k

/-- Every completion belongs to the key that it is found at, whatever the memory holds. -/
def CompletesFound (d : Dictionary) (q bow : List Char) (n maxEditDistance : Nat) (separator : Byte) :
    Prop :=
  ∀ fuel, (heaviestBehind d (bytesOf (q.take n))).length < fuel → ∀ memory, ∃ found,
    (fromSingleFsa memory fuel d.1 (bytesOf q) maxEditDistance n separator).bind (allMatches fuel) =
      some found ∧ List.Forall₂
        (fun key x => ∃ k, key = bytesOf k ∧ Belongs d bow n maxEditDistance x k)
        (keysFound d q bow n maxEditDistance separator) found

theorem CompletesFound.completes {separator : Byte} (h : CompletesFound d q bow n dist separator) :
    Completes d q bow n dist separator := by
  intro fuel hfuel memory
  obtain ⟨found, hrun, hfound⟩ := h fuel hfuel memory
  have hkeys : List.Forall₂ (fun x _ => (∃ k, Belongs d bow n dist x k) ∧ True) found
      (keysFound d q bow n dist separator) := by
    refine List.Forall₂.flip (hfound.imp fun key x hx => ?_)
    obtain ⟨k, -, hk⟩ := hx
    exact ⟨⟨k, hk⟩, trivial⟩
  exact ⟨found, hrun, ((List.forall₂_and_left _ _).mp hkeys).1⟩

/-- The match of the query itself. -/
def wholeMatch (d : Dictionary) (bow : List Char) (key : Key) : Match :=
  .make 0 bow.length key 0 d.1 (valueOf d key)

theorem belongs_whole (hkey : hasKey d (bytesOf bow) = true) :
    Belongs d bow n dist (wholeMatch d bow (bytesOf bow)) bow :=
  ⟨of_decide_eq_true hkey, List.take_prefix _ _, rfl, rfl, ⟨0, rfl⟩, rfl, rfl,
    (NeedlemanWunsch.distanceToBestPrefix_self _).symm, Nat.zero_le _⟩

/-- The match of `FirstMatch`. -/
theorem firstMatch_eq (h : Holds d.1 d.2) (hlen : bow.length = q.length)
    (h0 : stateAt d (bytesOf (q.take n)) ≠ 0) :
    (if n = bow.length ∧ d.1.isFinalState (stateAt d (bytesOf (q.take n))) = true then
      some (Match.make 0 bow.length (bytesOf q) 0 d.1
        (d.1.getStateValue (stateAt d (bytesOf (q.take n))))) else none).toList =
      (wholeFound d q n).map (wholeMatch d bow) := by
  rw [wholeFound, hlen]
  by_cases hn : n = q.length
  · have htake : q.take n = q := List.take_of_length_le hn.ge
    rw [htake] at h0 ⊢
    by_cases hfinal : d.1.isFinalState (stateAt d (bytesOf q)) = true
    · rw [if_pos ⟨hn, hfinal⟩, if_pos ⟨hn, (hasKey_iff h).mpr ⟨h0, hfinal⟩⟩, ← hlen]
      rfl
    · rw [if_neg fun h => hfinal h.2, if_neg fun hkey => hfinal ((hasKey_iff h).mp hkey.2).2]
      rfl
  · rw [if_neg fun h => hn h.1, if_neg fun h => hn h.1]
    rfl

variable (bow dist) in
/-- Nothing is found behind a path that does not exist. -/
theorem found_of_dead (h : Holds d.1 d.2) (h0 : stateAt d (bytesOf (q.take n)) = 0)
    (separator : Byte) : wholeFound d q n = [] ∧ pathsFound d q bow n dist separator = [] := by
  have hno : ∀ p, keyBehind d (bytesOf (q.take n)) p = false := by
    intro p
    rw [← Bool.not_eq_true]
    intro hkey
    have hne := ((hasKey_iff h).mp hkey).1
    rw [stateAt_append, h0, ← walk_reverse, walk_zero] at hne
    exact hne rfl
  constructor
  · refine if_neg fun hwhole => ?_
    have hkey := hno []
    rw [keyBehind, List.reverse_nil, List.append_nil, List.take_of_length_le hwhole.1.ge,
      hwhole.2] at hkey
    cases hkey
  · rw [pathsFound]
    split
    · exact List.filter_eq_nil_iff.mpr fun p _ => by simp [hno p]
    · rfl

/-- The traverser before its first step: it stands above the texts behind the exact prefix. -/
theorem before_start (h : Holds d.1 d.2) (htext : ∀ k ∈ keysOf d.2, ∃ s, k = bytesOf s)
    (h0 : stateAt d (bytesOf (q.take n)) ≠ 0) :
    Before (fun (t : WeightedStateTraverser) L =>
        Arrives d.1 (stateAt d (bytesOf (q.take n))) (depthOf d.2)
          (weightedChildren [behind d (bytesOf (q.take n))] (behind d (bytesOf (q.take n))))
          (commonTransition [behind d (bytesOf (q.take n))] (behind d (bytesOf (q.take n))))
          WeightedTraverser.noMinimum t L)
      ⟨StateTraverser.ofState d.1 (stateAt d (bytesOf (q.take n))) default false, [], [], 0, 0⟩ []
      (heaviestBehind d (bytesOf (q.take n))) := by
  have hT := tree_behind h (bytesOf (q.take n))
  have hcontinues : Preorder.Continues [] (heaviestBehind d (bytesOf (q.take n))) :=
    Preorder.continues_subtree (WeightedTraverser.bounded hT)
  refine ⟨⟨[], arrives_weighted hT h0, rfl, ⟨rfl, rfl, rfl⟩, hcontinues, nodup_heaviestBehind h,
    fun p hp => ?_⟩, fun v c rest hL => ?_⟩
  · rcases List.mem_cons.mp hp with rfl | hp
    · exact ⟨[], List.nil_prefix⟩
    · obtain ⟨hne, hstate⟩ := (mem_heaviestBehind h).mp hp
      rw [← stateAt_append] at hstate
      obtain ⟨k, hk, hpre⟩ := (h.walk_ne_zero_iff (by simp [hne])).mp hstate
      obtain ⟨s, rfl⟩ := htext k hk
      obtain ⟨s, rfl⟩ := bytesOf_prefix_iff.mp ((List.prefix_append _ _).trans hpre)
      rw [bytesOf_append, List.prefix_append_right_inj] at hpre
      exact ⟨s, hpre⟩
  · have := parent_suffix hcontinues hL
    exact pathOf_suffix_iff.mp this

variable (dist) in
/-- **The whole run**: the match of the query itself, and one at every path that is found. -/
theorem run_spec (h : Holds d.1 d.2) (htext : ∀ k ∈ keysOf d.2, ∃ s, k = bytesOf s)
    (hbow : bagOfWordsPartial (bytesOf q) = bytesOf bow) (hlen : bow.length = q.length)
    (separator : Byte) {fuel : Nat} (hfuel : (heaviestBehind d (bytesOf (q.take n))).length < fuel)
    (memory : Nat → Nat → Nat) :
    ∃ found, (fromSingleFsa memory fuel d.1 (bytesOf q) dist n separator).bind (allMatches fuel) =
        some ((wholeFound d q n).map (wholeMatch d bow) ++ found) ∧
      List.Forall₂ (FoundAt d q bow n dist (memory 1 0)) (pathsFound d q bow n dist separator)
        found := by
  have hempty : (some (empty : FuzzyMultiwordCompletionMatching WeightedStateTraverser)).bind
      (allMatches fuel) = some [] := by
    rw [Option.bind_some, allMatches_empty (by omega)]
  -- Without a state for the exact prefix the matcher is empty.
  have hdead : stateAt d (bytesOf (q.take n)) = 0 →
      ∃ found, (some (empty : FuzzyMultiwordCompletionMatching WeightedStateTraverser)).bind
          (allMatches fuel) = some ((wholeFound d q n).map (wholeMatch d bow) ++ found) ∧
        List.Forall₂ (FoundAt d q bow n dist (memory 1 0)) (pathsFound d q bow n dist separator)
          found := by
    intro h0
    obtain ⟨hwhole, hpaths⟩ := found_of_dead bow dist h h0 separator
    rw [hwhole, hpaths, hempty]
    exact ⟨[], rfl, .nil⟩
  rw [fromSingleFsa, fromSingleFsaAt]
  split
  · next hstart => exact hdead (by rw [stateAt, hstart, walk_zero])
  · rw [hbow, utf8to32_bytesOf]
    dsimp only
    rw [length_codepointsOf]
    split
    · next hn =>
      rw [wholeFound, if_neg (by omega), pathsFound, if_neg (by omega), hempty]
      exact ⟨[], rfl, .nil⟩
    · next hn =>
      have hnew : Measures bow dist (memory 1 0) (bow.take ([] : List Char).length)
          (NeedlemanWunsch.new damerauLevenshteinCompletion memory (codepointsOf bow) 20 dist) := by
        refine ⟨fun _ => ⟨[], NeedlemanWunsch.completionInv_new _ _ _ _, by simp [codepointsOf]⟩, ?_⟩
        rintro rfl
        exact ⟨rfl, fun _ => rfl, rfl, [], by simp, by simp [codepointsOf]⟩
      obtain ⟨depth, w, hexact, hstate⟩ := matchExact_spec d.1 n [] q d.1.getStartState (by omega)
        hlen hnew
      rw [List.nil_append, bytesOf_nil, List.length_nil, List.length_nil] at hexact
      rw [hexact, Option.bind_some]
      dsimp only
      by_cases h0 : d.1.walk d.1.getStartState (bytesOf (q.take n)) = 0
      · rw [if_pos (.inl h0)]
        exact hdead h0
      · obtain ⟨hdepth, hmetric⟩ := hstate h0
        obtain rfl : depth = n := by rw [hdepth, List.length_nil, Nat.zero_add]
        rw [List.length_nil, Nat.zero_add] at hmetric
        rw [if_neg (by simp [h0])]
        have hfollows := follows_weighted h (bytesOf (q.take depth))
        obtain ⟨t, ht, hremaining⟩ := (before_start h htext h0).advance hfollows.wraps hfuel
        have hbound := (List.length_filter_le complete
          (heaviestBehind d (bytesOf (q.take depth)))).trans_lt hfuel
        rw [show CodePointStateTraverser.ofTraverser fuel (StateTraverser.ofState d.1
          (d.1.walk d.1.getStartState (bytesOf (q.take depth))) default false :
            WeightedStateTraverser) = some t from ht, Option.map_some, Option.bind_some, allMatches]
        have hrun : ∀ first, Running bow depth dist separator.val (numberOfTokensOf (bytesOf q))
            (memory 1 0) [] ⟨some t, first, some w, dist, depth, numberOfTokensOf (bytesOf q),
              separator.val, ⟨[], 0⟩⟩ := by
          refine fun first => ⟨rfl, rfl, rfl, rfl, w, rfl, ?_⟩
          rw [List.append_nil]
          exact hmetric
        obtain ⟨found, hfound, hall⟩ := nextMatches_spec (q := q) hfollows.wraps hfollows
          (by omega) fuel fuel rfl hremaining (hrun _) hbound hbound
        rw [pathsFound, if_pos (show depth ≤ q.length by omega)]
        refine ⟨found, ?_, hall⟩
        rw [hfound, Option.map_some]
        exact congrArg some (congrArg (· ++ found) (firstMatch_eq h hlen h0))

theorem CompletesFound.fits (h : Holds d.1 d.2) (htext : ∀ k ∈ keysOf d.2, ∃ s, k = bytesOf s)
    (hbow : bagOfWordsPartial (bytesOf q) = bytesOf bow) (hlen : bow.length = q.length)
    {separator : Byte} (hall : CompletesFound d q bow n dist separator) :
    Fits d q bow n dist separator.val (numberOfTokensOf (bytesOf q)) := by
  -- The memory holds a score that an empty query does not have.
  obtain ⟨found₀, hrun₀, hbelongs⟩ := hall _ (Nat.lt_succ_self _) fun _ _ => 1
  obtain ⟨found, hrun, hfound⟩ := run_spec dist h htext hbow hlen separator
    (Nat.lt_succ_self _) fun _ _ => 1
  obtain rfl := Option.some.inj (hrun₀.symm.trans hrun)
  rw [keysFound] at hbelongs
  have hwhole := List.forall₂_take_append _ _ _ hbelongs
  have hbehind := List.forall₂_drop_append _ _ _ hbelongs
  rw [List.length_map, List.take_left] at hwhole
  rw [List.length_map, List.drop_left, List.forall₂_map_left_iff] at hbehind
  refine ⟨fun hn hkey => ?_, fun hn u hu => ?_⟩
  · rw [wholeFound, if_pos ⟨hn, decide_eq_true hkey⟩, List.map_cons] at hwhole
    obtain ⟨⟨k, hk, hx⟩, -⟩ := List.forall₂_cons.mp hwhole
    obtain rfl := bytesOf_injective hk
    have hpre := hx.exactPrefix
    rw [List.take_of_length_le (hlen.trans hn.symm).le] at hpre
    exact (hpre.eq_of_length hlen).symm
  · rw [pathsFound, if_pos hn] at hfound hbehind
    have hboth := List.Forall₂.mp (S := fun p x => (∀ u, p = pathOf u → FitsAt q bow n dist u) ∧
      FoundAt d q bow n dist 1 p x) (fun p x hfound hx => ⟨fun u hu => ?_, hfound⟩) hfound hbehind
    · exact ((List.forall₂_and_left _ _).mp hboth).1 _ hu u rfl
    · obtain ⟨k, hk, hx⟩ := hx
      subst hu
      exact hfound.fitsAt hlen hn (by decide) hk hx

theorem Fits.completesFound (h : Holds d.1 d.2) (htext : ∀ k ∈ keysOf d.2, ∃ s, k = bytesOf s)
    (hbow : bagOfWordsPartial (bytesOf q) = bytesOf bow) (hlen : bow.length = q.length)
    (hdist : dist < 2 ^ 31) {separator : Byte}
    (hfits : Fits d q bow n dist separator.val (numberOfTokensOf (bytesOf q))) :
    CompletesFound d q bow n dist separator := by
  intro fuel hfuel memory
  obtain ⟨found, hrun, hfound⟩ := run_spec dist h htext hbow hlen separator hfuel memory
  -- The match of the query itself, then those behind the exact prefix.
  refine ⟨_, hrun, List.rel_append ?_ ?_⟩
  · rw [wholeFound]
    split
    · next hwhole =>
      obtain rfl : q = bow := hfits.whole hwhole.1 (of_decide_eq_true hwhole.2)
      exact .cons ⟨q, rfl, belongs_whole hwhole.2⟩ .nil
    · exact .nil
  · rw [List.forall₂_map_left_iff]
    have hpaths : ∀ p ∈ pathsFound d q bow n dist separator, n ≤ q.length ∧
        keyBehind d (bytesOf (q.take n)) p = true ∧ ∀ u, p = pathOf u → FitsAt q bow n dist u := by
      intro p hp
      rw [pathsFound] at hp
      split at hp
      · next hn =>
        refine ⟨hn, (List.mem_filter.mp hp).2, ?_⟩
        rintro u rfl
        exact hfits.behind hn u hp
      · cases hp
    refine ((List.forall₂_and_left _ _).mpr ⟨hpaths, hfound⟩).imp fun p x hx => ?_
    exact hx.2.belongs hlen hx.1.1 hdist hx.1.2.1 hx.1.2.2

/-- **When every completion belongs to the key that it is found at**: its first code points are those of
the bag of words, and it is within the distance. -/
theorem completesFound_iff (h : Holds d.1 d.2) (htext : ∀ k ∈ keysOf d.2, ∃ s, k = bytesOf s)
    (q : List Char) (n dist : Nat) (separator : Byte) (hdist : dist < 2 ^ 31) :
    ∃ bow, bagOfWordsPartial (bytesOf q) = bytesOf bow ∧
      (CompletesFound d q bow n dist separator → Completes d q bow n dist separator) ∧
      (CompletesFound d q bow n dist separator ↔
        Fits d q bow n dist separator.val (numberOfTokensOf (bytesOf q))) := by
  obtain ⟨bow, hbow, hlen⟩ := exists_bagOfWords q
  exact ⟨bow, hbow, CompletesFound.completes, CompletesFound.fits h htext hbow hlen,
    Fits.completesFound h htext hbow hlen hdist⟩

/-- The key `61 62`, for the query of the same text. -/
theorem completesFound_iff_same : CompletesFound keyAB ['a', 'b'] ['a', 'b'] 0 1 0x1b := by
  obtain ⟨bow, hbow, -, h⟩ := completesFound_iff (holds_of_mem keyAB (by simp)) (fun k hk =>
    ⟨['a', 'b'], by
      rw [List.mem_singleton.mp hk]
      decide +kernel⟩) ['a', 'b'] 0 1 0x1b (by decide)
  have hsame : bagOfWordsPartial (bytesOf ['a', 'b']) = bytesOf ['a', 'b'] := by decide +kernel
  obtain rfl : ['a', 'b'] = bow := bytesOf_injective (hsame.symm.trans hbow)
  refine h.mpr ⟨fun _ _ => rfl, fun _ u hu => ⟨by simp, rfl, ?_⟩⟩
  have hkey := (List.mem_filter.mp hu).2
  rw [keyBehind, pathOf, List.reverse_reverse] at hkey
  have hbytes : bytesOf u = bytesOf ['a', 'b'] := by
    rw [show bytesOf ['a', 'b'] = [97, 98] by decide +kernel]
    exact List.mem_singleton.mp (of_decide_eq_true hkey)
  rw [bytesOf_injective hbytes]
  exact (NeedlemanWunsch.distanceToBestPrefix_self _).le.trans (Nat.zero_le _)

/-- **The distance is not compared.** The key `61 62` is returned for the query `61 62 63 64` with a
distance of one, and its score is two. -/
theorem not_completes_short : bagOfWordsPartial (bytesOf ['a', 'b', 'c', 'd']) =
      bytesOf ['a', 'b', 'c', 'd'] ∧
    ¬ Completes keyAB ['a', 'b', 'c', 'd'] ['a', 'b', 'c', 'd'] 0 1 0x1b := by
  refine ⟨by decide +kernel, fun h => ?_⟩
  obtain ⟨found, hrun, hall⟩ := h 10 (by decide +kernel) fun _ _ => 0
  have hscores : ((fromSingleFsa (fun _ _ => 0) 10 keyAB.1 (bytesOf ['a', 'b', 'c', 'd']) 1 0 0x1b).bind
      (allMatches 10)).map (List.map Match.score) = some [2] := by decide +kernel
  rw [hrun, Option.map_some, Option.some.injEq] at hscores
  obtain ⟨x, l, rfl, hx, -⟩ := List.map_eq_cons_iff.mp hscores
  obtain ⟨k, hk⟩ := hall x List.mem_cons_self
  have := hk.inside
  omega

end

end FuzzyMultiwordCompletionMatching

end Keyvi.Matching
