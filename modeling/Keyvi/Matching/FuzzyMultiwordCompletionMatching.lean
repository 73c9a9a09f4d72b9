import Mathlib
import Keyvi.Matching.BagOfWords
import Keyvi.Matching.CodePointStateTraverser
import Keyvi.Stringdistance.LevenshteinCompletion

/-!
# Fuzzy multiword completion

`fuzzy_multiword_completion_matching.h` on one automaton. The first code points of the query are walked
exactly, by bytes. Below that state a traverser of code points visits the keys, and a path is pruned
when the row of the distance to the bag of words of the query is out of reach, or when it comes to a
separator after another number of tokens than the query has.
-/

namespace Keyvi.Matching

open Fsa Automata Dictionary Utf8 Stringdistance StringAlignment

namespace CodePointStateTraverser

variable {T : Type} [InnerTraverser T]

def getStateLabel (t : CodePointStateTraverser T) : Nat := t.codepoint

def getDepth (t : CodePointStateTraverser T) : Nat := t.currentDepth

def isFinalState (t : CodePointStateTraverser T) : Bool :=
  InnerTraverser.isFinalState t.wrappedStateTraverser

def getStateValue (t : CodePointStateTraverser T) : Nat :=
  InnerTraverser.getStateValue t.wrappedStateTraverser

def getFsa (t : CodePointStateTraverser T) : Automata := InnerTraverser.getFsa t.wrappedStateTraverser

end CodePointStateTraverser

/-- The positions of the spaces of a path, the last one first, and the position of the separator. -/
structure Tokens where
  tokenStartPositions : List Nat
  multiwordBoundary : Nat

/-- The part of `NextMatch` about tokens: false for a separator that comes too early or too late. -/
def Tokens.visit (numberOfTokens multiwordSeparator label depth : Nat) (s : Tokens) : Bool × Tokens :=
  let positions := s.tokenStartPositions.dropWhile fun p => decide (depth ≤ p)
  if label = multiwordSeparator ∧ positions.length ≠ numberOfTokens - 1 then
    (false, ⟨positions, s.multiwordBoundary⟩)
  else
    let boundary :=
      if label = multiwordSeparator then depth
      else if depth ≤ s.multiwordBoundary then 0
      else s.multiwordBoundary
    (true, ⟨if label = 0x20 ∧ boundary = 0 then depth :: positions else positions, boundary⟩)

/-- `NeedlemanWunsch::GetCandidate`. -/
def getCandidate (w : NeedlemanWunsch) (pos : Nat) : Option Key :=
  if pos ≤ w.lastPutPosition + 1 then
    utf32to8 ((List.range' pos (w.lastPutPosition + 1 - pos)).map w.compareSequence)
  else none

/-- `FuzzyMultiwordCompletionMatching`. -/
structure FuzzyMultiwordCompletionMatching (T : Type) where
  traverser : Option (CodePointStateTraverser T)
  firstMatch : Option Match
  distanceMetric : Option NeedlemanWunsch
  maxEditDistance : Nat
  prefixLength : Nat
  numberOfTokens : Nat
  multiwordSeparator : Nat
  tokens : Tokens

namespace FuzzyMultiwordCompletionMatching

/-- `FuzzyMultiwordCompletionMatching()`. -/
def empty {T : Type} : FuzzyMultiwordCompletionMatching T :=
  ⟨none, none, none, 0, 0, 0, 0, ⟨[], 0⟩⟩

/-- The inner loop of the exact match: the bytes of a code point. -/
def matchCodepoint (fsa : Automata) (query : Key) : Nat → Nat → Nat → Nat × Nat
  | 0, state, utf8Depth => (state, utf8Depth)
  | i + 1, state, utf8Depth =>
    let next := fsa.tryWalkTransition state (query.getD utf8Depth 0)
    if next = 0 then (0, utf8Depth) else matchCodepoint fsa query i next (utf8Depth + 1)

/-- The loop of the exact match: the state, the depth and the metric. -/
def matchExact (fsa : Automata) (query : Key) (codepoints : List Nat) :
    Nat → Nat → Nat → Nat → NeedlemanWunsch → Option (Nat × Nat × NeedlemanWunsch)
  | 0, state, _, depth, metric => some (state, depth, metric)
  | n + 1, state, utf8Depth, depth, metric =>
    if state = 0 then some (state, depth, metric)
    else
      (getCharLength (query.getD utf8Depth 0)).bind fun codePointLength =>
        let next := matchCodepoint fsa query codePointLength state utf8Depth
        matchExact fsa query codepoints n next.1 next.2 (depth + 1)
          (NeedlemanWunsch.put damerauLevenshteinCompletion metric (codepoints.getD depth 0) depth).2

/-- The number of tokens that `BagOfWordsPartial` gives. -/
def numberOfTokensOf (query : Key) : Nat := (query.splitOnP fun c => c = 0x09 || c = 0x20).length

/-- `FromSingleFsa` with a start state. Cells of the metric that were not set hold what the memory
holds. -/
def fromSingleFsaAt (memory : Nat → Nat → Nat) (fuel : Nat) (fsa : Automata) (startState : Nat)
    (query : Key) (maxEditDistance minimumExactPrefix : Nat) (multiwordSeparator : Byte) :
    Option (FuzzyMultiwordCompletionMatching WeightedStateTraverser) :=
  if startState = 0 then some empty
  else
    let codepoints := utf8to32 (bagOfWordsPartial query)
    if codepoints.length < minimumExactPrefix then some empty
    else
      let metric :=
        NeedlemanWunsch.new damerauLevenshteinCompletion memory codepoints 20 maxEditDistance
      (matchExact fsa query codepoints minimumExactPrefix startState 0 0 metric).bind fun r =>
        if r.1 = 0 ∨ r.2.1 ≠ minimumExactPrefix then some empty
        else
          (CodePointStateTraverser.ofTraverser fuel
            (StateTraverser.ofState fsa r.1 default false : WeightedStateTraverser)).map fun traverser =>
            { traverser := some traverser
              firstMatch :=
                if r.2.1 = codepoints.length ∧ fsa.isFinalState r.1 = true then
                  some (.make 0 codepoints.length query 0 fsa (fsa.getStateValue r.1))
                else none
              distanceMetric := some r.2.2
              maxEditDistance := maxEditDistance
              prefixLength := minimumExactPrefix
              numberOfTokens := numberOfTokensOf query
              multiwordSeparator := multiwordSeparator.val
              tokens := ⟨[], 0⟩ }

/-- `FromSingleFsa`. -/
def fromSingleFsa (memory : Nat → Nat → Nat) (fuel : Nat) (fsa : Automata) (query : Key)
    (maxEditDistance minimumExactPrefix : Nat) (multiwordSeparator : Byte) :
    Option (FuzzyMultiwordCompletionMatching WeightedStateTraverser) :=
  fromSingleFsaAt memory fuel fsa fsa.getStartState query maxEditDistance minimumExactPrefix
    multiwordSeparator

variable {T : Type} [InnerTraverser T]

/-- `NextMatch`, at most `rounds` rounds of its loop. -/
def nextMatch (fuel : Nat) : Nat → FuzzyMultiwordCompletionMatching T →
    Option (Option Match × FuzzyMultiwordCompletionMatching T)
  | 0, _ => none
  | rounds + 1, m =>
    match m.traverser, m.distanceMetric with
    | some t, some w =>
      if t.alive then
        let tokens := m.tokens.visit m.numberOfTokens m.multiwordSeparator t.getStateLabel t.getDepth
        if tokens.1 then
          let put := NeedlemanWunsch.put damerauLevenshteinCompletion w t.getStateLabel
            (m.prefixLength + t.getDepth - 1)
          if put.1 > m.maxEditDistance then
            (t.prune.bind fun t => t.advance fuel).bind fun t =>
              nextMatch fuel rounds
                { m with traverser := some t, distanceMetric := some put.2, tokens := tokens.2 }
          else if t.isFinalState then
            (getCandidate put.2 (if 0 < tokens.2.multiwordBoundary then
                m.prefixLength + tokens.2.multiwordBoundary else 0)).bind fun matchStr =>
              (t.advance fuel).map fun t' =>
                (some (.make 0 (m.prefixLength + t.getDepth) matchStr put.2.getScore t.getFsa
                    t.getStateValue),
                  { m with traverser := some t', distanceMetric := some put.2, tokens := tokens.2 })
          else
            (t.advance fuel).bind fun t =>
              nextMatch fuel rounds
                { m with traverser := some t, distanceMetric := some put.2, tokens := tokens.2 }
        else
          (t.prune.bind fun t => t.advance fuel).bind fun t =>
            nextMatch fuel rounds { m with traverser := some t, tokens := tokens.2 }
      else some (none, m)
    | _, _ => some (none, m)

/-- The matches of `NextMatch` until there is none, at most `n` calls. -/
def nextMatches (fuel rounds : Nat) : Nat → FuzzyMultiwordCompletionMatching T → Option (List Match)
  | 0, _ => none
  | n + 1, m =>
    (nextMatch fuel rounds m).bind fun next =>
      match next.1 with
      | none => some []
      | some found => (nextMatches fuel rounds n next.2).map (found :: ·)

/-- All matches, the first one included. -/
def allMatches (fuel : Nat) (m : FuzzyMultiwordCompletionMatching T) : Option (List Match) :=
  (nextMatches fuel fuel fuel m).map (m.firstMatch.toList ++ ·)

end FuzzyMultiwordCompletionMatching

/-- A separator that is passed is not behind the label. -/
theorem Tokens.boundary_visit_le {numberOfTokens multiwordSeparator label depth : Nat} {s : Tokens}
    (h : (s.visit numberOfTokens multiwordSeparator label depth).1 = true) :
    (s.visit numberOfTokens multiwordSeparator label depth).2.multiwordBoundary ≤ depth := by
  unfold Tokens.visit at h ⊢
  dsimp only at h ⊢
  split at h
  · cases h
  · next hcond =>
    rw [if_neg hcond]
    dsimp only
    split_ifs <;> omega

/-! ## The traverser goes from text to text -/

section

variable {T : Type} [InnerTraverser T] {R : T → List (List Byte) → Prop} {fuel : Nat}
  {t : CodePointStateTraverser T} {g v : List Char} {c : Char} {h : List Byte} {L : List (List Byte)}

/-- The text above the next one lies on the path, by induction on the paths inside of a character. -/
theorem parent_suffix : ∀ {L : List (List Byte)} {h : List Byte} {rest : List (List Byte)},
    Preorder.Continues h L → L.filter complete = pathOf (v ++ [c]) :: rest → pathOf v <:+ h
  | [], _, _, _, hL => by simp at hL
  | x :: L, h, rest, hc, hL => by
    have hbelow : pathOf v <:+ pathOf (v ++ [c]) := pathOf_suffix_iff.mpr (List.prefix_append _ _)
    have htail : ∀ {y : List Byte}, pathOf v <:+ y → pathOf v ≠ y → pathOf v <:+ y.tail := by
      intro y hy hne
      cases y with
      | nil => exact hy
      | cons a y => exact (List.suffix_cons_iff.mp hy).resolve_left hne
    by_cases hx : complete x = true
    · rw [List.filter_cons_of_pos hx] at hL
      obtain ⟨rfl, -⟩ := List.cons.inj hL
      refine (htail hbelow fun heq => ?_).trans hc.1
      simpa using pathOf_injective heq
    · rw [List.filter_cons_of_neg hx] at hL
      have hrest := parent_suffix hc.2 hL
      refine (htail hrest fun heq => hx ?_).trans hc.1
      rw [← heq]
      exact complete_pathOf v

/-- The next text goes on from a prefix of `g`. -/
structure Before (R : T → List (List Byte) → Prop) (t : CodePointStateTraverser T) (g : List Char)
    (L : List (List Byte)) : Prop where
  ready : ∃ h, Ready R t h L
  parent : ∀ v c rest, L.filter complete = pathOf (v ++ [c]) :: rest → v <+: g

/-- The traverser shows the first of the texts that are left, whose parent is a prefix of `g`. -/
inductive Remaining (R : T → List (List Byte) → Prop) (fuel : Nat) (t : CodePointStateTraverser T)
    (g : List Char) : List (List Byte) → Prop
  | ended (ht : Ended R t) : Remaining R fuel t g []
  | here {v : List Char} {c : Char} {L : List (List Byte)} (ht : AtPath R t (pathOf (v ++ [c])) L)
    (hv : v <+: g) (hf : L.length < fuel) :
      Remaining R fuel t g (pathOf (v ++ [c]) :: L.filter complete)

theorem Before.advance (hw : Wraps R) (ht : Before R t g L) (hf : L.length < fuel) :
    ∃ t', t.advance fuel = some t' ∧ Remaining R fuel t' g (L.filter complete) := by
  obtain ⟨h, hready⟩ := ht.ready
  rcases advance_spec hw hf hready with ⟨hnil, t', hadv, hend⟩ | ⟨p, L', t', hL, hlen, hadv, hat⟩
  · rw [hnil]
    exact ⟨t', hadv, .ended hend⟩
  · have hp : complete p = true := (List.mem_filter.mp (hL ▸ List.mem_cons_self)).2
    obtain ⟨s, hs⟩ := hat.text p List.mem_cons_self
    obtain ⟨s, -, hs⟩ := exists_text hs (of_decide_eq_true hp)
    obtain rfl : p = pathOf s := by rw [pathOf, ← hs, List.reverse_reverse]
    rcases List.eq_nil_or_concat s with rfl | ⟨v, c, rfl⟩
    · exact absurd rfl (hw.nonempty _ _ _ hat.here)
    · rw [List.concat_eq_append] at hL hat
      rw [hL]
      exact ⟨t', hadv, .here hat (ht.parent v c _ hL) (by omega)⟩

theorem AtPath.before (hw : Wraps R) {u : List Char} (ht : AtPath R t (pathOf u) L) :
    Before R t u L :=
  ⟨⟨_, ht.ready hw⟩, fun _ _ _ hL => pathOf_suffix_iff.mp (parent_suffix ht.continues hL)⟩

/-- After `Prune` the traverser goes on from the text above. -/
theorem AtPath.prune_before (hw : Wraps R) (ht : AtPath R t (pathOf (v ++ [c])) L) :
    ∃ t', t.prune = some t' ∧
      Before R t' v (L.filter fun q => ¬ pathOf (v ++ [c]) <:+ q) := by
  obtain ⟨t', h, hprune, hready⟩ := prune_spec hw ht
  refine ⟨t', hprune, ⟨h, hready⟩, fun v' c' rest hL => ?_⟩
  have hout : pathOf (v ++ [c]) ∉ L := (List.nodup_cons.mp ht.nodup).1
  have hcontinues := Preorder.Continues.filter List.suffix_rfl ht.continues List.suffix_rfl hout
  have hparent := parent_suffix hcontinues hL
  have hsub : v' <+: v ++ [c] :=
    pathOf_suffix_iff.mp (hparent.trans (List.tail_suffix _))
  rcases List.prefix_concat_iff.mp hsub with rfl | hv'
  · have := hparent.length_le
    have hne : pathOf (v ++ [c]) ≠ [] := hw.nonempty _ _ _ ht.here
    have hpos := List.length_pos_iff.mpr hne
    rw [List.length_tail] at this
    omega
  · exact hv'

/-- What `NextMatch` sees of the text at which the traverser is. -/
theorem AtPath.label_depth (hw : Wraps R) (ht : AtPath R t (pathOf (v ++ [c])) L) :
    t.alive = true ∧ t.getStateLabel = c.toNat ∧ t.getDepth = v.length + 1 := by
  refine ⟨hw.alive _ _ _ ht.here, ht.codepoint v c (List.reverse_reverse _), ?_⟩
  rw [CodePointStateTraverser.getDepth, ht.stacked.depth, depthOfPath, pathOf, List.countP_reverse,
    countP_isLead, List.length_append, List.length_singleton]

/-- Pruning at a text and going on from the one above it. -/
theorem AtPath.prune_advance (hw : Wraps R) (ht : AtPath R t (pathOf (v ++ [c])) L)
    (hf : L.length < fuel) : ∃ t', (t.prune.bind fun t => t.advance fuel) = some t' ∧
      Remaining R fuel t' v ((L.filter complete).filter fun q => ¬ pathOf (v ++ [c]) <:+ q) := by
  obtain ⟨t₁, ht₁, hbefore⟩ := ht.prune_before hw
  obtain ⟨t₂, ht₂, hremaining⟩ := hbefore.advance hw ((List.length_filter_le _ _).trans_lt hf)
  rw [List.filter_comm] at hremaining
  exact ⟨t₂, by rw [ht₁, Option.bind_some, ht₂], hremaining⟩

theorem length_take_append {n : Nat} {base : List Char} (hn : n ≤ base.length) (u : List Char) :
    (base.take n ++ u).length = n + u.length := by
  rw [List.length_append, List.length_take, Nat.min_eq_left hn]

end

/-! ## The metric of a path -/

/-- A prefix of the input is within the distance of the path, or the input of a prefix of the path. -/
def Reaches (d : Nat) (path input : List Nat) : Prop :=
  ∃ j ≤ input.length, completionCell (fun j => input.getD j 0) (fun k => path.getD k 0) input.length
    path.length j ≤ d

instance (d : Nat) (path input : List Nat) : Decidable (Reaches d path input) :=
  inferInstanceAs (Decidable (∃ j, j ≤ input.length ∧ _))

theorem codepointsOf_ne_nil {s : List Char} (h : s ≠ []) : codepointsOf s ≠ [] :=
  fun hnil => h (List.map_eq_nil_iff.mp hnil)

/-- Without input every path is in reach. -/
theorem reaches_nil (d : Nat) (path : List Nat) : Reaches d path [] := by
  refine ⟨0, le_rfl, ?_⟩
  refine (completionCell_last _ _ _ _).le.trans ((nearest_le_of_le _ _ _ (Nat.zero_le _)).trans ?_)
  rw [osa_zero]
  exact Nat.zero_le _

theorem putPath_codepointsOf {v : List Char} {path : List Nat} (hg : codepointsOf v <+: path)
    (c : Char) : putPath path (c.toNat, v.length) = codepointsOf (v ++ [c]) := by
  have htake := List.prefix_iff_eq_take.mp hg
  rw [length_codepointsOf] at htake
  rw [putPath, ← htake, codepointsOf_append]
  rfl

/-- The candidate is the text that was put, from a position on. -/
theorem getCandidate_eq {g : List Char} {w : NeedlemanWunsch}
    (hsequence : ∀ i < (codepointsOf g).length, w.compareSequence i = (codepointsOf g).getD i 0)
    (hposition : w.lastPutPosition + 1 = g.length) {pos : Nat} (hp : pos ≤ g.length) :
    getCandidate w pos = some (bytesOf (g.drop pos)) := by
  have hsymbols : (List.range' pos (g.length - pos)).map w.compareSequence =
      codepointsOf (g.drop pos) := by
    refine List.ext_getElem (by simp [codepointsOf]) fun i hi hi' => ?_
    rw [List.length_map, List.length_range'] at hi
    rw [List.getElem_map, List.getElem_range', Nat.one_mul,
      hsequence _ (by rw [length_codepointsOf]; omega)]
    simp only [codepointsOf, List.map_drop, List.getElem_drop]
    exact List.getD_eq_getElem _ _ _
  rw [getCandidate, if_pos (hposition ▸ hp), hposition, hsymbols, utf32to8_codepointsOf]

/-- The metric has the code points of a text. -/
structure MetricOk (input : List Nat) (d : Nat) (g : List Char) (w : NeedlemanWunsch) : Prop where
  inv : ∃ path, NeedlemanWunsch.CompletionInv input d path w ∧ codepointsOf g <+: path

theorem MetricOk.restrict {input : List Nat} {d : Nat} {g v : List Char} {w : NeedlemanWunsch}
    (h : MetricOk input d g w) (hv : v <+: g) : MetricOk input d v w := by
  obtain ⟨path, hinv, hg⟩ := h.inv
  obtain ⟨u, rfl⟩ := hv
  rw [codepointsOf_append] at hg
  exact ⟨path, hinv, (List.prefix_append _ _).trans hg⟩

/-- **One `Put`** of the code point behind a text: what the intermediate score, the score and the
candidate say. -/
theorem MetricOk.put {input : List Nat} {d : Nat} {v : List Char} {c : Char} {w : NeedlemanWunsch}
    (hne : input ≠ []) (h : MetricOk input d v w) {w' : NeedlemanWunsch} {score : Nat}
    (hput : NeedlemanWunsch.put damerauLevenshteinCompletion w c.toNat v.length = (score, w')) :
    MetricOk input d (v ++ [c]) w' ∧ (score ≤ d ↔ Reaches d (codepointsOf (v ++ [c])) input) ∧
      Agrees d w'.getScore (NeedlemanWunsch.distanceToBestPrefix (codepointsOf (v ++ [c])) input) ∧
      ∀ pos ≤ v.length + 1, getCandidate w' pos = some (bytesOf ((v ++ [c]).drop pos)) := by
  obtain ⟨path, hinv, hg⟩ := h.inv
  have hlen : v.length ≤ path.length := by simpa using hg.length_le
  obtain ⟨hinv', hlast, hscore⟩ := hinv.put hne (p := (c.toNat, v.length)) hlen
  rw [putPath_codepointsOf hg, hput] at hinv' hscore hlast
  have hlength : (codepointsOf (v ++ [c])).length = v.length + 1 := by simp
  have hpos : codepointsOf (v ++ [c]) ≠ [] := List.length_pos_iff.mp (by omega)
  refine ⟨⟨_, hinv', List.prefix_rfl⟩, ?_, hinv'.getScore_agrees hpos, fun pos hp => ?_⟩
  · dsimp only at hscore
    rw [← hscore]
    exact hinv'.score_le_iff
  · exact getCandidate_eq hinv'.compareSequence (by rw [← length_codepointsOf]; exact hlast)
      (by rwa [List.length_append])

/-- The metric of an empty text: no row is calculated, and the score stays what the memory holds. -/
structure EmptyOk (score : Nat) (g : List Char) (w : NeedlemanWunsch) : Prop where
  columns : w.distanceMatrix.numberOfColumns = 1
  scores : ∀ i, w.intermediateScores i = 0
  getScore : w.getScore = score
  sequence : ∃ path, (∀ i < path.length, w.compareSequence i = path.getD i 0) ∧ codepointsOf g <+: path

theorem EmptyOk.restrict {score : Nat} {g v : List Char} {w : NeedlemanWunsch}
    (h : EmptyOk score g w) (hv : v <+: g) : EmptyOk score v w := by
  obtain ⟨path, hsequence, hg⟩ := h.sequence
  obtain ⟨u, rfl⟩ := hv
  rw [codepointsOf_append] at hg
  exact ⟨h.columns, h.scores, h.getScore, path, hsequence, (List.prefix_append _ _).trans hg⟩

theorem EmptyOk.put {score₀ : Nat} {v : List Char} {c : Char} {w : NeedlemanWunsch}
    (h : EmptyOk score₀ v w) {w' : NeedlemanWunsch} {score : Nat}
    (hput : NeedlemanWunsch.put damerauLevenshteinCompletion w c.toNat v.length = (score, w')) :
    EmptyOk score₀ (v ++ [c]) w' ∧ score = 0 ∧
      ∀ pos ≤ v.length + 1, getCandidate w' pos = some (bytesOf ((v ++ [c]).drop pos)) := by
  unfold NeedlemanWunsch.put at hput
  dsimp only at hput
  -- There is one column, so every row is behind the band.
  rw [DistanceMatrix.numberOfColumns_ensureRowCapacity, h.columns, if_pos (by split <;> omega),
    Prod.mk.injEq] at hput
  obtain ⟨rfl, rfl⟩ := hput
  obtain ⟨path, hsequence, hg⟩ := h.sequence
  have hlen : v.length ≤ path.length := by simpa using hg.length_le
  have hsequence' : ∀ i < (codepointsOf (v ++ [c])).length,
      Function.update w.compareSequence v.length c.toNat i = (codepointsOf (v ++ [c])).getD i 0 := by
    intro i hi
    rw [length_codepointsOf, List.length_append] at hi
    rw [← putPath_codepointsOf hg]
    exact NeedlemanWunsch.update_putPath hsequence (p := (c.toNat, v.length)) hlen hi
  have hzero : w.intermediateScores (v.length + 1 - 1) +
      min damerauLevenshteinCompletion.getCompletionCost
        (damerauLevenshteinCompletion.getInsertionCost c.toNat) = 0 := by
    rw [h.scores]
    rfl
  refine ⟨⟨?_, fun i => ?_, ?_, _, hsequence', List.prefix_rfl⟩, hzero, fun pos hp => ?_⟩
  · exact (DistanceMatrix.numberOfColumns_ensureRowCapacity _ _).trans h.columns
  · show Function.update w.intermediateScores (v.length + 1) _ i = 0
    by_cases hi : i = v.length + 1
    · rw [hi, Function.update_self, hzero]
    · rw [Function.update_of_ne hi, h.scores]
  · rw [← h.getScore]
    unfold NeedlemanWunsch.getScore
    rw [DistanceMatrix.numberOfColumns_ensureRowCapacity, DistanceMatrix.get_ensureRowCapacity]
  · exact getCandidate_eq hsequence' (by simp) (by rwa [List.length_append])

/-- What the metric of a bag of words says of a text. -/
structure ScoreOk (bow : List Char) (d score₀ : Nat) (g : List Char) (score : Nat) : Prop where
  agrees : bow ≠ [] →
    Agrees d score (NeedlemanWunsch.distanceToBestPrefix (codepointsOf g) (codepointsOf bow))
  empty : bow = [] → score = score₀

/-- The metric of a bag of words has the code points of a text. -/
structure Measures (bow : List Char) (d score₀ : Nat) (g : List Char) (w : NeedlemanWunsch) :
    Prop where
  metric : bow ≠ [] → MetricOk (codepointsOf bow) d g w
  empty : bow = [] → EmptyOk score₀ g w

theorem Measures.restrict {bow g v : List Char} {d score₀ : Nat} {w : NeedlemanWunsch}
    (h : Measures bow d score₀ g w) (hv : v <+: g) : Measures bow d score₀ v w :=
  ⟨fun hbow => (h.metric hbow).restrict hv, fun hbow => (h.empty hbow).restrict hv⟩

/-- **A path is pruned** exactly when it is out of reach. -/
theorem Measures.put {bow v : List Char} {d score₀ : Nat} {c : Char} {w w' : NeedlemanWunsch}
    {score : Nat} (h : Measures bow d score₀ v w)
    (hput : NeedlemanWunsch.put damerauLevenshteinCompletion w c.toNat v.length = (score, w')) :
    Measures bow d score₀ (v ++ [c]) w' ∧
      (score ≤ d ↔ Reaches d (codepointsOf (v ++ [c])) (codepointsOf bow)) ∧
      ScoreOk bow d score₀ (v ++ [c]) w'.getScore ∧
      ∀ pos ≤ v.length + 1, getCandidate w' pos = some (bytesOf ((v ++ [c]).drop pos)) := by
  by_cases hbow : bow = []
  · obtain ⟨hempty, hscore, hcandidate⟩ := (h.empty hbow).put hput
    refine ⟨⟨fun hne => absurd hbow hne, fun _ => hempty⟩, iff_of_true ?_ ?_,
      ⟨fun hne => absurd hbow hne, fun _ => hempty.getScore⟩, hcandidate⟩
    · exact hscore.le.trans (Nat.zero_le d)
    · rw [hbow]
      exact reaches_nil d _
  · obtain ⟨hmetric, hreach, hagrees, hcandidate⟩ :=
      (h.metric hbow).put (codepointsOf_ne_nil hbow) hput
    exact ⟨⟨fun _ => hmetric, fun hnil => absurd hnil hbow⟩, hreach,
      ⟨fun _ => hagrees, fun hnil => absurd hnil hbow⟩, hcandidate⟩

/-! ## The paths that are not pruned -/

/-- The paths that are not pruned, of a list in the order of the traverser. A path is left with all
below it at a separator after another number of tokens than there are, and out of reach. -/
def unpruned (separator numberOfTokens d : Nat) (base input : List Nat) :
    List (List Byte) → Tokens → List (List Byte)
  | [], _ => []
  | p :: M, s =>
    let codepoints := utf8to32 p.reverse
    let visited := s.visit numberOfTokens separator (codepoints.getLastD 0) codepoints.length
    if visited.1 = true ∧ Reaches d (base ++ codepoints) input then
      p :: unpruned separator numberOfTokens d base input M visited.2
    else
      unpruned separator numberOfTokens d base input (M.filter fun q => ¬ p <:+ q) visited.2
termination_by M => M.length
decreasing_by
  · simp
  · rw [List.length_unattach]
    exact Nat.lt_succ_of_le ((List.length_filter_le _ _).trans_eq List.length_attach)

theorem unpruned_cons {separator numberOfTokens d : Nat} {base input : List Nat} {v : List Char}
    {c : Char} {M : List (List Byte)} {s : Tokens} :
    unpruned separator numberOfTokens d base input (pathOf (v ++ [c]) :: M) s =
      if (s.visit numberOfTokens separator c.toNat (v.length + 1)).1 = true ∧
          Reaches d (base ++ codepointsOf (v ++ [c])) input then
        pathOf (v ++ [c]) :: unpruned separator numberOfTokens d base input M
          (s.visit numberOfTokens separator c.toNat (v.length + 1)).2
      else
        unpruned separator numberOfTokens d base input (M.filter fun q => ¬ pathOf (v ++ [c]) <:+ q)
          (s.visit numberOfTokens separator c.toNat (v.length + 1)).2 := by
  have hcodepoints : utf8to32 (pathOf (v ++ [c])).reverse = codepointsOf (v ++ [c]) := by
    rw [pathOf, List.reverse_reverse, utf8to32_bytesOf]
  have hlast : (codepointsOf (v ++ [c])).getLastD 0 = c.toNat := by
    simp [codepointsOf]
  rw [unpruned, hcodepoints, hlast, length_codepointsOf, List.length_append, List.length_singleton]

end Keyvi.Matching
