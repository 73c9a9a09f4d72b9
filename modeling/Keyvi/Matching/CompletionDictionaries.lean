import Mathlib
import Keyvi.Fsa.ZipDictionaries
import Keyvi.Matching.CompletionRuns

/-!
# Completion over several dictionaries

What the completers return over several dictionaries is compared with what they return on one
dictionary that holds the newest values. The traversal agrees; the match of the query itself is
taken from the first dictionary in the list that has it.
-/

namespace Keyvi.Matching

open Fsa Automata Dictionary

variable {ds : List Dictionary} {u d : Dictionary} {query k : Key}

/-- A dictionary with the keys of all of them, each with its newest value. -/
structure IsMerge (ds : List Dictionary) (u : Dictionary) : Prop where
  holds : Holds u.1 u.2
  entries : ∀ e, e ∈ u.2 ↔ ∃ d, newest ds e.1 = some d ∧ e ∈ d.2

/-- The value of a key. -/
def valueOf (d : Dictionary) (k : Key) : Nat := d.1.getStateValue (stateAt d k)

/-- The first dictionary in the list that has the key. -/
def oldest (ds : List Dictionary) (k : Key) : Option Dictionary := ds.find? fun d => hasKey d k

theorem hasKey_iff (h : Holds d.1 d.2) :
    hasKey d k = true ↔ stateAt d k ≠ 0 ∧ d.1.isFinalState (stateAt d k) = true := by
  rw [hasKey, decide_eq_true_eq, h.final]
  rfl

theorem valueOf_mem (h : Holds d.1 d.2) (hk : hasKey d k = true) : (k, valueOf d k) ∈ d.2 :=
  h.value_mem (of_decide_eq_true hk)

theorem valueOf_eq (h : Holds d.1 d.2) {v : Nat} (hk : (k, v) ∈ d.2) : valueOf d k = v :=
  h.value _ hk

theorem stateAt_append (d : Dictionary) (query : Key) (p : List Byte) :
    stateAt d (query ++ p.reverse) = d.1.trailState (stateAt d query) p := by
  rw [stateAt, walk_append, walk_reverse]
  rfl

theorem exists_newest (hk : hasKey d k = true) (hd : d ∈ ds) : ∃ d', newest ds k = some d' := by
  rw [← Option.isSome_iff_exists, ← Option.ne_none_iff_isSome]
  intro hn
  have := NewestWins.newest_eq_none.mp hn d hd
  rw [hk] at this
  cases this

namespace IsMerge

theorem hasKey_iff (h : IsMerge ds u) : hasKey u k = true ↔ ∃ d ∈ ds, hasKey d k = true := by
  rw [hasKey, decide_eq_true_eq, keysOf, List.mem_map]
  constructor
  · rintro ⟨e, he, rfl⟩
    obtain ⟨d, hd, hed⟩ := (h.entries e).mp he
    exact ⟨d, (NewestWins.newest_mem hd).1, (NewestWins.newest_mem hd).2⟩
  · rintro ⟨d, hd, hk⟩
    obtain ⟨d', hd'⟩ := exists_newest hk hd
    have hk' := of_decide_eq_true (NewestWins.newest_mem hd').2
    obtain ⟨e, he, rfl⟩ := List.mem_map.mp hk'
    exact ⟨e, (h.entries e).mpr ⟨d', hd', he⟩, rfl⟩

theorem isUnion (h : IsMerge ds u) : IsUnion ds u := by
  refine ⟨h.holds, fun k => ?_⟩
  have := h.hasKey_iff (k := k)
  simpa only [hasKey, decide_eq_true_eq] using this

/-- The merged dictionary has the value of the newest one. -/
theorem valueOf_eq (h : IsMerge ds u) (hd : ∀ d ∈ ds, Holds d.1 d.2)
    (hn : newest ds k = some d) : valueOf d k = valueOf u k := by
  obtain ⟨hm, hk⟩ := NewestWins.newest_mem hn
  have hu : (k, valueOf d k) ∈ u.2 := (h.entries _).mpr ⟨d, hn, valueOf_mem (hd d hm) hk⟩
  exact (Matching.valueOf_eq h.holds hu).symm

end IsMerge

/-! ## The dictionaries in which there is a way along the query -/

/-- The dictionaries with a path for the query. -/
def onPath (ds : List Dictionary) (query : Key) : List Dictionary :=
  ds.filter fun d => stateAt d query ≠ 0

theorem fsaStartStatePairs_eq (ds : List Dictionary) (query : Key) :
    fsaStartStatePairs (ds.map Prod.fst) query =
      (onPath ds query).map fun d => (d.1, stateAt d query) := by
  rw [fsaStartStatePairs, onPath, List.map_map, List.filter_map]
  rfl

theorem mem_onPath : d ∈ onPath ds query ↔ d ∈ ds ∧ stateAt d query ≠ 0 := by
  rw [onPath, List.mem_filter, decide_eq_true_eq]

/-- A dictionary with a key that starts with the query has a path for it. -/
theorem onPath_of_hasKey (hd : ∀ d ∈ ds, Holds d.1 d.2) (hm : d ∈ ds) {w : Key}
    (hk : hasKey d (query ++ w) = true) : d ∈ onPath ds query :=
  mem_onPath.mpr ⟨hm, (hd d hm).walk_ne_zero (of_decide_eq_true hk) (List.prefix_append query w)⟩

theorem newest_onPath (hd : ∀ d ∈ ds, Holds d.1 d.2) (w : Key) :
    newest (onPath ds query) (query ++ w) = newest ds (query ++ w) := by
  rw [newest, newest, onPath]
  induction ds with
  | nil => rfl
  | cons d ds ih =>
    have ih := ih fun x hx => hd x (List.mem_cons_of_mem _ hx)
    rw [List.filter_cons]
    split
    · rw [NewestWins.newest_cons, NewestWins.newest_cons, ih]
    · next hst =>
      have hno : hasKey d (query ++ w) = false := by
        rw [← Bool.not_eq_true]
        intro hk
        exact hst (decide_eq_true
          (mem_onPath.mp (onPath_of_hasKey hd List.mem_cons_self hk)).2)
      rw [NewestWins.newest_cons, ih, hno]
      simp

/-- The loop for the match of the query ends at the first dictionary that has it. -/
theorem firstFinal_eq (hd : ∀ d ∈ ds, Holds d.1 d.2) :
    firstFinal (fsaStartStatePairs (ds.map Prod.fst) query) =
      (oldest ds query).map fun d => (d.1, stateAt d query) := by
  rw [fsaStartStatePairs_eq, firstFinal, List.find?_map, oldest, onPath, List.find?_filter]
  congr 1
  refine List.find?_congr fun d hm => ?_
  rw [Bool.eq_iff_iff, hasKey_iff (hd d hm)]
  simp

/-- The trees behind the query. -/
theorem union_onPath (query : Key) (hd : ∀ d ∈ ds, Holds d.1 d.2) (hu : IsUnion ds u) :
    ZipTraverser.Union (sources (onPath ds query) query) (bound ds + depthOf u.2) u.1
      (stateAt u query) := by
  have h := Dictionary.union (j := query) hd hu
  refine ⟨h.tree, fun q hq => (h.union q hq).trans ⟨?_, ?_⟩⟩
  · rintro ⟨s, hs, hp⟩
    obtain ⟨d, hi, hf, hst⟩ := mem_sources.mp hs
    have hne : stateAt d query ≠ 0 := by
      intro h0
      have hpath := of_decide_eq_true hp
      rw [hf, hst, h0, ← walk_reverse, walk_zero] at hpath
      exact hpath rfl
    obtain ⟨s', hs', -, hf', hst'⟩ := exists_source (j := query)
      (mem_onPath.mpr ⟨List.mem_of_getElem? hi, hne⟩)
    refine ⟨s', hs', ?_⟩
    rw [Source.hasPath, hf', hst', ← hf, ← hst]
    exact hp
  · rintro ⟨s, hs, hp⟩
    obtain ⟨d, hi, hf, hst⟩ := mem_sources.mp hs
    obtain ⟨s', hs', -, hf', hst'⟩ := exists_source (j := query)
      (mem_onPath.mp (List.mem_of_getElem? hi)).1
    refine ⟨s', hs', ?_⟩
    rw [Source.hasPath, hf', hst', ← hf, ← hst]
    exact hp

theorem wellFormed_onPath (query : Key) (hd : ∀ d ∈ ds, Holds d.1 d.2) {B : Nat} (hB : bound ds ≤ B) :
    Source.WellFormed (sources (onPath ds query) query) B := by
  refine wellFormed (fun d hm => hd d (mem_onPath.mp hm).1) (le_trans ?_ hB)
  exact (List.filter_sublist.map _).sum_le_sum fun _ _ => Nat.zero_le _

/-! ## The traversers follow the paths behind the query -/

/-- The paths behind the query. -/
def pathsBehind (ds : List Dictionary) (u : Dictionary) (query : Key) : List (List Byte) :=
  Preorder.subtree (u.1.children (stateAt u query)) (bound ds + depthOf u.2) []

/-- The path behind the query is a key. -/
def keyBehind (u : Dictionary) (query : Key) (p : List Byte) : Bool :=
  hasKey u (query ++ p.reverse)

/-- Where the zipped traverser finds a path. -/
def foundNewest (ds : List Dictionary) (query : Key) (p : List Byte) : Automata × Nat :=
  match newest (onPath ds query) (query ++ p.reverse) with
  | none => (ofCells 0 0 [] [], 0)
  | some d => (d.1, valueOf d (query ++ p.reverse))

/-- Where a single traverser finds a path. -/
def foundSingle (u : Dictionary) (query : Key) (p : List Byte) : Automata × Nat :=
  (u.1, valueOf u (query ++ p.reverse))

/-- A traverser of one automaton follows the paths of the tree that it shows. -/
theorem follows_of_visits {τ π : Type} [TransitionT τ π] [Inhabited π] {B : Nat}
    {children : List Byte → List Byte} {transition : List Byte → Byte → τ}
    {ok : π → List Byte → List Byte → Prop} (hu : Holds u.1 u.2)
    (hB : Preorder.Bounded children B) (hnd : ∀ p, (children p).Nodup)
    (hv : Visits u.1 (stateAt u query) children transition ok)
    (hup : ∀ c p π r r', ok π (c :: p) r → (c :: r') <:+ children p →
      ok (TransitionT.leave τ (p.length + 1) π) p r') :
    Follows (fun (t : StateTraverser τ π) L =>
        Arrives u.1 (stateAt u query) B children transition ok t L)
      (keyBehind u query) (foundSingle u query) := by
  refine ⟨fun t h => ?_, fun t p L h => ?_, fun t p L h => h.1, fun t p L h => h.2.depth,
    fun t p L h => h.2.label, fun t p L h => ?_, fun t p L h _ => ?_,
    fun t p L h => h.2.advance hB hv, fun t p L h => ?_⟩
  · have h0 : t.currentState = 0 := h
    show StateTraverser.alive t = false
    simp [StateTraverser.alive, h0]
  · show StateTraverser.alive t = true
    simpa [StateTraverser.alive] using h.2.alive
  · show t.fsa.isFinalState t.currentState = _
    have hne := h.2.alive
    rw [h.2.state] at hne
    rw [Bool.eq_iff_iff, keyBehind, hasKey_iff hu, h.2.fsa, h.2.state, stateAt_append]
    simp [hne]
  · show (t.fsa, t.fsa.getStateValue t.currentState) = _
    rw [h.2.fsa, h.2.state, foundSingle, valueOf, stateAt_append]
  · obtain ⟨c, p, rfl⟩ := List.exists_cons_of_ne_nil h.1
    exact h.2.prune_advance hB hnd hv (hup c p)

theorem follows_single (hu : IsUnion ds u) :
    Follows (fun (t : PlainTraverser) L =>
        PlainTraverser.ArrivesAt u.1 (stateAt u query) (bound ds + depthOf u.2) t L)
      (keyBehind u query) (foundSingle u query) := by
  have hT : u.1.Tree (stateAt u query) (bound ds + depthOf u.2) :=
    Dictionary.Tree.mono (hu.holds.tree_walk query) (Nat.le_add_left _ _)
  exact follows_of_visits hu.holds (bounded_children hT) (nodup_children u.1 _)
    (Transition.visits hT) fun _ _ _ _ _ _ _ => trivial

theorem follows_zip (hd : ∀ d ∈ ds, Holds d.1 d.2) (hu : IsMerge ds u) :
    Follows (fun (z : ZipTraverser) L =>
        ZipTraverser.At (sources (onPath ds query) query) (bound ds + depthOf u.2) z L ∧
          ZipTraverser.Agenda (bound ds + depthOf u.2) (sources (onPath ds query) query) L)
      (keyBehind u query) (foundNewest ds query) := by
  have hw := wellFormed_onPath query hd (Nat.le_add_right (bound ds) (depthOf u.2))
  have hd' : ∀ d ∈ onPath ds query, Holds d.1 d.2 := fun d hm => hd d (mem_onPath.mp hm).1
  have hshows : ∀ (z : ZipTraverser) p L,
      (ZipTraverser.At (sources (onPath ds query) query) (bound ds + depthOf u.2) z (p :: L) ∧
        ZipTraverser.Agenda (bound ds + depthOf u.2) (sources (onPath ds query) query) (p :: L)) →
      Shows (onPath ds query) query z p.reverse := fun z p L h =>
    shows_of_shows hd' (h.2.nonempty p List.mem_cons_self) h.1.2.1
  refine ⟨fun z h => ?_, fun z p L h => (hshows z p L h).alive,
    fun z p L h => h.2.nonempty p List.mem_cons_self, fun z p L h => ?_, fun z p L h => ?_,
    fun z p L h => ?_, fun z p L h hfin => ?_, fun z p L h => ?_, fun z p L h => ?_⟩
  · have hq : z.traverserQueue = [] := h.1
    show ZipStateTraverser.alive z = false
    rw [ZipStateTraverser.alive, hq]
    rfl
  · exact ((hshows z p L h).depth).trans (List.length_reverse)
  · exact h.1.2.1.label
  · show z.final = _
    rw [Bool.eq_iff_iff, (hshows z p L h).final, keyBehind, hu.hasKey_iff]
    constructor
    · rintro ⟨d, hm, hk⟩
      exact ⟨d, (mem_onPath.mp hm).1, decide_eq_true hk⟩
    · rintro ⟨d, hm, hk⟩
      exact ⟨d, onPath_of_hasKey hd hm hk, of_decide_eq_true hk⟩
  · show (z.fsa.getD _, z.stateValue) = _
    obtain ⟨d, hn, -, hfsa, hv⟩ := (hshows z p L h).reads
      ((hshows z p L h).final.mpr (by
        obtain ⟨d, hm, hk⟩ := hu.hasKey_iff.mp hfin
        exact ⟨d, onPath_of_hasKey hd hm hk, of_decide_eq_true hk⟩))
    rw [foundNewest, hn, hfsa]
    simp only [Option.getD_some, Prod.mk.injEq, true_and]
    exact (valueOf_eq (hd' d (NewestWins.newest_mem hn).1) hv).symm
  · have hsub : L.Sublist (p :: L) := List.sublist_cons_self p L
    exact ⟨h.1.move hw h.2 .next, h.2.sublist hsub⟩
  · exact ⟨h.1.move hw h.2 .skip, h.2.sublist (List.filter_sublist.trans
      (List.sublist_cons_self p L))⟩

/-! ## The start -/

theorem pathsBehind_eq_nil (hu : IsUnion ds u) (h0 : stateAt u query = 0) :
    pathsBehind ds u query = [] := by
  have hT : u.1.Tree (stateAt u query) (bound ds + depthOf u.2) :=
    Dictionary.Tree.mono (hu.holds.tree_walk query) (Nat.le_add_left _ _)
  refine List.eq_nil_iff_forall_not_mem.mpr fun q hq => ?_
  rw [pathsBehind, Preorder.mem_subtree (bounded_children hT), extends_children_iff hT, h0,
    ← walk_reverse, walk_zero] at hq
  exact hq.2 rfl

theorem continues_pathsBehind (hu : IsUnion ds u) :
    Preorder.Continues [] (pathsBehind ds u query) :=
  Preorder.continues_subtree (bounded_children
    (Dictionary.Tree.mono (hu.holds.tree_walk query) (Nat.le_add_left _ _)))

theorem arrives_single (hu : IsUnion ds u) (h0 : stateAt u query ≠ 0) :
    PlainTraverser.ArrivesAt u.1 (stateAt u query) (bound ds + depthOf u.2)
      (SingleTraverser.ofState u.1 (stateAt u query)) (pathsBehind ds u query) := by
  have hT : u.1.Tree (stateAt u query) (bound ds + depthOf u.2) :=
    Dictionary.Tree.mono (hu.holds.tree_walk query) (Nat.le_add_left _ _)
  exact PlainTraverser.advance hT (PlainTraverser.at_atState hT h0 _)

/-- What a match says; the automaton it was found in does not matter. -/
structure Completion where
  start : Nat
  endPosition : Nat
  matchedString : Key
  score : Nat
  stateValue : Nat
deriving DecidableEq, Repr

/-- What a match says. -/
def Match.completion (x : Match) : Completion :=
  ⟨x.start, x.endPosition, x.matchedString, x.score, x.stateValue⟩

/-- The match of the query in one dictionary. -/
def firstSingle (u : Dictionary) (query str : Key) : Option Match :=
  if hasKey u query then some (.make 0 query.length str 0 u.1 (valueOf u query)) else none

/-- **The same completions, each key once and with its newest value.** The completions over several
dictionaries are those on the merged one; they belong to ascending keys that start with the query,
and `strings` says how a string belongs to its key. -/
structure Completes (ds : List Dictionary) (query : Key) (strings : Key → Key → Prop)
    (cs cs' : List Completion) : Prop where
  same : cs = cs'
  once : ∃ ks : List Key, ks.Pairwise (· < ·) ∧ (∀ k ∈ ks, query <+: k) ∧
    List.Forall₂ (fun k c => c.endPosition = k.length ∧ strings k c.matchedString ∧
      ∃ d, newest ds k = some d ∧ (k, c.stateValue) ∈ d.2) ks cs

/-- The match of the query on one dictionary, as both completers make it. -/
theorem firstSingle_eq (hu : Holds u.1 u.2) (h0 : stateAt u query ≠ 0) (str : Key) :
    (if u.1.isFinalState (stateAt u query) then
      some (Match.make 0 query.length str 0 u.1 (u.1.getStateValue (stateAt u query)))
    else none) = firstSingle u query str := by
  rw [firstSingle]
  refine if_congr ?_ rfl rfl
  rw [hasKey_iff hu]
  exact ⟨fun h => ⟨h0, h⟩, fun h => h.2⟩

theorem firstSingle_eq_none (hu : Holds u.1 u.2) (h0 : stateAt u query = 0) (str : Key) :
    firstSingle u query str = none := by
  have hno : ¬ hasKey u query = true := by
    rw [hasKey_iff hu]
    exact fun h => h.1 h0
  rw [firstSingle, if_neg hno]

theorem start_ne_zero (h0 : stateAt u query ≠ 0) : u.1.getStartState ≠ 0 := by
  intro hs
  rw [stateAt, hs, walk_zero] at h0
  exact h0 rfl

namespace PrefixCompletionMatching

theorem allMatches_empty {T : Type} [InnerTraverser T] {fuel rounds : Nat} (hf : 0 < fuel)
    (hr : 0 < rounds) : allMatches fuel rounds (empty : PrefixCompletionMatching T) = some [] := by
  obtain ⟨fuel, rfl⟩ : ∃ n, fuel = n + 1 := ⟨fuel - 1, by omega⟩
  obtain ⟨rounds, rfl⟩ : ∃ n, rounds = n + 1 := ⟨rounds - 1, by omega⟩
  rfl

/-- The completions on one dictionary. -/
theorem allMatches_single (hu : IsUnion ds u) {fuel rounds : Nat}
    (hf : (pathsBehind ds u query).length < fuel)
    (hr : (pathsBehind ds u query).length < rounds) :
    allMatches fuel rounds (fromSingleFsa u.1 query : PrefixCompletionMatching PlainTraverser) =
      some ((firstSingle u query query).toList ++
        ((pathsBehind ds u query).filter (keyBehind u query)).map
          (matchOf (foundSingle u query) query)) := by
  by_cases h0 : stateAt u query = 0
  · have hempty : (fromSingleFsa u.1 query : PrefixCompletionMatching PlainTraverser) = empty := by
      rw [fromSingleFsa, fromSingleFsaAt]
      split
      · rfl
      · exact if_pos h0
    rw [hempty, allMatches_empty (by omega) (by omega), pathsBehind_eq_nil hu h0,
      firstSingle_eq_none hu.holds h0]
    rfl
  · rw [fromSingleFsa, fromSingleFsaAt, if_neg (start_ne_zero h0)]
    simp only
    rw [if_neg (show u.1.walk u.1.getStartState query ≠ 0 from h0), allMatches,
      nextMatches_eq (follows_single hu) hf hr ⟨⟨_, rfl, arrives_single hu h0⟩,
        ⟨[], by simp, continues_pathsBehind hu⟩, rfl⟩, ← firstSingle_eq hu.holds h0]
    rfl

end PrefixCompletionMatching

namespace MultiwordCompletionMatching

theorem allMatches_empty {T : Type} [InnerTraverser T] {fuel rounds : Nat} (hf : 0 < fuel)
    (hr : 0 < rounds) :
    allMatches fuel rounds (empty : MultiwordCompletionMatching T) = some [] := by
  obtain ⟨fuel, rfl⟩ : ∃ n, fuel = n + 1 := ⟨fuel - 1, by omega⟩
  obtain ⟨rounds, rfl⟩ : ∃ n, rounds = n + 1 := ⟨rounds - 1, by omega⟩
  rfl

theorem nodup_pathsBehind (hd : ∀ d ∈ ds, Holds d.1 d.2) (hu : IsUnion ds u) :
    (pathsBehind ds u query).Nodup := by
  refine ((union_onPath query hd hu).agenda).ascending.imp fun h he => ?_
  rw [he] at h
  exact lt_irrefl _ h

/-- The completions on one dictionary. -/
theorem allMatches_single (hd : ∀ d ∈ ds, Holds d.1 d.2) (hu : IsUnion ds u) (separator : Byte)
    {fuel rounds : Nat} (hf : (pathsBehind ds u (bagOfWordsPartial query)).length < fuel)
    (hr : (pathsBehind ds u (bagOfWordsPartial query)).length < rounds) :
    allMatches fuel rounds
        (fromSingleFsa u.1 query separator : MultiwordCompletionMatching PlainTraverser) =
      some ((firstSingle u (bagOfWordsPartial query) query).toList ++
        (scan separator (keyBehind u (bagOfWordsPartial query)) 0
          (pathsBehind ds u (bagOfWordsPartial query))).map
            (matchOf (foundSingle u (bagOfWordsPartial query)) (bagOfWordsPartial query))) := by
  by_cases h0 : stateAt u (bagOfWordsPartial query) = 0
  · have hempty : (fromSingleFsa u.1 query separator :
        MultiwordCompletionMatching PlainTraverser) = empty := by
      rw [fromSingleFsa, fromSingleFsaAt]
      split
      · rfl
      · exact if_pos h0
    rw [hempty, allMatches_empty (by omega) (by omega), pathsBehind_eq_nil hu h0, scan,
      firstSingle_eq_none hu.holds h0]
    rfl
  · rw [fromSingleFsa, fromSingleFsaAt, if_neg (start_ne_zero h0)]
    simp only
    rw [if_neg (show u.1.walk u.1.getStartState (bagOfWordsPartial query) ≠ 0 from h0), allMatches,
      nextMatches_eq (follows_single hu) hf hr ⟨⟨_, rfl, arrives_single hu h0⟩,
        ⟨[], by simp, continues_pathsBehind hu⟩, rfl, rfl, rfl, nodup_pathsBehind hd hu⟩,
      ← firstSingle_eq hu.holds h0]
    rfl

end MultiwordCompletionMatching

/-- The dictionary with the newer value of `61 62` has all keys. -/
theorem isMerge_newer : IsMerge [keyAB, keysABAC] keysABAC := by
  refine ⟨holds_of_mem _ (by simp), fun e => ?_⟩
  have hsub : hasKey keyAB e.1 = true → hasKey keysABAC e.1 = true := by
    simp only [hasKey, decide_eq_true_eq]
    intro h
    rw [show e.1 = [97, 98] by simpa [keyAB, keysOf] using h]
    decide
  have hmem : e ∈ keysABAC.2 → hasKey keysABAC e.1 = true := fun he =>
    decide_eq_true (List.mem_map_of_mem he)
  rw [newest, NewestWins.newest_cons, NewestWins.newest_cons, NewestWins.newest_nil,
    Option.none_or]
  cases hn : hasKey keysABAC e.1 with
  | true => simp
  | false =>
    have ho : hasKey keyAB e.1 = false := by
      rw [← Bool.not_eq_true]
      intro h
      rw [hsub h] at hn
      cases hn
    rw [ho]
    simp only [Bool.false_eq_true, if_false, Option.or_none, reduceCtorEq, false_and, exists_false,
      iff_false]
    intro he
    rw [hmem he] at hn
    cases hn

theorem holds_newer : ∀ d ∈ [keyAB, keysABAC], Holds d.1 d.2 :=
  fun d hd => holds_of_mem d (by simp at hd ⊢; tauto)

end Keyvi.Matching
