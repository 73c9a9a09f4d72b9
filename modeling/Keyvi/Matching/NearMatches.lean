import Mathlib
import Keyvi.Fsa.DictionaryTraversal
import Keyvi.Matching.NearMatching

/-!
# Which keys near matching returns

The near traverser first goes down along the query as far as there are paths, then through all that
lies below, and only then through the rest. Stopping at the remembered depth cuts the visits exactly
there.
-/

namespace Keyvi.Matching

open Fsa

namespace NearMatching

section Scan

variable {final : List Byte → Bool} {agree : List Byte → Nat}

/-- A greedy matcher takes every final path. -/
theorem scan_greedy : ∀ {l : List (List Byte)}, (∀ p ∈ l, p ≠ []) →
    scan true final agree 0 l = l.filter final
  | [], _ => rfl
  | p :: rest, h => by
    have hp : 0 < p.length := List.length_pos_of_ne_nil (h p List.mem_cons_self)
    have ih := scan_greedy (l := rest) fun q hq => h q (List.mem_cons_of_mem _ hq)
    rw [scan, if_pos hp, if_pos rfl, ih, List.filter_cons]

/-- Where all paths agree to the same depth and are longer, every final one is taken. -/
theorem scan_level {k : Nat} : ∀ {l rest : List (List Byte)} {depth : Nat}, depth ≤ k →
    (∀ p ∈ l, k < p.length ∧ agree p = k) →
    scan false final agree depth (l ++ rest) =
      l.filter final ++ scan false final agree (if l.any final then k else depth) rest
  | [], _, _, _, _ => rfl
  | p :: l, rest, depth, hd, h => by
    obtain ⟨hp, hk⟩ := h p List.mem_cons_self
    have hl : ∀ q ∈ l, k < q.length ∧ agree q = k := fun q hq => h q (List.mem_cons_of_mem _ hq)
    rw [List.cons_append, scan, if_pos (by omega), List.filter_cons, List.any_cons]
    by_cases hf : final p = true
    · rw [if_pos hf, if_pos hf, hk, if_neg (by simp), scan_level le_rfl hl]
      simp [hf]
    · rw [if_neg hf, if_neg hf, scan_level hd hl]
      simp [hf]

/-- A path that is not longer than the remembered depth ends the matches. -/
theorem scan_stop {greedy : Bool} {depth : Nat} {l : List (List Byte)}
    (h : ∀ p ∈ l.head?, p.length ≤ depth) : scan greedy final agree depth l = [] := by
  cases l with
  | nil => rfl
  | cons p l => rw [scan, if_neg (by have := h p rfl; omega)]

end Scan

section

variable {a : Automata} {s₀ B : Nat} {w : Key}

/-- The near traversal below a trail. -/
def nearSubtree (a : Automata) (s₀ B : Nat) (w : Key) (p : List Byte) : List (List Byte) :=
  Preorder.subtree (NearTransition.children a s₀ w) B p

theorem mem_nearSubtree (hT : a.Tree s₀ B) {p q : List Byte} :
    q ∈ nearSubtree a s₀ B w p ↔ Preorder.Extends (a.children s₀) p q := by
  have hiff : ∀ {q : List Byte}, Preorder.Extends (NearTransition.children a s₀ w) p q ↔
      Preorder.Extends (a.children s₀) p q := by
    intro q
    constructor <;> intro h
    · induction h with
      | child hc => exact .child (NearTransition.mem_children_iff.mp hc)
      | step _ hc ih => exact .step ih (NearTransition.mem_children_iff.mp hc)
    · induction h with
      | child hc => exact .child (NearTransition.mem_children_iff.mpr hc)
      | step _ hc ih => exact .step ih (NearTransition.mem_children_iff.mpr hc)
  rw [nearSubtree, Preorder.mem_subtree (NearTransition.bounded_children hT), hiff]

/-- Distinct paths, as labels are distinct at every trail. -/
theorem nodup_below (hT : a.Tree s₀ B) (n : Nat) : ∀ p : List Byte, B - p.length ≤ n →
    (Preorder.below (NearTransition.children a s₀ w) n p).Nodup := by
  have hB := NearTransition.bounded_children (w := w) hT
  induction n with
  | zero => intro p _; exact List.nodup_nil
  | succ n ih =>
    intro p hn
    have hn' : ∀ c, B - (c :: p).length ≤ n := by
      intro c
      simp only [List.length_cons]
      omega
    rw [Preorder.below, List.nodup_flatMap]
    constructor
    · intro c _
      rw [List.nodup_cons]
      refine ⟨fun h => ?_, ih _ (hn' c)⟩
      exact lt_irrefl _ ((Preorder.mem_below hB (hn' c)).mp h).length_lt
    · refine (NearTransition.nodup_children p).imp fun {c d} hcd => ?_
      have hsuf : ∀ (e : Byte) (x : List Byte),
          x ∈ (e :: p) :: Preorder.below (NearTransition.children a s₀ w) n (e :: p) →
          (e :: p) <:+ x := by
        intro e x hx
        rcases List.mem_cons.mp hx with rfl | hx
        · exact List.suffix_rfl
        · exact ((Preorder.mem_below hB (hn' e)).mp hx).suffix
      intro x hx hx'
      have := (List.suffix_of_suffix_length_le (hsuf c x hx) (hsuf d x hx') (by simp)).eq_of_length
        (by simp)
      exact hcd (List.cons.inj this).1

theorem nodup_nearSubtree (hT : a.Tree s₀ B) (p : List Byte) :
    (nearSubtree a s₀ B w p).Nodup :=
  nodup_below hT _ p le_rfl

/-- The longest prefix of the key that is a path has `k` labels. -/
structure Longest (a : Automata) (s₀ : Nat) (w : Key) (k : Nat) : Prop where
  le : k ≤ w.length
  path : a.walk s₀ (w.take k) ≠ 0
  max : ∀ p, a.walk s₀ p ≠ 0 → commonPrefix p w ≤ k

/-- Before its end the longest path has a next label. -/
theorem Longest.exactChild {k : Nat} (hk : Longest a s₀ w k) {p : List Byte}
    (hpw : p.reverse <+: w) (hlt : p.length < k) :
    ∃ c, NearTransition.exactChild a s₀ w p = some c := by
  have hw : p.length < w.length := hlt.trans_le hk.le
  have hp : p.reverse = w.take p.length := by
    have := List.prefix_iff_eq_take.mp hpw
    rwa [List.length_reverse] at this
  have htake : (w[p.length] :: p).reverse = w.take (p.length + 1) := by
    rw [List.reverse_cons, hp, List.take_concat_get']
  have hne : a.trailState s₀ (w[p.length] :: p) ≠ 0 := by
    rw [← Automata.walk_reverse, htake]
    intro h0
    have hsplit : w.take k = w.take (p.length + 1) ++ (w.take k).drop (p.length + 1) := by
      conv_lhs => rw [← List.take_append_drop (p.length + 1) (w.take k)]
      rw [List.take_take, min_eq_left (by omega)]
    apply hk.path
    rw [hsplit, Automata.walk_append, h0, Automata.walk_zero]
  exact ⟨_, NearTransition.exactChild_eq_some.mpr
    ⟨htake ▸ List.take_prefix _ _, Automata.mem_children_of_trailState hne⟩⟩

/-- What the matcher keeps without `greedy`. -/
def keep (a : Automata) (s₀ : Nat) (w : Key) (k : Nat) (q : List Byte) : Bool :=
  finalAt a s₀ q && (q.reverse.isPrefixOf w || decide (agreeAt w q = k))

theorem agreeAt_of_suffix {p q : List Byte} {c : Byte} (hp : p.reverse <+: w)
    (hc : ¬ (c :: p).reverse <+: w) (hq : (c :: p) <:+ q) : agreeAt w q = p.length := by
  obtain ⟨v, rfl⟩ := hq
  rw [agreeAt, List.reverse_append, commonPrefix_append_of_not_prefix _ hc, List.reverse_cons,
    commonPrefix_concat (by rwa [List.reverse_cons] at hc),
    commonPrefix_eq_length_iff.mpr hp, List.length_reverse]

/-- The paths beside the query leave it before the longest match does, so none of them is kept. -/
theorem filter_keep_others (hT : a.Tree s₀ B) {k : Nat} (hk : Longest a s₀ w k) {p : List Byte}
    {c : Byte} (hpw : p.reverse <+: w) (hcw : (c :: p).reverse <+: w)
    (hcs : a.trailState s₀ (c :: p) ≠ 0) :
    (((a.children s₀ p).filter fun d => d ≠ c).flatMap
      fun d => (d :: p) :: nearSubtree a s₀ B w (d :: p)).filter (keep a s₀ w k) = [] := by
  refine List.filter_eq_nil_iff.mpr fun q hq => ?_
  obtain ⟨d, hd', hq⟩ := List.mem_flatMap.mp hq
  have hdc : d ≠ c := by simpa using (List.mem_filter.mp hd').2
  have hdq : (d :: p) <:+ q := by
    rcases List.mem_cons.mp hq with rfl | hq
    · exact List.suffix_rfl
    · exact ((mem_nearSubtree hT).mp hq).suffix
  have hdw : ¬ (d :: p).reverse <+: w := by
    intro hdw
    have := (List.prefix_of_prefix_length_le hdw hcw (by simp)).eq_of_length (by simp)
    exact hdc (List.cons.inj (List.reverse_injective this)).1
  have hlt : p.length < k := by
    have := hk.max (c :: p).reverse (by rwa [Automata.walk_reverse])
    rw [commonPrefix_eq_length_iff.mpr hcw] at this
    simpa using this
  have hqw : ¬ q.reverse <+: w := by
    intro hqw
    exact hdw ((List.reverse_prefix.mpr hdq).trans hqw)
  rw [keep, agreeAt_of_suffix hpw hdw hdq]
  simp [hqw, hlt.ne]

/-- Where the query is not followed any further, everything below agrees to this depth. -/
theorem nearSubtree_of_no_exactChild (hT : a.Tree s₀ B) {k : Nat} (hk : Longest a s₀ w k)
    {p : List Byte} (hpw : p.reverse <+: w) (hp : a.trailState s₀ p ≠ 0)
    (hx : NearTransition.exactChild a s₀ w p = none) :
    (∀ q ∈ nearSubtree a s₀ B w p, p.length < q.length ∧ agreeAt w q = p.length) ∧
      (nearSubtree a s₀ B w p).filter (keep a s₀ w k) =
        (nearSubtree a s₀ B w p).filter (finalAt a s₀) := by
  have hno : ∀ q ∈ nearSubtree a s₀ B w p, p.length < q.length ∧ agreeAt w q = p.length := by
    intro q hq
    have hext := (mem_nearSubtree hT).mp hq
    refine ⟨hext.length_lt, ?_⟩
    obtain ⟨c, hc, hcq⟩ := Preorder.extends_iff.mp hext
    have hcw : ¬ (c :: p).reverse <+: w := by
      intro hcw
      have := NearTransition.exactChild_eq_some.mpr ⟨hcw, hc⟩
      rw [hx] at this
      cases this
    refine agreeAt_of_suffix hpw hcw ?_
    rcases hcq with rfl | hcq
    · exact List.suffix_rfl
    · exact hcq.suffix
  have hkp : k = p.length := by
    refine le_antisymm ?_ ?_
    · by_contra hlt
      obtain ⟨c, hc⟩ := hk.exactChild hpw (not_le.mp hlt)
      rw [hx] at hc
      cases hc
    · have := hk.max p.reverse (by rwa [Automata.walk_reverse])
      rwa [commonPrefix_eq_length_iff.mpr hpw, List.length_reverse] at this
  refine ⟨hno, List.filter_congr fun q hq => ?_⟩
  rw [keep, (hno q hq).2, hkp]
  simp

/-- **Without `greedy` the matcher takes the keys along the query and those below its end.** The
induction goes down along the query; `r` is what the traverser visits after the subtree. -/
theorem scan_nearSubtree (hT : a.Tree s₀ B) {k : Nat} (hk : Longest a s₀ w k)
    (hfin : ∀ q, q ≠ [] → a.trailState s₀ q ≠ 0 →
      finalAt a s₀ q = true ∨ ∃ q', Preorder.Extends (a.children s₀) q q' ∧
        finalAt a s₀ q' = true) :
    ∀ (n : Nat) {p : List Byte} {depth : Nat} {r : List (List Byte)}, B - p.length ≤ n →
      p.reverse <+: w → a.trailState s₀ p ≠ 0 → depth ≤ p.length →
      (p ≠ [] → finalAt a s₀ p = true → depth = p.length) →
      (∀ q ∈ r.head?, q.length ≤ p.length) → (p = [] → r = []) →
      scan false (finalAt a s₀) (agreeAt w) depth (nearSubtree a s₀ B w p ++ r) =
        (nearSubtree a s₀ B w p).filter (keep a s₀ w k) := by
  have hB := NearTransition.bounded_children (w := w) hT
  intro n
  induction n with
  | zero =>
    intro p depth r hn hpw hp hd hdf hrest hnil
    have hsub : nearSubtree a s₀ B w p = [] := by
      rw [nearSubtree, Preorder.subtree, show B - p.length = 0 by omega]
      rfl
    rw [hsub, List.nil_append, List.filter_nil]
    rcases eq_or_ne p [] with rfl | hne
    · rw [hnil rfl]
      rfl
    · refine scan_stop fun q hq => ?_
      have hpf : finalAt a s₀ p = true := by
        rcases hfin p hne hp with h | ⟨q', hq', -⟩
        · exact h
        · have := (mem_nearSubtree (w := w) hT).mpr hq'
          rw [hsub] at this
          cases this
      rw [hdf hne hpf]
      exact hrest q hq
  | succ n ih =>
    intro p depth r hn hpw hp hd hdf hrest hnil
    cases hx : NearTransition.exactChild a s₀ w p with
    | some c =>
      obtain ⟨hcw, hc⟩ := NearTransition.exactChild_eq_some.mp hx
      have hcs := (Automata.mem_children hT).mp hc
      -- The agreeing child comes first; the others agree less far than there are paths.
      set others := ((a.children s₀ p).filter fun d => d ≠ c).flatMap
        fun d => (d :: p) :: nearSubtree a s₀ B w (d :: p) with hothers
      have hsub : nearSubtree a s₀ B w p =
          (c :: p) :: (nearSubtree a s₀ B w (c :: p) ++ others) := by
        rw [nearSubtree, Preorder.subtree_eq hB, NearTransition.children, hx]
        rfl
      have hkeep : others.filter (keep a s₀ w k) = [] := filter_keep_others hT hk hpw hcw hcs
      have hkc : keep a s₀ w k (c :: p) = finalAt a s₀ (c :: p) := by
        rw [keep, List.isPrefixOf_iff_prefix.mpr hcw]
        simp
      have hhead : ∀ q ∈ (others ++ r).head?, q.length ≤ (c :: p).length := by
        intro q hq
        cases ho : (a.children s₀ p).filter fun d => d ≠ c with
        | nil =>
          rw [hothers, ho] at hq
          have := hrest q hq
          simp only [List.length_cons]
          omega
        | cons d ds =>
          rw [hothers, ho] at hq
          obtain rfl : d :: p = q := by simpa using hq
          simp
      have hn' : B - (c :: p).length ≤ n := by
        simp only [List.length_cons]
        omega
      rw [hsub, List.cons_append, List.append_assoc, scan,
        if_pos (by simp only [List.length_cons]; omega), List.filter_cons, hkc, List.filter_append,
        hkeep, List.append_nil]
      have hagree : agreeAt w (c :: p) = (c :: p).length := by
        rw [agreeAt, commonPrefix_eq_length_iff.mpr hcw, List.length_reverse]
      by_cases hf : finalAt a s₀ (c :: p) = true
      · rw [if_pos hf, if_pos hf, if_neg (by simp), hagree,
          ih hn' hcw hcs le_rfl (fun _ _ => rfl) hhead (by simp)]
      · rw [if_neg hf, if_neg hf, ih hn' hcw hcs (by simp only [List.length_cons]; omega)
          (fun _ h => absurd h hf) hhead (by simp)]
    | none =>
      -- The path ends here: everything below agrees to this depth.
      obtain ⟨hno, hfilter⟩ := nearSubtree_of_no_exactChild hT hk hpw hp hx
      rw [scan_level hd hno, hfilter, scan_stop, List.append_nil]
      intro q hq
      rcases eq_or_ne p [] with rfl | hne
      · rw [hnil rfl] at hq
        cases hq
      · have hq' := hrest q hq
        split
        case isTrue => exact hq'
        case isFalse hany =>
          rcases hfin p hne hp with hpf | ⟨q', hq'', hqf⟩
          · rwa [hdf hne hpf]
          · exact absurd (List.any_eq_true.mpr ⟨q', (mem_nearSubtree hT).mpr hq'', hqf⟩) hany

/-- A new traverser is at the first path of the near traversal. -/
theorem arrives_ofState (hT : a.Tree s₀ B) (h0 : s₀ ≠ 0) :
    Arrives a s₀ B w (ComparableStateTraverser.ofState a s₀ { lookupKey := w } true 0)
      (nearSubtree a s₀ B w []) := by
  obtain ⟨st, π', he, hd, hok⟩ := NearTransition.getOutGoingTransitions_spec (a := a) (p := [])
    (w := w) { lookupKey := w } h0 rfl (by simp) (by simp) (a.getInnerWeight s₀)
  have hstack : (StateTraverser.atState a s₀ (a.getInnerWeight s₀) { lookupKey := w } :
      StateTraverser NearTransition NearPayload).stack =
        ⟨Function.update (fun _ => ⟨[], 0⟩) 0 st, 0, π'⟩ := by
    show TraversalStack.mk _ _ _ = _
    rw [show a.getOutGoingTransitions (τ := NearTransition) s₀ (a.getInnerWeight s₀) 0
      { lookupKey := w } = (st, π') from he]
  refine arrives_advance hT (p := []) ⟨rfl, h0, rfl, NearTransition.children a s₀ w [], [], ?_,
    (Preorder.pending_root (NearTransition.bounded_children hT)).symm⟩
  show StackAt _ _ _ (StateTraverser.atState a s₀ (a.getInnerWeight s₀) { lookupKey := w } :
    StateTraverser NearTransition NearPayload).stack _ _ _
  rw [hstack]
  exact ⟨rfl, by simpa [TraversalStack.getStates] using hd, trivial, List.suffix_rfl, rfl, hok⟩

end

/-! ## In terms of the keys -/

/-- The length of the longest prefix of the query that is a path. -/
def longestPath (keys : List Key) (query : Key) : Nat :=
  (keys.map fun k => commonPrefix k query).foldr max 0

theorem le_longestPath {keys : List Key} (query : Key) {k : Key} (hk : k ∈ keys) :
    commonPrefix k query ≤ longestPath keys query := by
  induction keys with
  | nil => cases hk
  | cons x keys ih =>
    rw [longestPath, List.map_cons, List.foldr_cons]
    rcases List.mem_cons.mp hk with rfl | hk
    · exact le_max_left _ _
    · exact (ih hk).trans (le_max_right _ _)

theorem exists_longestPath {keys : List Key} (query : Key) (hne : keys ≠ []) :
    ∃ k ∈ keys, commonPrefix k query = longestPath keys query := by
  induction keys with
  | nil => exact absurd rfl hne
  | cons x keys ih =>
    rw [longestPath, List.map_cons, List.foldr_cons]
    rcases le_total (longestPath keys query) (commonPrefix x query) with h | h
    · exact ⟨x, List.mem_cons_self, (max_eq_left h).symm⟩
    · rcases eq_or_ne keys [] with rfl | hk
      · exact ⟨x, List.mem_cons_self, (max_eq_left (Nat.zero_le _)).symm⟩
      · obtain ⟨k, hk, he⟩ := ih hk
        exact ⟨k, List.mem_cons_of_mem _ hk, he.trans (max_eq_right h).symm⟩

/-- What near matching promises of its matches. -/
structure Spec (entries : List (Key × Nat)) (query : Key) (minimumExactPrefix : Nat)
    (greedy : Bool) (ms : List Match) : Prop where
  sound : ∀ x ∈ ms, (x.matchedString, x.stateValue) ∈ entries ∧
    query.take minimumExactPrefix <+: x.matchedString ∧
    x.score = commonPrefix x.matchedString query
  nodup : (ms.map Match.matchedString).Nodup
  all : greedy = true → ∀ k ∈ Automata.keysOf entries, query.take minimumExactPrefix <+: k →
    k ∈ ms.map Match.matchedString
  along : greedy = false → ∀ k, k ∈ ms.map Match.matchedString ↔
    k ∈ Automata.keysOf entries ∧ (minimumExactPrefix ≤ k.length ∧ k <+: query ∨
      query.take minimumExactPrefix <+: k ∧
        query.take (longestPath (Automata.keysOf entries) query) <+: k)

section

variable {a : Automata} {entries : List (Key × Nat)} {query : Key} {m : Nat} {greedy : Bool}

/-- Without a key that starts with the first bytes there is nothing to return. -/
theorem spec_nil (h : ∀ k ∈ Automata.keysOf entries, ¬ query.take m <+: k) :
    Spec entries query m greedy [] where
  sound := by simp
  nodup := List.nodup_nil
  all _ k hk hp := absurd hp (h k hk)
  along _ k := by
    constructor
    · intro hk
      cases hk
    · rintro ⟨hk, ⟨hm, hq⟩ | ⟨hp, -⟩⟩
      · refine absurd ?_ (h k hk)
        have := List.prefix_iff_eq_take.mp hq
        rw [this, List.prefix_take_iff]
        exact ⟨List.take_prefix _ _, by simpa using Or.inl hm⟩
      · exact absurd hp (h k hk)

/-- The paths that `NextMatch` takes. -/
def taken (a : Automata) (B : Nat) (query : Key) (m : Nat) (greedy : Bool) : List (List Byte) :=
  scan greedy (finalAt a (a.walk a.getStartState (query.take m))) (agreeAt (query.drop m)) 0
    (nearSubtree a (a.walk a.getStartState (query.take m)) B (query.drop m) [])

/-- The first match: the first bytes are a key. -/
def firstOf (a : Automata) (query : Key) (m : Nat) : List Match :=
  if a.isFinalState (a.walk a.getStartState (query.take m)) then
    [.make 0 query.length query m a (a.getStateValue (a.walk a.getStartState (query.take m)))]
  else []

/-- **The matches of a query whose first bytes are a path.** -/
theorem allMatches_eq (h : Automata.Holds a entries) (hm : m ≤ query.length)
    (hw : a.walk a.getStartState (query.take m) ≠ 0) :
    ∃ N, ∀ fuel rounds, N ≤ fuel → N ≤ rounds →
      allMatches fuel rounds (fromSingleFsa a query m greedy) =
        some (firstOf a query m ++ (taken a (Automata.depthOf entries) query m greedy).map
          (matchOf a (a.walk a.getStartState (query.take m)) (query.drop m) (query.take m))) := by
  set s₀ := a.walk a.getStartState (query.take m) with hs₀
  have hT := h.tree_walk (query.take m)
  rw [← hs₀] at hT
  refine ⟨(nearSubtree a s₀ (Automata.depthOf entries) (query.drop m) []).length + 1,
    fun fuel rounds hf hr => ?_⟩
  have hstart : a.getStartState ≠ 0 := by
    intro h0
    rw [hs₀, h0, Automata.walk_zero] at hw
    exact hw rfl
  have hnm : fromSingleFsa a query m greedy =
      fromSingleFsaWithMatchedExactPrefix a s₀ query m greedy := by
    rw [fromSingleFsa, fromSingleFsaAt, if_neg (by simp [hstart, hm]), matchPrefix_eq a _ _ hstart,
      ← hs₀, if_neg hw]
  rw [hnm, allMatches, fromSingleFsaWithMatchedExactPrefix,
    nextMatches_spec hT _ _ _ hf hr (arrives_ofState hT hw), firstOf, taken, ← hs₀]
  split <;> rfl

theorem allMatches_empty {n : NearMatching} (hn : n = empty) :
    ∃ N, ∀ fuel rounds, N ≤ fuel → N ≤ rounds → allMatches fuel rounds n = some [] := by
  refine ⟨1, fun fuel rounds hf hr => ?_⟩
  obtain ⟨fuel, rfl⟩ : ∃ k, fuel = k + 1 := ⟨fuel - 1, by omega⟩
  obtain ⟨rounds, rfl⟩ : ∃ k, rounds = k + 1 := ⟨rounds - 1, by omega⟩
  rw [hn]
  rfl

theorem fromSingleFsa_eq_empty (hw : a.walk a.getStartState (query.take m) = 0) :
    fromSingleFsa a query m greedy = empty := by
  rw [fromSingleFsa, fromSingleFsaAt]
  split
  case isTrue => rfl
  case isFalse hc =>
    rw [not_or] at hc
    rw [matchPrefix_eq a _ _ hc.2, if_pos hw]

/-- The paths below the first bytes, in terms of the keys. -/
theorem mem_nearSubtree_iff (h : Automata.Holds a entries) {q : List Byte} :
    q ∈ nearSubtree a (a.walk a.getStartState (query.take m)) (Automata.depthOf entries)
        (query.drop m) [] ∧
      finalAt a (a.walk a.getStartState (query.take m)) q = true ↔
    q ≠ [] ∧ query.take m ++ q.reverse ∈ Automata.keysOf entries := by
  rw [mem_nearSubtree (h.tree_walk _), Automata.extends_children_iff (h.tree_walk _), finalAt,
    ← Automata.walk_reverse, ← Automata.walk_append, h.final, and_assoc]

/-- Every path leads to a key. -/
theorem leads_to_key (h : Automata.Holds a entries) (q : List Byte) (hq : q ≠ [])
    (hw : a.trailState (a.walk a.getStartState (query.take m)) q ≠ 0) :
    finalAt a (a.walk a.getStartState (query.take m)) q = true ∨
      ∃ q', Preorder.Extends (a.children (a.walk a.getStartState (query.take m))) q q' ∧
        finalAt a (a.walk a.getStartState (query.take m)) q' = true := by
  set s₀ := a.walk a.getStartState (query.take m) with hs₀
  have hT := h.tree_walk (query.take m)
  rw [← hs₀] at hT
  have hw' : a.walk a.getStartState (query.take m ++ q.reverse) ≠ 0 := by
    rw [Automata.walk_append, ← hs₀, Automata.walk_reverse]
    exact hw
  obtain ⟨k, hk, v, rfl⟩ := h.leads _ (by simp [hq]) hw'
  have hfin : finalAt a s₀ (v.reverse ++ q) = true := by
    have := ((h.final _).mp hk).2
    rw [List.append_assoc, Automata.walk_append, ← hs₀] at this
    rw [finalAt, ← Automata.walk_reverse, List.reverse_append, List.reverse_reverse]
    exact this
  have hne : a.trailState s₀ (v.reverse ++ q) ≠ 0 := by
    have := ((h.final _).mp hk).1
    rw [List.append_assoc, Automata.walk_append, ← hs₀] at this
    rw [← Automata.walk_reverse, List.reverse_append, List.reverse_reverse]
    exact this
  have hext : ∀ v : List Byte, v ≠ [] → a.trailState s₀ (v ++ q) ≠ 0 →
      Preorder.Extends (a.children s₀) q (v ++ q) := by
    intro v
    induction v with
    | nil => intro hv; exact absurd rfl hv
    | cons c v ih =>
      intro _ hvq
      have hc := (Automata.mem_children hT).mpr hvq
      rcases eq_or_ne v [] with rfl | hv
      · exact .child hc
      · exact .step (ih hv (Automata.trailState_ne_zero_of_cons hvq)) hc
  rcases eq_or_ne v [] with rfl | hv
  · exact .inl hfin
  · exact .inr ⟨_, hext _ (by simpa using hv) hne, hfin⟩

/-- The longest path of the query, seen from the state behind the first bytes. -/
theorem longest_of_keys (h : Automata.Holds a entries) (hm : m ≤ query.length)
    {k₀ : Key} (hk₀ : k₀ ∈ Automata.keysOf entries) (hj : query.take m <+: k₀) :
    m ≤ longestPath (Automata.keysOf entries) query ∧
      Longest a (a.walk a.getStartState (query.take m)) (query.drop m)
        (longestPath (Automata.keysOf entries) query - m) := by
  obtain ⟨k, hk, hkl⟩ := exists_longestPath query (List.ne_nil_of_mem hk₀)
  have hle : longestPath (Automata.keysOf entries) query ≤ query.length := by
    rw [← hkl]
    exact commonPrefix_le_right k query
  have hml : m ≤ longestPath (Automata.keysOf entries) query :=
    ((le_commonPrefix_iff hm).mpr hj).trans (le_longestPath _ hk₀)
  refine ⟨hml, by rw [List.length_drop]; omega, ?_, fun p hp => ?_⟩
  · rw [← Automata.walk_append, ← List.take_add,
      show m + (longestPath (Automata.keysOf entries) query - m) =
        longestPath (Automata.keysOf entries) query by omega]
    exact h.walk_ne_zero hk ((le_commonPrefix_iff hle).mp hkl.ge)
  · rw [← Automata.walk_append] at hp
    have hlen : (query.take m).length = m := by rw [List.length_take, min_eq_left hm]
    have hcp := commonPrefix_append (query.take m) p (query.drop m)
    rw [List.take_append_drop, hlen] at hcp
    have hbound : commonPrefix (query.take m ++ p) query ≤
        longestPath (Automata.keysOf entries) query := by
      rcases eq_or_ne (query.take m ++ p) [] with hnil | hne
      · rw [hnil]
        exact Nat.zero_le _
      · obtain ⟨k', hk', hpk⟩ := h.leads _ hne hp
        refine le_trans ?_ (le_longestPath _ hk')
        rw [le_commonPrefix_iff (commonPrefix_le_right _ _)]
        exact ((le_commonPrefix_iff (commonPrefix_le_right _ _)).mp le_rfl).trans hpk
    omega

/-- **The keys that `NextMatch` returns**: those behind the first bytes, without `greedy` only along
the query and below the longest path. -/
theorem mem_taken_iff (h : Automata.Holds a entries) (hm : m ≤ query.length)
    (hw : a.walk a.getStartState (query.take m) ≠ 0) {q : List Byte} :
    q ∈ taken a (Automata.depthOf entries) query m greedy ↔
      q ≠ [] ∧ query.take m ++ q.reverse ∈ Automata.keysOf entries ∧
        (greedy = true ∨ query.take m ++ q.reverse <+: query ∨
          query.take (longestPath (Automata.keysOf entries) query) <+:
            query.take m ++ q.reverse) := by
  have hB := NearTransition.bounded_children (w := query.drop m) (h.tree_walk (query.take m))
  rw [taken]
  cases greedy with
  | true =>
    have hne : ∀ p ∈ nearSubtree a (a.walk a.getStartState (query.take m))
        (Automata.depthOf entries) (query.drop m) [], p ≠ [] := by
      intro p hp
      exact ((Automata.extends_children_iff (h.tree_walk _)).mp
        ((mem_nearSubtree (h.tree_walk _)).mp hp)).1
    rw [scan_greedy hne, List.mem_filter, mem_nearSubtree_iff h]
    simp
  | false =>
    have hlen : (query.take m).length = m := by rw [List.length_take, min_eq_left hm]
    -- Without a key below there is nothing to compare.
    by_cases hkey : ∃ k ∈ Automata.keysOf entries, query.take m <+: k
    · obtain ⟨k₀, hk₀, hj⟩ := hkey
      obtain ⟨hml, hlong⟩ := longest_of_keys h hm hk₀ hj
      have hscan := scan_nearSubtree (h.tree_walk (query.take m)) hlong
        (leads_to_key h) (Automata.depthOf entries) (p := []) (r := []) (by simp) (by simp) hw
        le_rfl (by simp) (by simp) (by simp)
      rw [List.append_nil, List.length_nil] at hscan
      rw [hscan, List.mem_filter, keep, Bool.and_eq_true, ← and_assoc, mem_nearSubtree_iff h,
        and_assoc]
      refine and_congr_right fun _ => and_congr_right fun hqk => ?_
      have hcp := commonPrefix_append (query.take m) q.reverse (query.drop m)
      rw [List.take_append_drop, hlen] at hcp
      have hle : longestPath (Automata.keysOf entries) query ≤ query.length := by
        have := hlong.le
        rw [List.length_drop] at this
        omega
      have hmax := le_longestPath query hqk
      have hpre : q.reverse <+: query.drop m ↔ query.take m ++ q.reverse <+: query := by
        rw [← List.prefix_append_right_inj (query.take m), List.take_append_drop]
      have hag : agreeAt (query.drop m) q = longestPath (Automata.keysOf entries) query - m ↔
          query.take (longestPath (Automata.keysOf entries) query) <+:
            query.take m ++ q.reverse := by
        rw [← le_commonPrefix_iff hle, agreeAt]
        omega
      rw [Bool.or_eq_true, List.isPrefixOf_iff_prefix, decide_eq_true_eq, hpre, hag]
      simp
    · have hno : ∀ q : List Byte, query.take m ++ q.reverse ∉ Automata.keysOf entries :=
        fun q hq => hkey ⟨_, hq, List.prefix_append _ _⟩
      have hm0 : query.take m = [] := by
        by_contra hne
        exact hkey ((h.leads _ hne hw).imp fun k hk => hk)
      rw [hm0] at hkey
      have hnil : nearSubtree a (a.walk a.getStartState (query.take m))
          (Automata.depthOf entries) (query.drop m) [] = [] := by
        refine List.eq_nil_iff_forall_not_mem.mpr fun p hp => ?_
        have hext := (Automata.extends_children_iff (h.tree_walk _)).mp
          ((mem_nearSubtree (h.tree_walk _)).mp hp)
        rw [← Automata.walk_reverse, ← Automata.walk_append] at hext
        obtain ⟨k, hk, -⟩ := h.leads _ (by simp [hext.1]) hext.2
        exact hkey ⟨k, hk, List.nil_prefix⟩
      rw [hnil]
      constructor
      · intro hq
        cases hq
      · rintro ⟨-, hq, -⟩
        exact absurd hq (hno q)

theorem nodup_taken (h : Automata.Holds a entries) :
    (taken a (Automata.depthOf entries) query m greedy).Nodup := by
  have hsub : ∀ (l : List (List Byte)) (d : Nat),
      (scan greedy (finalAt a (a.walk a.getStartState (query.take m))) (agreeAt (query.drop m))
        d l).Sublist l := by
    intro l
    induction l with
    | nil => intro d; exact List.Sublist.refl []
    | cons p l ih =>
      intro d
      rw [scan]
      split
      · split
        · exact (ih _).cons_cons p
        · exact (ih d).cons p
      · exact List.nil_sublist _
  exact (nodup_nearSubtree (h.tree_walk _) []).sublist (hsub _ 0)

/-! ## The promise -/

/-- The matches: the first one, and those of `NextMatch`. -/
def matchesOf (a : Automata) (B : Nat) (query : Key) (m : Nat) (greedy : Bool) : List Match :=
  firstOf a query m ++ (taken a B query m greedy).map
    (matchOf a (a.walk a.getStartState (query.take m)) (query.drop m) (query.take m))

/-- The strings of the matches of `NextMatch`. -/
theorem mem_taken_strings (h : Automata.Holds a entries) (hm : m ≤ query.length)
    (hw : a.walk a.getStartState (query.take m) ≠ 0) {k : Key} :
    k ∈ ((taken a (Automata.depthOf entries) query m greedy).map
        (matchOf a (a.walk a.getStartState (query.take m)) (query.drop m) (query.take m))).map
          Match.matchedString ↔
      query.take m <+: k ∧ k ≠ query.take m ∧ k ∈ Automata.keysOf entries ∧
        (greedy = true ∨ k <+: query ∨
          query.take (longestPath (Automata.keysOf entries) query) <+: k) := by
  rw [List.map_map, List.mem_map]
  constructor
  · rintro ⟨q, hq, rfl⟩
    obtain ⟨hne, hk⟩ := (mem_taken_iff h hm hw).mp hq
    exact ⟨List.prefix_append _ _, by simp [matchOf, Match.make, hne], hk⟩
  · rintro ⟨⟨v, rfl⟩, hne, hk⟩
    refine ⟨v.reverse, (mem_taken_iff h hm hw).mpr ⟨?_, ?_⟩, ?_⟩
    · simpa using hne
    · simpa using hk
    · simp [matchOf, Match.make]

/-- What a match of `NextMatch` says of its key. -/
theorem sound_of_taken (h : Automata.Holds a entries) (hm : m ≤ query.length)
    (hw : a.walk a.getStartState (query.take m) ≠ 0) {x : Match}
    (hx : x ∈ (taken a (Automata.depthOf entries) query m greedy).map
      (matchOf a (a.walk a.getStartState (query.take m)) (query.drop m) (query.take m))) :
    (x.matchedString, x.stateValue) ∈ entries ∧ query.take m <+: x.matchedString ∧
      x.score = commonPrefix x.matchedString query % 2 ^ 32 := by
  obtain ⟨q, hq, rfl⟩ := List.mem_map.mp hx
  obtain ⟨-, hk, -⟩ := (mem_taken_iff h hm hw).mp hq
  refine ⟨?_, List.prefix_append _ _, ?_⟩
  · have := h.value_mem hk
    rwa [Automata.walk_append, Automata.walk_reverse] at this
  · have hcp := commonPrefix_append (query.take m) q.reverse (query.drop m)
    rw [List.take_append_drop] at hcp
    show ((query.take m).length + agreeAt (query.drop m) q) % 2 ^ 32 = _
    rw [agreeAt, ← hcp]
    rfl

theorem nodup_taken_strings (h : Automata.Holds a entries) :
    (((taken a (Automata.depthOf entries) query m greedy).map
      (matchOf a (a.walk a.getStartState (query.take m)) (query.drop m) (query.take m))).map
        Match.matchedString).Nodup := by
  rw [List.map_map]
  refine (nodup_taken h).map fun p q hpq => ?_
  have : query.take m ++ p.reverse = query.take m ++ q.reverse := hpq
  exact List.reverse_injective (List.append_cancel_left this)

/-- The first bytes are a key exactly when there is a first match. -/
theorem firstOf_eq (h : Automata.Holds a entries)
    (hw : a.walk a.getStartState (query.take m) ≠ 0) :
    firstOf a query m = if query.take m ∈ Automata.keysOf entries then
      [.make 0 query.length query m a (a.getStateValue (a.walk a.getStartState (query.take m)))]
    else [] := by
  have hiff : a.isFinalState (a.walk a.getStartState (query.take m)) = true ↔
      query.take m ∈ Automata.keysOf entries := by
    rw [h.final]
    exact ⟨fun hf => ⟨hw, hf⟩, fun hf => hf.2⟩
  rw [firstOf]
  by_cases hf : query.take m ∈ Automata.keysOf entries
  · rw [if_pos hf, if_pos (hiff.mpr hf)]
  · rw [if_neg hf, if_neg (mt hiff.mp hf)]

/-- No match has a score that does not fit. -/
theorem score_lt {x : Match} (hx : x ∈ matchesOf a B query m greedy) : x.score < 2 ^ 32 := by
  rw [matchesOf, List.mem_append] at hx
  rcases hx with hx | hx
  · rw [firstOf] at hx
    split at hx
    · rw [List.mem_singleton] at hx
      rw [hx]
      exact Nat.mod_lt _ (by norm_num)
    · cases hx
  · obtain ⟨q, -, rfl⟩ := List.mem_map.mp hx
    exact Nat.mod_lt _ (by norm_num)

/-- The condition under which near matching keeps its promise. -/
def Sane (entries : List (Key × Nat)) (query : Key) (m : Nat) : Prop :=
  (m = query.length ∨ query.take m ∉ Automata.keysOf entries) ∧
    ∀ k ∈ Automata.keysOf entries, query.take m <+: k → commonPrefix k query < 2 ^ 32

/-- Prefixes of the query with the first bytes. -/
theorem prefix_of_le (hm : m ≤ query.length) {k : Key} (hkm : m ≤ k.length) (hkq : k <+: query) :
    query.take m <+: k := by
  rw [List.prefix_iff_eq_take.mp hkq, List.prefix_take_iff]
  exact ⟨List.take_prefix _ _, by rw [List.length_take, min_eq_left hm]; exact hkm⟩

theorem spec_of_sane (h : Automata.Holds a entries) (hm : m ≤ query.length)
    (hw : a.walk a.getStartState (query.take m) ≠ 0) (hs : Sane entries query m) :
    Spec entries query m greedy (matchesOf a (Automata.depthOf entries) query m greedy) := by
  obtain ⟨hfirst, hscore⟩ := hs
  have hlen : ∀ k : Key, query.take m <+: k → m ≤ k.length := by
    intro k hk
    have := hk.length_le
    rwa [List.length_take, min_eq_left hm] at this
  have hrest : ∀ x ∈ (taken a (Automata.depthOf entries) query m greedy).map
      (matchOf a (a.walk a.getStartState (query.take m)) (query.drop m) (query.take m)),
      (x.matchedString, x.stateValue) ∈ entries ∧ query.take m <+: x.matchedString ∧
        x.score = commonPrefix x.matchedString query := by
    intro x hx
    obtain ⟨h1, h2, h3⟩ := sound_of_taken h hm hw hx
    exact ⟨h1, h2, h3.trans (Nat.mod_eq_of_lt (hscore _ (List.mem_map_of_mem h1) h2))⟩
  rw [matchesOf, firstOf_eq h hw]
  by_cases hj : query.take m ∈ Automata.keysOf entries
  · -- The query itself is the key: nothing of it is cut off.
    have hmq : m = query.length := hfirst.resolve_right (not_not_intro hj)
    have htake : query.take m = query := by rw [hmq, List.take_length]
    have hqq : commonPrefix query query = query.length :=
      commonPrefix_eq_length_iff.mpr List.prefix_rfl
    rw [htake] at hj
    have hlt := hscore query hj (List.take_prefix m query)
    rw [if_pos (by rwa [htake])]
    constructor
    · intro x hx
      rcases List.mem_cons.mp hx with rfl | hx
      · refine ⟨?_, List.take_prefix m query, ?_⟩
        · show (query, a.getStateValue (a.walk a.getStartState (query.take m))) ∈ entries
          rw [htake]
          exact h.value_mem hj
        · show m % 2 ^ 32 = _
          rw [hmq, Nat.mod_eq_of_lt (by rwa [hqq] at hlt)]
          exact hqq.symm
      · exact hrest x hx
    · rw [List.singleton_append, List.map_cons, List.nodup_cons]
      refine ⟨fun hmem => ?_, nodup_taken_strings h⟩
      exact ((mem_taken_strings h hm hw).mp hmem).2.1 htake.symm
    · intro hg k hk hp
      rw [List.singleton_append, List.map_cons, List.mem_cons, mem_taken_strings h hm hw]
      by_cases hkq : k = query
      · exact .inl hkq
      · exact .inr ⟨hp, by rwa [htake], hk, .inl hg⟩
    · intro hg k
      rw [List.singleton_append, List.map_cons, List.mem_cons, mem_taken_strings h hm hw]
      constructor
      · rintro (rfl | ⟨hp, -, hk, hc⟩)
        · exact ⟨hj, .inl ⟨hm, List.prefix_rfl⟩⟩
        · rw [hg] at hc
          rcases hc with hc | hc | hc
          · cases hc
          · exact ⟨hk, .inl ⟨hlen k hp, hc⟩⟩
          · exact ⟨hk, .inr ⟨hp, hc⟩⟩
      · rintro ⟨hk, hc⟩
        by_cases hkq : k = query
        · exact .inl hkq
        · refine .inr ?_
          rcases hc with ⟨hkm, hc⟩ | ⟨hp, hc⟩
          · exact ⟨prefix_of_le hm hkm hc, by rwa [htake], hk, .inr (.inl hc)⟩
          · exact ⟨hp, by rwa [htake], hk, .inr (.inr hc)⟩
  · have hne : ∀ k ∈ Automata.keysOf entries, k ≠ query.take m := by
      rintro k hk rfl
      exact hj hk
    rw [if_neg hj, List.nil_append]
    refine ⟨hrest, nodup_taken_strings h, fun hg k hk hp => ?_, fun hg k => ?_⟩
    · exact (mem_taken_strings h hm hw).mpr ⟨hp, hne k hk, hk, .inl hg⟩
    · rw [mem_taken_strings h hm hw, hg]
      constructor
      · rintro ⟨hp, -, hk, hc | hc | hc⟩
        · cases hc
        · exact ⟨hk, .inl ⟨hlen k hp, hc⟩⟩
        · exact ⟨hk, .inr ⟨hp, hc⟩⟩
      · rintro ⟨hk, ⟨hkm, hc⟩ | ⟨hp, hc⟩⟩
        · exact ⟨prefix_of_le hm hkm hc, hne k hk, hk, .inr (.inl hc)⟩
        · exact ⟨hp, hne k hk, hk, .inr (.inr hc)⟩

theorem sane_of_spec (h : Automata.Holds a entries) (hm : m ≤ query.length)
    (hw : a.walk a.getStartState (query.take m) ≠ 0)
    (hs : Spec entries query m greedy (matchesOf a (Automata.depthOf entries) query m greedy)) :
    Sane entries query m := by
  have hfirst : m = query.length ∨ query.take m ∉ Automata.keysOf entries := by
    by_contra hno
    rw [not_or, not_not] at hno
    obtain ⟨hne, hj⟩ := hno
    have hlt : m < query.length := lt_of_le_of_ne hm hne
    -- The first match carries the query, which `NextMatch` returns as well if it is a key.
    have hmem : Match.make 0 query.length query m a
        (a.getStateValue (a.walk a.getStartState (query.take m))) ∈
          matchesOf a (Automata.depthOf entries) query m greedy := by
      rw [matchesOf, firstOf_eq h hw, if_pos hj]
      exact List.mem_cons_self
    have hq : query ∈ Automata.keysOf entries := List.mem_map_of_mem (hs.sound _ hmem).1
    have hqt : query ≠ query.take m := by
      intro he
      have := congrArg List.length he
      rw [List.length_take, min_eq_left hm] at this
      omega
    have hagain : query ∈ ((taken a (Automata.depthOf entries) query m greedy).map
        (matchOf a (a.walk a.getStartState (query.take m)) (query.drop m)
          (query.take m))).map Match.matchedString :=
      (mem_taken_strings h hm hw).mpr
        ⟨List.take_prefix m query, hqt, hq, .inr (.inl List.prefix_rfl)⟩
    have hnd := hs.nodup
    rw [matchesOf, firstOf_eq h hw, if_pos hj, List.singleton_append, List.map_cons,
      List.nodup_cons] at hnd
    exact hnd.1 hagain
  refine ⟨hfirst, fun k hk hp => ?_⟩
  -- A key that agrees as far as there are paths is returned, and its score fits.
  obtain ⟨k', hk', hkl⟩ := exists_longestPath query (List.ne_nil_of_mem hk)
  have hle := le_longestPath query hk
  have hml := (longest_of_keys h hm hk hp).1
  have hp' : query.take m <+: k' := by
    rw [← le_commonPrefix_iff hm, hkl]
    exact hml
  have htake : query.take (longestPath (Automata.keysOf entries) query) <+: k' :=
    (le_commonPrefix_iff (hkl ▸ commonPrefix_le_right k' query)).mp hkl.ge
  have hret : k' ∈ (matchesOf a (Automata.depthOf entries) query m greedy).map
      Match.matchedString := by
    cases hg : greedy with
    | true => exact hg ▸ hs.all hg k' hk' hp'
    | false => exact hg ▸ (hs.along hg k').mpr ⟨hk', .inr ⟨hp', htake⟩⟩
  obtain ⟨x, hx, hxk⟩ := List.mem_map.mp hret
  have hlt := score_lt hx
  rw [(hs.sound x hx).2.2, hxk, hkl] at hlt
  exact lt_of_le_of_lt hle hlt

end

end NearMatching

/-- **Near matching keeps its promise exactly when it does not cut a key off the query.** Its first
match carries the whole query although only the first bytes are the key. -/
theorem nearMatching_spec_iff {a : Automata} {entries : List (Key × Nat)}
    (h : Automata.Holds a entries) (query : Key) (m : Nat) (hm : m ≤ query.length)
    (greedy : Bool) :
    ∃ ms, (∃ N, ∀ fuel rounds, N ≤ fuel → N ≤ rounds →
        NearMatching.allMatches fuel rounds (NearMatching.fromSingleFsa a query m greedy) =
          some ms) ∧
      (NearMatching.Spec entries query m greedy ms ↔ NearMatching.Sane entries query m) := by
  by_cases hw : a.walk a.getStartState (query.take m) = 0
  · have hno : ∀ k ∈ Automata.keysOf entries, ¬ query.take m <+: k :=
      fun k hk hp => h.walk_ne_zero hk hp hw
    refine ⟨[], NearMatching.allMatches_empty (NearMatching.fromSingleFsa_eq_empty hw), ?_⟩
    refine ⟨fun _ => ⟨.inr fun hj => hno _ hj List.prefix_rfl, fun k hk hp => ?_⟩,
      fun _ => NearMatching.spec_nil hno⟩
    exact absurd hp (hno k hk)
  · exact ⟨_, NearMatching.allMatches_eq h hm hw, NearMatching.sane_of_spec h hm hw,
      NearMatching.spec_of_sane h hm hw⟩

/-- The query `61 62`, of which the first byte is matched exactly. -/
theorem nearMatching_spec_iff_firstByte :
    ∃ ms, (∃ N, ∀ fuel rounds, N ≤ fuel → N ≤ rounds →
        NearMatching.allMatches fuel rounds
          (NearMatching.fromSingleFsa sharedSuffix [97, 98] 1 false) = some ms) ∧
      (NearMatching.Spec sharedSuffixEntries [97, 98] 1 false ms ↔
        NearMatching.Sane sharedSuffixEntries [97, 98] 1) :=
  nearMatching_spec_iff sharedSuffix_holds [97, 98] 1 (by decide) false

/-- The query `61 63` with one byte matched exactly: `61` is a key, its match carries `61 63`. -/
theorem nearMatching_cutsKey :
    Automata.Holds sharedSuffix sharedSuffixEntries ∧
      (NearMatching.allMatches 9 9 (NearMatching.fromSingleFsa sharedSuffix [97, 99] 1 false)).map
          (fun ms => ms.map fun x => (x.matchedString, x.stateValue)) =
        some [([97, 99], 10), ([97, 98], 20)] ∧
      ∀ ms, NearMatching.allMatches 9 9
          (NearMatching.fromSingleFsa sharedSuffix [97, 99] 1 false) = some ms →
        ¬ NearMatching.Spec sharedSuffixEntries [97, 99] 1 false ms := by
  have hrun : (NearMatching.allMatches 9 9
      (NearMatching.fromSingleFsa sharedSuffix [97, 99] 1 false)).map
        (fun ms => ms.map fun x => (x.matchedString, x.stateValue)) =
      some [([97, 99], 10), ([97, 98], 20)] := by decide +kernel
  refine ⟨sharedSuffix_holds, hrun, fun ms hms hs => ?_⟩
  rw [hms, Option.map_some, Option.some_inj] at hrun
  have hmem : (([97, 99], 10) : Key × Nat) ∈ ms.map fun x => (x.matchedString, x.stateValue) := by
    rw [hrun]
    exact List.mem_cons_self
  obtain ⟨x, hx, hxe⟩ := List.mem_map.mp hmem
  have hsound := (hs.sound x hx).1
  rw [hxe] at hsound
  exact absurd hsound (by decide)

end Keyvi.Matching
