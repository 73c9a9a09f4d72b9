import Mathlib
import Keyvi.Fsa.ZipRefinement
import Keyvi.Library.NewestWins

/-!
# Zipping dictionaries

The inner traversers start in every dictionary at the same prefix. What they walk together is what
one traverser walks below that prefix in a dictionary of the union of the keys, and a key is read
from the last dictionary in the list that has it.
-/

namespace Keyvi.Fsa

open Automata Source

/-- An automaton and what it holds. -/
abbrev Dictionary := Automata × List (Key × Nat)

namespace Dictionary

/-- The dictionary has the key. -/
def hasKey (d : Dictionary) (k : Key) : Bool := decide (k ∈ keysOf d.2)

/-- The last dictionary in the list that has the key. -/
def newest (ds : List Dictionary) (k : Key) : Option Dictionary := NewestWins.newest hasKey ds k

/-- A dictionary of the keys of all of them. -/
structure IsUnion (ds : List Dictionary) (u : Dictionary) : Prop where
  holds : Holds u.1 u.2
  keys : ∀ k, k ∈ keysOf u.2 ↔ ∃ d ∈ ds, k ∈ keysOf d.2

/-- The state of a dictionary behind a prefix. -/
def stateAt (d : Dictionary) (j : Key) : Nat := d.1.walk d.1.getStartState j

/-- The inner traversers behind a prefix. -/
def sources (ds : List Dictionary) (j : Key) : List Source :=
  ds.zipIdx.map fun x => ⟨x.2, x.1.1, stateAt x.1 j⟩

/-- A bound on the length of all keys. -/
def bound (ds : List Dictionary) : Nat := (ds.map fun d => depthOf d.2).sum

variable {ds : List Dictionary} {u : Dictionary} {j : Key}

theorem mem_sources {s : Source} :
    s ∈ sources ds j ↔ ∃ d, ds[s.order]? = some d ∧ s.fsa = d.1 ∧ s.start = stateAt d j := by
  rw [sources, List.mem_map]
  constructor
  · rintro ⟨x, hx, rfl⟩
    exact ⟨x.1, List.mem_zipIdx_iff_getElem?.mp hx, rfl, rfl⟩
  · rintro ⟨d, hd, hf, hs⟩
    refine ⟨(d, s.order), List.mem_zipIdx_iff_getElem?.mpr hd, ?_⟩
    cases s
    simp_all

theorem exists_source {d : Dictionary} (hd : d ∈ ds) :
    ∃ s ∈ sources ds j, ds[s.order]? = some d ∧ s.fsa = d.1 ∧ s.start = stateAt d j := by
  obtain ⟨i, hi⟩ := List.mem_iff_getElem?.mp hd
  exact ⟨⟨i, d.1, stateAt d j⟩, mem_sources.mpr ⟨d, hi, rfl, rfl⟩, hi, rfl, rfl⟩

theorem Tree.mono {a : Automata} {s₀ B B' : Nat} (h : a.Tree s₀ B) (hB : B ≤ B') :
    a.Tree s₀ B' :=
  ⟨fun p hp => h.bounded p (lt_of_le_of_lt hB hp), h.target⟩

theorem wellFormed (hd : ∀ d ∈ ds, Holds d.1 d.2) {B : Nat} (hB : bound ds ≤ B) :
    WellFormed (sources ds j) B where
  nodup := by
    have : (sources ds j).map Source.order = ds.zipIdx.map Prod.snd := by
      rw [sources, List.map_map]
      rfl
    rw [this, List.zipIdx_map_snd]
    exact List.nodup_range'
  tree s hs := by
    obtain ⟨d, hi, hf, hst⟩ := mem_sources.mp hs
    have hm := List.mem_of_getElem? hi
    rw [hf, hst]
    exact Tree.mono ((hd d hm).tree_walk j)
      ((List.le_sum_of_mem (List.mem_map_of_mem hm)).trans hB)

/-- A path behind a prefix, in terms of the keys. -/
theorem walk_stateAt_iff {d : Dictionary} (h : Holds d.1 d.2) {q : Key} (hq : q ≠ []) :
    d.1.walk (stateAt d j) q ≠ 0 ↔ ∃ k ∈ keysOf d.2, j ++ q <+: k := by
  rw [stateAt, ← walk_append]
  exact h.walk_ne_zero_iff (by simp [hq])

theorem union (hd : ∀ d ∈ ds, Holds d.1 d.2) (hu : IsUnion ds u) :
    ZipTraverser.Union (sources ds j) (bound ds + depthOf u.2) u.1 (stateAt u j) where
  tree := Tree.mono (hu.holds.tree_walk j) (Nat.le_add_left _ _)
  union q hq := by
    have hq' : q.reverse ≠ [] := by simpa using hq
    rw [← walk_reverse, walk_stateAt_iff hu.holds hq']
    constructor
    · rintro ⟨k, hk, hpk⟩
      obtain ⟨d, hdm, hkd⟩ := (hu.keys k).mp hk
      obtain ⟨s, hs, -, hf, hst⟩ := exists_source (j := j) hdm
      refine ⟨s, hs, ?_⟩
      rw [hasPath, hf, hst, ← walk_reverse]
      simpa using (walk_stateAt_iff (hd d hdm) hq').mpr ⟨k, hkd, hpk⟩
    · rintro ⟨s, hs, hp⟩
      obtain ⟨d, hi, hf, hst⟩ := mem_sources.mp hs
      have hm := List.mem_of_getElem? hi
      rw [hasPath, hf, hst, ← walk_reverse, decide_eq_true_eq,
        walk_stateAt_iff (hd d hm) hq'] at hp
      obtain ⟨k, hk, hpk⟩ := hp
      exact ⟨k, (hu.keys k).mpr ⟨d, hm, hk⟩, hpk⟩

/-- A key behind a prefix. -/
theorem hasKey_source {d : Dictionary} (h : Holds d.1 d.2) {s : Source} (hf : s.fsa = d.1)
    (hst : s.start = stateAt d j) (p : List Byte) :
    s.hasKey p = hasKey d (j ++ p.reverse) := by
  rw [Bool.eq_iff_iff, Source.hasKey, hasPath, hf, hst, ← walk_reverse, stateAt, ← walk_append,
    hasKey, decide_eq_true_eq, h.final]
  simp

/-- The value of a key behind a prefix. -/
theorem value_mem {d : Dictionary} (h : Holds d.1 d.2) {p : List Byte}
    (hk : hasKey d (j ++ p.reverse) = true) :
    (j ++ p.reverse, d.1.getStateValue (d.1.trailState (stateAt d j) p)) ∈ d.2 := by
  rw [hasKey, decide_eq_true_eq, keysOf, List.mem_map] at hk
  obtain ⟨e, he, hek⟩ := hk
  have hv := h.value e he
  rw [hek, walk_append] at hv
  rw [← walk_reverse, stateAt, hv, ← hek]
  exact he

variable {τ π : Type}

/-- **What a zipped traverser shows, in terms of the keys.** -/
structure Shows (ds : List Dictionary) (j : Key) (z : ZipStateTraverser τ π) (p : Key) :
    Prop where
  alive : z.alive = true
  labels : z.getStateLabels = p
  depth : z.depth = p.length
  label : p.getLast? = some z.stateLabel
  final : z.final = true ↔ ∃ d ∈ ds, j ++ p ∈ keysOf d.2
  reads : z.final = true → ∃ d, newest ds (j ++ p) = some d ∧ ds[z.order]? = some d ∧
    z.fsa = some d.1 ∧ (j ++ p, z.stateValue) ∈ d.2

theorem shows_of_shows (hd : ∀ d ∈ ds, Holds d.1 d.2) {z : ZipStateTraverser τ π} {p : List Byte}
    (hp : p ≠ []) (h : ShowsPath (sources ds j) z p) : Shows ds j z p.reverse where
  alive := h.alive
  labels := h.labels
  depth := by rw [h.depth, List.length_reverse]
  label := by
    obtain ⟨c, p, rfl⟩ := List.exists_cons_of_ne_nil hp
    rw [h.label c rfl]
    simp
  final := by
    rw [h.final]
    constructor
    · rintro ⟨s, hs, hk⟩
      obtain ⟨d, hi, hf, hst⟩ := mem_sources.mp hs
      have hm := List.mem_of_getElem? hi
      rw [hasKey_source (hd d hm) hf hst, hasKey, decide_eq_true_eq] at hk
      exact ⟨d, hm, hk⟩
    · rintro ⟨d, hm, hk⟩
      obtain ⟨s, hs, -, hf, hst⟩ := exists_source (j := j) hm
      refine ⟨s, hs, ?_⟩
      rw [hasKey_source (hd d hm) hf hst, hasKey]
      exact decide_eq_true hk
  reads hfin := by
    obtain ⟨s, hr⟩ := h.reads hfin
    obtain ⟨d, hi, hf, hst⟩ := mem_sources.mp hr.mem
    have hdh := hd d (List.mem_of_getElem? hi)
    have hk := hr.hasKey
    rw [hasKey_source hdh hf hst] at hk
    refine ⟨d, NewestWins.newest_eq_some.mpr ⟨s.order, hi, hk, fun i d' hlt hi' => ?_⟩,
      by rw [hr.order, hi], by rw [hr.fsa, hf], ?_⟩
    · rw [← Bool.not_eq_true]
      intro hk'
      have hs' : (⟨i, d'.1, stateAt d' j⟩ : Source) ∈ sources ds j :=
        mem_sources.mpr ⟨d', hi', rfl, rfl⟩
      have hle := hr.newest _ hs'
        (by rw [hasKey_source (hd d' (List.mem_of_getElem? hi')) rfl rfl]; exact hk')
      exact absurd hle (not_le.mpr hlt)
    · rw [hr.value, hf, hst]
      exact value_mem hdh hk

/-! ## The traverser over whole dictionaries -/

/-- `ZipStateTraverser(fsas)` of the dictionaries. -/
def zip (ds : List Dictionary) : ZipTraverser := ZipStateTraverser.ofFsas (ds.map Prod.fst) () true

/-- One traverser over a dictionary, with the labels of its path. -/
def single (u : Dictionary) : ComparableTraverser :=
  ComparableStateTraverser.ofAutomata u.1 () true 0

theorem zip_eq (ds : List Dictionary) :
    zip ds = ZipStateTraverser.ofTraversers ((sources ds []).map ZipTraverser.inner) := by
  rw [zip, ZipStateTraverser.ofFsas, List.zipIdx_map, List.map_map, sources, List.map_map]
  rfl

/-- The zipped traverser stands where the single one does, and shows what the dictionaries have
there. -/
structure Agrees (ds : List Dictionary) (z : ZipTraverser) (t : ComparableTraverser) : Prop where
  alive : z.alive = t.alive
  ne_nil : t.alive = true → t.labelStack ≠ []
  depth : t.alive = true → z.depth = t.stateTraverser.getDepth
  label : t.alive = true → z.stateLabel = t.stateTraverser.currentLabel
  shows : t.alive = true → Shows ds [] z t.labelStack

theorem agrees_of_agrees (hd : ∀ d ∈ ds, Holds d.1 d.2) {z : ZipTraverser} {t : ComparableTraverser}
    (h : ZipTraverser.Agrees (sources ds []) z t) : Agrees ds z t := by
  have hpath : t.alive = true → t.labelStack ≠ [] ∧ z.depth = t.stateTraverser.getDepth ∧
      z.stateLabel = t.stateTraverser.currentLabel ∧ Shows ds [] z t.labelStack := by
    intro ha
    obtain ⟨p, hp, hl, hdep, hlab, hsh⟩ := h.shows ha
    obtain ⟨c, p, rfl⟩ := List.exists_cons_of_ne_nil hp
    rw [hl]
    exact ⟨by simp, hsh.depth.trans hdep.symm, (hsh.label c rfl).trans (hlab c rfl).symm,
      shows_of_shows hd hp hsh⟩
  exact ⟨h.alive, fun ha => (hpath ha).1, fun ha => (hpath ha).2.1, fun ha => (hpath ha).2.2.1,
    fun ha => (hpath ha).2.2.2⟩

theorem agree (hd : ∀ d ∈ ds, Holds d.1 d.2) (hu : IsUnion ds u) (moves : List Move) :
    Option.Rel (Agrees ds)
      (Move.run ZipStateTraverser.alive ZipStateTraverser.move? moves (zip ds))
      (Move.run ComparableStateTraverser.alive ComparableStateTraverser.move? moves (single u)) := by
  have h := ZipTraverser.agree (wellFormed (j := []) hd (Nat.le_add_right _ (depthOf u.2)))
    (union hd hu) moves 0
  rw [← zip_eq] at h
  exact Move.rel_mono (fun _ _ hagree => agrees_of_agrees hd hagree) h

/-- **The zipped traverser visits every path once, in lexicographic order.** -/
theorem zip_visits (hd : ∀ d ∈ ds, Holds d.1 d.2) (hu : IsUnion ds u) :
    ∃ paths : List Key, paths.Pairwise (· < ·) ∧
      (∀ p, p ∈ paths ↔ p ≠ [] ∧ ∃ d ∈ ds, ∃ k ∈ keysOf d.2, p <+: k) ∧
      ∀ n ≤ paths.length, ∃ z, Move.run ZipStateTraverser.alive ZipStateTraverser.move?
          (List.replicate n Move.next) (zip ds) = some z ∧
        match paths[n]? with
        | none => z.alive = false
        | some p => Shows ds [] z p := by
  have hw := wellFormed (j := []) hd (Nat.le_add_right _ (depthOf u.2))
  have hun := union (j := []) hd hu
  refine ⟨u.1.paths (stateAt u []) (bound ds + depthOf u.2), pairwise_paths hun.tree,
    fun p => ?_, fun n hn => ?_⟩
  · rw [Automata.mem_paths hun.tree]
    refine and_congr_right fun hp => ?_
    rw [walk_stateAt_iff hu.holds hp, List.nil_append]
    constructor
    · rintro ⟨k, hk, hpk⟩
      obtain ⟨d, hdm, hkd⟩ := (hu.keys k).mp hk
      exact ⟨d, hdm, k, hkd, hpk⟩
    · rintro ⟨d, hdm, k, hkd, hpk⟩
      exact ⟨k, (hu.keys k).mpr ⟨d, hdm, hkd⟩, hpk⟩
  · rw [paths, List.length_map] at hn
    obtain ⟨z, hrun, h⟩ := ZipTraverser.At.run_next hw n hun.agenda
      (ZipTraverser.at_ofTraversers hw hun) hn
    rw [← zip_eq] at hrun
    refine ⟨z, hrun, ?_⟩
    rw [paths, List.getElem?_map, ← List.head?_drop]
    cases hL : (Preorder.subtree (u.1.children (stateAt u [])) (bound ds + depthOf u.2) []).drop n
      with
    | nil =>
      rw [hL] at h
      have hq : z.traverserQueue = [] := h
      show z.alive = false
      rw [ZipStateTraverser.alive, hq]
      rfl
    | cons p L =>
      rw [hL] at h
      have hp : p ≠ [] := hun.agenda.nonempty p (List.mem_of_mem_drop (hL ▸ List.mem_cons_self))
      exact shows_of_shows hd hp h.2.1

/-- **The zipped traverser refines a traverser over the union.** For every list of dictionaries and
every sequence of moves that are made at a path; `Prune` is called at most once at each. -/
theorem zip_refines_union (hd : ∀ d ∈ ds, Holds d.1 d.2) (hu : IsUnion ds u) :
    (∃ paths : List Key, paths.Pairwise (· < ·) ∧
      (∀ p, p ∈ paths ↔ p ≠ [] ∧ ∃ d ∈ ds, ∃ k ∈ keysOf d.2, p <+: k) ∧
      ∀ n ≤ paths.length, ∃ z, Move.run ZipStateTraverser.alive ZipStateTraverser.move?
          (List.replicate n Move.next) (zip ds) = some z ∧
        match paths[n]? with
        | none => z.alive = false
        | some p => Shows ds [] z p) ∧
    ∀ moves : List Move, Option.Rel (Agrees ds)
      (Move.run ZipStateTraverser.alive ZipStateTraverser.move? moves (zip ds))
      (Move.run ComparableStateTraverser.alive ComparableStateTraverser.move? moves (single u)) :=
  ⟨zip_visits hd hu, agree hd hu⟩

/-- The key `61 62`. -/
def keyAB : Dictionary :=
  (ofCells 1 3072 [(3169, 97), (2146, 98), (3328, 0), (2304, 0)]
    [(3169, 1633), (2146, 1634), (1280, 1)], [([97, 98], 1)])

/-- The keys `61 62` and `61 63`, the first with another value. -/
def keysABAC : Dictionary :=
  (ofCells 2 4096 [(4193, 97), (3170, 98), (3171, 99), (4352, 0), (3328, 0)]
    [(4193, 1633), (3170, 1634), (3171, 2659), (2304, 3), (1280, 2)],
    [([97, 98], 3), ([97, 99], 2)])

/-- The key `61 63`. -/
def keyAC : Dictionary :=
  (ofCells 1 3072 [(3169, 97), (2147, 99), (3328, 0), (2304, 0)]
    [(3169, 1633), (2147, 1635), (1280, 2)], [([97, 99], 2)])

theorem holds_of_mem : ∀ d ∈ [keyAB, keysABAC, keyAC], Holds d.1 d.2 := by
  intro d hd
  simp only [List.mem_cons, List.not_mem_nil, or_false] at hd
  rcases hd with rfl | rfl | rfl <;> exact holds_of_check 2 (by decide +kernel)

theorem isUnion_of_two : IsUnion [keyAB, keyAC] keysABAC :=
  ⟨holds_of_mem _ (by simp), fun k => by simp [keysABAC, keyAB, keyAC, keysOf]⟩

theorem zip_refines_union_two :
    (∃ paths : List Key, paths.Pairwise (· < ·) ∧
      (∀ p, p ∈ paths ↔ p ≠ [] ∧ ∃ d ∈ [keyAB, keyAC], ∃ k ∈ keysOf d.2, p <+: k) ∧
      ∀ n ≤ paths.length, ∃ z, Move.run ZipStateTraverser.alive ZipStateTraverser.move?
          (List.replicate n Move.next) (zip [keyAB, keyAC]) = some z ∧
        match paths[n]? with
        | none => z.alive = false
        | some p => Shows [keyAB, keyAC] [] z p) ∧
    ∀ moves : List Move, Option.Rel (Agrees [keyAB, keyAC])
      (Move.run ZipStateTraverser.alive ZipStateTraverser.move? moves (zip [keyAB, keyAC]))
      (Move.run ComparableStateTraverser.alive ComparableStateTraverser.move? moves
        (single keysABAC)) :=
  zip_refines_union (fun d hd => holds_of_mem d (by simp at hd ⊢; tauto)) isUnion_of_two

/-- `Prune` twice at `61 62`: the single traverser leaves `61` with both keys below it, the zipped
one prunes only the inner traverser that is at the path, and goes on with `61 63`. -/
theorem prune_twice_differs :
    (∀ d ∈ [keyAB, keyAC], Holds d.1 d.2) ∧ IsUnion [keyAB, keyAC] keysABAC ∧
      ((zip [keyAB, keyAC]).advance?.bind fun z => z.prune.prune.advance?).map
        ZipStateTraverser.alive = some true ∧
      (single keysABAC).advance.prune.prune.advance.alive = false :=
  ⟨fun d hd => holds_of_mem d (by simp at hd ⊢; tauto), isUnion_of_two, by decide +kernel,
    by decide +kernel⟩

end Dictionary

end Keyvi.Fsa
