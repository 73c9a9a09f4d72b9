import Mathlib
import Keyvi.Fsa.WeightedRefinement
import Keyvi.Fsa.ZipDictionaries

/-!
# Zipping weighted dictionaries

Every dictionary has weights of its own. The zipped traverser visits the paths of the union once, if
labels that get the same greatest weight are not ordered the other way by a dictionary that has
both. Otherwise the stable sort of the new weights keeps the order of the old ones, and a path that
one inner traverser has left is visited by another one later.
-/

namespace Keyvi.Fsa

open Automata Source

namespace Dictionary

variable {ds : List Dictionary}

/-- `ZipStateTraverser(fsas)` of the dictionaries, over weighted traversers. -/
def weightedZip (ds : List Dictionary) : WeightedZip := WeightedZip.ofFsas (ds.map Prod.fst) true

/-- **Every path of the union is visited once, a parent before its children**, and read from the
newest dictionary that has it. -/
def VisitsUnion (ds : List Dictionary) (z : WeightedZip) : Prop :=
  ∃ paths : List Key, paths.Nodup ∧ (paths.Pairwise fun p q => ¬ q <+: p) ∧
    (∀ p, p ∈ paths ↔ p ≠ [] ∧ ∃ d ∈ ds, ∃ k ∈ keysOf d.2, p <+: k) ∧
    ∀ n, match paths[n]? with
      | none => (ZipStateTraverser.advance^[n] z).alive = false
      | some p => Shows ds [] (ZipStateTraverser.advance^[n] z) p

/-- The traversers of the constructor are those of the sources. -/
theorem weightedZip_eq (ds : List Dictionary) :
    weightedZip ds = ZipStateTraverser.ofTraversers
      ((sources ds []).map (WeightedTraverser.started (sources ds []))) := by
  have hstart : (sources ds []).map WeightedTraverser.atStart = ds.zipIdx.map fun x =>
      ComparableStateTraverser.ofAutomata x.1.1 (default : WeightedPayload) false x.2 := by
    rw [sources, List.map_map]
    rfl
  have hlen : (ds.zipIdx.map fun x => ComparableStateTraverser.ofAutomata
      (τ := WeightedTransition) x.1.1 (default : WeightedPayload) false x.2).length =
        ds.length := by simp
  unfold weightedZip WeightedZip.ofFsas
  rw [List.length_map]
  by_cases h : ds.length < 2
  · rw [if_pos h, ZipStateTraverser.ofFsas, List.zipIdx_map, List.map_map]
    refine congrArg ZipStateTraverser.ofTraversers ?_
    rw [sources, List.map_map]
    refine List.map_congr_left fun x _ => ?_
    show _ = WeightedTraverser.started (sources ds []) ⟨x.2, x.1.1, stateAt x.1 []⟩
    unfold WeightedTraverser.started WeightedTraverser.increment
    rw [hstart, hlen, if_neg (by omega)]
    rfl
  · rw [if_neg h, List.zipIdx_map, List.map_map]
    refine congrArg ZipStateTraverser.ofTraversers ?_
    rw [List.map_map, sources, List.map_map]
    refine List.map_congr_left fun x _ => ?_
    show _ = WeightedTraverser.started (sources ds []) ⟨x.2, x.1.1, stateAt x.1 []⟩
    unfold WeightedTraverser.started WeightedTraverser.increment
    rw [hstart, hlen, if_pos (by omega)]
    rfl

/-- A path of the sources is a part of a key. -/
theorem hasPath_sources_iff (hd : ∀ d ∈ ds, Holds d.1 d.2) {q : List Byte} (hq : q ≠ []) :
    (∃ s ∈ sources ds [], s.hasPath q = true) ↔ ∃ d ∈ ds, ∃ k ∈ keysOf d.2, q.reverse <+: k := by
  have hq' : q.reverse ≠ [] := by simpa using hq
  constructor
  · rintro ⟨s, hs, hp⟩
    obtain ⟨d, hi, hf, hst⟩ := mem_sources.mp hs
    have hm := List.mem_of_getElem? hi
    rw [hasPath, hf, hst, ← walk_reverse, decide_eq_true_eq, walk_stateAt_iff (hd d hm) hq'] at hp
    exact ⟨d, hm, hp⟩
  · rintro ⟨d, hm, hk⟩
    obtain ⟨s, hs, -, hf, hst⟩ := exists_source (j := []) hm
    refine ⟨s, hs, ?_⟩
    rw [hasPath, hf, hst, ← walk_reverse, decide_eq_true_eq]
    exact (walk_stateAt_iff (hd d hm) hq').mpr hk

/-- **The zipped traverser over weighted ones visits the union.** -/
theorem weightedZip_visits (hd : ∀ d ∈ ds, Holds d.1 d.2) (hties : TiesAscend (sources ds [])) :
    VisitsUnion ds (weightedZip ds) := by
  have hw := wellFormed (j := []) hd le_rfl
  have hagenda := WeightedTraverser.agenda_commonTrails hw
  have hrun := fun n => WeightedTraverser.at_run hw hties n hagenda
    (WeightedTraverser.continues_commonTrails hw) (WeightedTraverser.at_started hw hties)
  have hnd : (WeightedTraverser.commonTrails (sources ds []) (bound ds)).Nodup :=
    hagenda.ascending.imp fun h he => by rw [he] at h; exact lt_irrefl _ h
  refine ⟨(WeightedTraverser.commonTrails (sources ds []) (bound ds)).map List.reverse,
    hnd.map List.reverse_injective, ?_, fun p => ?_, fun n => ?_⟩
  · rw [List.pairwise_map]
    refine (hagenda.ascending.and hnd).imp fun {p q} h hqp => ?_
    -- A prefix of a path comes before it.
    have hsuf : q <:+ p := List.reverse_prefix.mp hqp
    rcases hsuf.length_le.lt_or_eq with hlt | heq
    · exact lt_asymm h.1 (Discipline.key_lt _ _ _ hsuf hlt)
    · exact h.2 (hsuf.eq_of_length heq).symm
  · rw [List.mem_map]
    constructor
    · rintro ⟨q, hq, rfl⟩
      obtain ⟨hne, hs⟩ := (WeightedTraverser.mem_commonTrails hw).mp hq
      exact ⟨by simpa using hne, (hasPath_sources_iff hd hne).mp hs⟩
    · rintro ⟨hne, hk⟩
      have hne' : p.reverse ≠ [] := by simpa using hne
      refine ⟨p.reverse, (WeightedTraverser.mem_commonTrails hw).mpr ⟨hne', ?_⟩,
        List.reverse_reverse p⟩
      exact (hasPath_sources_iff hd hne').mpr (by rwa [List.reverse_reverse])
  · have h := hrun n
    rw [← weightedZip_eq] at h
    rw [List.getElem?_map, ← List.head?_drop]
    cases hL : (WeightedTraverser.commonTrails (sources ds []) (bound ds)).drop n with
    | nil =>
      rw [hL] at h
      have hq : (ZipStateTraverser.advance^[n] (weightedZip ds)).traverserQueue = [] := h
      show ZipStateTraverser.alive _ = false
      rw [ZipStateTraverser.alive, hq]
      rfl
    | cons p L =>
      rw [hL] at h
      have hp : p ≠ [] := hagenda.nonempty p (List.mem_of_mem_drop (hL ▸ List.mem_cons_self))
      exact shows_of_shows hd hp h.2.1

/-- Among keys of one label the weights at the start are the only ones. -/
theorem tiesAscend_of_short (hd : ∀ d ∈ ds, Holds d.1 d.2)
    (hshort : ∀ d ∈ ds, ∀ k ∈ keysOf d.2, k.length ≤ 1)
    (h : ∀ s ∈ sources ds [], ∀ c ∈ s.listed [], ∀ d ∈ s.listed [], c < d →
      greatestWeight (sources ds []) [c] = greatestWeight (sources ds []) [d] →
      weightIn (sources ds []) s [] d ≤ weightIn (sources ds []) s [] c) :
    TiesAscend (sources ds []) := by
  intro s hs p c d hm hc hd' hcd heq
  cases p with
  | nil => exact h s hs c hc d hd' hcd heq
  | cons x p =>
    -- A second label does not belong to a key.
    have hp : s.fsa.trailState s.start (x :: p) ≠ 0 := by
      simpa [meets, hasPath] using hm
    have hpath := (mem_listed ((wellFormed (j := []) hd le_rfl).tree s hs) hp).mp hc
    obtain ⟨e, he, k, hk, hpk⟩ := (hasPath_sources_iff hd (by simp)).mp ⟨s, hs, hpath⟩
    have hlen := hpk.length_le
    have := hshort e he k hk
    simp only [List.length_reverse, List.length_cons] at hlen
    omega

/-- The keys `61` and `62`, both with weight 5. -/
def evenAB : Dictionary :=
  (ofCells 2 3072 [(3169, 97), (3170, 98), (3328, 0), (2308, 0), (1284, 0)]
    [(3169, 1633), (3170, 2658), (2304, 10), (1280, 20), (2308, 5), (1284, 5)],
    [([97], 10), ([98], 20)])

/-- The keys `61` with weight 3 and `62` with weight 5. -/
def heavierB : Dictionary :=
  (ofCells 2 3072 [(3169, 97), (3170, 98), (3328, 0), (2308, 0), (1284, 0)]
    [(3169, 1633), (3170, 2658), (2304, 10), (1280, 20), (2308, 3), (1284, 5)],
    [([97], 10), ([98], 20)])

/-- The key `61` with weight 5. -/
def heavyA : Dictionary :=
  (ofCells 1 3072 [(3169, 97), (3328, 0), (2308, 0)] [(3169, 1633), (2304, 30), (2308, 5)],
    [([97], 30)])

theorem holds_heavy : ∀ d ∈ [evenAB, heavierB, heavyA], Holds d.1 d.2 := by
  intro d hd
  simp only [List.mem_cons, List.not_mem_nil, or_false] at hd
  rcases hd with rfl | rfl | rfl <;> exact holds_of_check 1 (by decide +kernel)

/-- Both labels have the same greatest weight, and the first dictionary has them in the order of the
labels. -/
theorem weightedZip_visits_even : VisitsUnion [evenAB, heavyA] (weightedZip [evenAB, heavyA]) :=
  weightedZip_visits (fun d hd => holds_heavy d (by simp at hd ⊢; tauto))
    (tiesAscend_of_short (fun d hd => holds_heavy d (by simp at hd ⊢; tauto))
      (by decide +kernel) (by decide +kernel))

/-- Both labels get the weight 5. The first dictionary keeps `62` before `61`, the second one is at
`61` first, so `61` is visited twice. -/
theorem weightedZip_visitsTwice :
    (∀ d ∈ [heavierB, heavyA], Holds d.1 d.2) ∧
      ¬ VisitsUnion [heavierB, heavyA] (weightedZip [heavierB, heavyA]) := by
  refine ⟨fun d hd => holds_heavy d (by simp at hd ⊢; tauto), ?_⟩
  rintro ⟨paths, hnd, -, -, hvisits⟩
  have hat : ∀ n, (ZipStateTraverser.advance^[n] (weightedZip [heavierB, heavyA])).alive = true →
      paths[n]? = some
        (ZipStateTraverser.advance^[n] (weightedZip [heavierB, heavyA])).getStateLabels := by
    intro n ha
    have h := hvisits n
    cases hp : paths[n]? with
    | none =>
      rw [hp] at h
      rw [show _ = false from h] at ha
      cases ha
    | some p =>
      rw [hp] at h
      rw [Shows.labels h]
  have h0 : paths[0]? = some [97] := (hat 0 (by decide +kernel)).trans (by decide +kernel)
  have h2 : paths[2]? = some [97] := (hat 2 (by decide +kernel)).trans (by decide +kernel)
  have hlt : 2 < paths.length := (List.getElem?_eq_some_iff.mp h2).1
  have h02 : 0 = 2 := (List.getElem?_inj (by omega) hnd).mp (h0.trans h2.symm)
  cases h02

end Dictionary

end Keyvi.Fsa
