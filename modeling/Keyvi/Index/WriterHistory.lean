import Mathlib
import Keyvi.Index.WriterSchedule

/-!
# Runs of the writer

The events so far say what every key should be: `expected`. In every orderly run the compiler and
the segments together hold just that, whatever has been merged in the meantime.
-/

namespace Keyvi.Index
namespace Writer

open NewestWins

variable {V : Type} {w w' : Writer V} {settings : IndexSettings V}

/-- The last operation on a key in an event: `some none` is a delete. -/
def Event.operation : Event V → Key → Option (Option V)
  | .add k' v, k => if k' == k then some (some v) else none
  | .bulkAdd kvs, k => answer (fun kv k => if kv.1 == k then some (some kv.2) else none) kvs k
  | .delete k', k => if k' == k then some none else none
  | _, _ => none

/-- What a key should be after the events. -/
def expected (events : List (Event V)) (k : Key) : Option V :=
  (answer Event.operation events k).join

theorem expected_append_singleton (events : List (Event V)) (e : Event V) (k : Key) :
    expected (events ++ [e]) k = (e.operation k).getD (expected events k) := by
  rw [expected, answer_append]
  cases he : e.operation k <;> simp [answer_cons, he, expected]

/-- Events that do not concern a key. -/
theorem expected_append {events later : List (Event V)} {k : Key}
    (h : ∀ e ∈ later, e.operation k = none) :
    expected (events ++ later) k = expected events k := by
  rw [expected, answer_append, answer_eq_none.mpr h]
  rfl

/-- The writer holds what the events say. -/
structure Faithful (events : List (Event V)) (w : Writer V) : Prop where
  inv : Inv w w.mergeJobs
  covered : Covered w
  value : ∀ k, w.current k = expected events k
  gone : ∀ k, w.lastEntry k = some none → w.newestWins k = none

theorem inv_loadIndex_empty (n : Nat) :
    Inv (loadIndex (Directory.empty : Directory V) n) [] where
  nodup := List.nodup_nil
  lt _ hi := by cases hi
  fresh _ _ := ⟨rfl, rfl⟩
  ok _ hi := by cases hi
  toc := rfl
  closed := List.Pairwise.nil
  synced _ _ hi := by cases hi
  job _ hp := by cases hp
  pending _ hp := by cases hp
  apart := List.Pairwise.nil
  outputs _ hp := by cases hp

theorem faithful_new : Faithful [] (loadIndex (Directory.empty : Directory V) 0) :=
  ⟨inv_loadIndex_empty 0, List.Pairwise.nil, fun _ => rfl, fun _ h => by cases h⟩

/-! ## Steps -/

theorem lastEntry_add (w : Writer V) (k k' : Key) (v : V) : (w.add k v).lastEntry k' =
    ((Event.add k v).operation k').or (w.lastEntry k') := by
  simp only [lastEntry, add, Option.getD_some, answer_append, answer_cons, answer_nil,
    Option.none_or, Event.operation]

theorem lastEntry_bulkAdd (w : Writer V) (kvs : List (Key × V)) (k : Key) :
    (w.bulkAdd kvs).lastEntry k = ((Event.bulkAdd kvs).operation k).or (w.lastEntry k) := by
  simp only [bulkAdd_eq, lastEntry, Option.getD_some, answer_append, answer_map, Event.operation]

theorem lastEntry_delete (w : Writer V) (k k' : Key) : (w.delete k).lastEntry k' =
    if k = k' ∧ w.compiler.isSome then some none else w.lastEntry k' := by
  simp only [lastEntry, delete]
  cases w.compiler with
  | none => simp
  | some kvs =>
    by_cases hk : k = k'
    · simp [hk, answer_append, answer_cons]
    · simp [hk, answer_append, answer_cons]

/-- Adding never ends in a delete. -/
theorem operation_bulkAdd_ne (kvs : List (Key × V)) (k : Key) :
    (Event.bulkAdd kvs).operation k ≠ some none := by
  intro h
  obtain ⟨-, kv, -, -, hkv, -⟩ := answer_eq_some.mp h
  split at hkv <;> cases hkv

/-- What is added is the new value. -/
theorem Faithful.added {events : List (Event V)} (h : Faithful events w) {e : Event V}
    (hw : ∃ c, w' = { w with compiler := c })
    (hlast : ∀ k, w'.lastEntry k = (e.operation k).or (w.lastEntry k))
    (hne : ∀ k, e.operation k ≠ some none) : Faithful (events ++ [e]) w' := by
  obtain ⟨c, rfl⟩ := hw
  refine ⟨h.inv.keep _ _ _, h.covered, fun k => ?_, fun k hk => ?_⟩
  · rw [expected_append_singleton, current, hlast]
    cases he : e.operation k with
    | none => exact h.value k
    | some o =>
      cases o with
      | none => exact absurd he (hne k)
      | some v => rfl
  · rw [hlast] at hk
    cases he : e.operation k with
    | none =>
      rw [he] at hk
      exact h.gone k hk
    | some o =>
      rw [he] at hk
      exact absurd (he.trans hk) (hne k)

theorem Faithful.delete {events : List (Event V)} (h : Faithful events w) (k : Key) :
    Faithful (events ++ [.delete k]) (w.delete k) := by
  refine ⟨h.inv.delete k, h.covered.delete h.inv k, fun k' => ?_, fun k' hk' => ?_⟩
  · rw [expected_append_singleton, current, lastEntry_delete, Event.operation]
    by_cases hk : k = k'
    · subst hk
      have hnone : (w.lastEntry k).join.or none = none ∨ w.compiler.isSome = true := by
        cases hc : w.compiler with
        | none => exact .inl (by rw [lastEntry, hc]; rfl)
        | some kvs => exact .inr rfl
      rw [newestWins_delete_self h.inv]
      by_cases hc : w.compiler.isSome = true
      · simp [hc]
      · simpa [hc] using hnone.resolve_right hc
    · rw [newestWins_delete_of_ne h.inv (Ne.symm hk)]
      simpa [hk, current] using h.value k'
  · by_cases hk : k = k'
    · exact hk ▸ newestWins_delete_self h.inv k
    · rw [newestWins_delete_of_ne h.inv (Ne.symm hk)]
      rw [lastEntry_delete, if_neg fun hc => hk hc.1] at hk'
      exact h.gone k' hk'

/-- A step that changes no value. -/
theorem Faithful.quiet {events : List (Event V)} (h : Faithful events w) {e : Event V}
    (he : ∀ k, e.operation k = none) (hinv : Inv w' w'.mergeJobs) (hcov : Covered w')
    (hcur : ∀ k, w'.current k = w.current k)
    (hgone : ∀ k, w'.lastEntry k = some none → w'.newestWins k = none) :
    Faithful (events ++ [e]) w' :=
  ⟨hinv, hcov, fun k => by
    rw [expected_append_singleton, he, hcur, h.value]
    rfl, hgone⟩

theorem lastEntry_of_none (h : w.compiler = none) (k : Key) : w.lastEntry k = none := by
  rw [lastEntry, h]
  rfl

/-- **Every orderly step** keeps the writer faithful to the events. -/
theorem Faithful.step {events : List (Event V)} (h : Faithful events w) {e : Event V}
    (ho : Orderly settings w e) (hs : step settings w e = some w') :
    Faithful (events ++ [e]) w' := by
  have hnone : ∀ {u : Writer V}, u.compiler = none →
      ∀ k, u.lastEntry k = some none → u.newestWins k = none := fun hc k hk => by
    rw [lastEntry_of_none hc] at hk
    cases hk
  cases e with
  | add k v =>
    obtain rfl := Option.some.inj hs
    refine h.added ⟨_, rfl⟩ (fun k' => lastEntry_add w k k' v) fun k' => ?_
    simp only [Event.operation]
    split <;> simp
  | bulkAdd kvs =>
    obtain rfl := Option.some.inj hs
    exact h.added ⟨_, bulkAdd_eq w kvs⟩ (fun k => lastEntry_bulkAdd w kvs k)
      fun k => operation_bulkAdd_ne kvs k
  | delete k =>
    obtain rfl := Option.some.inj hs
    exact h.delete k
  | flush =>
    obtain rfl := Option.some.inj hs
    obtain ⟨hinv, hcov, -, hc, hcur⟩ := h.inv.flush
    exact h.quiet (fun _ => rfl) hinv hcov hcur (hnone hc)
  | compile =>
    obtain rfl := Option.some.inj hs
    refine h.quiet (fun _ => rfl) ?_ (h.covered.compile h.inv) (current_compile h.inv)
      (hnone compile_kept.1)
    rw [compile_kept.2.1]
    exact h.inv.compile
  | scheduledTask external =>
    obtain ⟨hinv, hcov, -, hc, hcur⟩ := h.inv.scheduledTask h.covered ho hs
    exact h.quiet (fun _ => rfl) hinv hcov hcur (hnone hc)
  | read k =>
    obtain rfl := Option.some.inj hs
    rw [h.inv.read]
    exact h.quiet (fun _ => rfl) h.inv h.covered (fun _ => rfl) h.gone
  | mergeReads j =>
    obtain ⟨hinv, jobs, rfl⟩ := h.inv.mergeReads hs
    exact h.quiet (fun _ => rfl) hinv h.covered (fun _ => rfl) h.gone
  | mergeEnds j code =>
    have hinv := h.inv.mergeEnds hs
    obtain ⟨p, a, b, hjobs, -, ⟨-, -, rfl⟩ | ⟨-, rfl⟩⟩ := mergeEnds_eq hs
    · have hout := (h.inv.job p (by simp [hjobs])).outNew
      exact h.quiet (fun _ => rfl) hinv (covered_writeOutput h.covered hout _) (fun _ => rfl) h.gone
    · exact h.quiet (fun _ => rfl) hinv h.covered (fun _ => rfl) h.gone
  | disableMerge =>
    obtain rfl := Option.some.inj hs
    exact h.quiet (fun _ => rfl) (h.inv.keep _ _ _) h.covered (fun _ => rfl) h.gone
  | finishPending =>
    obtain ⟨hinv, jobs, rfl⟩ := h.inv.finishPending hs
    refine h.quiet (fun _ => rfl) hinv (h.covered.compile h.inv) (fun k => ?_) ?_
    · exact current_compile h.inv k
    · exact hnone compile_kept.1

/-- The condition along a run on a new directory. -/
def OrderlyRun (settings : IndexSettings V) (events : List (Event V)) : Prop :=
  Run.Along (step settings) (Orderly settings) (loadIndex Directory.empty 0) events

/-- **Every orderly run** is faithful. -/
theorem faithful_of_run {events : List (Event V)} (h : OrderlyRun settings events)
    (hrun : runNew settings events = some w) : Faithful events w :=
  Run.invariant_history Faithful (fun _ _ _ _ hf ho hs => hf.step ho hs) faithful_new h hrun

/-! ## The newest-wins map -/

/-- **A merge leaves the newest-wins map of the segment list unchanged**, whichever of the jobs have
ended and in whatever order: in every orderly run, if no merge that has failed before is finalized
again over a pending one. -/
theorem newestWins_finalizeMerge (settings : IndexSettings V) {events : List (Event V)}
    {w w' : Writer V} (hrun : runNew settings events = some w)
    (horderly : OrderlyRun settings events) (hstale : w.NoStaleJob)
    (hs : w.finalizeMerge = some w') (k : Key) : w'.newestWins k = w.newestWins k := by
  have h := faithful_of_run horderly hrun
  exact (h.inv.finalizeMerge h.covered hstale hs).2.2.newestWins k

instance (w : Writer V) : Decidable w.NoStaleJob :=
  decidable_of_iff (∀ p ∈ w.mergeJobs, ∀ q ∈ w.mergeJobs, p.pending = false → q.pending = true →
    ∀ i ∈ p.segments, i ∉ q.segments) Iff.rfl

/-- The tiered policy has no gaps to avoid. -/
theorem orderlyRun_of_tiered {better : List (Segment V) → List (Segment V) → Bool}
    (hp : settings.mergePolicy = .tiered better) {events : List (Event V)}
    (h : Run.Along (step settings) (fun w _ => w.NoStaleJob) (loadIndex Directory.empty 0) events) :
    OrderlyRun settings events := by
  refine h.imp fun w e hstale => ?_
  cases e with
  | scheduledTask external =>
    refine ⟨hstale, fun w₁ _ _ _ => ?_⟩
    rw [NoGap, hp]
    trivial
  | _ => trivial

/-- Two segments are merged under the tiered policy. -/
theorem newestWins_finalizeMerge_twoSegments :
    let settings : IndexSettings Nat := ⟨2, .tiered fun _ _ => false⟩
    let events : List (Event Nat) := [.add [1] 10, .flush, .add [1] 11, .add [2] 20, .flush,
      .scheduledTask true, .mergeReads 0, .mergeReads 0, .mergeEnds 0 0]
    ∃ w w', runNew settings events = some w ∧ w.finalizeMerge = some w' ∧
      w.segments = [0, 1] ∧ w'.segments = [2] ∧ ∀ k, w'.newestWins k = w.newestWins k := by
  intro settings events
  have hsome : ((runNew settings events).bind fun w => w.finalizeMerge.map fun w' =>
      (w.segments, w'.segments)) = some ([0, 1], [2]) := by decide +kernel
  obtain ⟨w, hw, hsome⟩ := Option.bind_eq_some_iff.mp hsome
  obtain ⟨w', hw', hseg⟩ := Option.map_eq_some_iff.mp hsome
  have hok : Run.Along (step settings) (fun w _ => w.NoStaleJob) (loadIndex Directory.empty 0)
      events := by decide +kernel
  have hstale : ∀ w, runNew settings events = some w → w.NoStaleJob := by
    have hall : (runNew settings events).all fun w => decide w.NoStaleJob := by decide +kernel
    intro w hw
    rw [hw] at hall
    simpa using hall
  exact ⟨w, w', hw, hw', congrArg Prod.fst hseg, congrArg Prod.snd hseg,
    newestWins_finalizeMerge settings hw (orderlyRun_of_tiered rfl hok) (hstale w hw) hw'⟩

/-- The simple policy elects two segments on both sides of a running merge; the merged one takes the
place of the older, and a newer value falls behind the segments in between. -/
theorem newestWins_lost_across_gap : ¬ ∀ (settings : IndexSettings Nat) (events : List (Event Nat))
    (w w' : Writer Nat) (k : Key), runNew settings events = some w → w.finalizeMerge = some w' →
      w'.newestWins k = w.newestWins k := by
  intro h
  have hsome : ((runNew ⟨2, .simple⟩ [.add [1] 10, .flush, .add [2] 20, .flush,
      .scheduledTask true, .add [7] 70, .flush, .add [3] 30, .flush, .scheduledTask true,
      .mergeReads 0, .mergeReads 0, .mergeEnds 0 0, .add [7] 71, .flush, .scheduledTask true,
      .mergeReads 1, .mergeReads 1, .mergeEnds 1 0]).bind fun w =>
        w.finalizeMerge.map fun w' => (w.newestWins [7], w'.newestWins [7])) =
      some (some 71, some 70) := by decide +kernel
  obtain ⟨w, hw, hsome⟩ := Option.bind_eq_some_iff.mp hsome
  obtain ⟨w', hw', hval⟩ := Option.map_eq_some_iff.mp hsome
  obtain ⟨hbefore, hafter⟩ := Prod.mk.inj hval
  have hsame := h _ _ w w' [7] hw hw'
  rw [hbefore, hafter] at hsame
  cases hsame

end Writer
end Keyvi.Index
