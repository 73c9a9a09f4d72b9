import Mathlib
import Keyvi.Index.WriterMerges

/-!
# The scheduled task

`RunMerge` elects segments and starts a job, and the task ends by writing what has been deleted and
added. Under `Orderly` every step of the writer keeps the invariant, so every run does.
-/

namespace Keyvi.Index
namespace Writer

open NewestWins

variable {V : Type} {w w' : Writer V} {jobs : List MergeJob} {settings : IndexSettings V}

/-! ## RunMerge -/

/-- The simple policy does not elect across a marked segment. -/
def NoGap (settings : IndexSettings V) (w : Writer V) : Prop :=
  match settings.mergePolicy with
  | .simple => SimpleMergePolicy.NoGap (fun i => (w.object i).markedForMerge) w.segments
  | .tiered _ => True

/-- The elected segments are adjacent and not marked. -/
theorem selectMergeSegments_adjacent (hgap : w.NoGap settings) {is : List Nat}
    (hs : w.selectMergeSegments settings = some is) :
    is <:+: w.segments ∧ is ≠ [] ∧ ∀ i ∈ is, (w.object i).inMerge = false := by
  unfold selectMergeSegments at hs
  unfold NoGap at hgap
  split at hs
  · next hp =>
    rw [hp] at hgap
    obtain ⟨-, hne, hu⟩ := SimpleMergePolicy.selectMergeSegments_sublist hs
    have hinf := SimpleMergePolicy.collect_adjacent hgap
    rw [SimpleMergePolicy.collect_eq_of_length hs] at hinf
    exact ⟨hinf, hne, hu⟩
  · exact TieredMergePolicy.selectMergeSegments_adjacent hs

theorem actOk_elect (h : Inv w jobs) {i : Nat} (hi : i ∈ w.segments)
    (hm : (w.object i).inMerge = false) : ActOk (fun _ s => s.electedForMerge) w i := by
  refine ⟨(h.ok i hi).electedForMerge hm, rfl, rfl, ?_⟩
  change _ ⊆ (SegmentFileOp.applyAll _ (w.object i).persist.2).deleted
  rw [(h.ok i hi).deleted_persist]
  exact (h.ok i hi).onDisk

section Elect

variable {is : List Nat} (h : Inv w jobs) (hadj : is <:+: w.segments)
  (hunmarked : ∀ i ∈ is, (w.object i).inMerge = false)

include h hadj hunmarked

theorem Inv.elect : Inv (is.foldl Writer.elect w) jobs := by
  have hmem : ∀ i ∈ is, i ∈ w.segments := fun i hi => hadj.mem hi
  rw [elect_eq]
  refine h.acted (h.nodup.sublist hadj.sublist) (fun i hi => h.lt i (hmem i hi))
    (fun p hp hi => (h.job p hp).outNew (hmem _ hi))
    (fun i hi _ => actOk_elect h (hmem i hi) (hunmarked i hi)) fun p hp hpend i hi his => ?_
  have hmarked := (h.pending p hp hpend).marked i hi
  rw [hunmarked i his] at hmarked
  cases hmarked

theorem newestWins_elect (k : Key) : (is.foldl Writer.elect w).newestWins k = w.newestWins k := by
  rw [elect_eq]
  exact newestWins_acted (h.nodup.sublist hadj.sublist)
    (fun i hi _ => actOk_elect h (hadj.mem hi) (hunmarked i hi)) k

end Elect

/-- A new job over marked segments that no pending job has. -/
theorem Inv.startJob (h : Inv w jobs) {is : List Nat} (hadj : is <:+: w.segments) (hne : is ≠ [])
    (hmarked : ∀ i ∈ is, (w.object i).inMerge = true) (hduring : ∀ i ∈ is, w.during i = ∅)
    (hdis : ∀ p ∈ jobs, p.pending = true → List.Disjoint p.segments is) (external : Bool) :
    Inv { w with nextFile := w.nextFile + 1 }
      (jobs ++ [MergeJob.start is w.nextFile external]) := by
  have hmem : ∀ i ∈ is, i ∈ w.segments := fun i hi => hadj.mem hi
  refine ⟨h.nodup, fun i hi => (h.lt i hi).trans (Nat.lt_succ_self _),
    fun i hi => h.fresh i (Nat.le_of_succ_le hi), h.ok, h.toc, h.closed, h.synced, ?_, ?_, ?_, ?_⟩
  · intro p hp
    rcases List.mem_append.mp hp with hp | hp
    · exact (h.job p hp).frame (Nat.le_succ _) (h.job p hp).outNew ⟨rfl, rfl⟩
    · obtain rfl := List.mem_singleton.mp hp
      exact ⟨h.nodup.sublist hadj.sublist, fun i hi => (h.lt i (hmem i hi)).trans (Nat.lt_succ_self _),
        Nat.lt_succ_self _, fun hi => (h.lt _ hi).false, h.fresh _ le_rfl, rfl,
        fun hf => by cases hf⟩
  · intro p hp hpend
    rcases List.mem_append.mp hp with hp | hp
    · exact { h.pending p hp hpend with }
    · obtain rfl := List.mem_singleton.mp hp
      refine ⟨hadj, hne, hmarked, rfl, fun he => (by cases he), fun i hi j _ k hk _ => ?_⟩
      exact absurd (hduring i hi ▸ hk) (Finset.notMem_empty k)
  · refine List.pairwise_append.mpr ⟨h.apart, List.pairwise_singleton _ _, fun p hp q hq => ?_⟩
    obtain rfl := List.mem_singleton.mp hq
    exact ⟨(h.job p hp).outLt.ne, fun hpend _ => hdis p hp hpend⟩
  · intro p hp q hq
    rcases List.mem_append.mp hp with hp | hp <;> rcases List.mem_append.mp hq with hq | hq
    · exact h.outputs p hp q hq
    · obtain rfl := List.mem_singleton.mp hq
      exact fun hi => ((h.job p hp).lt _ hi).false
    · obtain rfl := List.mem_singleton.mp hp
      exact fun hi => (h.job q hq).outNew (hmem _ hi)
    · obtain rfl := List.mem_singleton.mp hp
      obtain rfl := List.mem_singleton.mp hq
      exact fun hi => (h.lt _ (hmem _ hi)).false

theorem runMerge_cases (settings : IndexSettings V) (h : Inv w jobs) (external : Bool) :
    w.runMerge settings external = w ∨
      ∃ is, w.selectMergeSegments settings = some is ∧ w.runMerge settings external =
        { is.foldl elect w with
          mergeJobs := (is.foldl elect w).mergeJobs ++
            [MergeJob.start is (is.foldl elect w).nextFile external]
          nextFile := (is.foldl elect w).nextFile + 1 } := by
  have hload : w.lazyLoad (w.examined settings) = w := by
    refine h.lazyLoad fun i hi => ?_
    unfold examined at hi
    split at hi
    · dsimp only at hi
      split at hi
      · exact (List.mem_filter.mp hi).1
      · cases hi
    · exact (List.mem_filter.mp hi).1
  unfold runMerge
  rw [hload]
  split
  · exact .inl rfl
  · split
    · exact .inl rfl
    · next is hs => exact .inr ⟨is, hs, rfl⟩

/-- **`RunMerge`** keeps the invariant and the newest-wins map. -/
theorem Inv.runMerge (h : Inv w w.mergeJobs) (hgap : w.NoGap settings) (external : Bool) :
    Inv (w.runMerge settings external) (w.runMerge settings external).mergeJobs ∧
      Finalized w (w.runMerge settings external) := by
  rcases runMerge_cases settings h external with heq | ⟨is, hs, heq⟩
  · rw [heq]
    exact ⟨h, fun _ => rfl, rfl, rfl⟩
  · obtain ⟨hadj, hne, hunmarked⟩ := selectMergeSegments_adjacent hgap hs
    have hnd := h.nodup.sublist hadj.sublist
    have hkept := foldl_actOn_kept (fun _ s => s.electedForMerge) w hnd
    have hobj : ∀ i ∈ is, (is.foldl Writer.elect w).object i = (w.object i).electedForMerge.1 := by
      intro i hi
      rw [elect_eq, foldl_actOn_object _ w hnd, if_pos hi]
    rw [← elect_eq] at hkept
    obtain ⟨hcompiler, hseg, hjobs, hany, -, hnext, -⟩ := hkept
    have hinv : Inv (is.foldl Writer.elect w) w.mergeJobs := h.elect hadj hunmarked
    rw [heq]
    refine ⟨?_, newestWins_elect h hadj hunmarked, hcompiler, hany⟩
    have hstart := hinv.startJob (hseg ▸ hadj) hne (fun i hi => by rw [hobj i hi]; rfl)
      (fun i hi => ?_) (fun p hp hpend i hi his => ?_) external
    · rw [hjobs]
      exact hstart.keep _ _ _
    · rw [during, hobj i hi]
      exact (h.ok i (hadj.mem hi)).notInMerge (hunmarked i hi)
    · have hmarked := (h.pending p hp hpend).marked i hi
      rw [hunmarked i his] at hmarked
      cases hmarked

/-! ## ScheduledTask -/

/-- `FinalizeMerge`, if there are jobs. -/
def finalized (w : Writer V) : Option (Writer V) :=
  if w.mergeJobs.isEmpty then some w else w.finalizeMerge

/-- `RunMerge`, unless merging has been disabled. -/
def merging (settings : IndexSettings V) (external : Bool) (w : Writer V) : Writer V :=
  if w.mergeEnabled then w.runMerge settings external else w

/-- The end of the task. -/
def written (w : Writer V) : Writer V :=
  if w.compiler.isNone && !w.anyDelete then w else w.persistDeletes.compile

theorem scheduledTask_eq (external : Bool) : w.scheduledTask settings external =
    w.finalized.map fun w => (w.merging settings external).written := rfl

/-- What a run must avoid: that a failed merge is finalized again over a pending one, and that the
simple policy elects across a marked segment. -/
def Orderly (settings : IndexSettings V) (w : Writer V) : Event V → Prop
  | .scheduledTask _ => w.NoStaleJob ∧ ∀ w₁, w.finalized = some w₁ → w₁.mergeEnabled = true →
      w₁.mergeJobs.length ≠ settings.maxConcurrentMerges → w₁.NoGap settings
  | _ => True

theorem Inv.finalized (h : Inv w w.mergeJobs) (hcov : Covered w) (hstale : w.NoStaleJob)
    (hs : w.finalized = some w') : Inv w' w'.mergeJobs ∧ Covered w' ∧ Finalized w w' := by
  unfold Writer.finalized at hs
  split at hs
  · obtain rfl := Option.some.inj hs
    exact ⟨h, hcov, fun _ => rfl, rfl, rfl⟩
  · exact h.finalizeMerge hcov hstale hs

theorem Inv.merging (h : Inv w w.mergeJobs) (external : Bool)
    (hgap : w.mergeEnabled = true → w.mergeJobs.length ≠ settings.maxConcurrentMerges →
      w.NoGap settings) :
    Inv (w.merging settings external) (w.merging settings external).mergeJobs ∧
      Finalized w (w.merging settings external) := by
  have hsame : Inv w w.mergeJobs ∧ Finalized w w := ⟨h, fun _ => rfl, rfl, rfl⟩
  unfold Writer.merging
  split
  · next hen =>
    by_cases hfull : w.mergeJobs.length = settings.maxConcurrentMerges
    · rw [Writer.runMerge, if_pos hfull]
      exact hsame
    · exact h.runMerge (hgap hen hfull) external
  · exact hsame

/-- The value of a key: what has been added last, or what the segments hold. -/
def current (w : Writer V) (k : Key) : Option V := (w.lastEntry k).join.or (w.newestWins k)

theorem Finalized.current (h : Finalized w w') (k : Key) : w'.current k = w.current k := by
  rw [Writer.current, Writer.current, lastEntry, lastEntry, h.compiler, h.newestWins]

theorem lastEntry_compile (k : Key) : w.compile.lastEntry k = none := by
  rw [lastEntry, compile_kept.1]
  rfl

theorem current_compile (h : Inv w jobs) (k : Key) : w.compile.current k = w.current k := by
  rw [current, lastEntry_compile, newestWins_compile h]
  rfl

theorem current_persistDeletes (h : Inv w jobs) (k : Key) :
    w.persistDeletes.current k = w.current k := by
  rw [current, current, lastEntry, lastEntry, (persistDeletes_kept h.nodup).1,
    newestWins_persistDeletes h]

/-- `Flush`, and the end of the scheduled task. -/
theorem Inv.flush (h : Inv w w.mergeJobs) :
    Inv w.persistDeletes.compile w.persistDeletes.compile.mergeJobs ∧
      Covered w.persistDeletes.compile ∧ w.persistDeletes.compile.anyDelete = false ∧
      w.persistDeletes.compile.compiler = none ∧
      ∀ k, w.persistDeletes.compile.current k = w.current k := by
  obtain ⟨hcomp, hjobs, hany⟩ := compile_kept (w := w.persistDeletes)
  obtain ⟨-, -, hpj, hpa⟩ := persistDeletes_kept h.nodup
  refine ⟨?_, (covered_persistDeletes h).compile h.persistDeletes, hany.trans hpa, hcomp,
    fun k => ?_⟩
  · rw [hjobs, hpj]
    exact h.persistDeletes.compile
  · rw [current_compile h.persistDeletes, current_persistDeletes h]

theorem Inv.written (h : Inv w w.mergeJobs) : Inv w.written w.written.mergeJobs ∧
    Covered w.written ∧ w.written.anyDelete = false ∧ w.written.compiler = none ∧
      ∀ k, w.written.current k = w.current k := by
  unfold Writer.written
  split
  · next hnone =>
    simp only [Bool.and_eq_true, Option.isNone_iff_eq_none, Bool.not_eq_true'] at hnone
    exact ⟨h, h.covered (h.synced hnone.2), hnone.2, hnone.1, fun _ => rfl⟩
  · exact h.flush

/-- **`ScheduledTask`** keeps the invariant and every value, and leaves nothing unwritten. -/
theorem Inv.scheduledTask (h : Inv w w.mergeJobs) (hcov : Covered w) {external : Bool}
    (ho : Orderly settings w (.scheduledTask external))
    (hs : w.scheduledTask settings external = some w') :
    Inv w' w'.mergeJobs ∧ Covered w' ∧ w'.anyDelete = false ∧ w'.compiler = none ∧
      ∀ k, w'.current k = w.current k := by
  rw [scheduledTask_eq] at hs
  obtain ⟨w₁, hw₁, rfl⟩ := Option.map_eq_some_iff.mp hs
  obtain ⟨hinv₁, -, hfin₁⟩ := h.finalized hcov ho.1 hw₁
  obtain ⟨hinv₂, hfin₂⟩ := hinv₁.merging external (ho.2 w₁ hw₁)
  obtain ⟨hinv₃, hcov₃, hany, hcomp, hcur⟩ := hinv₂.written
  exact ⟨hinv₃, hcov₃, hany, hcomp, fun k =>
    (hcur k).trans ((hfin₂.current k).trans (hfin₁.current k))⟩

end Writer
end Keyvi.Index
