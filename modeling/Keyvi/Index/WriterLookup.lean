import Mathlib
import Keyvi.Index.WriterHistory

/-!
# What readers see

A reader asks the segments for the deleted keys they have loaded last. `Shown` says that for a key
this is what the writer knows; a flush makes it true of every key, and a merge keeps it true as long
as no key deleted during the merge has been written to `.dkm`: the merged segment starts without
loaded deletes.
-/

namespace Keyvi.Index
namespace Writer

open NewestWins

variable {V : Type} {w w' : Writer V} {jobs : List MergeJob} {settings : IndexSettings V} {k : Key}
  {atZero : Nat → Dictionary V}

/-- Readers see of a key what the writer knows, and its deletes during a merge are on disk. -/
def Shown (w : Writer V) (k : Key) : Prop := ∀ i ∈ w.segments,
  (k ∈ (w.object i).visible ↔ k ∈ w.deleted i) ∧
    (k ∈ w.during i → k ∈ (w.directory.files i).loadDkm)

/-- A merge that is finalized successfully has no deletes in `.dkm`. -/
def NothingPersisted (w : Writer V) : Prop := ∀ p ∈ w.mergeJobs, p.ended = some 0 →
  ∀ i ∈ p.segments, (w.directory.files i).loadDkm = ∅

/-- Readers get what the newest-wins map says. -/
theorem lookup_of_shown (h : Inv w jobs) (hzero : ∀ i, atZero i k = none) (hk : Shown w k) :
    w.lookup atZero k = w.newestWins k := by
  rw [lookup_eq w hzero fun i hi => (h.ok i hi).loaded]
  exact valueOf_congr fun i hi => ⟨rfl, (hk i hi).1⟩

/-! ## Steps -/

theorem Shown.delete (hk : Shown w k) (h : Inv w jobs) {k' : Key} (hne : k' ≠ k) :
    Shown (w.delete k') k := by
  intro i hi
  obtain ⟨hvis, hdur⟩ := hk i hi
  have hobj : (w.delete k').object i = (w.object i).deleteKey (w.directory.files i) k' := by
    simp only [Writer.delete]
    exact if_pos hi
  obtain ⟨-, -, hhas, hkeys⟩ := (h.ok i hi).deleteKey_kept (w.directory.files i) k'
  refine ⟨?_, fun hkd => hdur ?_⟩
  · rw [mem_delete_deleted h hi, hobj, Segment.visible, hhas, hkeys]
    simpa [Ne.symm hne, Segment.visible] using hvis
  · rw [during, hobj, (h.ok i hi).deleteKey_eq] at hkd
    rw [during]
    split at hkd
    · split at hkd
      · exact (Finset.mem_insert.mp hkd).resolve_left (Ne.symm hne)
      · exact hkd
    · exact hkd

/-- A method called on several segments. -/
theorem Shown.acted {act : Act V} {is : List Nat} (hk : Shown w k) (hnd : is.Nodup)
    (hact : ∀ i ∈ is, i ∈ w.segments →
      (k ∈ (act (w.directory.files i) (w.object i)).1.visible ↔
        k ∈ (act (w.directory.files i) (w.object i)).1.allDeleted) ∧
      (k ∈ (act (w.directory.files i) (w.object i)).1.deletedKeysDuringMergeForWrite →
        k ∈ (SegmentFileOp.applyAll (w.directory.files i)
          (act (w.directory.files i) (w.object i)).2).loadDkm)) :
    Shown (is.foldl (actOn act) w) k := by
  intro i hi
  rw [(foldl_actOn_kept act w hnd).2.1] at hi
  rw [deleted, during, foldl_actOn_object act w hnd, foldl_actOn_files act w hnd]
  split
  · next his => exact hact i his hi
  · exact hk i hi

/-- `PersistDeletes`, if there is anything to write. -/
theorem shown_persistDeletes (h : Inv w jobs) (hany : w.anyDelete = true) (k : Key) :
    Shown w.persistDeletes k := by
  rw [persistDeletes_eq, if_pos hany]
  intro i hi
  change i ∈ (w.segments.foldl (actOn persistReload) w).segments at hi
  rw [(foldl_actOn_kept persistReload w h.nodup).2.1] at hi
  have hok := h.ok i hi
  change (k ∈ ((w.segments.foldl (actOn persistReload) w).object i).visible ↔
      k ∈ (w.segments.foldl (actOn persistReload) w).deleted i) ∧
    (k ∈ (w.segments.foldl (actOn persistReload) w).during i →
      k ∈ ((w.segments.foldl (actOn persistReload) w).directory.files i).loadDkm)
  rw [deleted, during, foldl_actOn_object _ w h.nodup, foldl_actOn_files _ w h.nodup, if_pos hi,
    if_pos hi, hok.visible_persistReload]
  obtain ⟨has, keys, he⟩ := persistReload_kept (w.directory.files i) (w.object i)
  refine ⟨?_, fun hkd => hok.during_persist ?_⟩
  · rw [he]
    exact Iff.rfl
  · rw [he] at hkd
    exact hkd

theorem Shown.persistDeletes (hk : Shown w k) (h : Inv w jobs) : Shown w.persistDeletes k := by
  cases hany : w.anyDelete with
  | true => exact shown_persistDeletes h hany k
  | false =>
    rw [persistDeletes_eq, hany]
    exact hk

theorem Shown.compile (hk : Shown w k) (h : Inv w jobs) : Shown w.compile k := by
  cases hc : w.compiler with
  | none =>
    rw [compile_none hc]
    exact hk
  | some kvs =>
    rw [compile_some hc]
    intro i hi
    rcases List.mem_append.mp hi with hi | hi
    · simpa [deleted, during, h.ne_nextFile hi] using hk i hi
    · obtain rfl := List.mem_singleton.mp hi
      simp [deleted, during, Segment.visible, Segment.allDeleted]

theorem Shown.writeOutput (hk : Shown w k) {i : Nat} (hi : i ∉ w.segments) (d : Dictionary V) :
    Shown (w.emit (.segment i (.writeKv d))) k := by
  intro j hj
  have hne : j ≠ i := fun he => hi (he ▸ hj)
  simpa [emit, Directory.apply, deleted, during, hne] using hk j hj

theorem Shown.mergeFailed {p : MergeJob} (hk : Shown w k) (h : Inv w jobs) (hp : p ∈ jobs) :
    Shown (w.mergeFailed p) k := by
  rw [mergeFailed_eq]
  refine hk.acted (h.job p hp).nodup fun i _ hi => ?_
  obtain ⟨hok, -, hall, hm, hvis, -⟩ := (h.ok i hi).mergeFailed
  rw [hvis, hall, hok.notInMerge hm]
  exact ⟨(hk i hi).1, fun hkd => absurd hkd (Finset.notMem_empty k)⟩

theorem Shown.mergeSucceeded {p : MergeJob} {pre post : List Nat} (hk : Shown w k)
    (r : Ready w jobs p pre post) (hnone : ∀ i ∈ p.segments, (w.directory.files i).loadDkm = ∅) :
    Shown (w.mergeSucceeded p) k := by
  intro i hi
  rcases r.mem_merged_segments hi with rfl | hi
  · have hnot : k ∉ (w.mergeSucceeded p).deleted p.outputFilename := fun hkd => by
      obtain ⟨s, hs, hks⟩ := r.mem_deleted_out.mp hkd
      have hdkm := (hk s (r.mem_segments hs)).2 hks
      rw [hnone s hs] at hdkm
      exact Finset.notMem_empty k hdkm
    have hvis : ((w.mergeSucceeded p).object p.outputFilename).visible = ∅ := by
      rw [r.eq]
      simp only [Function.update_self, merged]
      exact visible_ofParents _ _
    refine ⟨?_, fun hkd => absurd ?_ hnot⟩
    · rw [hvis]
      simp [hnot]
    · exact Finset.mem_union_right _ hkd
  · obtain ⟨hseg, hblock, hout⟩ := r.sides hi
    rw [deleted, during, r.object_side hout, r.files_side hblock hout]
    exact hk i hseg

/-- The loop of `FinalizeMerge`, with what readers see of `k`. -/
structure ShownLoop (k : Key) (w₀ w : Writer V) (jobs : List MergeJob) : Prop where
  loop : Loop w₀ w jobs
  nothing : ∀ p ∈ jobs, p.ended = some 0 → ∀ i ∈ p.segments, (w.directory.files i).loadDkm = ∅
  shown : Shown w k

theorem ShownLoop.pending {w₀ : Writer V} (h : ShownLoop k w₀ w jobs) {q : MergeJob}
    (hq : q ∈ jobs) (he : q.ended = some 0) : q.pending = true ∧ PendingOk w q := by
  have hpend : q.pending = true := by
    cases hf : q.processFinished with
    | false => simp [MergeJob.pending, hf]
    | true =>
      have hend := (h.loop.inv.job q hq).finished hf
      rw [he, Option.some.injEq] at hend
      simp [MergeJob.pending, ← hend]
  exact ⟨hpend, h.loop.inv.pending q hq hpend⟩

theorem ShownLoop.finish {w₀ : Writer V} {a b : List MergeJob} {p : MergeJob} {code : Int}
    (h : ShownLoop k w₀ w (a ++ p :: b)) (hf : p.processFinished = false)
    (he : p.ended = some code) :
    ShownLoop k w₀ w (a ++ { p with exitCode := code, processFinished := true } :: b) := by
  refine ⟨h.loop.finish hf he, fun q hq => ?_, h.shown⟩
  simp only [List.mem_append, List.mem_cons] at hq
  rcases hq with hq | rfl | hq
  · exact h.nothing q (by simp [hq])
  · exact h.nothing p (by simp)
  · exact h.nothing q (by simp [hq])

theorem ShownLoop.mergeSucceeded {w₀ : Writer V} {a b : List MergeJob} {p : MergeJob}
    (h : ShownLoop k w₀ w (a ++ p :: b)) (hf : p.processFinished = true) (hcode : p.exitCode = 0) :
    ShownLoop k w₀ (w.mergeSucceeded p) (a ++ b) := by
  have hp : p ∈ a ++ p :: b := by simp
  obtain ⟨pre, post, r⟩ := h.loop.inv.ready hp hf hcode
  have hpend : p.pending = true := by simp [MergeJob.pending, hcode]
  refine ⟨h.loop.mergeSucceeded hf hcode, fun q hq he i hi => ?_,
    h.shown.mergeSucceeded r (h.nothing p hp r.ended)⟩
  have hq' : q ∈ a ++ p :: b := ((List.sublist_cons_self p b).append_left a).mem hq
  obtain ⟨-, hqok⟩ := h.pending hq' he
  rw [r.files_side (fun hip => h.loop.separate.disjoint hq (.inl hpend) hip hi)
    fun ho => (h.loop.inv.job p hp).outNew (ho ▸ hqok.adjacent.mem hi)]
  exact h.nothing q hq' he i hi

theorem ShownLoop.mergeFailed {w₀ : Writer V} {a b : List MergeJob} {p : MergeJob}
    (h : ShownLoop k w₀ w (a ++ p :: b)) (hf : p.processFinished = true) (hcode : p.exitCode ≠ 0) :
    ShownLoop k w₀ (w.mergeFailed p) (a ++ p :: b) := by
  have hp : p ∈ a ++ p :: b := by simp
  refine ⟨h.loop.mergeFailed hf hcode, fun q hq he i hi => ?_,
    h.shown.mergeFailed h.loop.inv hp⟩
  obtain ⟨hqp, -⟩ := h.pending hq he
  have hq' : q ∈ a ++ b := by
    simp only [List.mem_append, List.mem_cons] at hq ⊢
    rcases hq with hq | rfl | hq
    · exact .inl hq
    · rw [(h.loop.inv.job q hp).finished hf, Option.some.injEq] at he
      exact absurd he hcode
    · exact .inr hq
  have hnot : i ∉ p.segments := fun hip => h.loop.separate.disjoint hq' (.inr hqp) hip hi
  rw [mergeFailed_eq, foldl_actOn_files _ w (h.loop.inv.job p hp).nodup, if_neg hnot]
  exact h.nothing q hq he i hi

theorem Shown.finalized (hk : Shown w k) (h : Inv w w.mergeJobs) (hcov : Covered w)
    (hstale : w.NoStaleJob) (hnone : w.NothingPersisted) (hs : w.finalized = some w') :
    Shown w' k := by
  unfold Writer.finalized at hs
  split at hs
  · exact Option.some.inj hs ▸ hk
  · unfold Writer.finalizeMerge at hs
    obtain ⟨r, hr, rfl⟩ := Option.map_eq_some_iff.mp hs
    have hloop := finalizeJobs_induct (P := ShownLoop k w) (a := [])
      (fun w' jobs hl p hp => (hl.loop.inv.job p hp).notDone)
      (fun w' a p b code hl => hl.finish) (fun w' a p b hl => hl.mergeSucceeded)
      (fun w' a p b hl => hl.mergeFailed)
      ⟨⟨h, hcov, h.separate hstale, fun _ => rfl, rfl, rfl⟩, hnone, hk⟩ hr
    exact hloop.shown

theorem Shown.merging (hk : Shown w k) (h : Inv w w.mergeJobs) (external : Bool)
    (hgap : w.mergeEnabled = true → w.mergeJobs.length ≠ settings.maxConcurrentMerges →
      w.NoGap settings) : Shown (w.merging settings external) k := by
  unfold Writer.merging
  split
  · next hen =>
    by_cases hfull : w.mergeJobs.length = settings.maxConcurrentMerges
    · rw [Writer.runMerge, if_pos hfull]
      exact hk
    · rcases runMerge_cases settings h external with heq | ⟨is, hs, heq⟩
      · rw [heq]
        exact hk
      · obtain ⟨hadj, -, hunmarked⟩ := selectMergeSegments_adjacent (hgap hen hfull) hs
        rw [heq, elect_eq]
        refine hk.acted (h.nodup.sublist hadj.sublist) fun i hi hseg => ⟨(hk i hseg).1, fun hkd => ?_⟩
        change k ∈ (w.object i).deletedKeysDuringMergeForWrite at hkd
        rw [(h.ok i hseg).notInMerge (hunmarked i hi)] at hkd
        exact absurd hkd (Finset.notMem_empty k)
  · exact hk

theorem Shown.written (hk : Shown w k) (h : Inv w jobs) : Shown w.written k := by
  unfold Writer.written
  split
  · exact hk
  · exact (hk.persistDeletes h).compile h.persistDeletes

/-- What a run must avoid for readers: also that a merge is finalized after deletes made during it
have been written. -/
def Readable (settings : IndexSettings V) (w : Writer V) (e : Event V) : Prop :=
  Orderly settings w e ∧ ∀ external, e = .scheduledTask external → w.NothingPersisted

/-- **Every step** that does not concern a key keeps it shown. -/
theorem Shown.step {events : List (Event V)} (hk : Shown w k) (h : Faithful events w) {e : Event V}
    (ho : Readable settings w e) (he : e.operation k ≠ some none)
    (hs : step settings w e = some w') : Shown w' k := by
  cases e with
  | add k' v =>
    obtain rfl := Option.some.inj hs
    exact hk
  | bulkAdd kvs =>
    obtain rfl := Option.some.inj hs
    rw [bulkAdd_eq]
    exact hk
  | delete k' =>
    obtain rfl := Option.some.inj hs
    refine hk.delete h.inv fun hkk => he ?_
    simp [Event.operation, hkk]
  | flush =>
    obtain rfl := Option.some.inj hs
    exact (hk.persistDeletes h.inv).compile h.inv.persistDeletes
  | compile =>
    obtain rfl := Option.some.inj hs
    exact hk.compile h.inv
  | scheduledTask external =>
    simp only [Writer.step, scheduledTask_eq] at hs
    obtain ⟨w₁, hw₁, rfl⟩ := Option.map_eq_some_iff.mp hs
    obtain ⟨hstale, hgap⟩ := ho.1
    have hk₁ := hk.finalized h.inv h.covered hstale (ho.2 external rfl) hw₁
    obtain ⟨hinv₁, -, -⟩ := h.inv.finalized h.covered hstale hw₁
    exact (hk₁.merging hinv₁ external (hgap w₁ hw₁)).written
      (hinv₁.merging external (hgap w₁ hw₁)).1
  | read k' =>
    obtain rfl := Option.some.inj hs
    rw [h.inv.read]
    exact hk
  | mergeReads j =>
    obtain ⟨-, jobs, rfl⟩ := h.inv.mergeReads hs
    exact hk
  | mergeEnds j code =>
    obtain ⟨p, a, b, hjobs, -, ⟨-, -, rfl⟩ | ⟨-, rfl⟩⟩ := mergeEnds_eq hs
    · exact hk.writeOutput (h.inv.job p (by simp [hjobs])).outNew _
    · exact hk
  | disableMerge =>
    obtain rfl := Option.some.inj hs
    exact hk
  | finishPending =>
    obtain ⟨-, jobs, rfl⟩ := h.inv.finishPending hs
    exact hk.compile h.inv

/-- Writing the lists shows everything. -/
theorem shown_flush (h : Inv w jobs) (hall : w.anyDelete = false → Shown w k) :
    Shown w.persistDeletes.compile k := by
  cases hany : w.anyDelete with
  | true => exact (shown_persistDeletes h hany k).compile h.persistDeletes
  | false => exact ((hall hany).persistDeletes h).compile h.persistDeletes

/-- While no delete is waiting, everything is shown. -/
theorem shown_step_of_all {events : List (Event V)} (h : Faithful events w)
    (hall : w.anyDelete = false → ∀ k, Shown w k) {e : Event V} (ho : Readable settings w e)
    (hs : step settings w e = some w') (hany : w'.anyDelete = false) (k : Key) : Shown w' k := by
  cases hw : w.anyDelete with
  | false =>
    refine (hall hw k).step h ho (fun he => ?_) hs
    cases e with
    | delete k' =>
      obtain rfl := Option.some.inj hs
      cases hany
    | add k' v =>
      simp only [Event.operation] at he
      split at he <;> cases he
    | bulkAdd kvs => exact operation_bulkAdd_ne kvs k he
    | _ => cases he
  | true =>
    have hkeep : w'.anyDelete ≠ true := by simp [hany]
    cases e with
    | flush =>
      obtain rfl := Option.some.inj hs
      exact shown_flush h.inv fun hf => by rw [hw] at hf; cases hf
    | scheduledTask external =>
      simp only [Writer.step, scheduledTask_eq] at hs
      obtain ⟨w₁, hw₁, rfl⟩ := Option.map_eq_some_iff.mp hs
      obtain ⟨hstale, hgap⟩ := ho.1
      obtain ⟨hinv₁, -, hfin₁⟩ := h.inv.finalized h.covered hstale hw₁
      obtain ⟨hinv₂, hfin₂⟩ := hinv₁.merging external (hgap w₁ hw₁)
      have hany₂ : (w₁.merging settings external).anyDelete = true := by
        rw [hfin₂.anyDelete, hfin₁.anyDelete, hw]
      unfold Writer.written
      rw [if_neg (by simp [hany₂])]
      exact shown_flush hinv₂ fun hf => by rw [hany₂] at hf; cases hf
    | delete k' =>
      obtain rfl := Option.some.inj hs
      cases hany
    | add k' v =>
      obtain rfl := Option.some.inj hs
      exact absurd hw hkeep
    | bulkAdd kvs =>
      obtain rfl := Option.some.inj hs
      rw [bulkAdd_eq] at hkeep
      exact absurd hw hkeep
    | compile =>
      obtain rfl := Option.some.inj hs
      exact absurd (compile_kept.2.2.trans hw) hkeep
    | read k' =>
      obtain rfl := Option.some.inj hs
      rw [h.inv.read] at hkeep
      exact absurd hw hkeep
    | mergeReads j =>
      obtain ⟨-, jobs, rfl⟩ := h.inv.mergeReads hs
      exact absurd hw hkeep
    | mergeEnds j code =>
      obtain ⟨p, a, b, -, -, ⟨-, -, rfl⟩ | ⟨-, rfl⟩⟩ := mergeEnds_eq hs
      · exact absurd hw hkeep
      · exact absurd hw hkeep
    | disableMerge =>
      obtain rfl := Option.some.inj hs
      exact absurd hw hkeep
    | finishPending =>
      obtain ⟨-, jobs, rfl⟩ := h.inv.finishPending hs
      exact absurd (compile_kept.2.2.trans hw) hkeep

/-! ## Runs -/

/-- What readers are told about a key. -/
def Answers (atZero : Nat → Dictionary V) (w : Writer V) (k : Key) (value : Option V) : Prop :=
  w.lookup atZero k = value ∧ w.contains k = value.isSome

/-- The condition along a run on a new directory. -/
def ReadableRun (settings : IndexSettings V) (events : List (Event V)) : Prop :=
  Run.Along (step settings) (Readable settings) (loadIndex Directory.empty 0) events

theorem answers_of_shown (h : Inv w jobs) (hzero : ∀ i, atZero i k = none) (hk : Shown w k)
    (hlast : w.lastEntry k = none) : Answers atZero w k (w.current k) := by
  have hlookup : w.lookup atZero k = w.current k := by
    rw [lookup_of_shown h hzero hk, current, hlast]
    rfl
  exact ⟨hlookup, by rw [contains_eq w hzero, hlookup]⟩

theorem lastEntry_step {events : List (Event V)} (h : Faithful events w) {e : Event V}
    (ho : Orderly settings w e) (he : e.operation k = none) (hlast : w.lastEntry k = none)
    (hs : step settings w e = some w') : w'.lastEntry k = none := by
  cases e with
  | add k' v =>
    obtain rfl := Option.some.inj hs
    rw [lastEntry_add, he, hlast]
    rfl
  | bulkAdd kvs =>
    obtain rfl := Option.some.inj hs
    rw [lastEntry_bulkAdd, he, hlast]
    rfl
  | delete k' =>
    obtain rfl := Option.some.inj hs
    rw [lastEntry_delete, if_neg, hlast]
    rintro ⟨rfl, -⟩
    simp [Event.operation] at he
  | flush =>
    obtain rfl := Option.some.inj hs
    exact lastEntry_compile k
  | compile =>
    obtain rfl := Option.some.inj hs
    exact lastEntry_compile k
  | scheduledTask external =>
    exact lastEntry_of_none (h.inv.scheduledTask h.covered ho hs).2.2.2.1 k
  | read k' =>
    obtain rfl := Option.some.inj hs
    rw [h.inv.read]
    exact hlast
  | mergeReads j =>
    obtain ⟨-, jobs, rfl⟩ := h.inv.mergeReads hs
    exact hlast
  | mergeEnds j code =>
    obtain ⟨p, a, b, -, -, ⟨-, -, rfl⟩ | ⟨-, rfl⟩⟩ := mergeEnds_eq hs
    · exact hlast
    · exact hlast
  | disableMerge =>
    obtain rfl := Option.some.inj hs
    exact hlast
  | finishPending =>
    obtain ⟨-, jobs, rfl⟩ := h.inv.finishPending hs
    exact lastEntry_compile k

/-- A writer that is faithful and shows everything while no delete is waiting. -/
structure Open (events : List (Event V)) (w : Writer V) : Prop where
  faithful : Faithful events w
  shown : w.anyDelete = false → ∀ k, Shown w k

theorem open_of_run {events : List (Event V)} (h : ReadableRun settings events)
    (hrun : runNew settings events = some w) : Open events w :=
  Run.invariant_history Open
    (fun _ _ _ _ hf ho hs => ⟨hf.faithful.step ho.1 hs, shown_step_of_all hf.faithful hf.shown ho hs⟩)
    ⟨faithful_new, fun _ _ _ hi => by cases hi⟩ h hrun

/-- **Readers after a flush.** Whatever is written, deleted and merged after a flush, a key that is
not concerned is answered by the last operation before the flush, also while a scheduled task has
finalized its merges and not yet written the deletes; no dictionary has a match at the state 0. -/
theorem answers_after_flush (settings : IndexSettings V) {before after : List (Event V)}
    {w : Writer V} (hrun : runNew settings (before ++ .flush :: after) = some w)
    (hread : ReadableRun settings (before ++ .flush :: after)) (k : Key)
    (hk : ∀ e ∈ after, e.operation k = none) (hzero : ∀ i, atZero i k = none) :
    Answers atZero w k (expected before k) ∧
      ∀ external, Readable settings w (.scheduledTask external) →
        ∀ w₁, w.finalized = some w₁ → Answers atZero w₁ k (expected before k) := by
  obtain ⟨w₀, hw₀, hrest⟩ := Run.run_append.mp hrun
  obtain ⟨hbefore, hafter⟩ := hread.append hw₀
  obtain ⟨w₂, hflush, hrest⟩ := Run.run_cons.mp hrest
  have hopen := open_of_run hbefore hw₀
  have hfaith := hopen.faithful.step hafter.1.1 hflush
  -- after the flush the key is shown and the compiler is empty
  have hstart : Faithful (before ++ [.flush]) w₂ ∧ Shown w₂ k ∧ w₂.lastEntry k = none := by
    obtain rfl := Option.some.inj hflush
    exact ⟨hfaith, shown_flush hopen.faithful.inv fun hf => hopen.shown hf k, lastEntry_compile k⟩
  have hend := Run.invariant_history
    (fun events w => Faithful events w ∧ Shown w k ∧ w.lastEntry k = none)
    (fun _ _ e _ hi ho hs => ⟨hi.1.step ho.1.1 hs,
      hi.2.1.step hi.1 ho.1 (by rw [ho.2]; simp) hs, lastEntry_step hi.1 ho.1.1 ho.2 hi.2.2 hs⟩)
    hstart ((hafter.2 w₂ hflush).and_mem hk) hrest
  obtain ⟨hf, hshown, hlast⟩ := hend
  have hvalue : w.current k = expected before k := by
    rw [hf.value, List.append_assoc, expected_append]
    intro e he
    rcases List.mem_append.mp he with he | he
    · rw [List.mem_singleton.mp he]
      rfl
    · exact hk e he
  refine ⟨hvalue ▸ answers_of_shown hf.inv hzero hshown hlast, fun external ho w₁ hw₁ => ?_⟩
  obtain ⟨hinv₁, -, hfin⟩ := hf.inv.finalized hf.covered ho.1.1 hw₁
  have hshown₁ := hshown.finalized hf.inv hf.covered ho.1.1 (ho.2 external rfl) hw₁
  have hlast₁ : w₁.lastEntry k = none := by
    rw [lastEntry, hfin.compiler]
    exact hlast
  rw [← hvalue, ← hfin.current]
  exact answers_of_shown hinv₁ hzero hshown₁ hlast₁

instance (w : Writer V) : Decidable w.NothingPersisted :=
  inferInstanceAs (Decidable (∀ p ∈ w.mergeJobs, p.ended = some 0 →
    ∀ i ∈ p.segments, (w.directory.files i).loadDkm = ∅))

/-- The tiered policy has no gaps to avoid. -/
theorem readableRun_of_tiered {better : List (Segment V) → List (Segment V) → Bool}
    (hp : settings.mergePolicy = .tiered better) {events : List (Event V)}
    (h : Run.Along (step settings) (fun w _ => w.NoStaleJob ∧ w.NothingPersisted)
      (loadIndex Directory.empty 0) events) : ReadableRun settings events := by
  refine h.imp fun w e hok => ⟨?_, fun _ _ => hok.2⟩
  cases e with
  | scheduledTask external =>
    refine ⟨hok.1, fun w₁ _ _ _ => ?_⟩
    rw [NoGap, hp]
    trivial
  | _ => trivial

/-- A value that is overwritten and a key that is deleted, before and after a merge. -/
theorem answers_after_flush_twoKeys :
    let settings : IndexSettings Nat := ⟨2, .tiered fun _ _ => false⟩
    let before : List (Event Nat) := [.add [1] 10, .add [2] 20, .flush, .add [1] 11, .delete [2]]
    let after : List (Event Nat) := [.scheduledTask true, .mergeReads 0, .mergeReads 0,
      .mergeEnds 0 0, .add [3] 30, .scheduledTask true]
    ∃ w, runNew settings (before ++ .flush :: after) = some w ∧ w.segments = [2, 3] ∧
      Answers (fun _ _ => none) w [1] (some 11) ∧ Answers (fun _ _ => none) w [2] none := by
  intro settings before after
  have hsome : (runNew settings (before ++ .flush :: after)).map (fun w => w.segments) =
      some [2, 3] := by decide +kernel
  obtain ⟨w, hw, hseg⟩ := Option.map_eq_some_iff.mp hsome
  have hok : Run.Along (step settings) (fun w _ => w.NoStaleJob ∧ w.NothingPersisted)
      (loadIndex Directory.empty 0) (before ++ .flush :: after) := by decide +kernel
  have hread := readableRun_of_tiered rfl hok
  exact ⟨w, hw, hseg, (answers_after_flush settings hw hread [1] (by decide) fun _ => rfl).1,
    (answers_after_flush settings hw hread [2] (by decide) fun _ => rfl).1⟩

/-- A key is deleted while its segment is merged, and the delete is flushed before the merge ends:
the merged segment shows the key again. -/
theorem deleted_key_returns : ¬ ∀ (settings : IndexSettings Nat) (before after : List (Event Nat))
    (w : Writer Nat) (k : Key), runNew settings (before ++ .flush :: after) = some w →
      (∀ e ∈ after, e.operation k = none) →
        Answers (fun _ _ => none) w k (expected before k) := by
  intro h
  have hrun : (runNew ⟨2, .tiered fun _ _ => false⟩ ([.add [1] 10, .flush, .add [2] 20, .flush,
      .scheduledTask true, .mergeReads 0, .mergeReads 0, .delete [1]] ++
        .flush :: [.mergeEnds 0 0, .scheduledTask true])).map (fun w => w.lookup (fun _ _ => none) [1]) =
      some (some 10) := by decide +kernel
  obtain ⟨w, hw, hlookup⟩ := Option.map_eq_some_iff.mp hrun
  have hanswers := h _ _ _ w [1] hw (by decide)
  have hnone : expected [.add [1] 10, .flush, .add [2] 20, .flush, .scheduledTask true,
      .mergeReads 0, .mergeReads 0, .delete [1]] [1] = (none : Option Nat) := by decide
  rw [Answers, hlookup, hnone] at hanswers
  cases hanswers.1

end Writer
end Keyvi.Index
