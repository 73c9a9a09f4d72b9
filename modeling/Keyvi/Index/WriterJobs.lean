import Mathlib
import Keyvi.Index.WriterSchedule

/-!
# Merge jobs and the marks of segments

A segment is marked while a job in the list has it. A job that has failed never leaves the list: the
writer finalizes it again with every scheduled task, and it keeps its slot. Until a job fails, the
list of jobs and the marks agree, whatever index the writer has been opened on.
-/

namespace Keyvi.Index

variable {V : Type}

/-! ## Marks -/

theorem inMerge_lazyLoadDeletedKeys (f : SegmentFiles V) (s : Segment V) :
    (s.lazyLoadDeletedKeys f).inMerge = s.inMerge := by
  unfold Segment.lazyLoadDeletedKeys Segment.loadDeletedKeys
  cases s.deletesLoaded <;> cases f.dk.isSome || f.dkm.isSome <;> cases hh : s.hasDeletedKeys_ <;>
    cases hm : s.inMerge <;> simp [hh, hm]

theorem inMerge_deleteKey (f : SegmentFiles V) (s : Segment V) (k : Key) :
    (s.deleteKey f k).inMerge = s.inMerge := by
  unfold Segment.deleteKey
  split
  · rfl
  · rw [← inMerge_lazyLoadDeletedKeys f s]
    dsimp only
    split <;> rfl

theorem inMerge_ofParents (d : Dictionary V) (parents : List (Segment V)) :
    (Segment.ofParents d parents).1.inMerge = false := by
  unfold Segment.ofParents
  dsimp only
  split <;> rfl

namespace Writer

variable {w w' : Writer V} {jobs a b : List MergeJob} {p : MergeJob} {settings : IndexSettings V}

theorem mem_rewriteSegments {job : List Nat} {merged i : Nat} : ∀ {l : List Nat} {done : Bool},
    i ∈ rewriteSegments job merged done l → i = merged ∨ i ∈ l ∧ i ∉ job
  | [], _, h => by cases h
  | s :: l, done, h => by
    rw [rewriteSegments] at h
    by_cases hs : s ∈ job
    · rw [if_pos hs] at h
      have hrest : i = merged ∨ i ∈ rewriteSegments job merged true l := by
        cases done with
        | true => exact .inr h
        | false => exact List.mem_cons.mp h
      rcases hrest with h | h
      · exact .inl h
      · exact (mem_rewriteSegments h).imp_right fun h => ⟨List.mem_cons_of_mem _ h.1, h.2⟩
    · rw [if_neg hs] at h
      rcases List.mem_cons.mp h with rfl | h
      · exact .inr ⟨List.mem_cons_self, hs⟩
      · exact (mem_rewriteSegments h).imp_right fun h => ⟨List.mem_cons_of_mem _ h.1, h.2⟩

theorem mem_rewriteSegments_of_notMem {job : List Nat} {merged i : Nat} :
    ∀ {l : List Nat} {done : Bool}, i ∈ l → i ∉ job → i ∈ rewriteSegments job merged done l
  | s :: l, done, h, hj => by
    rw [rewriteSegments]
    rcases List.mem_cons.mp h with rfl | h
    · rw [if_neg hj]
      exact List.mem_cons_self
    · have hrest : ∀ done, i ∈ rewriteSegments job merged done l := fun done =>
        mem_rewriteSegments_of_notMem h hj
      split
      · split
        · exact hrest true
        · exact List.mem_cons_of_mem _ (hrest true)
      · exact List.mem_cons_of_mem _ (hrest done)

theorem nodup_rewriteSegments {job : List Nat} {merged : Nat} :
    ∀ {l : List Nat} {done : Bool}, l.Nodup → merged ∉ l →
      (rewriteSegments job merged done l).Nodup ∧
        (done = true → merged ∉ rewriteSegments job merged done l)
  | [], _, _, _ => by simp [rewriteSegments]
  | s :: l, done, hnd, hm => by
    obtain ⟨hs, hl⟩ := List.nodup_cons.mp hnd
    obtain ⟨hne, hm⟩ := not_or.mp (List.mem_cons.not.mp hm)
    have ih : ∀ done, (rewriteSegments job merged done l).Nodup ∧
        (done = true → merged ∉ rewriteSegments job merged done l) :=
      fun done => nodup_rewriteSegments hl hm
    rw [rewriteSegments]
    by_cases hj : s ∈ job
    · rw [if_pos hj]
      cases done with
      | true => exact ih true
      | false => exact ⟨List.nodup_cons.mpr ⟨(ih true).2 rfl, (ih true).1⟩, fun hf => by cases hf⟩
    · rw [if_neg hj]
      refine ⟨List.nodup_cons.mpr ⟨fun h => ?_, (ih done).1⟩, fun hd h => ?_⟩
      · rcases mem_rewriteSegments h with h | h
        · exact hne h.symm
        · exact hs h.1
      · rcases List.mem_cons.mp h with h | h
        · exact hne h
        · exact (ih done).2 hd h

/-- The jobs in the list own their segments, and the marks say so. -/
structure Owned (w : Writer V) (jobs : List MergeJob) : Prop where
  nodup : w.segments.Nodup
  lt : ∀ i ∈ w.segments, i < w.nextFile
  mem : ∀ p ∈ jobs, ∀ i ∈ p.segments, i ∈ w.segments
  nonempty : ∀ p ∈ jobs, p.segments ≠ []
  distinct : ∀ p ∈ jobs, p.segments.Nodup
  output : ∀ p ∈ jobs, p.outputFilename < w.nextFile ∧ p.outputFilename ∉ w.segments
  notDone : ∀ p ∈ jobs, p.mergeDone = false
  finished : ∀ p ∈ jobs, p.processFinished = true → p.ended = some p.exitCode
  apart : jobs.Pairwise fun p q => p.outputFilename ≠ q.outputFilename ∧
    List.Disjoint p.segments q.segments
  marks : ∀ i ∈ w.segments, (w.object i).inMerge = true ↔ ∃ p ∈ jobs, i ∈ p.segments

/-- A segment is marked if and only if exactly one job in the list has it. -/
def Marked (w : Writer V) : Prop := ∀ i ∈ w.segments,
  (w.object i).inMerge = true ↔ ∃! p, p ∈ w.mergeJobs ∧ i ∈ p.segments

theorem Owned.eq_of_mem (h : Owned w jobs) {q : MergeJob} (hp : p ∈ jobs) (hq : q ∈ jobs) {i : Nat}
    (hip : i ∈ p.segments) (hiq : i ∈ q.segments) : p = q := by
  by_contra hne
  obtain ⟨x, hx, rfl⟩ := List.getElem_of_mem hp
  obtain ⟨y, hy, rfl⟩ := List.getElem_of_mem hq
  have hpair := List.pairwise_iff_getElem.mp h.apart
  rcases Nat.lt_trichotomy x y with hlt | rfl | hlt
  · exact (hpair x y hx hy hlt).2 hip hiq
  · exact hne rfl
  · exact (hpair y x hy hx hlt).2 hiq hip

theorem Owned.marked (h : Owned w w.mergeJobs) : w.Marked := by
  intro i hi
  rw [h.marks i hi]
  constructor
  · rintro ⟨p, hp, hip⟩
    exact ⟨p, ⟨hp, hip⟩, fun q hq => h.eq_of_mem hq.1 hp hq.2 hip⟩
  · rintro ⟨p, hp, -⟩
    exact ⟨p, hp⟩

/-! ## Steps that do not finalize -/

/-- Nothing but the objects has changed, and they keep their marks. -/
theorem Owned.objects (h : Owned w jobs) (hseg : w'.segments = w.segments)
    (hnext : w.nextFile ≤ w'.nextFile)
    (hmark : ∀ i ∈ w.segments, (w'.object i).inMerge = (w.object i).inMerge) : Owned w' jobs where
  nodup := hseg ▸ h.nodup
  lt i hi := (h.lt i (hseg ▸ hi)).trans_le hnext
  mem p hp i hi := hseg ▸ h.mem p hp i hi
  nonempty := h.nonempty
  distinct := h.distinct
  output p hp := ⟨(h.output p hp).1.trans_le hnext, hseg ▸ (h.output p hp).2⟩
  notDone := h.notDone
  finished := h.finished
  apart := h.apart
  marks i hi := by
    rw [hmark i (hseg ▸ hi)]
    exact h.marks i (hseg ▸ hi)

theorem Owned.compile (h : Owned w jobs) : Owned w.compile jobs := by
  cases hc : w.compiler with
  | none =>
    rw [compile_none hc]
    exact h
  | some kvs =>
    rw [compile_some hc]
    have hnew : w.nextFile ∉ w.segments := fun hi => (h.lt _ hi).false
    refine ⟨?_, ?_, fun p hp i hi => List.mem_append_left _ (h.mem p hp i hi), h.nonempty,
      h.distinct, fun p hp => ?_, h.notDone, h.finished, h.apart, ?_⟩
    · exact h.nodup.append (List.nodup_singleton _) (by simpa using hnew)
    · simp only [List.mem_append, List.mem_singleton]
      rintro i (hi | rfl)
      · exact (h.lt i hi).trans (Nat.lt_succ_self _)
      · exact Nat.lt_succ_self _
    · have ho := h.output p hp
      refine ⟨ho.1.trans (Nat.lt_succ_self _), ?_⟩
      simpa [ho.2] using ho.1.ne
    · simp only [List.mem_append, List.mem_singleton]
      rintro i (hi | rfl)
      · simpa [(h.lt i hi).ne] using h.marks i hi
      · simp only [Function.update_self, Bool.false_eq_true, false_iff, not_exists, not_and]
        exact fun p hp hi => hnew (h.mem p hp _ hi)

/-- A job has moved on. -/
theorem Owned.follow {p' : MergeJob} (h : Owned w (a ++ p :: b)) (hs : p'.segments = p.segments)
    (ho : p'.outputFilename = p.outputFilename) (hd : p'.mergeDone = p.mergeDone)
    (hf : p'.processFinished = true → p'.ended = some p'.exitCode) :
    Owned w (a ++ p' :: b) := by
  have hp : p ∈ a ++ p :: b := by simp
  have key : ∀ q ∈ a ++ p' :: b, ∃ q₀ ∈ a ++ p :: b, q.segments = q₀.segments ∧
      q.outputFilename = q₀.outputFilename ∧ q.mergeDone = q₀.mergeDone ∧ (q = p' ∨ q = q₀) := by
    intro q hq
    simp only [List.mem_append, List.mem_cons] at hq
    rcases hq with hq | rfl | hq
    · exact ⟨q, by simp [hq], rfl, rfl, rfl, .inr rfl⟩
    · exact ⟨p, hp, hs, ho, hd, .inl rfl⟩
    · exact ⟨q, by simp [hq], rfl, rfl, rfl, .inr rfl⟩
  refine ⟨h.nodup, h.lt, fun q hq => ?_, fun q hq => ?_, fun q hq => ?_, fun q hq => ?_,
    fun q hq => ?_, fun q hq => ?_, ?_, fun i hi => (h.marks i hi).trans ?_⟩
  · obtain ⟨q₀, hq₀, hs₀, -⟩ := key q hq
    exact hs₀ ▸ h.mem q₀ hq₀
  · obtain ⟨q₀, hq₀, hs₀, -⟩ := key q hq
    exact hs₀ ▸ h.nonempty q₀ hq₀
  · obtain ⟨q₀, hq₀, hs₀, -⟩ := key q hq
    exact hs₀ ▸ h.distinct q₀ hq₀
  · obtain ⟨q₀, hq₀, -, ho₀, -⟩ := key q hq
    exact ho₀ ▸ h.output q₀ hq₀
  · obtain ⟨q₀, hq₀, -, -, hd₀, -⟩ := key q hq
    exact hd₀ ▸ h.notDone q₀ hq₀
  · obtain ⟨q₀, hq₀, -, -, -, rfl | rfl⟩ := key q hq
    · exact hf
    · exact h.finished q hq₀
  · have ha := h.apart
    rw [List.pairwise_append, List.pairwise_cons] at ha ⊢
    obtain ⟨h₁, ⟨h₂, h₃⟩, h₄⟩ := ha
    refine ⟨h₁, ⟨fun q hq => ?_, h₃⟩, fun x hx y hy => ?_⟩
    · rw [hs, ho]
      exact h₂ q hq
    · rcases List.mem_cons.mp hy with rfl | hy
      · rw [hs, ho]
        exact h₄ x hx p List.mem_cons_self
      · exact h₄ x hx y (List.mem_cons_of_mem _ hy)
  · simp only [List.mem_append, List.mem_cons, or_and_right, exists_or, exists_eq_left, hs]

theorem Owned.keep (h : Owned w jobs) (c : Option (List (Key × Option V))) (js : List MergeJob)
    (en : Bool) : Owned { w with compiler := c, mergeJobs := js, mergeEnabled := en } jobs :=
  h.objects rfl le_rfl fun _ _ => rfl

theorem Owned.persistDeletes (h : Owned w jobs) : Owned w.persistDeletes jobs := by
  have hkept := foldl_actOn_kept persistReload w h.nodup
  rw [persistDeletes_eq]
  split
  · refine h.objects hkept.2.1 hkept.2.2.2.2.2.1.ge fun i hi => ?_
    change ((w.segments.foldl (actOn persistReload) w).object i).inMerge = _
    rw [foldl_actOn_object _ w h.nodup, if_pos hi]
    obtain ⟨has, keys, he⟩ := persistReload_kept (w.directory.files i) (w.object i)
    rw [he]
  · exact h.objects rfl le_rfl fun _ _ => rfl

theorem Owned.lazyLoad (h : Owned w jobs) (is : List Nat) : Owned (w.lazyLoad is) jobs := by
  refine h.objects rfl le_rfl fun i _ => ?_
  simp only [Writer.lazyLoad]
  split
  · exact inMerge_lazyLoadDeletedKeys _ _
  · rfl

/-- A merge reads, or ends. -/
theorem Owned.mergeStep (h : Owned w w.mergeJobs) {j : Nat} {p p' : MergeJob}
    (hp : w.mergeJobs[j]? = some p) (hs : p'.segments = p.segments)
    (ho : p'.outputFilename = p.outputFilename) (hd : p'.mergeDone = p.mergeDone)
    (hf : p'.processFinished = true → p'.ended = some p'.exitCode) :
    Owned w (w.mergeJobs.set j p') := by
  obtain ⟨hj, rfl⟩ := List.getElem?_eq_some_iff.mp hp
  have hsplit : w.mergeJobs = w.mergeJobs.take j ++ w.mergeJobs[j] :: w.mergeJobs.drop (j + 1) := by
    simp
  rw [List.set_eq_take_append_cons_drop, if_pos hj]
  rw [hsplit] at h
  exact h.follow hs ho hd hf

theorem Owned.mergeReads {j : Nat} (h : Owned w w.mergeJobs) (hs : w.mergeReads j = some w') :
    Owned w' w'.mergeJobs := by
  unfold Writer.mergeReads at hs
  split at hs
  · cases hs
  · next p hp =>
    split at hs
    · next i he hi =>
      obtain rfl := Option.some.inj hs
      have hnew : Owned w (w.mergeJobs.set j
          { p with read := p.read ++ [(w.directory.files i).loadDk] }) :=
        h.mergeStep hp rfl rfl rfl (h.finished p (List.mem_of_getElem? hp))
      exact hnew.keep _ _ _
    · cases hs

theorem Owned.mergeEnds {j : Nat} {code : Int} (h : Owned w w.mergeJobs)
    (hs : w.mergeEnds j code = some w') : Owned w' w'.mergeJobs := by
  unfold Writer.mergeEnds at hs
  split at hs
  · cases hs
  · next p hp =>
    split at hs
    · cases hs
    · next he =>
      have hnew : Owned w (w.mergeJobs.set j { p with ended := some code }) := by
        refine h.mergeStep hp rfl rfl rfl fun hf => ?_
        rw [h.finished p (List.mem_of_getElem? hp) hf] at he
        exact absurd rfl he
      dsimp only at hs
      split at hs
      · split at hs
        · obtain rfl := Option.some.inj hs
          exact hnew.objects rfl le_rfl fun _ _ => rfl
        · cases hs
      · obtain rfl := Option.some.inj hs
        exact hnew.keep _ _ _

theorem Owned.finishPending (h : Owned w w.mergeJobs) (hs : w.finishPending = some w') :
    Owned w' w'.mergeJobs := by
  have hall : ∀ (ps a ps' : List MergeJob), ps.mapM MergeJob.finalize = some ps' →
      Owned w.compile (a ++ ps) → Owned w.compile (a ++ ps') := by
    intro ps
    induction ps with
    | nil =>
      intro a ps' hm hown
      obtain rfl : [] = ps' := by simpa using hm
      exact hown
    | cons p ps ih =>
      intro a ps' hm hown
      rw [List.mapM_cons] at hm
      obtain ⟨p', hp', hm⟩ := Option.bind_eq_some_iff.mp hm
      obtain ⟨qs, hqs, hm⟩ := Option.bind_eq_some_iff.mp hm
      obtain rfl : p' :: qs = ps' := by simpa using hm
      have hfinal : Owned w.compile (a ++ p' :: ps) := by
        unfold MergeJob.finalize at hp'
        split at hp'
        · exact Option.some.inj hp' ▸ hown
        · split at hp'
          · next code he =>
            obtain rfl := Option.some.inj hp'
            exact hown.follow rfl rfl rfl fun _ => he
          · cases hp'
      simpa using ih (a ++ [p']) qs hqs (by simpa using hfinal)
  unfold Writer.finishPending at hs
  obtain ⟨jobs, hjobs, rfl⟩ := Option.map_eq_some_iff.mp hs
  have hown := hall w.compile.mergeJobs [] jobs hjobs (by
    rw [(compile_kept (w := w)).2.1]
    exact h.compile)
  exact hown.keep _ _ _

/-! ## The scheduled task -/

theorem Owned.mergeSucceeded (h : Owned w (a ++ p :: b)) :
    Owned (w.mergeSucceeded p) (a ++ b) := by
  have hp : p ∈ a ++ p :: b := by simp
  have hsub : (a ++ b).Sublist (a ++ p :: b) := (List.sublist_cons_self p b).append_left a
  obtain ⟨hlt, hnew⟩ := h.output p hp
  obtain ⟨i₀, hi₀⟩ := List.exists_mem_of_ne_nil _ (h.nonempty p hp)
  have hothers : ∀ q ∈ a ++ b, q.outputFilename ≠ p.outputFilename ∧
      List.Disjoint q.segments p.segments := by
    have ha := h.apart
    rw [List.pairwise_append, List.pairwise_cons] at ha
    obtain ⟨-, ⟨hb, -⟩, hab⟩ := ha
    intro q hq
    rcases List.mem_append.mp hq with hq | hq
    · exact hab q hq p List.mem_cons_self
    · exact ⟨(hb q hq).1.symm, (hb q hq).2.symm⟩
  rw [mergeSucceeded_eq (h.distinct p hp) (fun hi => hnew (h.mem p hp _ hi))
    ⟨i₀, h.mem p hp i₀ hi₀, hi₀⟩]
  refine ⟨(nodup_rewriteSegments h.nodup hnew).1, fun i hi => ?_, fun q hq i hi => ?_,
    fun q hq => h.nonempty q (hsub.mem hq), fun q hq => h.distinct q (hsub.mem hq),
    fun q hq => ⟨(h.output q (hsub.mem hq)).1, fun hi => ?_⟩,
    fun q hq => h.notDone q (hsub.mem hq), fun q hq => h.finished q (hsub.mem hq),
    h.apart.sublist hsub, fun i hi => ?_⟩
  · rcases mem_rewriteSegments hi with rfl | hi
    · exact hlt
    · exact h.lt i hi.1
  · exact mem_rewriteSegments_of_notMem (h.mem q (hsub.mem hq) i hi) ((hothers q hq).2 hi)
  · rcases mem_rewriteSegments hi with ho | hi
    · exact (hothers q hq).1 ho
    · exact (h.output q (hsub.mem hq)).2 hi.1
  · rcases mem_rewriteSegments hi with rfl | ⟨hi, hip⟩
    · simp only [Function.update_self, merged, inMerge_ofParents, Bool.false_eq_true, false_iff,
        not_exists, not_and]
      exact fun q hq hiq => hnew (h.mem q (hsub.mem hq) _ hiq)
    · have hne : i ≠ p.outputFilename := fun he => hnew (he ▸ hi)
      simp only [Function.update_of_ne hne]
      rw [h.marks i hi]
      simp only [List.mem_append, List.mem_cons, or_and_right, exists_or, exists_eq_left, hip,
        false_or]

/-- No job has failed. -/
def NoFailure (jobs : List MergeJob) : Prop := ∀ p ∈ jobs, ∀ code, p.ended = some code → code = 0

theorem Owned.finalizeMerge (h : Owned w w.mergeJobs) (hno : NoFailure w.mergeJobs)
    (hs : w.finalizeMerge = some w') : Owned w' w'.mergeJobs := by
  unfold Writer.finalizeMerge at hs
  obtain ⟨r, hr, rfl⟩ := Option.map_eq_some_iff.mp hs
  have hloop := finalizeJobs_induct (P := fun w jobs => Owned w jobs ∧ NoFailure jobs) (a := [])
    (fun _ _ hl => hl.1.notDone)
    (fun _ a p b code hl hf he => ⟨hl.1.follow rfl rfl rfl fun _ => he, fun q hq => by
      simp only [List.mem_append, List.mem_cons] at hq
      rcases hq with hq | rfl | hq
      · exact hl.2 q (by simp [hq])
      · exact hl.2 p (by simp)
      · exact hl.2 q (by simp [hq])⟩)
    (fun _ a p b hl _ _ => ⟨hl.1.mergeSucceeded, fun q hq => hl.2 q (by
      simp only [List.mem_append, List.mem_cons] at hq ⊢
      tauto)⟩)
    (fun _ a p b hl hf hcode =>
      absurd (hl.2 p (by simp) _ (hl.1.finished p (by simp) hf)) hcode)
    ⟨h, hno⟩ hr
  exact hloop.1.keep _ _ _

theorem selectMergeSegments_sublist {is : List Nat}
    (hs : w.selectMergeSegments settings = some is) :
    is.Sublist w.segments ∧ is ≠ [] ∧ ∀ i ∈ is, (w.object i).inMerge = false := by
  unfold selectMergeSegments at hs
  split at hs
  · exact SimpleMergePolicy.selectMergeSegments_sublist hs
  · obtain ⟨hinf, hrest⟩ := TieredMergePolicy.selectMergeSegments_adjacent hs
    exact ⟨hinf.sublist, hrest⟩

theorem Owned.runMerge (h : Owned w w.mergeJobs) (external : Bool) :
    Owned (w.runMerge settings external) (w.runMerge settings external).mergeJobs := by
  unfold Writer.runMerge
  split
  · exact h
  · split
    · exact h.lazyLoad _
    · next is hsel =>
      obtain ⟨hsub, hne, hunmarked⟩ := selectMergeSegments_sublist hsel
      have hload := h.lazyLoad (w.examined settings)
      have hnd := h.nodup.sublist hsub
      have hkept := foldl_actOn_kept (fun _ s => s.electedForMerge)
        (w.lazyLoad (w.examined settings)) hnd
      have hobj := foldl_actOn_object (fun _ s => s.electedForMerge)
        (w.lazyLoad (w.examined settings)) hnd
      rw [← elect_eq] at hkept hobj
      obtain ⟨-, hseg, hjobs, -, -, hnext, -⟩ := hkept
      dsimp only
      rw [hjobs, hnext]
      have hmem : ∀ i ∈ is, i ∈ w.segments := fun i hi => hsub.mem hi
      have hfree : ∀ p ∈ w.mergeJobs, List.Disjoint p.segments is := fun p hp i hi his => by
        have hmarked := (h.marks i (hmem i his)).mpr ⟨p, hp, hi⟩
        rw [hunmarked i his] at hmarked
        cases hmarked
      have hnew : w.nextFile ∉ w.segments := fun hi => (h.lt _ hi).false
      refine ⟨hseg ▸ hload.nodup, ?_, ?_, ?_, ?_, ?_, ?_, ?_, ?_, ?_⟩
      · simp only [hseg]
        exact fun i hi => (h.lt i hi).trans (Nat.lt_succ_self _)
      · simp only [hseg]
        intro p hp
        rcases List.mem_append.mp hp with hp | hp
        · exact h.mem p hp
        · obtain rfl := List.mem_singleton.mp hp
          exact hmem
      · intro p hp
        rcases List.mem_append.mp hp with hp | hp
        · exact h.nonempty p hp
        · obtain rfl := List.mem_singleton.mp hp
          exact hne
      · intro p hp
        rcases List.mem_append.mp hp with hp | hp
        · exact h.distinct p hp
        · obtain rfl := List.mem_singleton.mp hp
          exact hnd
      · simp only [hseg]
        intro p hp
        rcases List.mem_append.mp hp with hp | hp
        · exact ⟨(h.output p hp).1.trans (Nat.lt_succ_self _), (h.output p hp).2⟩
        · obtain rfl := List.mem_singleton.mp hp
          exact ⟨Nat.lt_succ_self _, hnew⟩
      · intro p hp
        rcases List.mem_append.mp hp with hp | hp
        · exact h.notDone p hp
        · obtain rfl := List.mem_singleton.mp hp
          rfl
      · intro p hp
        rcases List.mem_append.mp hp with hp | hp
        · exact h.finished p hp
        · obtain rfl := List.mem_singleton.mp hp
          exact fun hf => by cases hf
      · refine List.pairwise_append.mpr ⟨h.apart, List.pairwise_singleton _ _, fun p hp q hq => ?_⟩
        obtain rfl := List.mem_singleton.mp hq
        exact ⟨(h.output p hp).1.ne, hfree p hp⟩
      · simp only [hseg]
        intro i hi
        rw [hobj]
        by_cases his : i ∈ is
        · rw [if_pos his]
          exact ⟨fun _ => ⟨_, List.mem_append_right _ (List.mem_singleton_self _), his⟩,
            fun _ => rfl⟩
        · rw [if_neg his, hload.marks i hi]
          constructor
          · rintro ⟨p, hp, hip⟩
            exact ⟨p, List.mem_append_left _ hp, hip⟩
          · rintro ⟨p, hp, hip⟩
            rcases List.mem_append.mp hp with hp | hp
            · exact ⟨p, hp, hip⟩
            · obtain rfl := List.mem_singleton.mp hp
              exact absurd hip his

/-- What the scheduled task finds has not failed. -/
def NoneFailed (w : Writer V) : Event V → Prop
  | .scheduledTask _ => NoFailure w.mergeJobs
  | _ => True

theorem Owned.finalized (h : Owned w w.mergeJobs) (hno : NoFailure w.mergeJobs)
    (hs : w.finalized = some w') : Owned w' w'.mergeJobs := by
  unfold Writer.finalized at hs
  split at hs
  · exact Option.some.inj hs ▸ h
  · exact h.finalizeMerge hno hs

/-- **Every step** keeps the jobs and the marks in agreement, if no job has failed. -/
theorem Owned.step (h : Owned w w.mergeJobs) {e : Event V} (hno : NoneFailed w e)
    (hs : step settings w e = some w') : Owned w' w'.mergeJobs := by
  have hcompile : ∀ {u : Writer V}, Owned u u.mergeJobs → Owned u.compile u.compile.mergeJobs :=
    fun hu => by
      rw [compile_kept.2.1]
      exact hu.compile
  have hflush : ∀ {u : Writer V}, Owned u u.mergeJobs →
      Owned u.persistDeletes.compile u.persistDeletes.compile.mergeJobs := fun hu => by
    refine hcompile ?_
    rw [(persistDeletes_kept hu.nodup).2.2.1]
    exact hu.persistDeletes
  cases e with
  | add k v =>
    obtain rfl := Option.some.inj hs
    exact h.keep _ _ _
  | bulkAdd kvs =>
    obtain rfl := Option.some.inj hs
    rw [bulkAdd_eq]
    exact h.keep _ _ _
  | delete k =>
    obtain rfl := Option.some.inj hs
    refine h.objects rfl le_rfl fun i hi => ?_
    simp only [Writer.delete, if_pos hi]
    exact inMerge_deleteKey _ _ _
  | flush =>
    obtain rfl := Option.some.inj hs
    exact hflush h
  | compile =>
    obtain rfl := Option.some.inj hs
    exact hcompile h
  | scheduledTask external =>
    simp only [Writer.step, scheduledTask_eq] at hs
    obtain ⟨w₁, hw₁, rfl⟩ := Option.map_eq_some_iff.mp hs
    have h₁ := h.finalized hno hw₁
    have h₂ : Owned (w₁.merging settings external) (w₁.merging settings external).mergeJobs := by
      unfold merging
      split
      · exact h₁.runMerge external
      · exact h₁
    unfold written
    split
    · exact h₂
    · exact hflush h₂
  | read k =>
    obtain rfl := Option.some.inj hs
    unfold Writer.read
    split
    · exact h
    · exact h.lazyLoad _
  | mergeReads j => exact h.mergeReads hs
  | mergeEnds j code => exact h.mergeEnds hs
  | disableMerge =>
    obtain rfl := Option.some.inj hs
    exact h.keep _ _ _
  | finishPending => exact h.finishPending hs

/-! ## Jobs that have ended -/

/-- A job after `FinalizeMerge`, before the merged ones are removed. -/
def settled (p : MergeJob) : MergeJob :=
  match p.tryFinalize with
  | some (true, p) => if p.successful then { p with mergeDone := true } else p
  | _ => p

theorem finalizeJobs_jobs : ∀ {ps : List MergeJob} {w : Writer V} {r : Writer V × List MergeJob},
    w.finalizeJobs ps = some r → r.2 = ps.map settled
  | [], w, r, hs => by
    obtain rfl := Option.some.inj hs
    rfl
  | p :: ps, w, r, hs => by
    rw [finalizeJobs] at hs
    rw [List.map_cons, settled]
    split at hs
    · cases hs
    · next q hq =>
      have hsame : q = p := by
        unfold MergeJob.tryFinalize at hq
        split at hq
        · cases hq
        · split at hq
          · cases hq
          · split at hq
            · cases hq
              rfl
            · cases hq
      obtain ⟨t, ht, rfl⟩ := Option.map_eq_some_iff.mp hs
      rw [finalizeJobs_jobs ht, hq, hsame]
    · next q hq =>
      rw [hq]
      dsimp only
      split at hs
      · next hsucc =>
        obtain ⟨t, ht, rfl⟩ := Option.map_eq_some_iff.mp hs
        rw [finalizeJobs_jobs ht, if_pos hsucc]
      · next hsucc =>
        obtain ⟨t, ht, rfl⟩ := Option.map_eq_some_iff.mp hs
        rw [finalizeJobs_jobs ht, if_neg hsucc]

/-- Only a success is removed. -/
theorem settled_spec (hf : p.processFinished = true → p.ended = some p.exitCode)
    (hd : p.mergeDone = false) : (settled p).outputFilename = p.outputFilename ∧
      ((settled p).mergeDone = true ↔ p.ended = some 0) := by
  unfold settled MergeJob.tryFinalize MergeJob.successful
  cases hfin : p.processFinished with
  | true =>
    rw [hf hfin]
    by_cases hcode : p.exitCode = 0 <;> simp [hcode, hd]
  | false =>
    cases he : p.ended with
    | none => cases p.external <;> simp [hd]
    | some code => by_cases hcode : code = 0 <;> simp [hcode, hd]

/-- What `FinalizeMerge` should leave behind: no job that has ended, and the segments of a failed
job as they were, ready for other merges. -/
structure Freed (w w₁ : Writer V) : Prop where
  gone : ∀ p ∈ w.mergeJobs, p.ended.isSome → ∀ q ∈ w₁.mergeJobs,
    q.outputFilename ≠ p.outputFilename
  failed : ∀ p ∈ w.mergeJobs, ∀ code, p.ended = some code → code ≠ 0 → ∀ i ∈ p.segments,
    i ∈ w₁.segments ∧ (w₁.object i).allDeleted = (w.object i).allDeleted ∧
      (w₁.object i).inMerge = false

/-- The marks agree with the jobs, and a scheduled task frees what has ended. -/
def Tidy (w : Writer V) : Event V → Prop
  | .scheduledTask _ => w.Marked ∧ ∀ w₁, w.finalized = some w₁ → Freed w w₁
  | _ => w.Marked

theorem finalizeMerge_jobs (hs : w.finalizeMerge = some w') :
    w'.mergeJobs = (w.mergeJobs.map settled).filter fun p => !p.mergeDone := by
  unfold finalizeMerge at hs
  obtain ⟨r, hr, rfl⟩ := Option.map_eq_some_iff.mp hs
  rw [← finalizeJobs_jobs hr]

theorem Owned.freed (h : Owned w w.mergeJobs) (hno : NoFailure w.mergeJobs)
    (hs : w.finalized = some w') : Freed w w' := by
  refine ⟨fun p hp he q hq ho => ?_, fun p hp code he hcode => absurd (hno p hp code he) hcode⟩
  unfold Writer.finalized at hs
  split at hs
  · next hempty =>
    rw [List.isEmpty_iff.mp hempty] at hp
    cases hp
  · rw [finalizeMerge_jobs hs] at hq
    obtain ⟨hq, hnot⟩ := List.mem_filter.mp hq
    obtain ⟨q₀, hq₀, rfl⟩ := List.mem_map.mp hq
    obtain ⟨hout, hdone⟩ := settled_spec (h.finished q₀ hq₀) (h.notDone q₀ hq₀)
    have hsame : p = q₀ := by
      by_contra hne
      obtain ⟨x, hx, rfl⟩ := List.getElem_of_mem hp
      obtain ⟨y, hy, rfl⟩ := List.getElem_of_mem hq₀
      have hpair := List.pairwise_iff_getElem.mp h.apart
      rw [hout] at ho
      rcases Nat.lt_trichotomy x y with hlt | rfl | hlt
      · exact (hpair x y hx hy hlt).1 ho.symm
      · exact hne rfl
      · exact (hpair y x hy hx hlt).1 ho
    subst hsame
    obtain ⟨code, hcode⟩ := Option.isSome_iff_exists.mp he
    obtain rfl := hno p hp code hcode
    rw [hdone.mpr hcode] at hnot
    cases hnot

/-- A failed job stays in the list. -/
theorem Owned.noFailure_of_freed (h : Owned w w.mergeJobs) (hs : w.finalized = some w')
    (hfreed : Freed w w') : NoFailure w.mergeJobs := by
  intro p hp code he
  by_contra hcode
  unfold Writer.finalized at hs
  split at hs
  · next hempty =>
    rw [List.isEmpty_iff.mp hempty] at hp
    cases hp
  · obtain ⟨hout, hdone⟩ := settled_spec (h.finished p hp) (h.notDone p hp)
    refine hfreed.gone p hp (by simp [he]) (settled p) ?_ hout
    rw [finalizeMerge_jobs hs, List.mem_filter]
    refine ⟨List.mem_map_of_mem hp, ?_⟩
    have hnot : ¬(settled p).mergeDone = true := fun hd => by
      have hzero := hdone.mp hd
      rw [he] at hzero
      exact hcode (Option.some.inj hzero)
    simpa using hnot

theorem Owned.tidy_iff (h : Owned w w.mergeJobs) {e : Event V}
    (hs : Writer.step settings w e = some w') : Tidy w e ↔ NoneFailed w e := by
  cases e with
  | scheduledTask external =>
    simp only [Writer.step, scheduledTask_eq] at hs
    obtain ⟨w₁, hw₁, -⟩ := Option.map_eq_some_iff.mp hs
    constructor
    · exact fun ht => h.noFailure_of_freed hw₁ (ht.2 w₁ hw₁)
    · exact fun hno => ⟨h.marked, fun w₂ hw₂ => h.freed hno hw₂⟩
  | _ => exact ⟨fun _ => trivial, fun _ => h.marked⟩

theorem owned_loadIndex {d : Directory V} {n : Nat} (hnd : (d.toc.getD []).Nodup)
    (hlt : ∀ i ∈ d.toc.getD [], i < n) :
    Owned (loadIndex d n) (loadIndex d n).mergeJobs where
  nodup := hnd
  lt := hlt
  mem _ hp := by cases hp
  nonempty _ hp := by cases hp
  distinct _ hp := by cases hp
  output _ hp := by cases hp
  notDone _ hp := by cases hp
  finished _ hp := by cases hp
  apart := List.Pairwise.nil
  marks i _ := by
    have hm : ((loadIndex d n).object i).inMerge = false := by
      simp only [loadIndex, Segment.ofPath, Segment.loadDeletedKeys, Bool.false_eq_true, if_false]
      split <;> rfl
    rw [hm]
    constructor
    · intro hf
      cases hf
    · rintro ⟨p, hp, -⟩
      cases hp

/-- **Jobs and marks.** On any index: the marks agree with the jobs in every state of a run, and
every scheduled task frees what has ended, if and only if no scheduled task finds a job that has
failed. -/
theorem tidy_iff_noneFailed (settings : IndexSettings V) {d : Directory V} {n : Nat}
    {events : List (Event V)} {w' : Writer V} (hnd : (d.toc.getD []).Nodup)
    (hlt : ∀ i ∈ d.toc.getD [], i < n)
    (hrun : Run.run (step settings) (loadIndex d n) events = some w') :
    (Run.Along (step settings) Tidy (loadIndex d n) events ∧ w'.Marked) ↔
      Run.Along (step settings) NoneFailed (loadIndex d n) events := by
  have hall : ∀ {events : List (Event V)} {w : Writer V}, Owned w w.mergeJobs →
      Run.run (step settings) w events = some w' →
      ((Run.Along (step settings) Tidy w events ∧ w'.Marked) ↔
        Run.Along (step settings) NoneFailed w events) := by
    intro events
    induction events with
    | nil =>
      intro w h hrun
      obtain rfl := Option.some.inj hrun
      exact ⟨fun _ => trivial, fun _ => ⟨trivial, h.marked⟩⟩
    | cons e events ih =>
      intro w h hrun
      obtain ⟨t, ht, hrun⟩ := Run.run_cons.mp hrun
      constructor
      · rintro ⟨⟨htidy, hrest⟩, hmarked⟩
        have hno := (h.tidy_iff ht).mp htidy
        refine ⟨hno, fun t' ht' => ?_⟩
        obtain rfl : t = t' := Option.some.inj (ht.symm.trans ht')
        exact (ih (h.step hno ht) hrun).mp ⟨hrest t ht, hmarked⟩
      · rintro ⟨hno, hrest⟩
        obtain ⟨hrest', hmarked⟩ := (ih (h.step hno ht) hrun).mpr (hrest t ht)
        refine ⟨⟨(h.tidy_iff ht).mpr hno, fun t' ht' => ?_⟩, hmarked⟩
        obtain rfl : t = t' := Option.some.inj (ht.symm.trans ht')
        exact hrest'
  exact hall (owned_loadIndex hnd hlt) hrun

instance (w : Writer V) (e : Event V) : Decidable (NoneFailed w e) :=
  match e with
  | .scheduledTask _ => decidable_of_iff (∀ p ∈ w.mergeJobs, p.ended = none ∨ p.ended = some 0) <| by
      refine forall₂_congr fun p _ => ?_
      cases p.ended <;> simp
  | .add _ _ | .bulkAdd _ | .delete _ | .flush | .compile | .read _ | .mergeReads _ | .mergeEnds _ _
  | .disableMerge | .finishPending => isTrue trivial

/-- A merge of the two segments of an index. -/
theorem tidy_iff_noneFailed_twoSegments :
    let settings : IndexSettings Nat := ⟨1, .simple⟩
    let d : Directory Nat := ⟨fun i => SegmentFiles.ofKv fun k => if k = [1] then some i else none,
      some [0, 1], none⟩
    let events : List (Event Nat) := [.scheduledTask true, .mergeReads 0, .delete [1],
      .mergeReads 0, .mergeEnds 0 0, .scheduledTask true]
    Run.Along (step settings) Tidy (loadIndex d 2) events := by
  intro settings d events
  have hsome : (Run.run (step settings) (loadIndex d 2) events).isSome := by decide +kernel
  obtain ⟨w', hrun⟩ := Option.isSome_iff_exists.mp hsome
  have hno : Run.Along (step settings) NoneFailed (loadIndex d 2) events := by decide +kernel
  exact ((tidy_iff_noneFailed settings (by decide) (by decide) hrun).mpr hno).1

/-- A failed job is still in the list after `FinalizeMerge`, and takes up its slot. -/
theorem failed_job_stays : ¬ ∀ (settings : IndexSettings Nat) (d : Directory Nat) (n : Nat)
    (events : List (Event Nat)) (w' : Writer Nat), (d.toc.getD []).Nodup →
      (∀ i ∈ d.toc.getD [], i < n) → Run.run (step settings) (loadIndex d n) events = some w' →
        Run.Along (step settings) Tidy (loadIndex d n) events ∧ w'.Marked := by
  intro h
  have hrun : ((Run.run (step ⟨1, .simple⟩) (loadIndex Directory.empty 0)
      [.add [1] 10, .flush, .add [2] 20, .flush, .scheduledTask true, .mergeEnds 0 1]).bind
        fun w => w.finalized.map fun w₁ => (w.mergeJobs.map fun p => (p.outputFilename, p.ended),
          w₁.mergeJobs.map fun p => p.outputFilename)) = some ([(2, some 1)], [2]) := by
    decide +kernel
  obtain ⟨w, hw, hrun⟩ := Option.bind_eq_some_iff.mp hrun
  obtain ⟨w₁, hw₁, hjobs⟩ := Option.map_eq_some_iff.mp hrun
  obtain ⟨hbefore, hafter⟩ := Prod.mk.inj hjobs
  have hlast : (Run.run (step (⟨1, .simple⟩ : IndexSettings Nat)) (loadIndex Directory.empty 0)
      ([.add [1] 10, .flush, .add [2] 20, .flush, .scheduledTask true, .mergeEnds 0 1] ++
        [.scheduledTask true])).isSome := by decide +kernel
  obtain ⟨w', hw'⟩ := Option.isSome_iff_exists.mp hlast
  have htidy := (h _ _ _ _ w' (by decide) (by decide) hw').1
  obtain ⟨-, hfreed⟩ := (htidy.append hw).2.1
  obtain ⟨p, hp, hpe⟩ : ∃ p ∈ w.mergeJobs, (p.outputFilename, p.ended) = (2, some 1) := by
    have hmem : (2, some (1 : Int)) ∈ w.mergeJobs.map fun p => (p.outputFilename, p.ended) := by
      rw [hbefore]
      exact List.mem_singleton_self _
    exact List.mem_map.mp hmem
  obtain ⟨q, hq, hqo⟩ : ∃ q ∈ w₁.mergeJobs, q.outputFilename = 2 := by
    have hmem : 2 ∈ w₁.mergeJobs.map fun p => p.outputFilename := by
      rw [hafter]
      exact List.mem_singleton_self _
    exact List.mem_map.mp hmem
  obtain ⟨hpo, hend⟩ := Prod.mk.inj hpe
  exact (hfreed w₁ hw₁).gone p hp (by rw [hend]; rfl) q hq (hqo.trans hpo.symm)

end Writer
end Keyvi.Index
