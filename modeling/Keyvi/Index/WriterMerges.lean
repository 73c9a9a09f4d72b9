import Mathlib
import Keyvi.Index.WriterOperations

/-!
# Merges keep the invariant

`FinalizeMerge` job by job, then `RunMerge`. A merge that has failed before is finalized again in
every round; that is harmless as long as no other job has taken its segments, which is what
`Separate` says.
-/

namespace Keyvi.Index
namespace Writer

open NewestWins

variable {V : Type} {w w' : Writer V} {jobs a b : List MergeJob} {p : MergeJob}

/-! ## A failed merge -/

theorem actOk_mergeFailed (h : Inv w jobs) {i : Nat} (hi : i ∈ w.segments) :
    ActOk (fun _ s => s.mergeFailed) w i := by
  obtain ⟨hok, hd, hall, -, -, hbetween⟩ := (h.ok i hi).mergeFailed
  refine ⟨hok, hd, hall, ?_⟩
  have hfull := hbetween (w.object i).mergeFailed.2.length
  rw [List.take_length] at hfull
  exact hfull.2.1

theorem Inv.mergeFailed (h : Inv w jobs) (hp : p ∈ jobs)
    (hdis : ∀ q ∈ jobs, q.pending = true → List.Disjoint p.segments q.segments) :
    Inv (w.mergeFailed p) jobs := by
  rw [mergeFailed_eq]
  refine h.acted (h.job p hp).nodup (h.job p hp).lt (fun q hq => h.outputs p hp q hq)
    (fun i _ hi => actOk_mergeFailed h hi) fun q hq hpend i hi his => ?_
  exact absurd hi (hdis q hq hpend his)

theorem Covered.mergeFailed (hcov : Covered w) (h : Inv w jobs) (hp : p ∈ jobs) :
    Covered (w.mergeFailed p) := by
  rw [mergeFailed_eq]
  refine hcov.acted (h.job p hp).nodup (fun i _ hi => actOk_mergeFailed h hi) fun i _ hi hm => ?_
  rw [(h.ok i hi).mergeFailed.2.2.2.1] at hm
  cases hm

theorem newestWins_mergeFailed (h : Inv w jobs) (hp : p ∈ jobs) (k : Key) :
    (w.mergeFailed p).newestWins k = w.newestWins k := by
  rw [mergeFailed_eq]
  exact newestWins_acted (h.job p hp).nodup (fun i _ hi => actOk_mergeFailed h hi) k

/-! ## A successful merge -/

/-- The merged segment and the operations that write its deleted keys. -/
def merged (w : Writer V) (p : MergeJob) : Segment V × List (SegmentFileOp V) :=
  Segment.ofParents ((w.directory.files p.outputFilename).kv.getD fun _ => none)
    (p.segments.map w.object)

/-- The operations of a successful merge. -/
def mergedOps (w : Writer V) (p : MergeJob) : List (FileOp V) :=
  (w.merged p).2.map (.segment p.outputFilename) ++
    ([.writeTocPart (rewriteSegments p.segments p.outputFilename false w.segments), .renameToc] ++
      actOps (fun _ s => (s, Segment.removeFiles)) w p.segments)

theorem mergeSucceeded_eq (hnd : p.segments.Nodup) (hout : p.outputFilename ∉ p.segments)
    (hany : ∃ i ∈ w.segments, i ∈ p.segments) : w.mergeSucceeded p =
    { w with
      segments := rewriteSegments p.segments p.outputFilename false w.segments
      object := Function.update w.object p.outputFilename (w.merged p).1
      directory :=
        { files := fun i =>
            if i ∈ p.segments then SegmentFileOp.applyAll (w.directory.files i) Segment.removeFiles
            else if i = p.outputFilename then
              SegmentFileOp.applyAll (w.directory.files i) (w.merged p).2
            else w.directory.files i
          toc := some (rewriteSegments p.segments p.outputFilename false w.segments)
          tocPart := none }
      journal := w.journal ++ mergedOps w p } := by
  have hremove : ∀ w : Writer V, p.segments.foldl
      (fun w i => w.emitSegment i Segment.removeFiles) w =
        p.segments.foldl (actOn fun _ s => (s, Segment.removeFiles)) w := by
    intro w
    refine List.foldl_ext _ _ _ fun w i _ => ?_
    simp [actOn, setObject, emitSegment_eq]
  rw [mergeSucceeded, if_pos (by simpa using hany), hremove, foldl_actOn _ _ hnd]
  have hne : ∀ i ∈ p.segments, i ≠ p.outputFilename := fun i hi he => hout (he ▸ hi)
  simp only [writeToc, emit, buildMergedSegment, emitSegment_eq, setObject, Directory.apply,
    mergedOps, merged, actOps, List.append_assoc, List.cons_append, List.nil_append]
  congr 1
  · funext i
    split <;> rfl
  · congr 1
    funext i
    by_cases hi : i ∈ p.segments
    · simp [hi, hne i hi]
    · by_cases hio : i = p.outputFilename
      · subst hio
        simp [hi]
      · simp [hi, hio]

/-- What is deleted in a marked segment: what the merge reads, and what has come since. -/
theorem Inv.mem_deleted (h : Inv w jobs) {i : Nat} (hi : i ∈ w.segments)
    (hm : (w.object i).inMerge = true) {k : Key} :
    k ∈ w.deleted i ↔ k ∈ (w.directory.files i).loadDk ∨ k ∈ w.during i := by
  rw [(h.ok i hi).inMerge hm, deleted, Segment.allDeleted, Finset.mem_union]
  rfl

/-- A successful merge that is about to be finalized. -/
structure Ready (w : Writer V) (jobs : List MergeJob) (p : MergeJob) (pre post : List Nat) :
    Prop where
  inv : Inv w jobs
  mem : p ∈ jobs
  ok : PendingOk w p
  ended : p.ended = some 0
  segments : w.segments = pre ++ p.segments ++ post

namespace Ready

variable {pre post : List Nat} (r : Ready w jobs p pre post)

include r

theorem mem_segments {i : Nat} (hi : i ∈ p.segments) : i ∈ w.segments := r.ok.adjacent.mem hi

theorem mem_deleted {i : Nat} (hi : i ∈ p.segments) {k : Key} :
    k ∈ w.deleted i ↔ k ∈ (w.directory.files i).loadDk ∨ k ∈ w.during i :=
  r.inv.mem_deleted (r.mem_segments hi) (r.ok.marked i hi)

theorem kv : (w.directory.files p.outputFilename).kv.getD (fun _ => none) =
    mergedDictionary (p.segments.map fun i => (w.dict i, (w.directory.files i).loadDk)) := by
  rw [r.ok.output r.ended]
  rfl

theorem eq : w.mergeSucceeded p =
    { w with
      segments := pre ++ p.outputFilename :: post
      object := Function.update w.object p.outputFilename (w.merged p).1
      directory :=
        { files := fun i =>
            if i ∈ p.segments then SegmentFileOp.applyAll (w.directory.files i) Segment.removeFiles
            else if i = p.outputFilename then
              SegmentFileOp.applyAll (w.directory.files i) (w.merged p).2
            else w.directory.files i
          toc := some (pre ++ p.outputFilename :: post)
          tocPart := none }
      journal := w.journal ++ mergedOps w p } := by
  obtain ⟨i, hi⟩ := List.exists_mem_of_ne_nil _ r.ok.nonempty
  rw [mergeSucceeded_eq (r.inv.job p r.mem).nodup (r.inv.outputs p r.mem p r.mem)
    ⟨i, r.mem_segments hi, hi⟩, r.segments,
    rewriteSegments_block r.ok.nonempty (r.segments ▸ r.inv.nodup)]

/-- The segments on both sides are left alone. -/
theorem sides {i : Nat} (hi : i ∈ pre ++ post) : i ∈ w.segments ∧ i ∉ p.segments ∧
    i ≠ p.outputFilename := by
  have hnd := r.inv.nodup
  have hnew := (r.inv.job p r.mem).outNew
  rw [r.segments] at hnd hnew ⊢
  rw [List.append_assoc, List.nodup_append', List.nodup_append'] at hnd
  obtain ⟨-, ⟨-, -, hpost⟩, hpre⟩ := hnd
  refine ⟨?_, fun hp => ?_, ?_⟩
  · simp only [List.mem_append] at hi ⊢
    tauto
  · rcases List.mem_append.mp hi with hi | hi
    · exact hpre hi (List.mem_append_left _ hp)
    · exact hpost hp hi
  · rintro rfl
    refine hnew ?_
    simp only [List.mem_append] at hi ⊢
    tauto

theorem object_side {i : Nat} (hi : i ≠ p.outputFilename) :
    (w.mergeSucceeded p).object i = w.object i := by
  rw [r.eq]
  exact Function.update_of_ne hi _ _

theorem files_side {i : Nat} (hi : i ∉ p.segments) (ho : i ≠ p.outputFilename) :
    (w.mergeSucceeded p).directory.files i = w.directory.files i := by
  rw [r.eq]
  simp [hi, ho]

theorem dict_out : (w.mergeSucceeded p).dict p.outputFilename =
    mergedDictionary (p.segments.map fun i => (w.dict i, (w.directory.files i).loadDk)) := by
  obtain ⟨hdk, hdkm⟩ := (r.inv.job p r.mem).outFiles
  have hm := segmentOk_ofParents (w.directory.files p.outputFilename) _ (p.segments.map w.object)
    (r.ok.output r.ended) hdk hdkm
  rw [← r.kv, r.eq, dict, merged]
  simp only [Function.update_self]
  rw [r.kv]
  exact hm.2.2.1

/-- The merged segment and its files. -/
theorem out_ok : SegmentOk ((w.mergeSucceeded p).directory.files p.outputFilename)
      ((w.mergeSucceeded p).object p.outputFilename) ∧
    (w.mergeSucceeded p).onDisk p.outputFilename =
      (w.mergeSucceeded p).deleted p.outputFilename ∧
    ((w.mergeSucceeded p).object p.outputFilename).inMerge = false := by
  obtain ⟨hdk, hdkm⟩ := (r.inv.job p r.mem).outFiles
  have hm := segmentOk_ofParents (w.directory.files p.outputFilename) _ (p.segments.map w.object)
    (r.ok.output r.ended) hdk hdkm
  have hnot := r.inv.outputs p r.mem p r.mem
  rw [onDisk, deleted, r.eq]
  simp only [Function.update_self, if_neg hnot, if_true, merged, r.kv]
  exact ⟨hm.1, hm.2.1, hm.2.2.2⟩

theorem mem_deleted_out {k : Key} : k ∈ (w.mergeSucceeded p).deleted p.outputFilename ↔
    ∃ i ∈ p.segments, k ∈ w.during i := by
  rw [deleted, r.eq]
  simp only [Function.update_self, merged]
  rw [mem_allDeleted_ofParents]
  simp [during]

/-- What the merge has kept, it has from a segment that had not deleted it before. -/
theorem exists_of_dict_out {k : Key}
    (hk : ((w.mergeSucceeded p).dict p.outputFilename k).isSome) :
    ∃ s ∈ p.segments, (w.dict s k).isSome ∧ k ∉ (w.directory.files s).loadDk := by
  rw [r.dict_out, mergedDictionary_eq, valueOf] at hk
  obtain ⟨v, hv⟩ := Option.isSome_iff_exists.mp hk
  obtain ⟨a₁, s, a₂, hs, ht, -⟩ := answer_eq_some.mp (Option.join_eq_some_iff.mp hv)
  obtain ⟨x, hx, hsome⟩ := Option.map_eq_some_iff.mp ht
  refine ⟨s, by simp [hs], by simp [hx], fun hin => ?_⟩
  rw [if_pos hin] at hsome
  cases hsome

/-- The deletes made during the merge are carried over. -/
theorem mem_deleted_out_iff {s : Nat} (hs : s ∈ p.segments) {k : Key}
    (hd : (w.dict s k).isSome) :
    k ∈ (w.mergeSucceeded p).deleted p.outputFilename ↔ k ∈ w.during s := by
  rw [r.mem_deleted_out]
  exact ⟨fun ⟨i, hi, hki⟩ => r.ok.during i hi s hs k hki hd, fun h => ⟨s, hs, h⟩⟩

theorem closed_pairs : (∀ i ∈ pre, ∀ s ∈ p.segments, ∀ k ∈ w.deleted s, (w.dict s k).isSome →
      (w.dict i k).isSome → k ∈ w.deleted i) ∧
    (∀ s ∈ p.segments, ∀ j ∈ post, ∀ k ∈ w.deleted j, (w.dict j k).isSome →
      (w.dict s k).isSome → k ∈ w.deleted s) ∧
    (pre ++ post).Pairwise fun i j =>
      ∀ k ∈ w.deleted j, (w.dict j k).isSome → (w.dict i k).isSome → k ∈ w.deleted i := by
  have hc := r.inv.closed
  rw [r.segments] at hc
  have hsub : (pre ++ post).Sublist (pre ++ p.segments ++ post) :=
    (List.sublist_append_left pre p.segments).append_right post
  have hpairs := hc
  rw [List.append_assoc, List.pairwise_append, List.pairwise_append] at hpairs
  obtain ⟨-, ⟨-, -, hpost⟩, hpre⟩ := hpairs
  exact ⟨fun i hi s hs => hpre i hi s (List.mem_append_left _ hs), hpost, hc.sublist hsub⟩

/-- **Finalizing a successful merge leaves the newest-wins map unchanged.** -/
theorem newestWins (k : Key) : (w.mergeSucceeded p).newestWins k = w.newestWins k := by
  obtain ⟨hpre, -, -⟩ := r.closed_pairs
  have hseg : (w.mergeSucceeded p).segments = pre ++ p.outputFilename :: post := by rw [r.eq]
  rw [Writer.newestWins, Writer.newestWins, hseg, r.segments]
  refine valueOf_merged (fun i => (w.directory.files i).loadDk) r.dict_out
    (fun i hi => ?_) (fun i hi => ?_) (fun i hi hd hk => ?_) fun i hi hd hk o ho hod => ?_
  · rw [dict, deleted, r.object_side (r.sides hi).2.2]
    exact ⟨rfl, Iff.rfl⟩
  · exact fun hk => (r.mem_deleted hi).mpr (.inl hk)
  · rw [r.mem_deleted_out_iff hi hd, r.mem_deleted hi, or_iff_right hk]
  · exact hpre o ho i hi k ((r.mem_deleted hi).mpr (.inl hk)) hd hod

theorem pairwise {R : Nat → Nat → Prop} (hside : (pre ++ post).Pairwise R)
    (hpre : ∀ i ∈ pre, R i p.outputFilename) (hpost : ∀ j ∈ post, R p.outputFilename j) :
    (w.mergeSucceeded p).segments.Pairwise R := by
  obtain ⟨h₁, h₂, h₃⟩ := List.pairwise_append.mp hside
  rw [r.eq]
  refine List.pairwise_append.mpr ⟨h₁, List.pairwise_cons.mpr ⟨hpost, h₂⟩, fun i hi j hj => ?_⟩
  rcases List.mem_cons.mp hj with rfl | hj
  · exact hpre i hi
  · exact h₃ i hi j hj

theorem mem_merged_segments {i : Nat} (hi : i ∈ (w.mergeSucceeded p).segments) :
    i = p.outputFilename ∨ i ∈ pre ++ post := by
  rw [r.eq] at hi
  simp only [List.mem_append, List.mem_cons] at hi ⊢
  tauto

theorem closed : (w.mergeSucceeded p).segments.Pairwise fun i j =>
    ∀ k ∈ (w.mergeSucceeded p).deleted j, ((w.mergeSucceeded p).dict j k).isSome →
      ((w.mergeSucceeded p).dict i k).isSome → k ∈ (w.mergeSucceeded p).deleted i := by
  obtain ⟨hpre, hpost, hside⟩ := r.closed_pairs
  have hkeep : ∀ {i}, i ∈ pre ++ post → (w.mergeSucceeded p).dict i = w.dict i ∧
      (w.mergeSucceeded p).deleted i = w.deleted i := by
    intro i hi
    rw [dict, deleted, r.object_side (r.sides hi).2.2]
    exact ⟨rfl, rfl⟩
  refine r.pairwise (hside.imp_of_mem fun {i j} hi hj hc => ?_) (fun i hi k hk hout hdi => ?_)
    fun j hj k hk hdj hout => ?_
  · rw [(hkeep hi).1, (hkeep hi).2, (hkeep hj).1, (hkeep hj).2]
    exact hc
  · -- deleted in the merged segment: during the merge, in an input that has the key
    obtain ⟨s, hs, hds, -⟩ := r.exists_of_dict_out hout
    obtain ⟨t, ht, hkt⟩ := r.mem_deleted_out.mp hk
    have hks : k ∈ w.during s := r.ok.during t ht s hs k hkt hds
    have hi' := hkeep (List.mem_append_left post hi)
    rw [hi'.1] at hdi
    rw [hi'.2]
    exact hpre i hi s hs k ((r.mem_deleted hs).mpr (.inr hks)) hds hdi
  · -- deleted in a newer segment: also in the input, and not before the merge
    obtain ⟨s, hs, hds, hnot⟩ := r.exists_of_dict_out hout
    have hj' := hkeep (List.mem_append_right pre hj)
    rw [hj'.2] at hk
    rw [hj'.1] at hdj
    have hks := hpost s hs j hj k hk hdj hds
    exact (r.mem_deleted_out_iff hs hds).mpr
      (((r.mem_deleted hs).mp hks).resolve_left hnot)

/-- What the merge has dropped and what it carries over is deleted on disk in older segments. -/
theorem covered (hcov : Covered w) : Covered (w.mergeSucceeded p) := by
  have hkeep : ∀ {i}, i ∈ pre ++ post → (w.mergeSucceeded p).object i = w.object i ∧
      (w.mergeSucceeded p).directory.files i = w.directory.files i := fun hi =>
    ⟨r.object_side (r.sides hi).2.2, r.files_side (r.sides hi).2.1 (r.sides hi).2.2⟩
  have hsub : (pre ++ post).Sublist (pre ++ p.segments ++ post) :=
    (List.sublist_append_left pre p.segments).append_right post
  have hc := hcov
  unfold Covered at hc
  rw [r.segments] at hc
  have hpairs := hc
  rw [List.append_assoc, List.pairwise_append, List.pairwise_append] at hpairs
  obtain ⟨-, ⟨-, -, hpost⟩, -⟩ := hpairs
  refine r.pairwise ((hc.sublist hsub).imp_of_mem fun {i j} hi hj hcij => ?_)
    (fun i _ hm => ?_) fun j hj hm k hk hdj hout => ?_
  · rw [dict, dict, onDisk, (hkeep hi).1, (hkeep hi).2, (hkeep hj).1, (hkeep hj).2]
    exact hcij
  · rw [r.out_ok.2.2] at hm
    cases hm
  · obtain ⟨s, hs, hds, hnot⟩ := r.exists_of_dict_out hout
    have hj' := hkeep (List.mem_append_right pre hj)
    rw [hj'.1] at hm
    rw [hj'.2] at hk
    rw [dict, hj'.1] at hdj
    have hks : k ∈ w.onDisk s := hpost s hs j hj hm k hk hdj hds
    have hdel : k ∈ w.deleted s := (r.inv.ok s (r.mem_segments hs)).onDisk hks
    rw [r.out_ok.2.1, r.mem_deleted_out_iff hs hds]
    exact ((r.mem_deleted hs).mp hdel).resolve_left hnot

end Ready

/-- No other job has a segment of `p`. -/
theorem Ready.inv_mergeSucceeded {pre post : List Nat} (r : Ready w (a ++ p :: b) p pre post)
    (hdis : ∀ q ∈ a ++ b, List.Disjoint p.segments q.segments) :
    Inv (w.mergeSucceeded p) (a ++ b) := by
  have hsub : (a ++ b).Sublist (a ++ p :: b) := (List.sublist_cons_self p b).append_left a
  have hinv := r.inv.sublist hsub
  have hne : ∀ q ∈ a ++ b, q.outputFilename ≠ p.outputFilename := by
    have ha := r.inv.apart
    rw [List.pairwise_append, List.pairwise_cons] at ha
    obtain ⟨-, ⟨hb, -⟩, hab⟩ := ha
    intro q hq
    rcases List.mem_append.mp hq with hq | hq
    · exact (hab q hq p List.mem_cons_self).1
    · exact (hb q hq).1.symm
  have hnext : (w.mergeSucceeded p).nextFile = w.nextFile := by rw [r.eq]
  have hany : (w.mergeSucceeded p).anyDelete = w.anyDelete := by rw [r.eq]
  have hout := r.inv.job p r.mem
  have hfiles : ∀ q ∈ a ++ b, (w.mergeSucceeded p).directory.files q.outputFilename =
      w.directory.files q.outputFilename := fun q hq =>
    r.files_side (r.inv.outputs p r.mem q (hsub.mem hq)) (hne q hq)
  refine ⟨?_, ?_, ?_, ?_, ?_, r.closed, ?_, ?_, ?_, hinv.apart, hinv.outputs⟩
  · have hnd := r.inv.nodup
    have hnew := hout.outNew
    rw [r.segments] at hnd hnew
    rw [r.eq]
    simp only [List.mem_append, not_or] at hnew
    rw [List.append_assoc, List.nodup_append', List.nodup_append'] at hnd
    obtain ⟨h₁, ⟨-, h₂, -⟩, h₃⟩ := hnd
    refine h₁.append (List.nodup_cons.mpr ⟨hnew.2, h₂⟩) fun i hi hj => ?_
    rcases List.mem_cons.mp hj with rfl | hj
    · exact hnew.1.1 hi
    · exact h₃ hi (List.mem_append_right _ hj)
  · intro i hi
    rw [hnext]
    rcases r.mem_merged_segments hi with rfl | hi
    · exact hout.outLt
    · exact r.inv.lt i (r.sides hi).1
  · intro i hi
    rw [hnext] at hi
    rw [r.files_side (fun hp => absurd (hout.lt i hp) (by omega))
      (fun ho => absurd hout.outLt (by omega))]
    exact r.inv.fresh i hi
  · intro i hi
    rcases r.mem_merged_segments hi with rfl | hi
    · exact r.out_ok.1
    · rw [r.files_side (r.sides hi).2.1 (r.sides hi).2.2, r.object_side (r.sides hi).2.2]
      exact r.inv.ok i (r.sides hi).1
  · rw [r.eq]
    rfl
  · intro hfalse i hi
    rw [hany] at hfalse
    rcases r.mem_merged_segments hi with rfl | hi
    · exact r.out_ok.2.1
    · rw [onDisk, deleted, r.files_side (r.sides hi).2.1 (r.sides hi).2.2,
        r.object_side (r.sides hi).2.2]
      exact r.inv.synced hfalse i (r.sides hi).1
  · intro q hq
    refine (hinv.job q hq).frame hnext.ge (fun hi => ?_) (by rw [hfiles q hq]; exact ⟨rfl, rfl⟩)
    rcases r.mem_merged_segments hi with ho | hi
    · exact hne q hq ho
    · exact (hinv.job q hq).outNew (r.sides hi).1
  · intro q hq hpend
    have hqok := hinv.pending q hq hpend
    have hadj : q.segments <:+: (w.mergeSucceeded p).segments := by
      rw [r.eq]
      exact infix_of_disjoint (r.segments ▸ hqok.adjacent) r.ok.nonempty (hdis q hq).symm
    refine hqok.frame hadj (fun i hi => ?_) (by rw [hfiles q hq])
    have hio : i ≠ p.outputFilename := fun ho => hout.outNew (ho ▸ hqok.adjacent.mem hi)
    rw [dict, during, r.object_side hio, r.files_side (fun hp => hdis q hq hp hi) hio]
    exact ⟨rfl, rfl, rfl, rfl⟩

/-! ## The loop of `FinalizeMerge` -/

/-- A merge that has failed before shares no segment with one that is pending. -/
def Separate (jobs : List MergeJob) : Prop := jobs.Pairwise fun p q =>
  p.pending = true ∨ q.pending = true → List.Disjoint p.segments q.segments

/-- What every job keeps that is finalized, the loop keeps. -/
theorem finalizeJobs_induct {P : Writer V → List MergeJob → Prop}
    (running : ∀ w jobs, P w jobs → ∀ p ∈ jobs, p.mergeDone = false)
    (finish : ∀ w a p b code, P w (a ++ p :: b) → p.processFinished = false →
      p.ended = some code →
        P w (a ++ { p with exitCode := code, processFinished := true } :: b))
    (merge : ∀ w a p b, P w (a ++ p :: b) → p.processFinished = true → p.exitCode = 0 →
      P (w.mergeSucceeded p) (a ++ b))
    (fail : ∀ w a p b, P w (a ++ p :: b) → p.processFinished = true → p.exitCode ≠ 0 →
      P (w.mergeFailed p) (a ++ p :: b)) :
    ∀ {ps a : List MergeJob} {w : Writer V} {r : Writer V × List MergeJob}, P w (a ++ ps) →
      w.finalizeJobs ps = some r → P r.1 (a ++ r.2.filter fun p => !p.mergeDone)
  | [], a, w, r, h, hs => by
    obtain rfl := Option.some.inj hs
    simpa using h
  | p :: ps, a, w, r, h, hs => by
    -- a job that has ended is merged or has failed
    have hended : ∀ q : MergeJob, P w (a ++ q :: ps) → q.processFinished = true →
        (if q.successful then ((w.mergeSucceeded q).finalizeJobs ps).map fun r =>
            (r.1, { q with mergeDone := true } :: r.2)
          else ((w.mergeFailed q).finalizeJobs ps).map fun r => (r.1, q :: r.2)) = some r →
        P r.1 (a ++ r.2.filter fun p => !p.mergeDone) := by
      intro q hq hfin hs
      by_cases hcode : q.exitCode = 0
      · rw [if_pos (by simp [MergeJob.successful, hcode])] at hs
        obtain ⟨t, ht, rfl⟩ := Option.map_eq_some_iff.mp hs
        simpa using finalizeJobs_induct running finish merge fail (merge w a q ps hq hfin hcode) ht
      · rw [if_neg (by simp [MergeJob.successful, hcode])] at hs
        obtain ⟨t, ht, rfl⟩ := Option.map_eq_some_iff.mp hs
        have hdone := running w _ hq q (by simp)
        have hnext := finalizeJobs_induct running finish merge fail (a := a ++ [q])
          (by simpa using fail w a q ps hq hfin hcode) ht
        simpa [hdone] using hnext
    rw [finalizeJobs] at hs
    cases hf : p.processFinished with
    | true =>
      have ht : p.tryFinalize = some (true, p) := by simp [MergeJob.tryFinalize, hf]
      rw [ht] at hs
      exact hended p h hf hs
    | false =>
      cases he : p.ended with
      | some code =>
        have ht : p.tryFinalize =
            some (true, { p with exitCode := code, processFinished := true }) := by
          simp [MergeJob.tryFinalize, hf, he]
        rw [ht] at hs
        exact hended _ (finish w a p ps code h hf he) rfl hs
      | none =>
        cases hx : p.external with
        | false =>
          have ht : p.tryFinalize = none := by simp [MergeJob.tryFinalize, hf, he, hx]
          rw [ht] at hs
          cases hs
        | true =>
          have ht : p.tryFinalize = some (false, p) := by simp [MergeJob.tryFinalize, hf, he, hx]
          rw [ht] at hs
          obtain ⟨t, ht, rfl⟩ := Option.map_eq_some_iff.mp hs
          have hdone := running w _ h p (by simp)
          have hnext := finalizeJobs_induct running finish merge fail (a := a ++ [p])
            (by simpa using h) ht
          simpa [hdone] using hnext

/-- No merge that has failed before is finalized again over a pending one. -/
def NoStaleJob (w : Writer V) : Prop := ∀ p ∈ w.mergeJobs, ∀ q ∈ w.mergeJobs,
  p.pending = false → q.pending = true → List.Disjoint p.segments q.segments

theorem Inv.separate (h : Inv w w.mergeJobs) (hstale : w.NoStaleJob) :
    Separate w.mergeJobs := by
  refine h.apart.imp_of_mem fun {p q} hp hq ha hor => ?_
  cases hpp : p.pending with
  | false =>
    rw [hpp] at hor
    exact hstale p hp q hq hpp (hor.resolve_left (by simp))
  | true =>
    cases hqp : q.pending with
    | false => exact (hstale q hq p hp hqp hpp).symm
    | true => exact ha.2 hpp hqp

theorem Separate.follows {p p' : MergeJob} (h : Separate (a ++ p :: b)) (hp : Follows p p') :
    Separate (a ++ p' :: b) := by
  unfold Separate at h ⊢
  rw [List.pairwise_append, List.pairwise_cons] at h ⊢
  obtain ⟨h₁, ⟨h₂, h₃⟩, h₄⟩ := h
  refine ⟨h₁, ⟨fun q hq hor => ?_, h₃⟩, fun x hx y hy hor => ?_⟩
  · rw [hp.segments]
    exact h₂ q hq (hor.imp_left hp.pending)
  · rcases List.mem_cons.mp hy with rfl | hy
    · rw [hp.segments]
      exact h₄ x hx p List.mem_cons_self (hor.imp_right hp.pending)
    · exact h₄ x hx y (List.mem_cons_of_mem _ hy) hor

/-- The other jobs, seen from one of them. -/
theorem Separate.disjoint (h : Separate (a ++ p :: b)) {q : MergeJob} (hq : q ∈ a ++ b)
    (hpq : p.pending = true ∨ q.pending = true) : List.Disjoint p.segments q.segments := by
  unfold Separate at h
  rw [List.pairwise_append, List.pairwise_cons] at h
  obtain ⟨-, ⟨hb, -⟩, hab⟩ := h
  rcases List.mem_append.mp hq with hq | hq
  · exact (hab q hq p List.mem_cons_self hpq.symm).symm
  · exact hb q hq hpq

/-- What `FinalizeMerge` does not change. -/
structure Finalized (w w' : Writer V) : Prop where
  newestWins : ∀ k, w'.newestWins k = w.newestWins k
  compiler : w'.compiler = w.compiler
  anyDelete : w'.anyDelete = w.anyDelete

theorem Finalized.trans {w₁ w₂ w₃ : Writer V} (h : Finalized w₁ w₂) (h' : Finalized w₂ w₃) :
    Finalized w₁ w₃ :=
  ⟨fun k => (h'.newestWins k).trans (h.newestWins k), h'.compiler.trans h.compiler,
    h'.anyDelete.trans h.anyDelete⟩

theorem Inv.ready (h : Inv w jobs) (hp : p ∈ jobs) (hf : p.processFinished = true)
    (hcode : p.exitCode = 0) : ∃ pre post, Ready w jobs p pre post := by
  have hpok := h.pending p hp (by simp [MergeJob.pending, hcode])
  obtain ⟨pre, post, hsplit⟩ := hpok.adjacent
  exact ⟨pre, post, h, hp, hpok, hcode ▸ (h.job p hp).finished hf, hsplit.symm⟩

theorem mergeFailed_finalized (h : Inv w jobs) (hp : p ∈ jobs) :
    Finalized w (w.mergeFailed p) := by
  have hkept := foldl_actOn_kept (fun _ s => s.mergeFailed) w (h.job p hp).nodup
  refine ⟨newestWins_mergeFailed h hp, ?_, ?_⟩
  · rw [mergeFailed_eq]
    exact hkept.1
  · rw [mergeFailed_eq]
    exact hkept.2.2.2.1

theorem Ready.finalized {pre post : List Nat} (r : Ready w jobs p pre post) :
    Finalized w (w.mergeSucceeded p) :=
  ⟨r.newestWins, by rw [r.eq], by rw [r.eq]⟩

/-- Everything that the loop of `FinalizeMerge` keeps. -/
structure Loop (w : Writer V) (w' : Writer V) (jobs : List MergeJob) : Prop where
  inv : Inv w' jobs
  covered : Covered w'
  separate : Separate jobs
  finalized : Finalized w w'

theorem Loop.finish {w₀ : Writer V} {code : Int} (h : Loop w₀ w (a ++ p :: b))
    (hf : p.processFinished = false) (he : p.ended = some code) :
    Loop w₀ w (a ++ { p with exitCode := code, processFinished := true } :: b) :=
  ⟨h.inv.finish hf he, h.covered,
    h.separate.follows ⟨rfl, rfl, fun _ => by simp [MergeJob.pending, hf]⟩, h.finalized⟩

theorem Loop.mergeSucceeded {w₀ : Writer V} (h : Loop w₀ w (a ++ p :: b))
    (hf : p.processFinished = true) (hcode : p.exitCode = 0) :
    Loop w₀ (w.mergeSucceeded p) (a ++ b) := by
  obtain ⟨pre, post, r⟩ := h.inv.ready (by simp) hf hcode
  have hpend : p.pending = true := by simp [MergeJob.pending, hcode]
  have hsub : (a ++ b).Sublist (a ++ p :: b) := (List.sublist_cons_self p b).append_left a
  exact ⟨r.inv_mergeSucceeded fun q hq => h.separate.disjoint hq (.inl hpend), r.covered h.covered,
    List.Pairwise.sublist hsub h.separate, h.finalized.trans r.finalized⟩

theorem Loop.mergeFailed {w₀ : Writer V} (h : Loop w₀ w (a ++ p :: b))
    (hf : p.processFinished = true) (hcode : p.exitCode ≠ 0) :
    Loop w₀ (w.mergeFailed p) (a ++ p :: b) := by
  have hp : p ∈ a ++ p :: b := by simp
  have hpend : p.pending = false := by simp [MergeJob.pending, hf, hcode]
  refine ⟨h.inv.mergeFailed hp fun q hq hqp => ?_, h.covered.mergeFailed h.inv hp, h.separate,
    h.finalized.trans (mergeFailed_finalized h.inv hp)⟩
  have hq' : q ∈ a ++ b := by
    simp only [List.mem_append, List.mem_cons] at hq ⊢
    rcases hq with hq | rfl | hq
    · exact .inl hq
    · rw [hpend] at hqp
      cases hqp
    · exact .inr hq
  exact h.separate.disjoint hq' (.inr hqp)

/-- **`FinalizeMerge`** keeps the invariant and the newest-wins map. -/
theorem Inv.finalizeMerge (h : Inv w w.mergeJobs) (hcov : Covered w) (hstale : w.NoStaleJob)
    (hs : w.finalizeMerge = some w') :
    Inv w' w'.mergeJobs ∧ Covered w' ∧ Finalized w w' := by
  unfold Writer.finalizeMerge at hs
  obtain ⟨r, hr, rfl⟩ := Option.map_eq_some_iff.mp hs
  have hloop := finalizeJobs_induct (P := Loop w) (a := [])
    (fun w' jobs hl p hp => (hl.inv.job p hp).notDone)
    (fun w' a p b code hl => hl.finish) (fun w' a p b hl => hl.mergeSucceeded)
    (fun w' a p b hl => hl.mergeFailed)
    ⟨h, hcov, h.separate hstale, fun _ => rfl, rfl, rfl⟩ hr
  exact ⟨hloop.inv.keep _ _ _, hloop.covered, hloop.finalized.1, hloop.finalized.2,
    hloop.finalized.3⟩

end Writer
end Keyvi.Index
