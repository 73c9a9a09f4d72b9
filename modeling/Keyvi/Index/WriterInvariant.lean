import Mathlib
import Keyvi.Index.SegmentList
import Keyvi.Index.WriterSteps

/-!
# The invariant of the writer

`Inv` ties the segment list, the merge jobs and the directory together; `Covered` is what makes a
merge safe on disk. Here they are kept by everything except the scheduled task: a method called on
several segments (`Inv.acted`), a delete, a compile, the steps of the merge processes.
-/

namespace Keyvi.Index

variable {V : Type}

namespace MergeJob

/-- The job is running or has succeeded: its segments are still its own. -/
def pending (p : MergeJob) : Bool := !p.processFinished || decide (p.exitCode = 0)

end MergeJob

namespace Writer

open NewestWins

/-- The dictionary of a segment. -/
def dict (w : Writer V) (i : Nat) : Dictionary V := (w.object i).dictionary

/-- The keys deleted in a segment. -/
def deleted (w : Writer V) (i : Nat) : DeletedKeys := (w.object i).allDeleted

/-- The keys deleted in a segment during its merge. -/
def during (w : Writer V) (i : Nat) : DeletedKeys := (w.object i).deletedKeysDuringMergeForWrite

/-- The keys deleted in a segment according to its files. -/
def onDisk (w : Writer V) (i : Nat) : DeletedKeys := (w.directory.files i).deleted

/-- The newest-wins map of the segment list. -/
def newestWins (w : Writer V) (k : Key) : Option V := valueOf w.dict w.deleted w.segments k

/-- What holds of every job in the list. -/
structure JobOk (w : Writer V) (p : MergeJob) : Prop where
  nodup : p.segments.Nodup
  lt : ∀ i ∈ p.segments, i < w.nextFile
  outLt : p.outputFilename < w.nextFile
  outNew : p.outputFilename ∉ w.segments
  outFiles : (w.directory.files p.outputFilename).dk = none ∧
    (w.directory.files p.outputFilename).dkm = none
  notDone : p.mergeDone = false
  finished : p.processFinished = true → p.ended = some p.exitCode

/-- What holds of a pending job: its segments are adjacent in the list and marked, it has read what
`.dk` still holds, and a key deleted meanwhile is deleted in all its segments. -/
structure PendingOk (w : Writer V) (p : MergeJob) : Prop where
  adjacent : p.segments <:+: w.segments
  nonempty : p.segments ≠ []
  marked : ∀ i ∈ p.segments, (w.object i).inMerge = true
  read : p.read = (p.segments.take p.read.length).map fun i => (w.directory.files i).loadDk
  output : p.ended = some 0 → (w.directory.files p.outputFilename).kv =
    some (mergedDictionary (p.segments.map fun i => (w.dict i, (w.directory.files i).loadDk)))
  during : ∀ i ∈ p.segments, ∀ j ∈ p.segments, ∀ k ∈ w.during i, (w.dict j k).isSome →
    k ∈ w.during j

/-- Two jobs have different outputs and, while they are pending, no segment in common. -/
def Apart (p q : MergeJob) : Prop :=
  p.outputFilename ≠ q.outputFilename ∧
    (p.pending = true → q.pending = true → List.Disjoint p.segments q.segments)

/-- **The invariant**, for the jobs that are still in the list. -/
structure Inv (w : Writer V) (jobs : List MergeJob) : Prop where
  nodup : w.segments.Nodup
  lt : ∀ i ∈ w.segments, i < w.nextFile
  fresh : ∀ i, w.nextFile ≤ i →
    (w.directory.files i).dk = none ∧ (w.directory.files i).dkm = none
  ok : ∀ i ∈ w.segments, SegmentOk (w.directory.files i) (w.object i)
  toc : w.directory.toc.getD [] = w.segments
  closed : w.segments.Pairwise fun i j =>
    ∀ k ∈ w.deleted j, (w.dict j k).isSome → (w.dict i k).isSome → k ∈ w.deleted i
  synced : w.anyDelete = false → ∀ i ∈ w.segments, w.onDisk i = w.deleted i
  job : ∀ p ∈ jobs, JobOk w p
  pending : ∀ p ∈ jobs, p.pending = true → PendingOk w p
  apart : jobs.Pairwise Apart
  outputs : ∀ p ∈ jobs, ∀ q ∈ jobs, q.outputFilename ∉ p.segments

/-- What a running merge leaves out is deleted on disk in all older segments. -/
def Covered (w : Writer V) : Prop := w.segments.Pairwise fun i j =>
  (w.object j).inMerge = true → ∀ k ∈ (w.directory.files j).loadDk, (w.dict j k).isSome →
    (w.dict i k).isSome → k ∈ w.onDisk i

variable {w w' : Writer V} {jobs jobs' : List MergeJob} {p : MergeJob}

/-- Everything deleted is on disk. -/
theorem Inv.covered (h : Inv w jobs) (hd : ∀ i ∈ w.segments, w.onDisk i = w.deleted i) :
    Covered w := by
  refine h.closed.imp_of_mem fun {i j} hi hj hc _ k hk hj' hi' => ?_
  rw [hd i hi]
  refine hc k ?_ hj' hi'
  exact hd j hj ▸ Finset.mem_union_left _ hk

/-! ## Frames -/

theorem JobOk.frame (h : JobOk w p) (hn : w.nextFile ≤ w'.nextFile)
    (ho : p.outputFilename ∉ w'.segments)
    (hf : (w'.directory.files p.outputFilename).dk = (w.directory.files p.outputFilename).dk ∧
      (w'.directory.files p.outputFilename).dkm = (w.directory.files p.outputFilename).dkm) :
    JobOk w' p where
  nodup := h.nodup
  lt i hi := (h.lt i hi).trans_le hn
  outLt := h.outLt.trans_le hn
  outNew := ho
  outFiles := by rw [hf.1, hf.2]; exact h.outFiles
  notDone := h.notDone
  finished := h.finished

theorem PendingOk.frame (h : PendingOk w p) (hadj : p.segments <:+: w'.segments)
    (hobj : ∀ i ∈ p.segments, (w'.object i).inMerge = (w.object i).inMerge ∧
      w'.dict i = w.dict i ∧ w'.during i = w.during i ∧
      (w'.directory.files i).loadDk = (w.directory.files i).loadDk)
    (hout : (w'.directory.files p.outputFilename).kv = (w.directory.files p.outputFilename).kv) :
    PendingOk w' p where
  adjacent := hadj
  nonempty := h.nonempty
  marked i hi := (hobj i hi).1.trans (h.marked i hi)
  read := h.read.trans (List.map_congr_left fun i hi =>
    (hobj i (List.mem_of_mem_take hi)).2.2.2.symm)
  output he := by
    rw [hout, h.output he]
    refine congrArg (some ∘ mergedDictionary) (List.map_congr_left fun i hi => ?_)
    rw [(hobj i hi).2.1, (hobj i hi).2.2.2]
  during i hi j hj k hk hd := by
    rw [(hobj i hi).2.2.1] at hk
    rw [(hobj j hj).2.1] at hd
    rw [(hobj j hj).2.2.1]
    exact h.during i hi j hj k hk hd

/-- A job has moved on. -/
structure Follows (p p' : MergeJob) : Prop where
  segments : p'.segments = p.segments
  output : p'.outputFilename = p.outputFilename
  pending : p'.pending = true → p.pending = true

theorem Follows.refl (p : MergeJob) : Follows p p := ⟨rfl, rfl, id⟩

theorem Apart.follows {p p' q q' : MergeJob} (h : Apart p q) (hp : Follows p p')
    (hq : Follows q q') : Apart p' q' := by
  refine ⟨by rw [hp.output, hq.output]; exact h.1, fun h₁ h₂ => ?_⟩
  rw [hp.segments, hq.segments]
  exact h.2 (hp.pending h₁) (hq.pending h₂)

/-- One job has moved on. -/
theorem Inv.follow {a b : List MergeJob} {p' : MergeJob} (h : Inv w (a ++ p :: b))
    (hp : Follows p p') (hjob : JobOk w p') (hpending : p'.pending = true → PendingOk w p') :
    Inv w (a ++ p' :: b) := by
  have hmem : ∀ q ∈ a ++ p' :: b, q = p' ∨ q ∈ a ++ p :: b := by
    intro q hq
    simp only [List.mem_append, List.mem_cons] at hq ⊢
    tauto
  refine ⟨h.nodup, h.lt, h.fresh, h.ok, h.toc, h.closed, h.synced, ?_, ?_, ?_, ?_⟩
  · intro q hq
    rcases hmem q hq with rfl | hq
    · exact hjob
    · exact h.job q hq
  · intro q hq hpend
    rcases hmem q hq with rfl | hq
    · exact hpending hpend
    · exact h.pending q hq hpend
  · have ha := h.apart
    rw [List.pairwise_append, List.pairwise_cons] at ha ⊢
    obtain ⟨h₁, ⟨h₂, h₃⟩, h₄⟩ := ha
    refine ⟨h₁, ⟨fun q hq => (h₂ q hq).follows hp (.refl q), h₃⟩, fun x hx y hy => ?_⟩
    rcases List.mem_cons.mp hy with rfl | hy
    · exact (h₄ x hx p List.mem_cons_self).follows (.refl x) hp
    · exact h₄ x hx y (List.mem_cons_of_mem _ hy)
  · have hp' : p ∈ a ++ p :: b := by simp
    have key : ∀ q ∈ a ++ p' :: b, ∃ q₀ ∈ a ++ p :: b, q.segments = q₀.segments ∧
        q.outputFilename = q₀.outputFilename := by
      intro q hq
      rcases hmem q hq with rfl | hq
      · exact ⟨p, hp', hp.segments, hp.output⟩
      · exact ⟨q, hq, rfl, rfl⟩
    intro x hx y hy
    obtain ⟨x₀, hx₀, hs, -⟩ := key x hx
    obtain ⟨y₀, hy₀, -, ho⟩ := key y hy
    rw [hs, ho]
    exact h.outputs x₀ hx₀ y₀ hy₀

/-- Jobs may leave. -/
theorem Inv.sublist (h : Inv w jobs) (hs : jobs'.Sublist jobs) : Inv w jobs' :=
  ⟨h.nodup, h.lt, h.fresh, h.ok, h.toc, h.closed, h.synced, fun p hp => h.job p (hs.mem hp),
    fun p hp => h.pending p (hs.mem hp), h.apart.sublist hs,
    fun p hp q hq => h.outputs p (hs.mem hp) q (hs.mem hq)⟩

/-! ## A method called on several segments -/

section Act

variable {act : Act V} {is : List Nat}

/-- The method keeps a segment in the list as it is, apart from what its files say. -/
structure ActOk (act : Act V) (w : Writer V) (i : Nat) : Prop where
  ok : SegmentOk (SegmentFileOp.applyAll (w.directory.files i)
    (act (w.directory.files i) (w.object i)).2) (act (w.directory.files i) (w.object i)).1
  dict : (act (w.directory.files i) (w.object i)).1.dictionary = w.dict i
  deleted : (act (w.directory.files i) (w.object i)).1.allDeleted = w.deleted i
  grows : w.onDisk i ⊆ (SegmentFileOp.applyAll (w.directory.files i)
    (act (w.directory.files i) (w.object i)).2).deleted

theorem foldl_actOn_dict (hnd : is.Nodup) (hact : ∀ i ∈ is, i ∈ w.segments → ActOk act w i)
    {i : Nat} (hi : i ∈ w.segments) : (is.foldl (actOn act) w).dict i = w.dict i ∧
      (is.foldl (actOn act) w).deleted i = w.deleted i := by
  rw [dict, deleted, foldl_actOn_object act w hnd]
  split
  · next his => exact ⟨(hact i his hi).dict, (hact i his hi).deleted⟩
  · exact ⟨rfl, rfl⟩

theorem Inv.acted (h : Inv w jobs) (hnd : is.Nodup) (hlt : ∀ i ∈ is, i < w.nextFile)
    (hout : ∀ p ∈ jobs, p.outputFilename ∉ is)
    (hact : ∀ i ∈ is, i ∈ w.segments → ActOk act w i)
    (hpend : ∀ p ∈ jobs, p.pending = true → ∀ i ∈ p.segments, i ∈ is →
      (act (w.directory.files i) (w.object i)).1.inMerge = true ∧
      (act (w.directory.files i) (w.object i)).1.deletedKeysDuringMergeForWrite = w.during i ∧
      (SegmentFileOp.applyAll (w.directory.files i)
        (act (w.directory.files i) (w.object i)).2).loadDk = (w.directory.files i).loadDk) :
    Inv (is.foldl (actOn act) w) jobs := by
  obtain ⟨-, hseg, -, hany, -, hnext, htoc⟩ := foldl_actOn_kept act w hnd
  have hobj := foldl_actOn_object act w hnd
  have hfiles := foldl_actOn_files act w hnd
  have hfix : ∀ i, i ∉ is → (is.foldl (actOn act) w).object i = w.object i ∧
      (is.foldl (actOn act) w).directory.files i = w.directory.files i := by
    intro i hi
    rw [hobj, hfiles, if_neg hi, if_neg hi]
    exact ⟨rfl, rfl⟩
  have hkept := fun {i : Nat} (hi : i ∈ w.segments) => foldl_actOn_dict hnd hact hi
  have hok : ∀ i ∈ w.segments, SegmentOk ((is.foldl (actOn act) w).directory.files i)
      ((is.foldl (actOn act) w).object i) := by
    intro i hi
    by_cases his : i ∈ is
    · rw [hobj, hfiles, if_pos his, if_pos his]
      exact (hact i his hi).ok
    · rw [(hfix i his).1, (hfix i his).2]
      exact h.ok i hi
  refine ⟨hseg ▸ h.nodup, ?_, ?_, ?_, ?_, ?_, ?_, ?_, ?_, h.apart, h.outputs⟩
  · rw [hseg, hnext]
    exact h.lt
  · intro i hi
    rw [hnext] at hi
    rw [(hfix i fun his => absurd (hlt i his) (by omega)).2]
    exact h.fresh i hi
  · rw [hseg]
    exact hok
  · rw [htoc, hseg]
    exact h.toc
  · rw [hseg]
    refine h.closed.imp_of_mem fun {i j} hi hj hc => ?_
    rw [(hkept hi).1, (hkept hi).2, (hkept hj).1, (hkept hj).2]
    exact hc
  · rw [hany, hseg]
    intro hfalse i hi
    refine Finset.Subset.antisymm (hok i hi).onDisk ?_
    change (is.foldl (actOn act) w).deleted i ⊆ _
    rw [(hkept hi).2, ← h.synced hfalse i hi, onDisk, onDisk, hfiles]
    split
    · next his => exact (hact i his hi).grows
    · exact subset_rfl
  · intro p hp
    refine (h.job p hp).frame hnext.ge (hseg ▸ (h.job p hp).outNew) ?_
    rw [(hfix _ (hout p hp)).2]
    exact ⟨rfl, rfl⟩
  · intro p hp hpending
    have hpok := h.pending p hp hpending
    refine hpok.frame (hseg ▸ hpok.adjacent) (fun i hi => ?_) (by rw [(hfix _ (hout p hp)).2])
    have hi' := hpok.adjacent.mem hi
    refine ⟨?_, (hkept hi').1, ?_, ?_⟩
    · rw [hobj]
      split
      · next his => exact (hpend p hp hpending i hi his).1.trans (hpok.marked i hi).symm
      · rfl
    · rw [during, hobj]
      split
      · next his => exact (hpend p hp hpending i hi his).2.1
      · rfl
    · rw [hfiles]
      split
      · next his => exact (hpend p hp hpending i hi his).2.2
      · rfl

/-- A method that marks no segment. -/
theorem Covered.acted (h : Covered w) (hnd : is.Nodup)
    (hact : ∀ i ∈ is, i ∈ w.segments → ActOk act w i)
    (hmark : ∀ i ∈ is, i ∈ w.segments →
      (act (w.directory.files i) (w.object i)).1.inMerge = true →
      (w.object i).inMerge = true ∧ (SegmentFileOp.applyAll (w.directory.files i)
        (act (w.directory.files i) (w.object i)).2).loadDk = (w.directory.files i).loadDk) :
    Covered (is.foldl (actOn act) w) := by
  obtain ⟨-, hseg, -⟩ := foldl_actOn_kept act w hnd
  unfold Covered
  rw [hseg]
  refine h.imp_of_mem fun {i j} hi hj hc hm k hk hdj hdi => ?_
  rw [(foldl_actOn_dict hnd hact hi).1] at hdi
  rw [(foldl_actOn_dict hnd hact hj).1] at hdj
  have hgrow : w.onDisk i ⊆ (is.foldl (actOn act) w).onDisk i := by
    rw [onDisk, onDisk, foldl_actOn_files act w hnd]
    split
    · next his => exact (hact i his hi).grows
    · exact subset_rfl
  rw [foldl_actOn_object act w hnd] at hm
  rw [foldl_actOn_files act w hnd] at hk
  refine hgrow ?_
  by_cases hjs : j ∈ is
  · rw [if_pos hjs] at hm hk
    obtain ⟨hm', hl⟩ := hmark j hjs hj hm
    exact hc hm' k (hl ▸ hk) hdj hdi
  · rw [if_neg hjs] at hm hk
    exact hc hm k hk hdj hdi

theorem newestWins_acted (hnd : is.Nodup) (hact : ∀ i ∈ is, i ∈ w.segments → ActOk act w i)
    (k : Key) : (is.foldl (actOn act) w).newestWins k = w.newestWins k := by
  obtain ⟨-, hseg, -⟩ := foldl_actOn_kept act w hnd
  rw [newestWins, newestWins, hseg]
  refine valueOf_congr fun i hi => ?_
  rw [(foldl_actOn_dict hnd hact hi).1, (foldl_actOn_dict hnd hact hi).2]
  exact ⟨rfl, Iff.rfl⟩

end Act

end Writer
end Keyvi.Index
