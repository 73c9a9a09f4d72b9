import Mathlib
import Keyvi.Index.WriterInvariant

/-!
# The operations of the writer keep the invariant

Everything but the scheduled task: deletes, `PersistDeletes`, `Compile`, and the steps of the merge
processes. For each, what becomes of the newest-wins map of the segment list is said as well.
-/

namespace Keyvi.Index
namespace Writer

open NewestWins

variable {V : Type} {w w' : Writer V} {jobs : List MergeJob}

/-! ## Delete -/

theorem delete_dict (h : Inv w jobs) (k : Key) (i : Nat) : (w.delete k).dict i = w.dict i := by
  simp only [delete, dict]
  split
  · next hi => exact ((h.ok i hi).deleteKey_kept _ k).1
  · rfl

theorem delete_deleted (h : Inv w jobs) (k : Key) {i : Nat} (hi : i ∈ w.segments) :
    (w.delete k).deleted i =
      if (w.dict i k).isSome then insert k (w.deleted i) else w.deleted i := by
  simp only [delete, deleted, if_pos hi]
  exact (h.ok i hi).allDeleted_deleteKey _ k

theorem delete_inMerge (h : Inv w jobs) (k : Key) (i : Nat) :
    ((w.delete k).object i).inMerge = (w.object i).inMerge := by
  simp only [delete]
  split
  · next hi => exact ((h.ok i hi).deleteKey_kept _ k).2.1
  · rfl

theorem delete_during (h : Inv w jobs) (k : Key) {i : Nat} (hi : i ∈ w.segments)
    (hm : (w.object i).inMerge = true) : (w.delete k).during i =
      if (w.dict i k).isSome then insert k (w.during i) else w.during i := by
  simp only [delete, during, if_pos hi]
  exact (h.ok i hi).during_deleteKey hm _ k

theorem mem_delete_deleted (h : Inv w jobs) {k k' : Key} {i : Nat} (hi : i ∈ w.segments) :
    k' ∈ (w.delete k).deleted i ↔ k' ∈ w.deleted i ∨ k' = k ∧ (w.dict i k).isSome = true := by
  rw [delete_deleted h k hi]
  split <;> simp [*, or_comm]

theorem Inv.delete (h : Inv w jobs) (k : Key) : Inv (w.delete k) jobs where
  nodup := h.nodup
  lt := h.lt
  fresh := h.fresh
  ok i hi := by
    simp only [Writer.delete, if_pos (show i ∈ w.segments from hi)]
    exact (h.ok i hi).deleteKey k
  toc := h.toc
  closed := by
    refine h.closed.imp_of_mem fun {i j} hi hj hc k' hk' hj' hi' => ?_
    rw [delete_dict h] at hj' hi'
    rw [mem_delete_deleted h hj] at hk'
    rw [mem_delete_deleted h hi]
    rcases hk' with hk' | ⟨rfl, -⟩
    · exact .inl (hc k' hk' hj' hi')
    · exact .inr ⟨rfl, hi'⟩
  synced hf := by cases hf
  job p hp := (h.job p hp).frame le_rfl (h.job p hp).outNew ⟨rfl, rfl⟩
  pending p hp hpend := by
    have hpok := h.pending p hp hpend
    have hmem : ∀ {i}, i ∈ p.segments → i ∈ w.segments := fun hi => hpok.adjacent.mem hi
    refine ⟨hpok.adjacent, hpok.nonempty, fun i hi => ?_, hpok.read, fun he => ?_,
      fun i hi j hj k' hk' hd => ?_⟩
    · rw [delete_inMerge h]
      exact hpok.marked i hi
    · simp only [delete_dict h]
      exact hpok.output he
    · rw [delete_dict h] at hd
      rw [delete_during h k (hmem hi) (hpok.marked i hi)] at hk'
      rw [delete_during h k (hmem hj) (hpok.marked j hj)]
      by_cases hk : k' = k
      · subst hk
        rw [if_pos hd]
        exact Finset.mem_insert_self _ _
      · have hold : k' ∈ w.during i := by
          split at hk'
          · exact (Finset.mem_insert.mp hk').resolve_left hk
          · exact hk'
        have hnew := hpok.during i hi j hj k' hold hd
        split
        · exact Finset.mem_insert_of_mem hnew
        · exact hnew
  apart := h.apart
  outputs := h.outputs

theorem Covered.delete (hc : Covered w) (h : Inv w jobs) (k : Key) : Covered (w.delete k) := by
  refine List.Pairwise.imp (fun {i j} hcov hm k' hk' hj hi => ?_) hc
  rw [delete_inMerge h] at hm
  rw [delete_dict h] at hj hi
  exact hcov hm k' hk' hj hi

/-- A deleted key is gone, whatever the segments held. -/
theorem newestWins_delete_self (h : Inv w jobs) (k : Key) : (w.delete k).newestWins k = none :=
  valueOf_eq_none fun i hi hd => by
    rw [delete_dict h] at hd
    exact (mem_delete_deleted h hi).mpr (.inr ⟨rfl, hd⟩)

theorem newestWins_delete_of_ne (h : Inv w jobs) {k k' : Key} (hk : k' ≠ k) :
    (w.delete k).newestWins k' = w.newestWins k' :=
  valueOf_congr fun i hi => by
    rw [delete_dict h, mem_delete_deleted h hi]
    simp [hk]

/-! ## PersistDeletes -/

theorem actOk_persistReload (h : Inv w jobs) {i : Nat} (hi : i ∈ w.segments) :
    ActOk persistReload w i := by
  obtain ⟨has, keys, he⟩ := persistReload_kept (w.directory.files i) (w.object i)
  refine ⟨(h.ok i hi).persistReload, by rw [he]; rfl, by rw [he]; rfl, ?_⟩
  change _ ⊆ (SegmentFileOp.applyAll _ (w.object i).persist.2).deleted
  rw [(h.ok i hi).deleted_persist]
  exact (h.ok i hi).onDisk

theorem persistDeletes_eq (w : Writer V) : w.persistDeletes =
    { (if w.anyDelete then w.segments.foldl (actOn persistReload) w else w) with
      anyDelete := false } := by
  rw [persistDeletes, persistAndReload_eq]

theorem persistDeletes_kept (h : w.segments.Nodup) :
    w.persistDeletes.compiler = w.compiler ∧ w.persistDeletes.segments = w.segments ∧
      w.persistDeletes.mergeJobs = w.mergeJobs ∧ w.persistDeletes.anyDelete = false := by
  obtain ⟨hc, hs, hm, -⟩ := foldl_actOn_kept persistReload w h
  rw [persistDeletes_eq]
  split
  · exact ⟨hc, hs, hm, rfl⟩
  · exact ⟨rfl, rfl, rfl, rfl⟩

theorem Inv.acted_persistReload (h : Inv w jobs) :
    Inv (w.segments.foldl (actOn persistReload) w) jobs := by
  refine h.acted h.nodup h.lt (fun p hp => (h.job p hp).outNew)
    (fun i _ hi => actOk_persistReload h hi) fun p hp hpend i hi _ => ?_
  have hpok := h.pending p hp hpend
  obtain ⟨has, keys, he⟩ := persistReload_kept (w.directory.files i) (w.object i)
  rw [he]
  exact ⟨hpok.marked i hi, rfl, loadDk_persist (hpok.marked i hi)⟩

/-- After `PersistDeletes` the files say what the objects say. -/
theorem onDisk_persistDeletes (h : Inv w jobs) {i : Nat} (hi : i ∈ w.segments) :
    w.persistDeletes.onDisk i = w.persistDeletes.deleted i := by
  rw [persistDeletes_eq]
  cases hany : w.anyDelete with
  | false =>
    rw [if_neg Bool.false_ne_true]
    exact h.synced hany i hi
  | true =>
    rw [if_pos rfl]
    change (w.segments.foldl (actOn persistReload) w).onDisk i =
      (w.segments.foldl (actOn persistReload) w).deleted i
    rw [(foldl_actOn_dict h.nodup (fun i _ hi => actOk_persistReload h hi) hi).2, onDisk,
      foldl_actOn_files _ w h.nodup, if_pos hi]
    exact (h.ok i hi).deleted_persist

theorem Inv.persistDeletes (h : Inv w jobs) : Inv w.persistDeletes jobs := by
  have hsync : ∀ i ∈ w.segments, w.persistDeletes.onDisk i = w.persistDeletes.deleted i :=
    fun i hi => onDisk_persistDeletes h hi
  have hseg := (persistDeletes_kept h.nodup).2.1
  have hact : Inv (if w.anyDelete then w.segments.foldl (actOn persistReload) w else w) jobs := by
    split
    · exact h.acted_persistReload
    · exact h
  rw [persistDeletes_eq] at hsync hseg ⊢
  exact ⟨hact.nodup, hact.lt, hact.fresh, hact.ok, hact.toc, hact.closed,
    fun _ i hi => hsync i (hseg ▸ hi), fun p hp => { hact.job p hp with },
    fun p hp hpend => { hact.pending p hp hpend with }, hact.apart, hact.outputs⟩

theorem covered_persistDeletes (h : Inv w jobs) : Covered w.persistDeletes :=
  h.persistDeletes.covered fun _ hi =>
    onDisk_persistDeletes h ((persistDeletes_kept h.nodup).2.1 ▸ hi)

theorem newestWins_persistDeletes (h : Inv w jobs) (k : Key) :
    w.persistDeletes.newestWins k = w.newestWins k := by
  rw [persistDeletes_eq]
  split
  · exact newestWins_acted h.nodup (fun i _ hi => actOk_persistReload h hi) k
  · rfl

/-! ## Compile -/

/-- The last entry for a key in the compiler. -/
def lastEntry (w : Writer V) (k : Key) : Option (Option V) :=
  answer (fun e k => if e.1 == k then some e.2 else none) (w.compiler.getD []) k

theorem compiled_eq (kvs : List (Key × Option V)) (k : Key) : compiled kvs k =
    (answer (fun e k => if e.1 == k then some e.2 else none) kvs k).join := by
  induction kvs using List.reverseRecOn with
  | nil => rfl
  | append_singleton kvs e ih =>
    rw [compiled] at ih ⊢
    rw [List.reverse_append, List.reverse_singleton, List.singleton_append, List.find?_cons,
      answer_append]
    by_cases he : e.1 = k
    · subst he
      cases e.2 <;> simp [answer_cons]
    · simpa [answer_cons, he, beq_false_of_ne he] using ih

theorem compile_none (h : w.compiler = none) : w.compile = w := by
  rw [compile, h]

theorem compile_some {kvs : List (Key × Option V)} (h : w.compiler = some kvs) : w.compile =
    { w with
      compiler := none
      segments := w.segments ++ [w.nextFile]
      nextFile := w.nextFile + 1
      object := Function.update w.object w.nextFile
        ⟨compiled kvs, false, ∅, ∅, ∅, true, false, false⟩
      directory :=
        { files := Function.update w.directory.files w.nextFile
            { w.directory.files w.nextFile with kv := some (compiled kvs) }
          toc := some (w.segments ++ [w.nextFile])
          tocPart := none }
      journal := w.journal ++ [.segment w.nextFile (.writeKv (compiled kvs)),
        .writeTocPart (w.segments ++ [w.nextFile]), .renameToc] } := by
  rw [compile, h]
  simp [writeToc, emit, setObject, Directory.apply, SegmentFileOp.apply, Segment.ofPath]

theorem compile_kept : w.compile.compiler = none ∧ w.compile.mergeJobs = w.mergeJobs ∧
    w.compile.anyDelete = w.anyDelete := by
  cases hc : w.compiler with
  | none =>
    rw [compile_none hc]
    exact ⟨hc, rfl, rfl⟩
  | some kvs =>
    rw [compile_some hc]
    exact ⟨rfl, rfl, rfl⟩

theorem Inv.ne_nextFile (h : Inv w jobs) {i : Nat} (hi : i ∈ w.segments) : i ≠ w.nextFile :=
  (h.lt i hi).ne

theorem Inv.compile (h : Inv w jobs) : Inv w.compile jobs := by
  cases hc : w.compiler with
  | none =>
    rw [compile_none hc]
    exact h
  | some kvs =>
    rw [compile_some hc]
    have hnew : w.nextFile ∉ w.segments := fun hi => h.ne_nextFile hi rfl
    have hjobs : ∀ p ∈ jobs, p.outputFilename ≠ w.nextFile := fun p hp => (h.job p hp).outLt.ne
    refine ⟨?_, ?_, ?_, ?_, rfl, ?_, ?_, ?_, ?_, h.apart, h.outputs⟩
    · exact h.nodup.append (List.nodup_singleton _) (by simpa using hnew)
    · simp only [List.mem_append, List.mem_singleton]
      rintro i (hi | rfl)
      · exact (h.lt i hi).trans (Nat.lt_succ_self _)
      · exact Nat.lt_succ_self _
    · intro i hi
      have hne : i ≠ w.nextFile := by
        rintro rfl
        exact absurd hi (by simp)
      simpa [hne] using h.fresh i (Nat.le_of_succ_le hi)
    · simp only [List.mem_append, List.mem_singleton]
      rintro i (hi | rfl)
      · simpa [h.ne_nextFile hi] using h.ok i hi
      · obtain ⟨hdk, hdkm⟩ := h.fresh w.nextFile le_rfl
        simpa [Segment.ofPath] using segmentOk_compiled
          { w.directory.files w.nextFile with kv := some (compiled kvs) } (compiled kvs) rfl hdk hdkm
    · refine List.pairwise_append.mpr ⟨?_, List.pairwise_singleton _ _, ?_⟩
      · refine h.closed.imp_of_mem fun {i j} hi hj hcl => ?_
        simpa [deleted, dict, h.ne_nextFile hi, h.ne_nextFile hj] using hcl
      · intro i _ j hj k hk
        obtain rfl := List.mem_singleton.mp hj
        simp [deleted, Segment.allDeleted] at hk
    · simp only [List.mem_append, List.mem_singleton]
      rintro hany i (hi | rfl)
      · simpa [onDisk, deleted, h.ne_nextFile hi] using h.synced hany i hi
      · obtain ⟨hdk, hdkm⟩ := h.fresh w.nextFile le_rfl
        simp [onDisk, deleted, Segment.allDeleted, SegmentFiles.deleted, SegmentFiles.loadDk,
          SegmentFiles.loadDkm, hdk, hdkm]
    · intro p hp
      refine (h.job p hp).frame (Nat.le_succ _) ?_ ?_
      · simpa [hjobs p hp] using (h.job p hp).outNew
      · simp [hjobs p hp]
    · intro p hp hpend
      have hpok := h.pending p hp hpend
      refine hpok.frame (hpok.adjacent.trans (List.prefix_append _ _).isInfix) (fun i hi => ?_) ?_
      · simp [dict, during, h.ne_nextFile (hpok.adjacent.mem hi)]
      · simp [hjobs p hp]

theorem Covered.compile (hcov : Covered w) (h : Inv w jobs) : Covered w.compile := by
  cases hc : w.compiler with
  | none =>
    rw [compile_none hc]
    exact hcov
  | some kvs =>
    rw [compile_some hc]
    refine List.pairwise_append.mpr ⟨?_, List.pairwise_singleton _ _, ?_⟩
    · refine List.Pairwise.imp_of_mem (fun {i j} hi hj hcl => ?_) hcov
      simpa [onDisk, dict, h.ne_nextFile hi, h.ne_nextFile hj] using hcl
    · intro i _ j hj hm
      obtain rfl := List.mem_singleton.mp hj
      simp at hm

/-- What has been added hides what the segments hold. -/
theorem newestWins_compile (h : Inv w jobs) (k : Key) :
    w.compile.newestWins k = (w.lastEntry k).join.or (w.newestWins k) := by
  cases hc : w.compiler with
  | none =>
    rw [compile_none hc, lastEntry, hc]
    rfl
  | some kvs =>
    have hlast : (w.lastEntry k).join = compiled kvs k := by
      rw [compiled_eq, lastEntry, hc]
      rfl
    have hold : answer (tells w.compile.dict w.compile.deleted) w.segments k =
        answer (tells w.dict w.deleted) w.segments k := by
      rw [compile_some hc]
      refine answer_congr fun i hi => tells_congr ?_ ?_
      · simp [dict, h.ne_nextFile hi]
      · simp [deleted, h.ne_nextFile hi]
    have hseg : w.compile.segments = w.segments ++ [w.nextFile] := by rw [compile_some hc]
    have hnew : tells w.compile.dict w.compile.deleted w.nextFile k =
        (compiled kvs k).map some := by
      rw [compile_some hc]
      simp [tells, dict, deleted, Segment.allDeleted]
    rw [newestWins, hseg, valueOf_append_singleton, hold, hnew, hlast, newestWins, valueOf]
    cases compiled kvs k <;> rfl

/-! ## The compiler and the jobs -/

/-- The invariant does not speak of the compiler and of what the writer may do. -/
theorem Inv.keep (h : Inv w jobs) (c : Option (List (Key × Option V))) (js : List MergeJob)
    (b : Bool) : Inv { w with compiler := c, mergeJobs := js, mergeEnabled := b } jobs :=
  ⟨h.nodup, h.lt, h.fresh, h.ok, h.toc, h.closed, h.synced, fun p hp => { h.job p hp with },
    fun p hp hpend => { h.pending p hp hpend with }, h.apart, h.outputs⟩

theorem bulkAdd_eq (w : Writer V) (kvs : List (Key × V)) : w.bulkAdd kvs =
    { w with compiler := some (w.compiler.getD [] ++ kvs.map fun kv => (kv.1, some kv.2)) } := by
  have hfold : ∀ (kvs : List (Key × V)) (c : List (Key × Option V)),
      kvs.foldl (fun w kv => w.add kv.1 kv.2) { w with compiler := some c } =
        { w with compiler := some (c ++ kvs.map fun kv => (kv.1, some kv.2)) } := by
    intro kvs
    induction kvs with
    | nil => simp
    | cons kv kvs ih =>
      intro c
      rw [List.foldl_cons, add, Option.getD_some, ih]
      simp
  exact hfold kvs _

/-- Loading the lists does nothing more. -/
theorem Inv.lazyLoad (h : Inv w jobs) {is : List Nat} (his : ∀ i ∈ is, i ∈ w.segments) :
    w.lazyLoad is = w := by
  have hobj : (fun i => if i ∈ is then (w.object i).lazyLoadDeletedKeys (w.directory.files i)
      else w.object i) = w.object := by
    funext i
    split
    · next hi => exact (h.ok i (his i hi)).lazyLoad _
    · rfl
  rw [Writer.lazyLoad, hobj]

theorem Inv.read (h : Inv w jobs) (k : Key) : w.read k = w := by
  rw [Writer.read]
  split
  · rfl
  · next i hi =>
    refine h.lazyLoad fun j hj => ?_
    obtain rfl := List.mem_singleton.mp hj
    exact List.mem_reverse.mp (List.mem_of_find?_eq_some hi)

/-! ## The steps of a merge -/

/-- A job is found to have ended. -/
theorem Inv.finish {a b : List MergeJob} {p : MergeJob} {code : Int} (h : Inv w (a ++ p :: b))
    (hf : p.processFinished = false) (he : p.ended = some code) :
    Inv w (a ++ { p with exitCode := code, processFinished := true } :: b) := by
  have hp : p ∈ a ++ p :: b := by simp
  have hpend : p.pending = true := by simp [MergeJob.pending, hf]
  refine h.follow ⟨rfl, rfl, fun _ => hpend⟩ ?_ fun _ => ?_
  · exact { h.job p hp with finished := fun _ => he }
  · exact { h.pending p hp hpend with }

theorem JobOk.running {p : MergeJob} (h : JobOk w p) (he : p.ended = none) :
    p.processFinished = false := by
  cases hf : p.processFinished with
  | false => rfl
  | true =>
    have hend := h.finished hf
    rw [he] at hend
    cases hend

theorem Inv.mergeReads {j : Nat} (h : Inv w w.mergeJobs) (hs : w.mergeReads j = some w') :
    Inv w' w'.mergeJobs ∧ ∃ jobs, w' = { w with mergeJobs := jobs } := by
  unfold Writer.mergeReads at hs
  split at hs
  · cases hs
  · next p hp =>
    split at hs
    · next i he hi =>
      obtain rfl := Option.some.inj hs
      refine ⟨?_, _, rfl⟩
      obtain ⟨hj, rfl⟩ := List.getElem?_eq_some_iff.mp hp
      set p := w.mergeJobs[j] with hpdef
      have hsplit : w.mergeJobs = w.mergeJobs.take j ++ p :: w.mergeJobs.drop (j + 1) := by simp [p]
      have hset : w.mergeJobs.set j { p with read := p.read ++ [(w.directory.files i).loadDk] } =
          w.mergeJobs.take j ++ { p with read := p.read ++ [(w.directory.files i).loadDk] } ::
            w.mergeJobs.drop (j + 1) := by
        rw [List.set_eq_take_append_cons_drop, if_pos hj]
      have hmem : p ∈ w.mergeJobs := List.getElem_mem hj
      have hpend : p.pending = true := by
        simp [MergeJob.pending, (h.job p hmem).running he]
      have hpok := h.pending p hmem hpend
      rw [hsplit] at h
      have hnew : Inv w (w.mergeJobs.take j ++
          { p with read := p.read ++ [(w.directory.files i).loadDk] } ::
            w.mergeJobs.drop (j + 1)) :=
        h.follow ⟨rfl, rfl, fun _ => hpend⟩ { h.job p (by simp) with } fun _ => ?_
      · rw [hset]
        exact hnew.keep _ _ _
      · refine { hpok with read := ?_ }
        obtain ⟨hlt, rfl⟩ := List.getElem?_eq_some_iff.mp hi
        rw [List.length_append, List.length_singleton, List.take_add_one, List.map_append, ← hpok.read,
          List.getElem?_eq_getElem hlt]
        rfl
    · cases hs

/-- The output of a running merge. -/
theorem Inv.writeOutput {a b : List MergeJob} {p : MergeJob} (h : Inv w (a ++ p :: b))
    (he : p.ended = none) (d : Dictionary V) :
    Inv (w.emit (.segment p.outputFilename (.writeKv d))) (a ++ p :: b) := by
  have hp : p ∈ a ++ p :: b := by simp
  have hne : ∀ i ∈ w.segments, i ≠ p.outputFilename := by
    rintro i hi rfl
    exact (h.job p hp).outNew hi
  have hother : ∀ q ∈ a ++ p :: b, q = p ∨ q.outputFilename ≠ p.outputFilename := by
    have ha := h.apart
    rw [List.pairwise_append, List.pairwise_cons] at ha
    obtain ⟨-, ⟨hb, -⟩, hab⟩ := ha
    intro q hq
    rcases List.mem_append.mp hq with hq | hq
    · exact .inr (hab q hq p List.mem_cons_self).1
    · rcases List.mem_cons.mp hq with rfl | hq
      · exact .inl rfl
      · exact .inr (hb q hq).1.symm
  have hlists : ∀ i, ((w.emit (.segment p.outputFilename (.writeKv d))).directory.files i).dk =
      (w.directory.files i).dk ∧
      ((w.emit (.segment p.outputFilename (.writeKv d))).directory.files i).dkm =
      (w.directory.files i).dkm := by
    intro i
    by_cases hi : i = p.outputFilename
    · subst hi
      simp [emit, Directory.apply, SegmentFileOp.apply]
    · simp [emit, Directory.apply, hi]
  refine ⟨h.nodup, h.lt, fun i hi => ?_, fun i hi => ?_, h.toc, h.closed, fun hany i hi => ?_,
    fun q hq => ?_, fun q hq hpend => ?_, h.apart, h.outputs⟩
  · rw [(hlists i).1, (hlists i).2]
    exact h.fresh i hi
  · simpa [emit, Directory.apply, hne i hi] using h.ok i hi
  · simpa [emit, Directory.apply, onDisk, deleted, hne i hi] using h.synced hany i hi
  · exact (h.job q hq).frame le_rfl (h.job q hq).outNew (hlists _)
  · have hqok := h.pending q hq hpend
    rcases hother q hq with rfl | ho
    · refine { hqok with read := hqok.read.trans ?_, output := fun hend => ?_ }
      · exact List.map_congr_left fun i hi => by
          simp [emit, Directory.apply, hne i (hqok.adjacent.mem (List.mem_of_mem_take hi))]
      · rw [he] at hend
        cases hend
    · refine hqok.frame hqok.adjacent (fun i hi => ⟨rfl, rfl, rfl, ?_⟩) ?_
      · simp [emit, Directory.apply, hne i (hqok.adjacent.mem hi)]
      · simp [emit, Directory.apply, ho]

theorem covered_writeOutput (hcov : Covered w) {i : Nat} (hi : i ∉ w.segments)
    (d : Dictionary V) : Covered (w.emit (.segment i (.writeKv d))) := by
  refine List.Pairwise.imp_of_mem (fun {o j} ho hj hc => ?_) hcov
  have hne : ∀ {x}, x ∈ w.segments → x ≠ i := fun hx he => hi (he ▸ hx)
  simpa [emit, Directory.apply, onDisk, dict, hne ho, hne hj] using hc

/-- What a merge does when it ends: nothing but the output and the exit code. -/
theorem mergeEnds_eq {j : Nat} {code : Int} (hs : w.mergeEnds j code = some w') :
    ∃ p a b, w.mergeJobs = a ++ p :: b ∧ p.ended = none ∧
      ((code = 0 ∧ p.read.length = p.segments.length ∧
          w' = { w.emit (.segment p.outputFilename (.writeKv (mergedDictionary
              ((p.segments.map w.dict).zip p.read)))) with
            mergeJobs := a ++ { p with ended := some code } :: b }) ∨
        (code ≠ 0 ∧ w' = { w with mergeJobs := a ++ { p with ended := some code } :: b })) := by
  unfold Writer.mergeEnds at hs
  split at hs
  · cases hs
  · next p hp =>
    obtain ⟨hj, rfl⟩ := List.getElem?_eq_some_iff.mp hp
    split at hs
    · cases hs
    · next he =>
      refine ⟨w.mergeJobs[j], w.mergeJobs.take j, w.mergeJobs.drop (j + 1), by simp,
        by simpa using he, ?_⟩
      simp only [List.set_eq_take_append_cons_drop, if_pos hj] at hs
      split at hs
      · next hcode =>
        split at hs
        · next hread => exact .inl ⟨hcode, hread, (Option.some.inj hs).symm⟩
        · cases hs
      · next hcode => exact .inr ⟨hcode, (Option.some.inj hs).symm⟩

theorem Inv.mergeEnds {j : Nat} {code : Int} (h : Inv w w.mergeJobs)
    (hs : w.mergeEnds j code = some w') : Inv w' w'.mergeJobs := by
  obtain ⟨p, a, b, hjobs, he, hcase⟩ := mergeEnds_eq hs
  rw [hjobs] at h
  have hp : p ∈ a ++ p :: b := by simp
  have hunfinished := (h.job p hp).running he
  have hpend : p.pending = true := by simp [MergeJob.pending, hunfinished]
  rcases hcase with ⟨rfl, hread, rfl⟩ | ⟨hcode, rfl⟩
  · have hreadAll := (h.pending p hp hpend).read
    rw [hread, List.take_length] at hreadAll
    have hzip : (p.segments.map w.dict).zip p.read =
        p.segments.map fun i => (w.dict i, (w.directory.files i).loadDk) := by
      rw [hreadAll, List.zip_map']
    rw [hzip]
    set d := mergedDictionary (p.segments.map fun i => (w.dict i, (w.directory.files i).loadDk))
      with hd
    have hout := h.writeOutput he d
    have hpok := hout.pending p hp hpend
    have hnew : Inv (w.emit (.segment p.outputFilename (.writeKv d)))
        (a ++ { p with ended := some 0 } :: b) := by
      refine hout.follow ⟨rfl, rfl, fun _ => hpend⟩ ?_ fun _ => ?_
      · exact { hout.job p hp with finished := fun hf => absurd (hunfinished.symm.trans hf) (by simp) }
      · refine { hpok with output := fun _ => ?_ }
        have hfiles : ∀ i ∈ p.segments,
            ((w.emit (.segment p.outputFilename (.writeKv d))).directory.files i).loadDk =
              (w.directory.files i).loadDk := by
          intro i hi
          have hne : i ≠ p.outputFilename := fun hio => h.outputs p hp p hp (hio ▸ hi)
          simp [emit, Directory.apply, hne]
        have hmap : (p.segments.map fun i =>
            ((w.emit (.segment p.outputFilename (.writeKv d))).dict i,
              ((w.emit (.segment p.outputFilename (.writeKv d))).directory.files i).loadDk)) =
            p.segments.map fun i => (w.dict i, (w.directory.files i).loadDk) :=
          List.map_congr_left fun i hi => by
            rw [hfiles i hi]
            rfl
        rw [hmap, ← hd]
        simp [emit, Directory.apply, SegmentFileOp.apply]
    exact hnew.keep _ _ _
  · have hnew : Inv w (a ++ { p with ended := some code } :: b) := by
      refine h.follow ⟨rfl, rfl, fun _ => hpend⟩ ?_ fun _ => ?_
      · exact { h.job p hp with finished := fun hf => absurd (hunfinished.symm.trans hf) (by simp) }
      · refine { h.pending p hp hpend with output := fun hend => ?_ }
        exact absurd (Option.some.inj hend) hcode
    exact hnew.keep _ _ _

theorem Inv.finalize {p p' : MergeJob} {a b : List MergeJob} (h : Inv w (a ++ p :: b))
    (hp : p.finalize = some p') : Inv w (a ++ p' :: b) := by
  unfold MergeJob.finalize at hp
  split at hp
  · obtain rfl := Option.some.inj hp
    exact h
  · next hf =>
    split at hp
    · next code he =>
      obtain rfl := Option.some.inj hp
      exact h.finish (by simpa using hf) he
    · cases hp

theorem Inv.finishPending (h : Inv w w.mergeJobs) (hs : w.finishPending = some w') :
    Inv w' w'.mergeJobs ∧ ∃ jobs, w' = { w.compile with mergeJobs := jobs } := by
  have hall : ∀ (ps a ps' : List MergeJob), ps.mapM MergeJob.finalize = some ps' →
      Inv w.compile (a ++ ps) → Inv w.compile (a ++ ps') := by
    intro ps
    induction ps with
    | nil =>
      intro a ps' hm hinv
      obtain rfl : [] = ps' := by simpa using hm
      exact hinv
    | cons p ps ih =>
      intro a ps' hm hinv
      rw [List.mapM_cons] at hm
      obtain ⟨p', hp', hm⟩ := Option.bind_eq_some_iff.mp hm
      obtain ⟨qs, hqs, hm⟩ := Option.bind_eq_some_iff.mp hm
      obtain rfl : p' :: qs = ps' := by simpa using hm
      have hnext := ih (a ++ [p']) qs hqs (by simpa using hinv.finalize hp')
      simpa using hnext
  unfold Writer.finishPending at hs
  obtain ⟨jobs, hjobs, rfl⟩ := Option.map_eq_some_iff.mp hs
  have hinv := hall w.compile.mergeJobs [] jobs hjobs (by
    rw [(compile_kept (w := w)).2.1]
    exact h.compile)
  exact ⟨hinv.keep _ _ _, jobs, rfl⟩

end Writer
end Keyvi.Index
