import Mathlib
import Keyvi.Index.WriterHistory

/-!
# Opening an index again

After a crash between any two file operations, or after the writer has been destroyed, the directory
is what is left. `Recoverable` says that what it answers is what some of the later events have made
of a key, and that this stays so when any of the deletes not yet written reaches the disk.
-/

namespace Keyvi.Index

open NewestWins

variable {V : Type} {k : Key}

/-- What a reader finds in a directory. -/
def Directory.lookup (d : Directory V) (k : Key) : Option V :=
  valueOf (fun i => (d.files i).kv.getD fun _ => none) (fun i => (d.files i).deleted)
    (d.toc.getD []) k

/-- It depends on the files of the segments in its table of contents only. -/
theorem Directory.lookup_congr {d d' : Directory V} (htoc : d'.toc = d.toc)
    (hfiles : ∀ i ∈ d.toc.getD [], d'.files i = d.files i) (k : Key) :
    d'.lookup k = d.lookup k := by
  rw [Directory.lookup, Directory.lookup, htoc]
  exact valueOf_congr fun i hi => by rw [hfiles i hi]; exact ⟨rfl, Iff.rfl⟩

namespace Writer

variable {w w' : Writer V} {jobs jobs' : List MergeJob} {settings : IndexSettings V}
  {start events : List (Event V)}

/-- A writer that has been opened on a directory finds in it what is there. -/
theorem lookup_loadIndex {atZero : Nat → Dictionary V} (d : Directory V) (n : Nat) {k : Key}
    (hzero : ∀ i, atZero i k = none) : (loadIndex d n).lookup atZero k = d.lookup k := by
  have hdict : ∀ i, ((loadIndex d n).object i).dictionary = (d.files i).kv.getD fun _ => none := by
    intro i
    simp only [loadIndex, Segment.ofPath, Segment.loadDeletedKeys, Bool.false_eq_true, if_false]
    split <;> rfl
  have hfind : ∀ l : List Nat, (loadIndex d n).find atZero k l.reverse =
      valueOf (fun i => (d.files i).kv.getD fun _ => none) (fun i => (d.files i).deleted) l k := by
    intro l
    induction l using List.reverseRecOn with
    | nil => rfl
    | append_singleton l i ih =>
      rw [List.reverse_append, List.reverse_singleton, List.singleton_append, find,
        valueOf_append_singleton, ih, hdict, tells, hzero, Option.or_none]
      rw [show (loadIndex d n).directory = d from rfl,
        show (loadIndex d n).object i = Segment.ofPath (d.files i)
          ((d.files i).kv.getD fun _ => none) false from rfl, isDeleted_ofPath]
      cases hd : (d.files i).kv.getD (fun _ => none) k with
      | none => simp [valueOf]
      | some v => simp
  exact hfind _

/-- A directory in which the segments are somewhere between their old and their new files. -/
theorem lookup_of_between (h : Inv w jobs) {d : Directory V} (htoc : d.toc = w.directory.toc)
    (hbetween : ∀ i ∈ w.segments, Between (w.directory.files i) (w.object i) (d.files i)) (k : Key) :
    d.lookup k = valueOf w.dict (fun i => (d.files i).deleted) w.segments k := by
  rw [Directory.lookup, htoc, h.toc]
  refine valueOf_congr fun i hi => ⟨?_, Iff.rfl⟩
  rw [(hbetween i hi).1, (h.ok i hi).kv]
  rfl

theorem lookup_directory (h : Inv w jobs) (k : Key) :
    w.directory.lookup k = valueOf w.dict w.onDisk w.segments k :=
  lookup_of_between h rfl (fun i hi => (h.ok i hi).between_self) k

/-! ## What may be found -/

/-- The value is what some of the later events have made of the key. -/
def Recovers (start events : List (Event V)) (k : Key) (value : Option V) : Prop :=
  ∃ done, done <+: events ∧ value = expected (start ++ done) k

theorem Recovers.later {value : Option V} (h : Recovers start events k value)
    (more : List (Event V)) : Recovers start (events ++ more) k value := by
  obtain ⟨done, hdone, rfl⟩ := h
  exact ⟨done, hdone.trans (List.prefix_append _ _), rfl⟩

theorem Recovers.full : Recovers start events k (expected (start ++ events) k) :=
  ⟨events, List.prefix_rfl, rfl⟩

/-- Every key is found as some of the later events have made it. -/
def Safe (start events : List (Event V)) (d : Directory V) : Prop :=
  ∀ k, Recovers start events k (d.lookup k)

/-- The directory is safe, also if any of the waiting deletes is written. -/
structure Recoverable (start events : List (Event V)) (w : Writer V) : Prop where
  lookup : Safe start events w.directory
  waiting : ∀ i ∈ w.segments, ∀ k ∈ w.deleted i, (w.dict i k).isSome → k ∉ w.onDisk i →
    Recovers start events k none

theorem Recoverable.later (h : Recoverable start events w) (more : List (Event V)) :
    Recoverable start (events ++ more) w :=
  ⟨fun k => (h.lookup k).later more,
    fun i hi k hk hd hnot => (h.waiting i hi k hk hd hnot).later more⟩

/-- Some of the waiting deletes are written. -/
theorem Recoverable.recovers {del : Nat → DeletedKeys} (h : Recoverable start events w)
    (hinv : Inv w jobs) (hdel : ∀ i ∈ w.segments, w.onDisk i ⊆ del i ∧ del i ⊆ w.deleted i)
    (k : Key) : Recovers start events k (valueOf w.dict del w.segments k) := by
  have hmore : ∀ i ∈ w.segments, w.dict i k = w.dict i k ∧ (k ∈ w.onDisk i → k ∈ del i) :=
    fun i hi => ⟨rfl, fun hk => (hdel i hi).1 hk⟩
  have hvalue := valueOf_between hmore
  rcases hvalue with heq | ⟨heq, i, hi, hd, hk, hnot⟩
  · rw [heq, ← lookup_directory hinv]
    exact h.lookup k
  · rw [heq]
    exact h.waiting i hi k ((hdel i hi).2 hk) hd hnot

theorem Recoverable.safe_of_between (h : Recoverable start events w) (hinv : Inv w jobs)
    {d : Directory V} (htoc : d.toc = w.directory.toc)
    (hbetween : ∀ i ∈ w.segments, Between (w.directory.files i) (w.object i) (d.files i)) :
    Safe start events d := fun k => by
  rw [lookup_of_between hinv htoc hbetween]
  exact h.recovers hinv (fun i hi => (hbetween i hi).2) k

/-- Everything has been written. -/
theorem recoverable_of_synced (h : Faithful start w) (hany : w.anyDelete = false)
    (hc : w.compiler = none) : Recoverable start [] w := by
  have hsync := h.inv.synced hany
  refine ⟨fun k => ⟨[], List.prefix_rfl, ?_⟩, fun i hi k hk _ hnot => ?_⟩
  · rw [lookup_directory h.inv, List.append_nil, ← h.value, current, lastEntry_of_none hc]
    exact valueOf_congr fun i hi => ⟨rfl, by rw [hsync i hi]⟩
  · rw [hsync i hi] at hnot
    exact absurd hk hnot

/-! ## Steps -/

/-- A method called on several segments, interrupted anywhere. -/
theorem Recoverable.acted {act : Act V} {is : List Nat} (h : Recoverable start events w)
    (hinv : Inv w jobs) (hnd : is.Nodup) (hact : ∀ i ∈ is, i ∈ w.segments → ActOk act w i)
    (hbetween : ∀ i ∈ is, i ∈ w.segments → ∀ m, Between (w.directory.files i) (w.object i)
      (SegmentFileOp.applyAll (w.directory.files i)
        ((act (w.directory.files i) (w.object i)).2.take m))) :
    Recoverable start events (is.foldl (actOn act) w) ∧
      Emits (Safe start events) w (is.foldl (actOn act) w) := by
  have hseg := (foldl_actOn_kept act w hnd).2.1
  have hemits : Emits (Safe start events) w (is.foldl (actOn act) w) := by
    refine ⟨actOps act w is, by rw [foldl_actOn act w hnd], foldl_actOn_directory act w hnd,
      fun n => ?_⟩
    obtain ⟨htoc, hfiles⟩ := replay_take_actOps act w w.directory n hnd fun _ _ => rfl
    refine h.safe_of_between hinv htoc fun i hi => ?_
    rcases hfiles i with hsame | ⟨his, m, hm⟩
    · rw [hsame]
      exact (hinv.ok i hi).between_self
    · rw [hm]
      exact hbetween i his hi m
  refine ⟨⟨hemits.last, fun i hi k hk hd hnot => ?_⟩, hemits⟩
  rw [hseg] at hi
  obtain ⟨hdict, hdel⟩ := foldl_actOn_dict hnd hact hi
  rw [hdict] at hd
  rw [hdel] at hk
  refine h.waiting i hi k hk hd fun hon => hnot ?_
  rw [onDisk, foldl_actOn_files act w hnd]
  split
  · next his => exact (hact i his hi).grows hon
  · exact hon

/-- From one state to the next, whatever is interrupted. -/
def Survives (start events : List (Event V)) (w w' : Writer V) : Prop :=
  Recoverable start events w' ∧ Emits (Safe start events) w w'

theorem Survives.trans {w₁ w₂ w₃ : Writer V} (h : Survives start events w₁ w₂)
    (h' : Survives start events w₂ w₃) : Survives start events w₁ w₃ :=
  ⟨h'.1, h.2.trans h'.2⟩

/-- Nothing is written and nothing more waits. -/
theorem Recoverable.quiet (h : Recoverable start events w) (hj : w'.journal = w.journal)
    (hdir : w'.directory = w.directory) (hseg : w'.segments = w.segments)
    (hobj : w'.object = w.object) : Survives start events w w' := by
  refine ⟨⟨hdir ▸ h.lookup, fun i hi k hk hd hnot => ?_⟩, .quiet h.lookup hj hdir⟩
  rw [deleted, hobj] at hk
  rw [dict, hobj] at hd
  rw [onDisk, hdir] at hnot
  exact h.waiting i (hseg ▸ hi) k hk hd hnot

theorem Recoverable.persistDeletes (h : Recoverable start events w) (hinv : Inv w jobs) :
    Survives start events w w.persistDeletes := by
  rw [persistDeletes_eq]
  split
  · obtain ⟨hrec, hemits⟩ := h.acted hinv hinv.nodup
      (fun i _ hi => actOk_persistReload hinv hi) fun i _ hi m => (hinv.ok i hi).between_persist m
    exact ⟨⟨hrec.lookup, hrec.waiting⟩, hemits⟩
  · exact h.quiet rfl rfl rfl rfl

theorem Recoverable.mergeFailed {p : MergeJob} (h : Recoverable start events w)
    (hinv : Inv w jobs) (hp : p ∈ jobs) : Survives start events w (w.mergeFailed p) := by
  rw [mergeFailed_eq]
  exact h.acted hinv (hinv.job p hp).nodup (fun i _ hi => actOk_mergeFailed hinv hi)
    fun i _ hi m => (hinv.ok i hi).mergeFailed.2.2.2.2.2 m

theorem Recoverable.elect (h : Recoverable start events w) (hinv : Inv w jobs) {is : List Nat}
    (hadj : is <:+: w.segments) (hunmarked : ∀ i ∈ is, (w.object i).inMerge = false) :
    Survives start events w (is.foldl Writer.elect w) := by
  rw [elect_eq]
  exact h.acted hinv (hinv.nodup.sublist hadj.sublist)
    (fun i hi hseg => actOk_elect hinv hseg (hunmarked i hi))
    fun i _ hseg m => (hinv.ok i hseg).between_persist m

/-- A file that no segment in the list has. -/
theorem Recoverable.safe_update (h : Recoverable start events w) (hinv : Inv w jobs)
    {d : Directory V} (htoc : d.toc = w.directory.toc)
    (hfiles : ∀ i ∈ w.segments, d.files i = w.directory.files i) : Safe start events d :=
  h.safe_of_between hinv htoc fun i hi => by
    rw [hfiles i hi]
    exact (hinv.ok i hi).between_self

theorem Recoverable.writeOutput (h : Recoverable start events w) (hinv : Inv w jobs) {i : Nat}
    (hi : i ∉ w.segments) (d : Dictionary V) :
    Survives start events w (w.emit (.segment i (.writeKv d))) := by
  have hne : ∀ j ∈ w.segments, j ≠ i := fun j hj he => hi (he ▸ hj)
  have hsafe : Safe start events (w.emit (.segment i (.writeKv d))).directory :=
    h.safe_update hinv rfl fun j hj => by simp [emit, Directory.apply, hne j hj]
  refine ⟨⟨hsafe, fun j hj k hk hd hnot => h.waiting j hj k hk hd ?_⟩,
    ⟨_, rfl, rfl, .single h.lookup hsafe⟩⟩
  simpa [emit, Directory.apply, onDisk, hne j hj] using hnot

/-- What is compiled is found, once the table of contents has been renamed. -/
theorem Recoverable.compile (h : Recoverable start events w) (hinv : Inv w jobs)
    (hvalue : ∀ k, w.current k = expected (start ++ events) k) :
    Survives start events w w.compile := by
  cases hc : w.compiler with
  | none =>
    rw [compile_none hc]
    exact h.quiet rfl rfl rfl rfl
  | some kvs =>
    have hne := fun {i : Nat} (hi : i ∈ w.segments) => hinv.ne_nextFile hi
    have hcompiled : ∀ k, compiled kvs k = (w.lastEntry k).join := fun k => by
      rw [compiled_eq, lastEntry, hc]
      rfl
    have hlookup : Safe start events w.compile.directory := by
      intro k
      have hold : answer (tells w.compile.dict w.compile.onDisk) w.segments k =
          answer (tells w.dict w.onDisk) w.segments k := by
        rw [compile_some hc]
        refine answer_congr fun i hi => tells_congr ?_ ?_
        · simp [dict, hne hi]
        · simp [onDisk, hne hi]
      have hnew : tells w.compile.dict w.compile.onDisk w.nextFile k =
          (compiled kvs k).map some := by
        obtain ⟨hdk, hdkm⟩ := hinv.fresh w.nextFile le_rfl
        rw [compile_some hc]
        simp [tells, dict, onDisk, SegmentFiles.deleted, SegmentFiles.loadDk,
          SegmentFiles.loadDkm, hdk, hdkm]
      have hseg : w.compile.segments = w.segments ++ [w.nextFile] := by rw [compile_some hc]
      rw [lookup_directory hinv.compile, hseg, valueOf_append_singleton, hold, hnew]
      cases hk : compiled kvs k with
      | some v =>
        -- the value that was added last
        have hcur : w.current k = some v := by rw [current, ← hcompiled, hk]; rfl
        have hfull : Recovers start events k (expected (start ++ events) k) := .full
        rw [← hvalue, hcur] at hfull
        exact hfull
      | none =>
        have hfound := h.lookup k
        rw [lookup_directory hinv] at hfound
        exact hfound
    refine ⟨⟨hlookup, fun i hi k hk hd hnot => ?_⟩, ?_⟩
    · rw [compile_some hc] at hi hk hd hnot
      rcases List.mem_append.mp hi with hi | hi
      · refine h.waiting i hi k ?_ ?_ ?_
        · simpa [deleted, hne hi] using hk
        · simpa [dict, hne hi] using hd
        · simpa [onDisk, hne hi] using hnot
      · obtain rfl := List.mem_singleton.mp hi
        simp [deleted, Segment.allDeleted] at hk
    · have hout := (h.writeOutput hinv (fun hi => hne hi rfl) (compiled kvs)).2
      have hrename : w.compile.directory = (w.directory.replay
          [.segment w.nextFile (.writeKv (compiled kvs)),
            .writeTocPart (w.segments ++ [w.nextFile])]).apply .renameToc := by
        rw [compile_some hc]
        simp [Directory.replay, Directory.apply, SegmentFileOp.apply]
      refine ⟨[.segment w.nextFile (.writeKv (compiled kvs)),
        .writeTocPart (w.segments ++ [w.nextFile]), .renameToc], by rw [compile_some hc],
        by rw [hrename]; rfl, ?_⟩
      refine Directory.Cuts.append (a := [_]) (.single h.lookup hout.last)
        (Directory.Cuts.append (a := [_]) (.single hout.last ?_) (.single ?_ ?_))
      · exact h.safe_update hinv rfl fun i hi => by
          simp [Directory.replay, Directory.apply, hne hi]
      · exact h.safe_update hinv rfl fun i hi => by
          simp [Directory.replay, Directory.apply, hne hi]
      · rw [hrename] at hlookup
        exact hlookup

/-! ## Merges -/

/-- The directory after a successful merge answers what the old segments answer, with the deletes
made during the merge written. -/
theorem Ready.lookup_merged {p : MergeJob} {pre post : List Nat} (r : Ready w jobs p pre post)
    (hcov : Covered w) (h : Recoverable start events w) (k : Key) :
    Recovers start events k
      (valueOf (w.mergeSucceeded p).dict (w.mergeSucceeded p).onDisk
        (pre ++ p.outputFilename :: post) k) := by
  let del : Nat → DeletedKeys := fun i => if i ∈ p.segments then w.onDisk i ∪ w.during i else w.onDisk i
  have hblock : ∀ i ∈ p.segments, del i = w.onDisk i ∪ w.during i := fun i hi => if_pos hi
  have hside : ∀ i, i ∉ p.segments → del i = w.onDisk i := fun i hi => if_neg hi
  have hmerged : valueOf (w.mergeSucceeded p).dict (w.mergeSucceeded p).onDisk
      (pre ++ p.outputFilename :: post) k = valueOf w.dict del (pre ++ p.segments ++ post) k := by
    refine valueOf_merged (fun i => (w.directory.files i).loadDk) r.dict_out
      (fun i hi => ?_) (fun i hi hk => ?_) (fun i hi hd hk => ?_) fun i hi hd hk o ho hod => ?_
    · obtain ⟨-, hnot, hout⟩ := r.sides hi
      rw [dict, onDisk, r.object_side hout, r.files_side hnot hout, hside i hnot]
      exact ⟨rfl, Iff.rfl⟩
    · rw [hblock i hi]
      exact Finset.mem_union_left _ (Finset.mem_union_left _ hk)
    · rw [r.out_ok.2.1, r.mem_deleted_out_iff hi hd, hblock i hi, Finset.mem_union]
      refine ⟨.inr, fun hor => hor.elim (fun hon => ?_) id⟩
      have hdel := (r.inv.ok i (r.mem_segments hi)).onDisk hon
      exact ((r.mem_deleted hi).mp hdel).resolve_left hk
    · have hcov' := hcov
      unfold Covered at hcov'
      rw [r.segments, List.append_assoc, List.pairwise_append] at hcov'
      have ho' := r.sides (List.mem_append_left post ho)
      rw [hside o ho'.2.1]
      exact hcov'.2.2 o ho i (List.mem_append_left _ hi) (r.ok.marked i hi) k hk hd hod
  rw [hmerged, ← r.segments]
  refine h.recovers r.inv (fun i hi => ?_) k
  by_cases hp : i ∈ p.segments
  · rw [hblock i hp]
    refine ⟨Finset.subset_union_left, Finset.union_subset (r.inv.ok i hi).onDisk ?_⟩
    exact Finset.subset_union_right
  · rw [hside i hp]
    exact ⟨subset_rfl, (r.inv.ok i hi).onDisk⟩

/-- The directory once the table of contents names the merged segment. -/
def renamed (w : Writer V) (p : MergeJob) (segments : List Nat) : Directory V where
  files := Function.update w.directory.files p.outputFilename
    (SegmentFileOp.applyAll (w.directory.files p.outputFilename) (w.merged p).2)
  toc := some segments
  tocPart := none

/-- The old files are removed. -/
theorem replay_remove (d : Directory V) {is : List Nat} (hnd : is.Nodup) :
    d.replay (actOps (fun _ s => (s, Segment.removeFiles)) w is) = { d with
      files := fun i => if i ∈ is then SegmentFileOp.applyAll (d.files i) Segment.removeFiles
        else d.files i } := by
  have hdir := foldl_actOn_directory (fun _ s => (s, Segment.removeFiles)) { w with directory := d }
    hnd
  rw [foldl_actOn _ _ hnd] at hdir
  exact hdir.symm

/-- **A successful merge**, interrupted anywhere: before the table of contents is renamed the old
segments are found, afterwards the merged one. -/
theorem Recoverable.mergeSucceeded {p : MergeJob} {pre post : List Nat}
    (h : Recoverable start events w) (hcov : Covered w) (r : Ready w jobs p pre post)
    (hinv : Inv (w.mergeSucceeded p) jobs') : Survives start events w (w.mergeSucceeded p) := by
  have hnd := (r.inv.job p r.mem).nodup
  have hne : ∀ i ∈ w.segments, i ≠ p.outputFilename := fun i hi he =>
    (r.inv.job p r.mem).outNew (he ▸ hi)
  have hseg : (w.mergeSucceeded p).segments = pre ++ p.outputFilename :: post := by rw [r.eq]
  have hrewrite : rewriteSegments p.segments p.outputFilename false w.segments =
      pre ++ p.outputFilename :: post := by
    rw [r.segments, rewriteSegments_block r.ok.nonempty (r.segments ▸ r.inv.nodup)]
  have hnot : ∀ i ∈ pre ++ p.outputFilename :: post, i ∉ p.segments := by
    intro i hi
    rcases r.mem_merged_segments (hseg ▸ hi) with rfl | hi
    · exact r.inv.outputs p r.mem p r.mem
    · exact (r.sides hi).2.1
  have hafter : Safe start events (w.mergeSucceeded p).directory := fun k => by
    rw [lookup_directory hinv, hseg]
    exact r.lookup_merged hcov h k
  -- the merged segment is found as soon as the table of contents names it
  have hrenamed : ∀ d : Directory V, d.toc = some (pre ++ p.outputFilename :: post) →
      (∀ i ∈ pre ++ p.outputFilename :: post,
        d.files i = (w.renamed p (pre ++ p.outputFilename :: post)).files i) →
      Safe start events d := by
    intro d htoc hfiles k
    have htoc' : (w.mergeSucceeded p).directory.toc = some (pre ++ p.outputFilename :: post) := by
      rw [r.eq]
    have hsame : d.lookup k = (w.mergeSucceeded p).directory.lookup k :=
      Directory.lookup_congr (htoc.trans htoc'.symm) (fun i hi => ?_) k
    · rw [hsame]
      exact hafter k
    · rw [htoc'] at hi
      rw [hfiles i hi, r.eq]
      by_cases hio : i = p.outputFilename
      · subst hio
        simp [renamed, hnot _ hi]
      · simp [renamed, hnot _ hi, hio]
  have hout : ∀ n, Safe start events
      (w.directory.replay (((w.merged p).2.map (.segment p.outputFilename)).take n)) := fun n => by
    rw [← List.map_take, Directory.replay_segment]
    exact h.safe_update r.inv rfl fun i hi => by simp [hne i hi]
  have hreplayOut : w.directory.replay ((w.merged p).2.map (.segment p.outputFilename)) =
      { w.directory with files := (w.renamed p (pre ++ p.outputFilename :: post)).files } :=
    Directory.replay_segment _ _ _
  have hreplayToc : (w.directory.replay ((w.merged p).2.map (.segment p.outputFilename))).replay
      [.writeTocPart (pre ++ p.outputFilename :: post), .renameToc] =
        w.renamed p (pre ++ p.outputFilename :: post) := by
    rw [hreplayOut]
    rfl
  have hremove := replay_remove (w := w) (w.renamed p (pre ++ p.outputFilename :: post)) hnd
  have hemits : Emits (Safe start events) w (w.mergeSucceeded p) := by
    refine ⟨mergedOps w p, by rw [r.eq], ?_, ?_⟩
    · rw [mergedOps, hrewrite, Directory.replay_append, Directory.replay_append, hreplayToc,
        hremove, r.eq]
      dsimp only [renamed]
      congr 1
      funext i
      by_cases hi : i ∈ p.segments
      · have hio : i ≠ p.outputFilename := hne i (r.mem_segments hi)
        simp [hi, hio]
      · by_cases hio : i = p.outputFilename
        · subst hio
          simp [hi]
        · simp [hi, hio]
    · rw [mergedOps, hrewrite]
      refine Directory.Cuts.append hout (Directory.Cuts.append ?_ fun n => ?_)
      · refine Directory.Cuts.append (a := [_]) (.single ?_ ?_) (.single ?_ ?_)
        · exact hreplayOut ▸ h.safe_update r.inv rfl fun i hi => by simp [renamed, hne i hi]
        · rw [hreplayOut]
          exact h.safe_update r.inv rfl fun i hi => by simp [Directory.apply, renamed, hne i hi]
        · rw [hreplayOut]
          exact h.safe_update r.inv rfl fun i hi => by
            simp [Directory.replay, Directory.apply, renamed, hne i hi]
        · exact hrenamed _ (by rw [hreplayOut]; rfl) fun i _ => by rw [hreplayOut]; rfl
      · rw [hreplayToc]
        obtain ⟨htoc, hfiles⟩ := replay_take_actOps (fun _ s => (s, Segment.removeFiles))
          { w with directory := w.renamed p (pre ++ p.outputFilename :: post) } _ n hnd
          fun _ _ => rfl
        exact hrenamed _ htoc fun i hi =>
          (hfiles i).resolve_right fun hremoved => hnot i hi hremoved.1
  refine ⟨⟨hemits.last, fun i hi k hk hd hon => ?_⟩, hemits⟩
  rcases r.mem_merged_segments hi with rfl | hi
  · rw [r.out_ok.2.1] at hon
    exact absurd hk hon
  · obtain ⟨hseg', hblock, hio⟩ := r.sides hi
    rw [deleted, r.object_side hio] at hk
    rw [dict, r.object_side hio] at hd
    rw [onDisk, r.files_side hblock hio] at hon
    exact h.waiting i hseg' k hk hd hon

/-- The loop of `FinalizeMerge`, interrupted anywhere. -/
structure RecoverLoop (start events : List (Event V)) (w₀ w : Writer V) (jobs : List MergeJob) :
    Prop where
  loop : Loop w₀ w jobs
  survives : Survives start events w₀ w

theorem Recoverable.finalized (h : Recoverable start events w) (hinv : Inv w w.mergeJobs)
    (hcov : Covered w) (hstale : w.NoStaleJob) (hs : w.finalized = some w') :
    Survives start events w w' := by
  unfold Writer.finalized at hs
  split at hs
  · obtain rfl := Option.some.inj hs
    exact h.quiet rfl rfl rfl rfl
  · unfold Writer.finalizeMerge at hs
    obtain ⟨r, hr, rfl⟩ := Option.map_eq_some_iff.mp hs
    have hloop := finalizeJobs_induct (P := RecoverLoop start events w) (a := [])
      (fun _ _ hl p hp => (hl.loop.inv.job p hp).notDone)
      (fun _ _ _ _ _ hl hf he => ⟨hl.loop.finish hf he, hl.survives⟩)
      (fun w' a p b hl hf hcode => by
        obtain ⟨pre, post, r⟩ := hl.loop.inv.ready (by simp) hf hcode
        have hnext := hl.loop.mergeSucceeded hf hcode
        exact ⟨hnext, hl.survives.trans (hl.survives.1.mergeSucceeded hl.loop.covered r hnext.inv)⟩)
      (fun w' a p b hl hf hcode => ⟨hl.loop.mergeFailed hf hcode,
        hl.survives.trans (hl.survives.1.mergeFailed hl.loop.inv (by simp))⟩)
      ⟨⟨hinv, hcov, hinv.separate hstale, fun _ => rfl, rfl, rfl⟩, h.quiet rfl rfl rfl rfl⟩ hr
    exact hloop.survives.trans (hloop.survives.1.quiet rfl rfl rfl rfl)

theorem Recoverable.merging (h : Recoverable start events w) (hinv : Inv w w.mergeJobs)
    (external : Bool) (hgap : w.mergeEnabled = true →
      w.mergeJobs.length ≠ settings.maxConcurrentMerges → w.NoGap settings) :
    Survives start events w (w.merging settings external) := by
  unfold Writer.merging
  split
  · next hen =>
    by_cases hfull : w.mergeJobs.length = settings.maxConcurrentMerges
    · rw [Writer.runMerge, if_pos hfull]
      exact h.quiet rfl rfl rfl rfl
    · rcases runMerge_cases settings hinv external with heq | ⟨is, hs, heq⟩
      · rw [heq]
        exact h.quiet rfl rfl rfl rfl
      · obtain ⟨hadj, -, hunmarked⟩ := selectMergeSegments_adjacent (hgap hen hfull) hs
        have helect := h.elect hinv hadj hunmarked
        rw [heq]
        exact helect.trans (helect.1.quiet rfl rfl rfl rfl)
  · exact h.quiet rfl rfl rfl rfl

/-- `Flush`, interrupted anywhere. -/
theorem Recoverable.flush (h : Recoverable start events w) (hinv : Inv w jobs)
    (hvalue : ∀ k, w.current k = expected (start ++ events) k) :
    Survives start events w w.persistDeletes.compile := by
  have hpersist := h.persistDeletes hinv
  exact hpersist.trans (hpersist.1.compile hinv.persistDeletes fun k =>
    (current_persistDeletes hinv k).trans (hvalue k))

/-! ## Runs -/

/-- A faithful writer, whose directory is recoverable. -/
structure Durable (start events : List (Event V)) (w : Writer V) : Prop where
  faithful : Faithful (start ++ events) w
  recoverable : Recoverable start events w

/-- **Every orderly step**, interrupted anywhere, leaves a directory in which every key is found as
some of the events have made it. -/
theorem Durable.step (h : Durable start events w) {e : Event V} (ho : Orderly settings w e)
    (hs : step settings w e = some w') :
    Durable start (events ++ [e]) w' ∧ Emits (Safe start (events ++ [e])) w w' := by
  have hfaith := h.faithful.step ho hs
  rw [List.append_assoc] at hfaith
  have hinv := h.faithful.inv
  have hlater := h.recoverable.later [e]
  have hvalue : ∀ k, e.operation k = none → w.current k = expected (start ++ (events ++ [e])) k := by
    intro k he
    rw [h.faithful.value, ← List.append_assoc, expected_append_singleton, he]
    rfl
  suffices hsurvives : Survives start (events ++ [e]) w w' from
    ⟨⟨hfaith, hsurvives.1⟩, hsurvives.2⟩
  cases e with
  | add k v =>
    obtain rfl := Option.some.inj hs
    exact hlater.quiet rfl rfl rfl rfl
  | bulkAdd kvs =>
    obtain rfl := Option.some.inj hs
    rw [bulkAdd_eq]
    exact hlater.quiet rfl rfl rfl rfl
  | delete k =>
    obtain rfl := Option.some.inj hs
    refine ⟨⟨hlater.lookup, fun i hi k' hk' hd hnot => ?_⟩, .quiet hlater.lookup rfl rfl⟩
    rw [delete_dict hinv] at hd
    -- what waits has been deleted just now, or waited before
    rcases (mem_delete_deleted hinv hi).mp hk' with hold | ⟨rfl, -⟩
    · exact hlater.waiting i hi k' hold hd hnot
    · have hfull : Recovers start (events ++ [.delete k']) k'
          (expected (start ++ (events ++ [.delete k'])) k') := .full
      rw [← List.append_assoc, expected_append_singleton] at hfull
      simpa [Event.operation] using hfull
  | flush =>
    obtain rfl := Option.some.inj hs
    exact hlater.flush hinv fun k => hvalue k rfl
  | compile =>
    obtain rfl := Option.some.inj hs
    exact hlater.compile hinv fun k => hvalue k rfl
  | scheduledTask external =>
    simp only [Writer.step, scheduledTask_eq] at hs
    obtain ⟨w₁, hw₁, rfl⟩ := Option.map_eq_some_iff.mp hs
    obtain ⟨hstale, hgap⟩ := ho
    obtain ⟨hinv₁, -, hfin₁⟩ := hinv.finalized h.faithful.covered hstale hw₁
    obtain ⟨hinv₂, hfin₂⟩ := hinv₁.merging external (hgap w₁ hw₁)
    have h₁ := hlater.finalized hinv h.faithful.covered hstale hw₁
    have h₂ := h₁.trans (h₁.1.merging hinv₁ external (hgap w₁ hw₁))
    unfold Writer.written
    split
    · exact h₂
    · refine h₂.trans (h₂.1.flush hinv₂ fun k => ?_)
      rw [hfin₂.current, hfin₁.current]
      exact hvalue k rfl
  | read k =>
    obtain rfl := Option.some.inj hs
    rw [hinv.read]
    exact hlater.quiet rfl rfl rfl rfl
  | mergeReads j =>
    obtain ⟨-, jobs, rfl⟩ := hinv.mergeReads hs
    exact hlater.quiet rfl rfl rfl rfl
  | mergeEnds j code =>
    obtain ⟨p, a, b, hjobs, -, ⟨-, -, rfl⟩ | ⟨-, rfl⟩⟩ := mergeEnds_eq hs
    · have hout := hlater.writeOutput hinv (hinv.job p (by simp [hjobs])).outNew
        (mergedDictionary ((p.segments.map w.dict).zip p.read))
      exact hout.trans (hout.1.quiet rfl rfl rfl rfl)
    · exact hlater.quiet rfl rfl rfl rfl
  | disableMerge =>
    obtain rfl := Option.some.inj hs
    exact hlater.quiet rfl rfl rfl rfl
  | finishPending =>
    obtain ⟨-, jobs, rfl⟩ := hinv.finishPending hs
    have hcompile := hlater.compile hinv fun k => hvalue k rfl
    exact hcompile.trans (hcompile.1.quiet rfl rfl rfl rfl)

theorem durable_new : Durable [] [] (loadIndex (Directory.empty : Directory V) 0) :=
  ⟨faithful_new, recoverable_of_synced faithful_new rfl rfl⟩

/-- A flush makes everything durable. -/
theorem Durable.flushed (h : Faithful events w) :
    Durable (events ++ [.flush]) [] w.persistDeletes.compile := by
  obtain ⟨hinv, hcov, hany, hc, hcur⟩ := h.inv.flush
  have hfaith : Faithful (events ++ [.flush]) w.persistDeletes.compile :=
    h.quiet (fun _ => rfl) hinv hcov hcur fun k hk => by
      rw [lastEntry_of_none hc] at hk
      cases hk
  exact ⟨by rwa [List.append_nil], recoverable_of_synced hfaith hany hc⟩

/-- The journal is what has been written to the directory. -/
theorem directory_eq_replay (h : Durable start events w)
    (hj : w.directory = Directory.empty.replay w.journal) {e : Event V}
    (ho : Orderly settings w e) (hs : step settings w e = some w') :
    w'.directory = Directory.empty.replay w'.journal := by
  obtain ⟨ops, hjournal, hdir, -⟩ := (h.step ho hs).2
  rw [hdir, hjournal, hj, Directory.replay_append]

/-- What the worker thread executes when the writer is destroyed: what is still queued, the task
that waits for all merges, and scheduled tasks up to a last one. -/
def Destroyed (events : List (Event V)) : Prop := ∃ before queued ticks external,
  events = before ++ .disableMerge :: queued ++ .finishPending :: ticks ++ [.scheduledTask external]

/-- Along an orderly run, from the last flush on. -/
theorem durable_of_run {before after : List (Event V)} {w : Writer V}
    (hbefore : before = [] ∨ ∃ b, before = b ++ [.flush])
    (hrun : runNew settings (before ++ after) = some w)
    (horderly : OrderlyRun settings (before ++ after)) :
    Durable before after w ∧ w.directory = Directory.empty.replay w.journal := by
  have hkeep : ∀ {start : List (Event V)} (h : List (Event V)) (s : Writer V) (e : Event V)
      (s' : Writer V), (Durable start h s ∧ s.directory = Directory.empty.replay s.journal) →
      Orderly settings s e → Writer.step settings s e = some s' →
      Durable start (h ++ [e]) s' ∧ s'.directory = Directory.empty.replay s'.journal :=
    fun h s e s' hi ho hs => ⟨(hi.1.step ho hs).1, directory_eq_replay hi.1 hi.2 ho hs⟩
  obtain ⟨w₀, hw₀, hrest⟩ := Run.run_append.mp hrun
  obtain ⟨hfirst, hlast⟩ := horderly.append hw₀
  have hstart := Run.invariant_history
    (fun h s => Durable [] h s ∧ s.directory = Directory.empty.replay s.journal) hkeep
    ⟨durable_new, rfl⟩ hfirst hw₀
  rw [List.nil_append] at hstart
  have hbase : Durable before [] w₀ := ?_
  · have hend := Run.invariant_history
      (fun h s => Durable before h s ∧ s.directory = Directory.empty.replay s.journal) hkeep
      ⟨hbase, hstart.2⟩ hlast hrest
    rwa [List.nil_append] at hend
  rcases hbefore with rfl | ⟨b, rfl⟩
  · obtain rfl := Option.some.inj hw₀
    exact durable_new
  · -- the state after the flush
    obtain ⟨u, hu, hflush⟩ := Run.run_append.mp hw₀
    obtain ⟨u', hu', hend⟩ := Run.run_cons.mp hflush
    obtain rfl := Option.some.inj hend
    obtain rfl := Option.some.inj hu'
    exact Durable.flushed (faithful_of_run (hfirst.append hu).1 hu)

/-- **Opening an index again.** After a crash between any two file operations every key is found as
a part of the events has made it, and that part contains everything up to the last flush. After the
writer has been destroyed it is all of them. -/
theorem reopened_holds_prefix (settings : IndexSettings V) {before after : List (Event V)}
    {e : Event V} {w w' : Writer V} (hbefore : before = [] ∨ ∃ b, before = b ++ [.flush])
    (hrun : runNew settings (before ++ after) = some w) (hs : step settings w e = some w')
    (horderly : OrderlyRun settings (before ++ after ++ [e])) {atZero : Nat → Dictionary V} {k : Key}
    (hzero : ∀ i, atZero i k = none) :
    (∀ n, w.journal.length ≤ n → ∀ m, ∃ later, later <+: after ++ [e] ∧
      (loadIndex (Directory.empty.replay (w'.journal.take n)) m).lookup atZero k =
        expected (before ++ later) k) ∧
    (Destroyed (before ++ after ++ [e]) → ∀ m, (loadIndex w'.directory m).lookup atZero k =
      expected (before ++ after ++ [e]) k) := by
  obtain ⟨hfirst, hlast⟩ := horderly.append hrun
  obtain ⟨hdurable, hdir⟩ := durable_of_run hbefore hrun hfirst
  have ho : Orderly settings w e := hlast.1
  obtain ⟨hnext, ops, hjournal, -, hcuts⟩ := hdurable.step ho hs
  constructor
  · intro n hn m
    have hcut : Directory.empty.replay (w'.journal.take n) =
        w.directory.replay (ops.take (n - w.journal.length)) := by
      rw [hjournal, List.take_append, List.take_of_length_le hn, Directory.replay_append, ← hdir]
    rw [lookup_loadIndex _ _ hzero, hcut]
    exact hcuts _ k
  · rintro ⟨first, queued, ticks, external, hevents⟩ m
    obtain rfl : e = .scheduledTask external :=
      List.singleton_inj.mp (List.append_inj' hevents rfl).2
    obtain ⟨-, -, hany, hc, -⟩ := hdurable.faithful.inv.scheduledTask hdurable.faithful.covered ho hs
    have hfaith := hnext.faithful
    rw [← List.append_assoc] at hfaith
    obtain ⟨later, hlater, hvalue⟩ := (recoverable_of_synced hfaith hany hc).lookup k
    rw [List.prefix_nil] at hlater
    rw [lookup_loadIndex _ _ hzero, hvalue, hlater, List.append_nil]

/-- A writer that is destroyed with a value and a delete still waiting. -/
theorem reopened_holds_prefix_destroyed :
    let settings : IndexSettings Nat := ⟨2, .tiered fun _ _ => false⟩
    let before : List (Event Nat) := [.add [1] 10, .add [2] 20, .flush]
    let after : List (Event Nat) := [.add [1] 11, .delete [2], .disableMerge, .finishPending]
    let noneAtZero : Nat → Dictionary Nat := fun _ _ => none
    ∃ w w', runNew settings (before ++ after) = some w ∧
      step settings w (.scheduledTask true) = some w' ∧
      (∃ later, later <+: after ++ [.scheduledTask true] ∧
        (loadIndex (Directory.empty.replay (w'.journal.take w.journal.length)) 9).lookup noneAtZero
          [2] = expected (before ++ later) [2]) ∧
      (loadIndex w'.directory 9).lookup noneAtZero [1] = some 11 ∧
      (loadIndex w'.directory 9).lookup noneAtZero [2] = none := by
  intro settings before after noneAtZero
  have hsome : ((runNew settings (before ++ after)).bind fun w =>
      (step settings w (.scheduledTask true)).map fun _ => ()) = some () := by decide +kernel
  obtain ⟨w, hw, hsome⟩ := Option.bind_eq_some_iff.mp hsome
  obtain ⟨w', hw', -⟩ := Option.map_eq_some_iff.mp hsome
  have hok : Run.Along (step settings) (fun w _ => w.NoStaleJob) (loadIndex Directory.empty 0)
      (before ++ after ++ [.scheduledTask true]) := by decide +kernel
  have hzero : ∀ (k : Key) (i : Nat), noneAtZero i k = none := fun _ _ => rfl
  have hreopened := fun k : Key => reopened_holds_prefix settings
    (.inr ⟨[.add [1] 10, .add [2] 20], rfl⟩) hw hw' (orderlyRun_of_tiered rfl hok) (hzero k)
  have hdestroyed : Destroyed (before ++ after ++ [.scheduledTask true]) :=
    ⟨before ++ [.add [1] 11, .delete [2]], [], [], true, rfl⟩
  exact ⟨w, w', hw, hw', (hreopened [2]).1 _ le_rfl 9, (hreopened [1]).2 hdestroyed 9,
    (hreopened [2]).2 hdestroyed 9⟩

/-- The merge across a running one, finalized and found after a crash: an older value is back. -/
theorem older_value_after_crash : ¬ ∀ (settings : IndexSettings Nat)
    (before after : List (Event Nat)) (e : Event Nat) (w w' : Writer Nat),
    (before = [] ∨ ∃ b, before = b ++ [.flush]) → runNew settings (before ++ after) = some w →
      step settings w e = some w' → ∀ n, w.journal.length ≤ n → ∀ m k,
        ∃ later, later <+: after ++ [e] ∧
          (loadIndex (Directory.empty.replay (w'.journal.take n)) m).lookup (fun _ _ => none) k =
            expected (before ++ later) k := by
  intro h
  let before : List (Event Nat) := [.add [1] 10, .flush, .add [2] 20, .flush, .scheduledTask true,
    .add [7] 70, .flush, .add [3] 30, .flush, .scheduledTask true, .mergeReads 0, .mergeReads 0,
    .mergeEnds 0 0, .add [7] 71, .flush]
  let after : List (Event Nat) := [.scheduledTask true, .mergeReads 1, .mergeReads 1, .mergeEnds 1 0]
  have hsome : ((runNew ⟨2, .simple⟩ (before ++ after)).bind fun w =>
      (step ⟨2, .simple⟩ w (.scheduledTask true)).map fun w' =>
        (decide (w.journal.length ≤ w'.journal.length),
          (loadIndex (Directory.empty.replay w'.journal) 9).lookup (fun _ _ => none) [7])) =
      some (true, some 70) := by decide +kernel
  obtain ⟨w, hw, hsome⟩ := Option.bind_eq_some_iff.mp hsome
  obtain ⟨w', hw', hval⟩ := Option.map_eq_some_iff.mp hsome
  obtain ⟨hlen, hlookup⟩ := Prod.mk.inj hval
  obtain ⟨later, hlater, hfound⟩ := h _ before after _ w w' (.inr ⟨before.dropLast, rfl⟩) hw hw'
    w'.journal.length (by simpa using hlen) 9 [7]
  rw [List.take_length, hlookup, expected_append] at hfound
  · have hbefore : expected before [7] = some 71 := by decide
    rw [hbefore] at hfound
    cases hfound
  · intro e he
    have hall : ∀ e ∈ after ++ [.scheduledTask true], e.operation [7] = none := by decide
    exact hall e (hlater.mem he)

end Writer
end Keyvi.Index
