import Mathlib
import Keyvi.Library.Run
import Keyvi.Index.Segment

/-!
# The life of a segment

A segment object and its files under any sequence of calls, together with what an observer notes
down: which deletes have been persisted, which were made while the running merge was running, and
what `.dk` held when the segment was elected. A merge that succeeds turns several such segments into
one that is built from them.

Two things go wrong. A segment opened after a crash can have keys in `.dkm` that are not in `.dk`;
as nothing was deleted since, its election writes nothing and the merge never sees them. And a first
look at the delete lists during a merge files all of them as deleted during the merge.
-/

namespace Keyvi.Index

variable {V : Type}

inductive SegmentCall
  | deleteKey (k : Key)
  | persist
  | electedForMerge
  | mergeFailed
  /-- `IsDeleted`, by a reader -/
  | isDeleted (k : Key)
  /-- the process ends and the files are opened again -/
  | reopen

/-- A segment with its files and its history. -/
structure SegmentHistory (V : Type) where
  segment : Segment V
  files : SegmentFiles V
  /-- deleted since the segment was opened -/
  called : DeletedKeys
  /-- deleted, and persisted afterwards -/
  persisted : DeletedKeys
  /-- deleted since the running merge was started -/
  calledInMerge : DeletedKeys
  /-- what `.dk` held at the last election -/
  dkAtElection : DeletedKeys

namespace SegmentHistory

/-- The files are opened; all keys in the lists count as persisted. -/
def opened (d : Dictionary V) (f : SegmentFiles V) (noDeletes : Bool) : SegmentHistory V :=
  ⟨Segment.ofPath f d noDeletes, f, ∅, f.deleted, ∅, ∅⟩

/-- A call. `Persist`, also the one in `ElectedForMerge`, makes the deletes so far persisted. -/
def call (h : SegmentHistory V) : SegmentCall → SegmentHistory V
  | .deleteKey k =>
    let h' := { h with segment := h.segment.deleteKey h.files k }
    if h.segment.contains k then
      { h' with
        called := insert k h.called
        calledInMerge := if h.segment.inMerge then insert k h.calledInMerge else h.calledInMerge }
    else h'
  | .persist =>
    { h with
      files := SegmentFileOp.applyAll h.files h.segment.persist.2
      persisted := h.persisted ∪ h.called }
  | .electedForMerge =>
    let (segment, ops) := h.segment.electedForMerge
    let files := SegmentFileOp.applyAll h.files ops
    { h with
      segment := segment
      files := files
      persisted := h.persisted ∪ h.called
      calledInMerge := if h.segment.inMerge then h.calledInMerge else ∅
      dkAtElection := files.loadDk }
  | .mergeFailed =>
    let (segment, ops) := h.segment.mergeFailed
    { h with segment := segment, files := SegmentFileOp.applyAll h.files ops }
  | .isDeleted k => { h with segment := (h.segment.isDeleted h.files k).2 }
  | .reopen =>
    { h with segment := Segment.ofPath h.files h.segment.dictionary false, called := ∅ }

/-- Any sequence of calls. -/
def calls (h : SegmentHistory V) (cs : List SegmentCall) : SegmentHistory V := cs.foldl call h

/-- The segment built from segments whose merge succeeded. -/
def merged (d : Dictionary V) (sources : List (SegmentHistory V)) :
    Segment V × List (SegmentFileOp V) :=
  Segment.ofParents d (sources.map (·.segment))

/-! ## When it goes right -/

/-- The condition on the state before a call: an election of a segment with no delete since it was
opened finds nothing in `.dkm` that is not in `.dk`, and the lists are not loaded for the first time
during a merge, unless they are empty. -/
def Sound (h : SegmentHistory V) : SegmentCall → Prop
  | .electedForMerge =>
    h.segment.inMerge = false → h.segment.newDelete = false → h.files.loadDkm ⊆ h.files.loadDk
  | .deleteKey k =>
    h.segment.contains k = true → h.segment.inMerge = true → h.segment.deletesLoaded = false →
      h.files.deleted = ∅
  | .isDeleted _ =>
    h.segment.inMerge = true → h.segment.deletesLoaded = false → h.files.deleted = ∅
  | _ => True

/-- What holds between the files, the sets in memory and the history. -/
structure Consistent (h : SegmentHistory V) : Prop where
  /-- nothing persisted is gone from the files -/
  onDisk : h.persisted ⊆ h.files.deleted
  /-- during a merge, what is not in `.dk` goes to the merged segment -/
  dkm : h.segment.inMerge = true →
    h.files.loadDkm ⊆ h.files.loadDk ∪ h.segment.deletedKeysDuringMergeForWrite
  dkAtElection : h.segment.inMerge = true → h.files.loadDk = h.dkAtElection
  during : h.segment.deletedKeysDuringMergeForWrite ⊆ h.calledInMerge
  notDuring : h.segment.inMerge = false → h.segment.deletedKeysDuringMergeForWrite = ∅
  /-- once the lists are loaded the sets in memory cover the files -/
  loaded : h.segment.deletesLoaded = true → h.files.deleted ⊆
    h.segment.deletedKeysForWrite ∪ h.segment.deletedKeysDuringMergeForWrite
  newDelete : h.segment.newDelete = true → h.segment.deletesLoaded = true
  called : h.called ⊆ h.segment.deletedKeysForWrite ∪ h.segment.deletedKeysDuringMergeForWrite
  notNew : h.segment.newDelete = false → h.called = ∅ ∧
    h.segment.deletedKeysDuringMergeForWrite = ∅ ∧
    h.segment.deletedKeysForWrite ⊆ h.files.deleted
  /-- deletes made before the running merge are in `.dk` -/
  forWrite : h.segment.inMerge = true → h.segment.deletedKeysForWrite ⊆ h.files.loadDk
  readers : h.segment.deletesLoaded = false → h.segment.hasDeletedKeys_ = true →
    h.segment.deletedKeys ⊆ h.files.deleted

/-! ## The calls -/

variable {h : SegmentHistory V}

theorem Consistent.persist (hc : Consistent h) : Consistent (h.call .persist) := by
  obtain ⟨h1, h2, h3, h4, h5, h6, h7, h8, h9, h10, h11⟩ := hc
  simp only [call, applyAll_persist]
  cases hn : h.segment.newDelete with
  | false =>
    obtain ⟨hcalled, -, -⟩ := h9 hn
    simp only [Bool.false_eq_true, if_false]
    exact ⟨by rw [hcalled, Finset.union_empty]; exact h1, h2, h3, h4, h5, h6, h7, h8, h9, h10, h11⟩
  | true =>
    have hl := h7 hn
    cases hm : h.segment.inMerge with
    | true =>
      simp only [if_true]
      -- The deletes before the merge are in `.dk`, those during the merge go to `.dkm`.
      exact
        { onDisk := Finset.union_subset
            (h1.trans (Finset.union_subset Finset.subset_union_left (h2 hm)))
            (h8.trans (Finset.union_subset ((h10 hm).trans Finset.subset_union_left)
              Finset.subset_union_right))
          dkm := fun _ => Finset.subset_union_right
          dkAtElection := h3
          during := h4
          notDuring := h5
          loaded := fun _ => Finset.union_subset (Finset.subset_union_left.trans (h6 hl))
            Finset.subset_union_right
          newDelete := h7
          called := h8
          notNew := fun hn' => absurd hn' (by simp [hn])
          forWrite := h10
          readers := fun hl' => absurd hl' (by simp [hl]) }
    | false =>
      simp only [Bool.false_eq_true, if_false, if_true]
      have hmem : ∀ t : DeletedKeys, t ⊆ h.segment.deletedKeysForWrite ∪
          h.segment.deletedKeysDuringMergeForWrite → t ⊆ h.segment.deletedKeysForWrite := by
        intro t ht
        rwa [h5 hm, Finset.union_empty] at ht
      exact
        { onDisk := (Finset.union_subset (hmem _ (h1.trans (h6 hl))) (hmem _ h8)).trans
            Finset.subset_union_left
          dkm := fun hm' => absurd hm' (by simp [hm])
          dkAtElection := fun hm' => absurd hm' (by simp [hm])
          during := h4
          notDuring := h5
          loaded := fun _ => Finset.union_subset Finset.subset_union_left
            (Finset.subset_union_right.trans (h6 hl))
          newDelete := h7
          called := h8
          notNew := fun hn' => absurd hn' (by simp [hn])
          forWrite := fun hm' => absurd hm' (by simp [hm])
          readers := fun hl' => absurd hl' (by simp [hl]) }

/-- A first look at the lists adds what is in the files to one of the two sets. -/
theorem lazyLoad_eq (f : SegmentFiles V) (s : Segment V) (hl : s.deletesLoaded = false)
    (hr : s.hasDeletedKeys_ = true → s.deletedKeys ⊆ f.deleted) :
    ∃ has keys, s.lazyLoadDeletedKeys f = { s with
      hasDeletedKeys_ := has
      deletedKeys := keys
      deletesLoaded := true
      deletedKeysForWrite :=
        if s.inMerge then s.deletedKeysForWrite else s.deletedKeysForWrite ∪ f.deleted
      deletedKeysDuringMergeForWrite :=
        if s.inMerge then s.deletedKeysDuringMergeForWrite ∪ f.deleted
        else s.deletedKeysDuringMergeForWrite } ∨
      f.deleted = ∅ ∧ s.lazyLoadDeletedKeys f = { s with
        hasDeletedKeys_ := has
        deletedKeys := keys
        deletesLoaded := true } := by
  unfold Segment.lazyLoadDeletedKeys Segment.loadDeletedKeys
  rw [if_neg (by simp [hl])]
  by_cases hex : (f.dk.isSome || f.dkm.isSome) = true
  · refine ⟨true, f.deleted, .inl ?_⟩
    rw [if_pos hex]
    cases hm : s.inMerge <;> simp
  · have hdel : f.deleted = ∅ := by
      rw [Bool.not_eq_true, Bool.or_eq_false_iff, Option.isSome_eq_false_iff,
        Option.isSome_eq_false_iff, Option.isNone_iff_eq_none, Option.isNone_iff_eq_none] at hex
      simp [SegmentFiles.deleted, SegmentFiles.loadDk, SegmentFiles.loadDkm, hex.1, hex.2]
    refine ⟨s.hasDeletedKeys_, s.deletedKeys, .inr ⟨hdel, ?_⟩⟩
    rw [if_neg hex]
    cases hh : s.hasDeletedKeys_ with
    | false => simp [hh]
    | true =>
      have hkeys : s.deletedKeys = ∅ := Finset.subset_empty.mp (hdel ▸ hr hh)
      cases hm : s.inMerge <;> simp [hh, hkeys, hm]

/-- Looking at the lists, by a reader or before a delete. -/
theorem Consistent.lazyLoad (hc : Consistent h)
    (hs : h.segment.inMerge = true → h.segment.deletesLoaded = false → h.files.deleted = ∅) :
    Consistent { h with segment := h.segment.lazyLoadDeletedKeys h.files } := by
  cases hl : h.segment.deletesLoaded with
  | true =>
    rw [Segment.lazyLoadDeletedKeys, if_pos hl]
    exact hc
  | false =>
    have hn : h.segment.newDelete = false := by
      by_contra hn
      rw [Bool.not_eq_false] at hn
      rw [hc.newDelete hn] at hl
      cases hl
    obtain ⟨h1, h2, h3, h4, h5, h6, h7, h8, h9, h10, h11⟩ := hc
    obtain ⟨has, keys, heq | ⟨hdel, heq⟩⟩ := lazyLoad_eq h.files h.segment hl (h11 hl)
    · rw [heq]
      cases hm : h.segment.inMerge with
      | true =>
        have hdel := hs hm hl
        simp only [hdel, Finset.union_empty, if_true]
        exact
          { onDisk := h1
            dkm := fun _ => h2 hm
            dkAtElection := fun _ => h3 hm
            during := h4
            notDuring := fun hm' => absurd hm' (by simp)
            loaded := fun _ => hdel.subset.trans (Finset.empty_subset _)
            newDelete := fun _ => rfl
            called := h8
            notNew := fun _ => h9 hn
            forWrite := fun _ => h10 hm
            readers := fun hl' => absurd hl' (by simp) }
      | false =>
        simp only [Bool.false_eq_true, if_false]
        exact
          { onDisk := h1
            dkm := fun hm' => absurd hm' (by simp)
            dkAtElection := fun hm' => absurd hm' (by simp)
            during := h4
            notDuring := fun _ => h5 hm
            loaded := fun _ => Finset.subset_union_right.trans Finset.subset_union_left
            newDelete := fun _ => rfl
            called := h8.trans (Finset.union_subset_union_left Finset.subset_union_left)
            notNew := fun _ => ⟨(h9 hn).1, (h9 hn).2.1,
              Finset.union_subset (h9 hn).2.2 (Finset.Subset.refl _)⟩
            forWrite := fun hm' => absurd hm' (by simp)
            readers := fun hl' => absurd hl' (by simp) }
    · rw [heq]
      exact
        { onDisk := h1
          dkm := h2
          dkAtElection := h3
          during := h4
          notDuring := h5
          loaded := fun _ => hdel.subset.trans (Finset.empty_subset _)
          newDelete := fun _ => rfl
          called := h8
          notNew := h9
          forWrite := h10
          readers := fun hl' => absurd hl' (by simp) }

theorem Consistent.isDeleted {k : Key} (hc : Consistent h) (hs : Sound h (.isDeleted k)) :
    Consistent (h.call (.isDeleted k)) :=
  hc.lazyLoad hs

theorem lazyLoad_kept (f : SegmentFiles V) (s : Segment V) :
    (s.lazyLoadDeletedKeys f).dictionary = s.dictionary ∧
      (s.lazyLoadDeletedKeys f).inMerge = s.inMerge ∧
      (s.lazyLoadDeletedKeys f).deletesLoaded = true := by
  unfold Segment.lazyLoadDeletedKeys Segment.loadDeletedKeys
  cases hl : s.deletesLoaded
  · simp only [Bool.false_eq_true, if_false]
    repeat' split
    all_goals simp
  · simp [hl]

theorem Consistent.deleteKey {k : Key} (hc : Consistent h) (hs : Sound h (.deleteKey k)) :
    Consistent (h.call (.deleteKey k)) := by
  simp only [call, Segment.deleteKey]
  cases hk : h.segment.contains k with
  | false => simpa using hc
  | true =>
    have hc' := hc.lazyLoad (hs hk)
    obtain ⟨-, hmerge, hloaded⟩ := lazyLoad_kept h.files h.segment
    generalize h.segment.lazyLoadDeletedKeys h.files = s at hc' hmerge hloaded
    obtain ⟨h1, h2, h3, h4, h5, h6, h7, h8, h9, h10, h11⟩ := hc'
    cases hm : h.segment.inMerge with
    | true =>
      rw [hm] at hmerge
      simp only [Bool.not_true, Bool.false_eq_true, if_false, if_true, hmerge]
      exact
        { onDisk := h1
          dkm := fun _ =>
            (h2 hmerge).trans (Finset.union_subset_union_right (Finset.subset_insert _ _))
          dkAtElection := fun _ => h3 hmerge
          during := Finset.insert_subset_insert k h4
          notDuring := fun hm' => absurd hm' (by simp)
          loaded := fun _ =>
            (h6 hloaded).trans (Finset.union_subset_union_right (Finset.subset_insert _ _))
          newDelete := fun _ => hloaded
          called := Finset.insert_subset (Finset.mem_union_right _ (Finset.mem_insert_self _ _))
            (h8.trans (Finset.union_subset_union_right (Finset.subset_insert _ _)))
          notNew := fun hn' => absurd hn' (by simp)
          forWrite := fun _ => h10 hmerge
          readers := fun hl' => absurd hl' (by simp [hloaded]) }
    | false =>
      rw [hm] at hmerge
      simp only [Bool.not_true, Bool.false_eq_true, if_false, if_true, hmerge]
      exact
        { onDisk := h1
          dkm := fun hm' => absurd hm' (by simp)
          dkAtElection := fun hm' => absurd hm' (by simp)
          during := h4
          notDuring := fun _ => h5 hmerge
          loaded := fun _ =>
            (h6 hloaded).trans (Finset.union_subset_union_left (Finset.subset_insert _ _))
          newDelete := fun _ => hloaded
          called := Finset.insert_subset (Finset.mem_union_left _ (Finset.mem_insert_self _ _))
            (h8.trans (Finset.union_subset_union_left (Finset.subset_insert _ _)))
          notNew := fun hn' => absurd hn' (by simp)
          forWrite := fun hm' => absurd hm' (by simp)
          readers := fun hl' => absurd hl' (by simp [hloaded]) }

/-- An election is `Persist`, with the deletes before it in `.dk` from then on. -/
theorem Consistent.electedForMerge (hc : Consistent h) (hs : Sound h .electedForMerge) :
    Consistent (h.call .electedForMerge) := by
  have hp := hc.persist
  have hdk : h.segment.inMerge = false →
      (h.call .persist).files.loadDkm ⊆ (h.call .persist).files.loadDk ∧
        h.segment.deletedKeysForWrite ⊆ (h.call .persist).files.loadDk := by
    intro hm
    simp only [call, applyAll_persist]
    cases hn : h.segment.newDelete with
    | false =>
      simp only [Bool.false_eq_true, if_false]
      have hsub := hs hm hn
      exact ⟨hsub, (hc.notNew hn).2.2.trans (Finset.union_subset (Finset.Subset.refl _) hsub)⟩
    | true =>
      simp only [hm, Bool.false_eq_true, if_false, if_true]
      have hload := hc.loaded (hc.newDelete hn)
      rw [hc.notDuring hm, Finset.union_empty] at hload
      exact ⟨Finset.subset_union_right.trans hload, Finset.Subset.refl _⟩
  exact
    { onDisk := hp.onDisk
      dkm := fun _ => by
        cases hm : h.segment.inMerge with
        | true => exact hp.dkm hm
        | false => exact (hdk hm).1.trans Finset.subset_union_left
      dkAtElection := fun _ => rfl
      during := by
        show h.segment.deletedKeysDuringMergeForWrite ⊆
          if h.segment.inMerge then h.calledInMerge else ∅
        cases hm : h.segment.inMerge with
        | true => exact hc.during
        | false => exact (hc.notDuring hm).subset
      notDuring := fun hm => Bool.noConfusion hm
      loaded := hp.loaded
      newDelete := hp.newDelete
      called := hp.called
      notNew := hp.notNew
      forWrite := fun _ => by
        cases hm : h.segment.inMerge with
        | true => exact hp.forWrite hm
        | false => exact (hdk hm).2
      readers := hp.readers }

theorem Consistent.mergeFailed (hc : Consistent h) : Consistent (h.call .mergeFailed) := by
  obtain ⟨h1, h2, h3, h4, h5, h6, h7, h8, h9, h10, h11⟩ := hc
  simp only [call, Segment.mergeFailed]
  by_cases hd : h.segment.deletedKeysDuringMergeForWrite = ∅
  · rw [if_neg (by simp [hd])]
    exact
      { onDisk := h1
        dkm := fun hm => absurd hm (by simp)
        dkAtElection := fun hm => absurd hm (by simp)
        during := h4
        notDuring := fun _ => hd
        loaded := h6
        newDelete := h7
        called := h8
        notNew := h9
        forWrite := fun hm => absurd hm (by simp)
        readers := h11 }
  · have hnew : h.segment.newDelete = true := by
      by_contra hn
      exact hd (h9 (by simpa using hn)).2.1
    have hl := h7 hnew
    rw [if_pos (Finset.card_pos.mpr (Finset.nonempty_iff_ne_empty.mpr hd))]
    -- All deletes are in `.dk`, and `.dkm` is gone.
    exact
      { onDisk := (h1.trans (h6 hl)).trans Finset.subset_union_left
        dkm := fun hm => absurd hm (by simp)
        dkAtElection := fun hm => absurd hm (by simp)
        during := Finset.empty_subset _
        notDuring := fun _ => rfl
        loaded := fun _ => Finset.Subset.refl _
        newDelete := fun _ => hl
        called := h8.trans Finset.subset_union_left
        notNew := fun hn => absurd hn (by simp)
        forWrite := fun hm => absurd hm (by simp)
        readers := fun hl' => absurd hl' (by simp [hl]) }

/-- A segment opened from any files. -/
theorem consistent_opened (d : Dictionary V) (f : SegmentFiles V) :
    Consistent (opened d f false) := by
  simp only [opened, Segment.ofPath, Bool.false_eq_true, if_false]
  by_cases hex : (f.dk.isSome || f.dkm.isSome) = true
  · rw [Segment.loadDeletedKeys, if_pos hex]
    constructor <;> simp
  · rw [Segment.loadDeletedKeys, if_neg hex]
    constructor <;> simp

theorem Consistent.reopen (hc : Consistent h) : Consistent (h.call .reopen) := by
  have ho := consistent_opened h.segment.dictionary h.files
  obtain ⟨-, -, -, -, -, -, -, -, -, -, h11⟩ := ho
  simp only [call, Segment.ofPath, Bool.false_eq_true, if_false]
  by_cases hex : (h.files.dk.isSome || h.files.dkm.isSome) = true
  · rw [Segment.loadDeletedKeys, if_pos hex]
    constructor <;> simp [hc.onDisk]
  · rw [Segment.loadDeletedKeys, if_neg hex]
    constructor <;> simp [hc.onDisk]

/-- **One call** keeps the files, the sets and the history consistent. -/
theorem Consistent.call {c : SegmentCall} (hc : Consistent h) (hs : Sound h c) :
    Consistent (h.call c) := by
  cases c with
  | deleteKey k => exact hc.deleteKey hs
  | persist => exact hc.persist
  | electedForMerge => exact hc.electedForMerge hs
  | mergeFailed => exact hc.mergeFailed
  | isDeleted k => exact hc.isDeleted hs
  | reopen => exact hc.reopen

/-! ## Runs -/

/-- A segment built from merged ones; the constructor persists its deleted keys. -/
def built (d : Dictionary V) (parents : List (Segment V)) : SegmentHistory V :=
  let (segment, ops) := Segment.ofParents d parents
  ⟨segment, SegmentFileOp.applyAll (.ofKv d) ops, ∅,
    segment.deletedKeysForWrite, ∅, ∅⟩

/-- How a segment comes into being: opened from a path, compiled, or built from merged ones. -/
inductive Start : SegmentHistory V → Prop
  | opened (d : Dictionary V) (f : SegmentFiles V) : Start (opened d f false)
  | compiled (d : Dictionary V) (f : SegmentFiles V) (hdk : f.dk = none) (hdkm : f.dkm = none) :
      Start (SegmentHistory.opened d f true)
  | built (d : Dictionary V) (parents : List (Segment V)) : Start (built d parents)

theorem Start.consistent (hs : Start h) : Consistent h := by
  cases hs with
  | opened d f => exact consistent_opened d f
  | compiled d f hdk hdkm =>
    constructor <;>
      simp [SegmentHistory.opened, Segment.ofPath, SegmentFiles.deleted, SegmentFiles.loadDk,
        SegmentFiles.loadDkm, hdk, hdkm]
  | built d parents =>
    simp only [SegmentHistory.built, Segment.ofParents]
    split
    · constructor <;>
        simp [Segment.persist, SegmentFileOp.applyAll, SegmentFileOp.apply, SegmentFiles.deleted,
          SegmentFiles.loadDk, SegmentFiles.loadDkm, SegmentFiles.ofKv]
    · next hcard =>
      have hempty := Finset.card_eq_zero.mp (not_not.mp hcard)
      constructor <;>
        simp [SegmentFileOp.applyAll, SegmentFiles.deleted, SegmentFiles.loadDk,
          SegmentFiles.loadDkm, SegmentFiles.ofKv, hempty]

/-- A segment after a run of calls each of which meets the condition. -/
def Reached (h : SegmentHistory V) : Prop :=
  ∃ start cs, Start start ∧ Run.Along (fun h c => some (h.call c)) Sound start cs ∧
    Run.run (fun h c => some (h.call c)) start cs = some h

theorem Reached.consistent (hr : Reached h) : Consistent h := by
  obtain ⟨start, cs, hstart, hok, hrun⟩ := hr
  refine Run.invariant (fun s c s' hs hc he => ?_) hstart.consistent hok hrun
  rw [← Option.some.inj he]
  exact hs.call hc

/-- The deleted keys of a merged segment are those deleted in its sources during the merge. -/
theorem mem_merged (d : Dictionary V) (sources : List (SegmentHistory V)) (k : Key) :
    k ∈ (merged d sources).1.deletedKeysForWrite ↔
      ∃ s ∈ sources, k ∈ s.segment.deletedKeysDuringMergeForWrite := by
  have hfold : ∀ (ps : List (Segment V)) (acc : DeletedKeys),
      k ∈ ps.foldl (fun acc p => acc ∪ p.deletedKeysDuringMergeForWrite) acc ↔
        k ∈ acc ∨ ∃ p ∈ ps, k ∈ p.deletedKeysDuringMergeForWrite := by
    intro ps
    induction ps with
    | nil => simp
    | cons p ps ih =>
      intro acc
      rw [List.foldl_cons, ih, Finset.mem_union, List.exists_mem_cons_iff, or_assoc]
  have hset : (merged d sources).1.deletedKeysForWrite =
      (sources.map (·.segment)).foldl
        (fun acc p => acc ∪ p.deletedKeysDuringMergeForWrite) ∅ := by
    simp only [merged, Segment.ofParents]
    split <;> rfl
  rw [hset, hfold]
  simp

/-- The constructor writes the deleted keys of a merged segment to its `.dk`. -/
theorem loadDk_merged (d : Dictionary V) (sources : List (SegmentHistory V)) :
    (SegmentFileOp.applyAll SegmentFiles.none (merged d sources).2).loadDk =
      (merged d sources).1.deletedKeysForWrite := by
  simp only [merged, Segment.ofParents]
  split
  · rfl
  · next hcard => exact (Finset.card_eq_zero.mp (not_not.mp hcard)).symm

/-- **No persisted delete is lost in a merge, and none is made up.** Whatever the calls were, at a
successful merge every persisted delete was in `.dk` when its segment was elected or is a deleted
key of the merged segment, in memory and in its `.dk`; and the merged segment lists nothing that was
not deleted in one of its sources while the merge was running. -/
theorem persisted_delete_survives_merge (d : Dictionary V) (sources : List (SegmentHistory V))
    (hr : ∀ s ∈ sources, Reached s) (hm : ∀ s ∈ sources, s.segment.inMerge = true) :
    (∀ s ∈ sources, ∀ k ∈ s.persisted,
      k ∈ s.dkAtElection ∨ k ∈ (merged d sources).1.deletedKeysForWrite) ∧
    (∀ k ∈ (merged d sources).1.deletedKeysForWrite, ∃ s ∈ sources, k ∈ s.calledInMerge) ∧
    (SegmentFileOp.applyAll SegmentFiles.none (merged d sources).2).loadDk =
      (merged d sources).1.deletedKeysForWrite := by
  refine ⟨fun s hs k hk => ?_, fun k hk => ?_, loadDk_merged d sources⟩
  · have hc := (hr s hs).consistent
    have hdel := hc.onDisk hk
    rw [SegmentFiles.deleted, Finset.mem_union] at hdel
    rw [← hc.dkAtElection (hm s hs)]
    rcases hdel with hdk | hdkm
    · exact .inl hdk
    · rcases Finset.mem_union.mp (hc.dkm (hm s hs) hdkm) with hdk | hduring
      · exact .inl hdk
      · exact .inr ((mem_merged d sources k).mpr ⟨s, hs, hduring⟩)
  · obtain ⟨s, hs, hduring⟩ := (mem_merged d sources k).mp hk
    exact ⟨s, hs, (hr s hs).consistent.during hduring⟩

/-- A dictionary with the keys 1 and 2. -/
def twoKeys : Dictionary Nat := fun k => if k = [1] then some 10 else if k = [2] then some 20 else none

/-- One key is deleted before the merge, one while it is running. -/
def deletedAround : SegmentHistory Nat :=
  calls (opened twoKeys SegmentFiles.none false)
    [.deleteKey [1], .electedForMerge, .deleteKey [2], .persist]

theorem persisted_delete_survives_merge_twoKeys :
    (∀ s ∈ [deletedAround], ∀ k ∈ s.persisted,
      k ∈ s.dkAtElection ∨ k ∈ (merged twoKeys [deletedAround]).1.deletedKeysForWrite) ∧
    (∀ k ∈ (merged twoKeys [deletedAround]).1.deletedKeysForWrite,
      ∃ s ∈ [deletedAround], k ∈ s.calledInMerge) ∧
    (SegmentFileOp.applyAll SegmentFiles.none (merged twoKeys [deletedAround]).2).loadDk =
      (merged twoKeys [deletedAround]).1.deletedKeysForWrite := by
  refine persisted_delete_survives_merge twoKeys [deletedAround] ?_ (by decide)
  intro s hs
  obtain rfl := List.mem_singleton.mp hs
  refine ⟨_, [.deleteKey [1], .electedForMerge, .deleteKey [2], .persist],
    .opened twoKeys SegmentFiles.none, ?_, rfl⟩
  simp only [Run.Along, Option.some.injEq, forall_eq', Sound, and_true]
  decide

/-- The process ends during a merge and the segment is merged again after that. -/
def crashedInMerge : SegmentHistory Nat :=
  calls (opened twoKeys SegmentFiles.none false)
    [.electedForMerge, .deleteKey [1], .persist, .reopen, .electedForMerge]

/-- A reader looks at the delete lists for the first time during a merge. -/
def lookedAtInMerge : SegmentHistory Nat :=
  calls (opened twoKeys SegmentFiles.none false)
    [.deleteKey [1], .persist, .reopen, .electedForMerge, .isDeleted [1]]

/-- After the crash the delete is in `.dkm` only and the merge loses it; the lookup makes an old
delete a new one. -/
theorem delete_lost_after_crash :
    (crashedInMerge.segment.inMerge = true ∧ [1] ∈ crashedInMerge.persisted ∧
      [1] ∉ crashedInMerge.dkAtElection ∧
      [1] ∉ (merged twoKeys [crashedInMerge]).1.deletedKeysForWrite) ∧
    (lookedAtInMerge.segment.inMerge = true ∧ [1] ∉ lookedAtInMerge.calledInMerge ∧
      [1] ∈ (merged twoKeys [lookedAtInMerge]).1.deletedKeysForWrite) := by
  decide

end SegmentHistory
end Keyvi.Index
