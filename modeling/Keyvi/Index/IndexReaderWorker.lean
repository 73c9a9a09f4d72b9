import Mathlib
import Keyvi.Index.Segment
import Keyvi.Library.Run

/-!
# The index reader

`index_reader_worker.h` and `read_only_segment.h`. A refresh looks at the time of the table of contents,
remembers it, reads the table, opens the segments it does not have yet and takes them over; then it loads
the deleted keys of every segment. Between these steps the writer changes the files. Times are whole
seconds.
-/

namespace Keyvi.Index

abbrev SegmentName := String

/-- The members of `ReadOnlySegment` for the deleted keys. The remembered times are never changed. -/
structure ReadOnlySegment where
  dictionaryFilename : SegmentName
  hasDeletedKeys : Bool
  deletedKeys : DeletedKeys
  lastModificationTimeDeletedKeys : Nat
  lastModificationTimeDeletedKeysDuringMerge : Nat
  deriving DecidableEq

/-- The files of the index: the table of contents, the dictionaries, the lists of deleted keys of each
segment, each list with its time. `used` are the names the writer has taken, `clock` is the time of the last
write. -/
structure IndexFiles where
  tocTime : Nat
  toc : List SegmentName
  dictionaries : List SegmentName
  dk : SegmentName → Option (Nat × DeletedKeys)
  dkm : SegmentName → Option (Nat × DeletedKeys)
  used : List SegmentName
  clock : Nat

/-- `LoadAndUnserializeDeletedKeys`: a file that is not there has no keys. -/
def loadAndUnserializeDeletedKeys (file : Option (Nat × DeletedKeys)) : DeletedKeys :=
  (file.map Prod.snd).getD ∅

namespace ReadOnlySegment

/-- `LoadDeletedKeys`. -/
def loadDeletedKeys (files : IndexFiles) (s : ReadOnlySegment) : ReadOnlySegment :=
  let lastWriteDk :=
    ((files.dk s.dictionaryFilename).map Prod.fst).getD s.lastModificationTimeDeletedKeys
  let lastWriteDkm :=
    ((files.dkm s.dictionaryFilename).map Prod.fst).getD
      s.lastModificationTimeDeletedKeysDuringMerge
  if lastWriteDk > s.lastModificationTimeDeletedKeys ∨
      lastWriteDkm > s.lastModificationTimeDeletedKeysDuringMerge then
    { s with
      deletedKeys := loadAndUnserializeDeletedKeys (files.dk s.dictionaryFilename) ∪
        loadAndUnserializeDeletedKeys (files.dkm s.dictionaryFilename)
      hasDeletedKeys := true }
  else s

/-- The constructor, for a dictionary that is there. -/
def new (files : IndexFiles) (name : SegmentName) : ReadOnlySegment :=
  loadDeletedKeys files ⟨name, false, ∅, 0, 0⟩

/-- The keys for which `IsDeleted` holds. -/
def visibleDeletes (s : ReadOnlySegment) : DeletedKeys := if s.hasDeletedKeys then s.deletedKeys else ∅

end ReadOnlySegment

/-- Where a refresh stands. `watcher` tells whether `UpdateWatcher` runs it, which catches exceptions. -/
inductive Refresh
  | idle
  | readToc (watcher : Bool)
  | openSegments (watcher : Bool) (files : List SegmentName) (newSegments : List ReadOnlySegment)
  | reloadDeletedKeys (watcher : Bool) (i : Nat)
  deriving DecidableEq

/-- The members of `IndexReaderWorker`; `segments_by_name_` has the same segments as `segments_`. -/
structure IndexReaderWorker where
  lastModificationTime : Nat
  segments : List ReadOnlySegment
  refresh : Refresh

structure IndexState where
  files : IndexFiles
  reader : IndexReaderWorker

inductive IndexEvent
  /-- The writer has finished the dictionary of a new segment. -/
  | addSegment (name : SegmentName)
  /-- `WriteToc`. -/
  | writeToc (time : Nat) (names : List SegmentName)
  /-- `Segment::Persist` outside of a merge and during one. -/
  | persistDk (time : Nat) (name : SegmentName) (keys : DeletedKeys)
  | persistDkm (time : Nat) (name : SegmentName) (keys : DeletedKeys)
  /-- The parts of `Segment::RemoveFiles`; `removeDkm` is also the end of `MergeFailed`. -/
  | removeDictionary (name : SegmentName)
  | removeDkm (name : SegmentName)
  | removeDk (name : SegmentName)
  /-- A refresh of `Reload` or of the watcher. -/
  | beginRefresh (watcher : Bool)
  | readToc
  | openSegment
  | swapSegments
  | reloadDeletedKeys
  /-- An exception. -/
  | fail
  deriving DecidableEq

namespace IndexState

/-- The next step of the index; none if it is not possible. -/
def step (s : IndexState) : IndexEvent → Option IndexState
  | .addSegment name =>
    if name ∉ s.files.used then
      some { s with files := { s.files with
        dictionaries := name :: s.files.dictionaries
        used := name :: s.files.used } }
    else none
  | .writeToc time names =>
    -- The files of the listed segments are there, and time does not go back.
    if s.files.clock ≤ time ∧ ∀ name ∈ names, name ∈ s.files.dictionaries then
      some { s with files := { s.files with tocTime := time, toc := names, clock := time } }
    else none
  | .persistDk time name keys =>
    if s.files.clock ≤ time then
      some { s with files := { s.files with
        dk := Function.update s.files.dk name (some (time, keys))
        clock := time } }
    else none
  | .persistDkm time name keys =>
    if s.files.clock ≤ time then
      some { s with files := { s.files with
        dkm := Function.update s.files.dkm name (some (time, keys))
        clock := time } }
    else none
  | .removeDictionary name =>
    -- The files of a segment are removed when it is no longer listed.
    if name ∉ s.files.toc then
      some { s with files := { s.files with
        dictionaries := s.files.dictionaries.filter fun n => n ≠ name } }
    else none
  | .removeDkm name =>
    -- After a failed merge its keys are in the other list; otherwise the dictionary is removed first.
    if (s.files.dk name).isSome ∨ name ∉ s.files.dictionaries then
      some { s with files := { s.files with dkm := Function.update s.files.dkm name none } }
    else none
  | .removeDk name =>
    if name ∉ s.files.dictionaries then
      some { s with files := { s.files with dk := Function.update s.files.dk name none } }
    else none
  | .beginRefresh watcher =>
    match s.reader.refresh with
    | .idle =>
      if s.files.tocTime ≤ s.reader.lastModificationTime then
        some { s with reader := { s.reader with refresh := .reloadDeletedKeys watcher 0 } }
      else
        some { s with reader := { s.reader with
          lastModificationTime := s.files.tocTime
          refresh := .readToc watcher } }
    | _ => none
  | .readToc =>
    match s.reader.refresh with
    | .readToc watcher =>
      some { s with reader := { s.reader with refresh := .openSegments watcher s.files.toc [] } }
    | _ => none
  | .openSegment =>
    match s.reader.refresh with
    | .openSegments watcher (name :: names) newSegments =>
      match s.reader.segments.find? fun w => w.dictionaryFilename = name with
      | some w =>
        some { s with reader := { s.reader with
          refresh := .openSegments watcher names (newSegments ++ [w]) } }
      | none =>
        -- A segment whose file is not there makes the refresh fail.
        if name ∈ s.files.dictionaries then
          some { s with reader := { s.reader with
            refresh :=
              .openSegments watcher names (newSegments ++ [ReadOnlySegment.new s.files name]) } }
        else none
    | _ => none
  | .swapSegments =>
    match s.reader.refresh with
    | .openSegments watcher [] newSegments =>
      some { s with reader := { s.reader with
        segments := newSegments
        refresh := .reloadDeletedKeys watcher 0 } }
    | _ => none
  | .reloadDeletedKeys =>
    match s.reader.refresh with
    | .reloadDeletedKeys watcher i =>
      if i < s.reader.segments.length then
        some { s with reader := { s.reader with
          segments := s.reader.segments.modify i (ReadOnlySegment.loadDeletedKeys s.files)
          refresh := .reloadDeletedKeys watcher (i + 1) } }
      else some { s with reader := { s.reader with refresh := .idle } }
    | _ => none
  | .fail =>
    match s.reader.refresh with
    | .idle => none
    | .readToc watcher | .openSegments watcher _ _ | .reloadDeletedKeys watcher _ =>
      some { s with reader := { s.reader with
        lastModificationTime := if watcher then 0 else s.reader.lastModificationTime
        refresh := .idle } }

/-- An index without segments, and its reader. -/
def init (time : Nat) : IndexState :=
  ⟨⟨time, [], [], fun _ => none, fun _ => none, [], time⟩, ⟨0, [], .idle⟩⟩

/-! ## What a reader should see -/

/-- Some list of deleted keys is there. -/
def HasList (s : IndexState) (name : SegmentName) : Prop :=
  (s.files.dk name).isSome ∨ (s.files.dkm name).isSome

/-- The deleted keys of a segment that were last written. -/
def writtenDeletes (s : IndexState) (name : SegmentName) : DeletedKeys :=
  loadAndUnserializeDeletedKeys (s.files.dk name) ∪ loadAndUnserializeDeletedKeys (s.files.dkm name)

/-- The reader has the listed segments with the deleted keys last written. -/
def Fresh (s : IndexState) : Prop :=
  s.reader.segments.map ReadOnlySegment.dictionaryFilename = s.files.toc ∧
  ∀ w ∈ s.reader.segments, w.visibleDeletes = s.writtenDeletes w.dictionaryFilename

/-- A step of a refresh that has begun, other than an exception. -/
def Proceeds : IndexEvent → Prop
  | .readToc | .openSegment | .swapSegments | .reloadDeletedKeys => True
  | _ => False

/-- A step of the reader that is not an exception. -/
def Refreshes : IndexEvent → Prop
  | .beginRefresh _ | .readToc | .openSegment | .swapSegments | .reloadDeletedKeys => True
  | _ => False

theorem Proceeds.refreshes : ∀ {e : IndexEvent}, Proceeds e → Refreshes e
  | .readToc, _ | .openSegment, _ | .swapSegments, _ | .reloadDeletedKeys, _ => trivial

/-- The table of contents is written in a later second than the one that the reader remembers, and only
the watcher meets an exception. -/
def Timely (s : IndexState) : IndexEvent → Prop
  | .writeToc time _ => s.reader.lastModificationTime < time
  | .fail =>
    match s.reader.refresh with
    | .readToc watcher | .openSegments watcher _ _ | .reloadDeletedKeys watcher _ => watcher = true
    | .idle => True
  | _ => True

instance : DecidablePred Proceeds
  | .readToc | .openSegment | .swapSegments | .reloadDeletedKeys => isTrue trivial
  | .addSegment _ | .writeToc _ _ | .persistDk _ _ _ | .persistDkm _ _ _ | .removeDictionary _
  | .removeDkm _ | .removeDk _ | .beginRefresh _ | .fail => isFalse id

instance (s : IndexState) : DecidablePred (Timely s)
  | .writeToc time _ => inferInstanceAs (Decidable (s.reader.lastModificationTime < time))
  | .fail =>
    match hr : s.reader.refresh with
    | .idle => isTrue (by simp only [Timely, hr])
    | .readToc watcher => decidable_of_iff (watcher = true) (by simp only [Timely, hr])
    | .openSegments watcher _ _ => decidable_of_iff (watcher = true) (by simp only [Timely, hr])
    | .reloadDeletedKeys watcher _ => decidable_of_iff (watcher = true) (by simp only [Timely, hr])
  | .addSegment _ | .persistDk _ _ _ | .persistDkm _ _ _ | .removeDictionary _ | .removeDkm _
  | .removeDk _ | .beginRefresh _ | .readToc | .openSegment | .swapSegments
  | .reloadDeletedKeys => isTrue trivial

/-! ## What holds in every state -/

/-- The segment was loaded with lists that are there, unless its dictionary is gone. -/
structure Known (s : IndexState) (w : ReadOnlySegment) : Prop where
  used : w.dictionaryFilename ∈ s.files.used
  timeDk : w.lastModificationTimeDeletedKeys = 0
  timeDkm : w.lastModificationTimeDeletedKeysDuringMerge = 0
  lists : w.hasDeletedKeys = true →
    s.HasList w.dictionaryFilename ∨ w.dictionaryFilename ∉ s.files.dictionaries

/-- What the refresh has got so far. -/
def RefreshInv (s : IndexState) : Prop :=
  match s.reader.refresh with
  | .idle | .reloadDeletedKeys _ _ => s.files.tocTime ≤ s.reader.lastModificationTime →
      s.reader.segments.map ReadOnlySegment.dictionaryFilename = s.files.toc
  | .readToc _ => True
  | .openSegments _ names newSegments => (∀ w ∈ newSegments, Known s w) ∧
      (s.files.tocTime ≤ s.reader.lastModificationTime →
        newSegments.map ReadOnlySegment.dictionaryFilename ++ names = s.files.toc)

/-- The invariant of the index and its reader. -/
structure Inv (s : IndexState) : Prop where
  tocTime : 0 < s.files.tocTime
  clock : 0 < s.files.clock
  dk : ∀ name f, s.files.dk name = some f → 0 < f.1
  dkm : ∀ name f, s.files.dkm name = some f → 0 < f.1
  listed : ∀ name ∈ s.files.toc, name ∈ s.files.dictionaries
  used : ∀ name ∈ s.files.dictionaries, name ∈ s.files.used
  segments : ∀ w ∈ s.reader.segments, Known s w
  refresh : RefreshInv s

variable {s s' : IndexState}

/-- What the writer may do to the files of a segment that is known. -/
theorem Known.mono {w : ReadOnlySegment} (h : Known s w)
    (hused : ∀ n ∈ s.files.used, n ∈ s'.files.used)
    (hdict : ∀ n ∈ s.files.used, n ∈ s'.files.dictionaries → n ∈ s.files.dictionaries)
    (hlists : ∀ n ∈ s'.files.dictionaries, s.HasList n → s'.HasList n) : Known s' w := by
  refine ⟨hused _ h.used, h.timeDk, h.timeDkm, fun hd => ?_⟩
  by_cases hin : w.dictionaryFilename ∈ s'.files.dictionaries
  · rcases h.lists hd with hl | hl
    · exact .inl (hlists _ hin hl)
    · exact absurd (hdict _ h.used hin) hl
  · exact .inr hin

/-- A step of the writer that leaves the table of contents, or writes it later than the reader
remembers. -/
theorem RefreshInv.mono (h : RefreshInv s) (hreader : s'.reader = s.reader)
    (hknown : ∀ w, Known s w → Known s' w)
    (htoc : s'.files.tocTime ≤ s.reader.lastModificationTime →
      s.files.tocTime ≤ s.reader.lastModificationTime ∧ s'.files.toc = s.files.toc) :
    RefreshInv s' := by
  unfold RefreshInv at h ⊢
  rw [hreader]
  split at h
  · intro ht
    rw [(htoc ht).2]
    exact h (htoc ht).1
  · intro ht
    rw [(htoc ht).2]
    exact h (htoc ht).1
  · trivial
  · refine ⟨fun w hw => hknown w (h.1 w hw), fun ht => ?_⟩
    rw [(htoc ht).2]
    exact h.2 (htoc ht).1

theorem Inv.writer (h : Inv s) (hreader : s'.reader = s.reader)
    (htocTime : 0 < s'.files.tocTime) (hclock : 0 < s'.files.clock)
    (hdk : ∀ name f, s'.files.dk name = some f → 0 < f.1)
    (hdkm : ∀ name f, s'.files.dkm name = some f → 0 < f.1)
    (hlisted : ∀ name ∈ s'.files.toc, name ∈ s'.files.dictionaries)
    (hall : ∀ name ∈ s'.files.dictionaries, name ∈ s'.files.used)
    (hused : ∀ n ∈ s.files.used, n ∈ s'.files.used)
    (hdict : ∀ n ∈ s.files.used, n ∈ s'.files.dictionaries → n ∈ s.files.dictionaries)
    (hlists : ∀ n ∈ s'.files.dictionaries, s.HasList n → s'.HasList n)
    (htoc : s'.files.tocTime ≤ s.reader.lastModificationTime →
      s.files.tocTime ≤ s.reader.lastModificationTime ∧ s'.files.toc = s.files.toc) : Inv s' :=
  ⟨htocTime, hclock, hdk, hdkm, hlisted, hall,
    fun w hw => (h.segments w (hreader ▸ hw)).mono hused hdict hlists,
    h.refresh.mono hreader (fun _ hw => hw.mono hused hdict hlists) htoc⟩

/-- A step of the reader leaves the files. -/
theorem Known.files {w : ReadOnlySegment} (h : Known s w) (hfiles : s'.files = s.files) :
    Known s' w := by
  refine h.mono (fun n hn => ?_) (fun n _ hn => ?_) (fun n _ hn => ?_)
  · rw [hfiles]
    exact hn
  · rw [← hfiles]
    exact hn
  · unfold HasList at hn ⊢
    rw [hfiles]
    exact hn

theorem Inv.reader (h : Inv s) (hfiles : s'.files = s.files)
    (hsegments : ∀ w ∈ s'.reader.segments, Known s w) (hrefresh : RefreshInv s') : Inv s' := by
  refine ⟨?_, ?_, ?_, ?_, ?_, ?_, fun w hw => (hsegments w hw).files hfiles, hrefresh⟩ <;> rw [hfiles]
  · exact h.tocTime
  · exact h.clock
  · exact h.dk
  · exact h.dkm
  · exact h.listed
  · exact h.used

/-- Loading keeps the name, and leaves no list that is not there. -/
theorem Known.loadDeletedKeys {w : ReadOnlySegment} (h : Known s w) :
    Known s (w.loadDeletedKeys s.files) := by
  unfold ReadOnlySegment.loadDeletedKeys
  dsimp only
  split
  · next hnew =>
    refine ⟨h.used, h.timeDk, h.timeDkm, fun _ => .inl ?_⟩
    -- A list that is not there has the remembered time.
    unfold HasList
    show (s.files.dk w.dictionaryFilename).isSome ∨ (s.files.dkm w.dictionaryFilename).isSome
    rcases hnew with hnew | hnew
    · left
      cases hf : s.files.dk w.dictionaryFilename with
      | some f => rfl
      | none =>
        rw [hf] at hnew
        exact absurd hnew (lt_irrefl _)
    · right
      cases hf : s.files.dkm w.dictionaryFilename with
      | some f => rfl
      | none =>
        rw [hf] at hnew
        exact absurd hnew (lt_irrefl _)
  · exact h

@[simp] theorem loadDeletedKeys_dictionaryFilename (files : IndexFiles) (w : ReadOnlySegment) :
    (w.loadDeletedKeys files).dictionaryFilename = w.dictionaryFilename := by
  unfold ReadOnlySegment.loadDeletedKeys
  dsimp only
  split <;> rfl

theorem map_dictionaryFilename_modify (files : IndexFiles) (segments : List ReadOnlySegment) (i : Nat) :
    (segments.modify i (ReadOnlySegment.loadDeletedKeys files)).map
      ReadOnlySegment.dictionaryFilename = segments.map ReadOnlySegment.dictionaryFilename := by
  refine List.ext_getElem (by simp) fun j hj hj' => ?_
  rw [List.getElem_map, List.getElem_map, List.getElem_modify]
  split
  · exact loadDeletedKeys_dictionaryFilename _ _
  · rfl

/-- **Loading gives the deleted keys last written** for a segment whose dictionary is there. -/
theorem visibleDeletes_loadDeletedKeys (h : Inv s) {w : ReadOnlySegment} (hw : Known s w)
    (hdict : w.dictionaryFilename ∈ s.files.dictionaries) :
    (w.loadDeletedKeys s.files).visibleDeletes = s.writtenDeletes w.dictionaryFilename := by
  unfold ReadOnlySegment.loadDeletedKeys
  dsimp only
  rw [hw.timeDk, hw.timeDkm]
  by_cases hlist : s.HasList w.dictionaryFilename
  · rw [if_pos]
    · rfl
    · rcases hlist with hlist | hlist
      · obtain ⟨f, hf⟩ := Option.isSome_iff_exists.mp hlist
        left
        rw [hf]
        exact h.dk _ f hf
      · obtain ⟨f, hf⟩ := Option.isSome_iff_exists.mp hlist
        right
        rw [hf]
        exact h.dkm _ f hf
  · unfold HasList at hlist
    push Not at hlist
    simp only [ne_eq, Bool.not_eq_true, Option.isSome_eq_false_iff, Option.isNone_iff_eq_none] at hlist
    have hno : w.hasDeletedKeys = false := by
      cases hd : w.hasDeletedKeys with
      | false => rfl
      | true =>
        rcases hw.lists hd with hl | hl
        · unfold HasList at hl
          rw [hlist.1, hlist.2] at hl
          simp at hl
        · exact absurd hdict hl
    unfold writtenDeletes
    rw [hlist.1, hlist.2]
    simp only [Option.map_none, Option.getD_none, lt_irrefl, or_self, if_false,
      loadAndUnserializeDeletedKeys, Finset.union_self]
    unfold ReadOnlySegment.visibleDeletes
    rw [hno]
    rfl

theorem known_new (h : Inv s) {name : SegmentName} (hdict : name ∈ s.files.dictionaries) :
    Known s (ReadOnlySegment.new s.files name) :=
  Known.loadDeletedKeys ⟨h.used name hdict, rfl, rfl, fun hd => by cases hd⟩

/-! ## What a step of a refresh does -/

theorem step_beginRefresh {watcher : Bool} (hs : s.step (.beginRefresh watcher) = some s') :
    s.reader.refresh = .idle ∧
      (s.files.tocTime ≤ s.reader.lastModificationTime ∧
        s' = { s with reader := { s.reader with refresh := .reloadDeletedKeys watcher 0 } } ∨
      s.reader.lastModificationTime < s.files.tocTime ∧ s' = { s with reader := { s.reader with
        lastModificationTime := s.files.tocTime
        refresh := .readToc watcher } }) := by
  unfold IndexState.step at hs
  cases hph : s.reader.refresh with
  | idle =>
    simp only [hph] at hs
    split at hs
    · next ht => exact ⟨rfl, .inl ⟨ht, (Option.some.inj hs).symm⟩⟩
    · next ht => exact ⟨rfl, .inr ⟨not_le.mp ht, (Option.some.inj hs).symm⟩⟩
  | _ => simp [hph] at hs

theorem step_readToc (hs : s.step .readToc = some s') :
    ∃ watcher, s.reader.refresh = .readToc watcher ∧
      s' = { s with reader := { s.reader with refresh := .openSegments watcher s.files.toc [] } } := by
  unfold IndexState.step at hs
  cases hph : s.reader.refresh with
  | readToc watcher =>
    simp only [hph] at hs
    exact ⟨watcher, rfl, (Option.some.inj hs).symm⟩
  | _ => simp [hph] at hs

/-- The segment is taken over or new. -/
theorem step_openSegment (hs : s.step .openSegment = some s') :
    ∃ watcher name names newSegments w,
      s.reader.refresh = .openSegments watcher (name :: names) newSegments ∧
      s' = { s with reader := { s.reader with
        refresh := .openSegments watcher names (newSegments ++ [w]) } } ∧
      w.dictionaryFilename = name ∧
      (w ∈ s.reader.segments ∨
        name ∈ s.files.dictionaries ∧ w = ReadOnlySegment.new s.files name) := by
  unfold IndexState.step at hs
  cases hph : s.reader.refresh with
  | openSegments watcher names newSegments =>
    cases names with
    | nil => simp [hph] at hs
    | cons name names =>
      simp only [hph] at hs
      cases hf : s.reader.segments.find? fun w => w.dictionaryFilename = name with
      | some w =>
        rw [hf] at hs
        exact ⟨watcher, name, names, newSegments, w, rfl, (Option.some.inj hs).symm,
          by simpa using List.find?_some hf, .inl (List.mem_of_find?_eq_some hf)⟩
      | none =>
        rw [hf] at hs
        dsimp only at hs
        split at hs
        · next hdict =>
          exact ⟨watcher, name, names, newSegments, _, rfl, (Option.some.inj hs).symm,
            loadDeletedKeys_dictionaryFilename _ _, .inr ⟨hdict, rfl⟩⟩
        · cases hs
  | _ => simp [hph] at hs

theorem step_swapSegments (hs : s.step .swapSegments = some s') :
    ∃ watcher newSegments, s.reader.refresh = .openSegments watcher [] newSegments ∧
      s' = { s with reader := { s.reader with
        segments := newSegments
        refresh := .reloadDeletedKeys watcher 0 } } := by
  unfold IndexState.step at hs
  cases hph : s.reader.refresh with
  | openSegments watcher names newSegments =>
    cases names with
    | cons name names => simp [hph] at hs
    | nil =>
      simp only [hph] at hs
      exact ⟨watcher, newSegments, rfl, (Option.some.inj hs).symm⟩
  | _ => simp [hph] at hs

theorem step_reloadDeletedKeys (hs : s.step .reloadDeletedKeys = some s') :
    ∃ watcher i, s.reader.refresh = .reloadDeletedKeys watcher i ∧
      (i < s.reader.segments.length ∧
        s' = { s with reader := { s.reader with
          segments := s.reader.segments.modify i (ReadOnlySegment.loadDeletedKeys s.files)
          refresh := .reloadDeletedKeys watcher (i + 1) } } ∨
      s.reader.segments.length ≤ i ∧
        s' = { s with reader := { s.reader with refresh := .idle } }) := by
  unfold IndexState.step at hs
  cases hph : s.reader.refresh with
  | reloadDeletedKeys watcher i =>
    simp only [hph] at hs
    split at hs
    · next hi => exact ⟨watcher, i, rfl, .inl ⟨hi, (Option.some.inj hs).symm⟩⟩
    · next hi => exact ⟨watcher, i, rfl, .inr ⟨not_lt.mp hi, (Option.some.inj hs).symm⟩⟩
  | _ => simp [hph] at hs

/-! ## The steps keep the invariant -/

/-- A list that is written with a time, or removed, leaves all lists with a time. -/
theorem dated_update {files : SegmentName → Option (Nat × DeletedKeys)}
    (h : ∀ n f, files n = some f → 0 < f.1) (name : SegmentName) {list : Option (Nat × DeletedKeys)}
    (hlist : ∀ f ∈ list, 0 < f.1) (n : SegmentName) (f : Nat × DeletedKeys)
    (hf : Function.update files name list n = some f) : 0 < f.1 := by
  by_cases hn : n = name
  · rw [hn, Function.update_self] at hf
    exact hlist f hf
  · rw [Function.update_of_ne hn] at hf
    exact h n f hf

theorem isSome_update {files : SegmentName → Option (Nat × DeletedKeys)} {n name : SegmentName}
    {list : Option (Nat × DeletedKeys)} (hlist : n = name → list.isSome) (hn : (files n).isSome) :
    (Function.update files name list n).isSome := by
  by_cases h : n = name
  · rw [h, Function.update_self]
    exact hlist h
  · rw [Function.update_of_ne h]
    exact hn

theorem Inv.openSegment (h : Inv s) (hs : s.step .openSegment = some s') : Inv s' := by
  have hr := h.refresh
  obtain ⟨watcher, name, names, newSegments, w, hph, rfl, hwn, hw⟩ := step_openSegment hs
  unfold RefreshInv at hr
  rw [hph] at hr
  obtain ⟨hknown, hnames⟩ := hr
  have hknownw : Known s w := by
    rcases hw with hw | ⟨hdict, rfl⟩
    · exact h.segments w hw
    · exact known_new h hdict
  refine h.reader rfl h.segments ⟨fun x hx => ?_, fun ht => ?_⟩
  · rcases List.mem_append.mp hx with hx | hx
    · exact (hknown x hx).files rfl
    · rw [List.mem_singleton.mp hx]
      exact hknownw.files rfl
  · rw [List.map_append, List.append_assoc]
    show newSegments.map _ ++ (w.dictionaryFilename :: names) = _
    rw [hwn]
    exact hnames ht

theorem Inv.reloadDeletedKeys (h : Inv s) (hs : s.step .reloadDeletedKeys = some s') : Inv s' := by
  have hr := h.refresh
  obtain ⟨watcher, i, hph, ⟨-, rfl⟩ | ⟨-, rfl⟩⟩ := step_reloadDeletedKeys hs
  all_goals
    unfold RefreshInv at hr
    rw [hph] at hr
  · refine h.reader rfl (fun w hw => ?_) fun ht => ?_
    · obtain ⟨j, hj, rfl⟩ := List.getElem_of_mem hw
      rw [List.getElem_modify]
      rw [List.length_modify] at hj
      split
      · exact (h.segments _ (List.getElem_mem hj)).loadDeletedKeys
      · exact h.segments _ (List.getElem_mem hj)
    · rw [← hr ht]
      exact map_dictionaryFilename_modify _ _ _
  · exact h.reader rfl h.segments hr

/-- A read that throws, at any point of a refresh. -/
theorem Inv.fail (h : Inv s) (hok : Timely s .fail) (hs : s.step .fail = some s') : Inv s' := by
  unfold IndexState.step at hs
  unfold Timely at hok
  -- The watcher forgets the time, so that the table of contents is read again.
  have hforget : Inv { s with reader := { s.reader with lastModificationTime := 0, refresh := .idle } } :=
    h.reader rfl h.segments fun ht => absurd ht (not_le.mpr h.tocTime)
  cases hph : s.reader.refresh with
  | idle => simp [hph] at hs
  | readToc watcher =>
    simp only [hph] at hs hok
    rw [hok] at hs
    obtain rfl := Option.some.inj hs
    exact hforget
  | openSegments watcher names newSegments =>
    simp only [hph] at hs hok
    rw [hok] at hs
    obtain rfl := Option.some.inj hs
    exact hforget
  | reloadDeletedKeys watcher i =>
    simp only [hph] at hs hok
    rw [hok] at hs
    obtain rfl := Option.some.inj hs
    exact hforget

/-- The dictionary of a new segment: its name was not used before. -/
theorem Inv.addSegment (h : Inv s) {name : SegmentName} (hs : s.step (.addSegment name) = some s') :
    Inv s' := by
  simp only [IndexState.step] at hs
  split at hs
  · next hnew =>
    obtain rfl := Option.some.inj hs
    refine h.writer rfl h.tocTime h.clock h.dk h.dkm
      (fun n hn => List.mem_cons_of_mem _ (h.listed n hn)) (fun n hn => ?_)
      (fun n hn => List.mem_cons_of_mem _ hn) (fun n hn hd => ?_) (fun n _ hl => hl)
      fun ht => ⟨ht, rfl⟩
    · rcases List.mem_cons.mp hn with rfl | hn
      · exact List.mem_cons_self
      · exact List.mem_cons_of_mem _ (h.used n hn)
    · -- A name that was used before is not the new one.
      rcases List.mem_cons.mp hd with rfl | hd
      · exact absurd hn hnew
      · exact hd
  · cases hs

/-- A dictionary is removed when it is no longer listed. -/
theorem Inv.removeDictionary (h : Inv s) {name : SegmentName}
    (hs : s.step (.removeDictionary name) = some s') : Inv s' := by
  simp only [IndexState.step] at hs
  split at hs
  · next hg =>
    obtain rfl := Option.some.inj hs
    refine h.writer rfl h.tocTime h.clock h.dk h.dkm (fun n hn => ?_)
      (fun n hn => h.used n (List.mem_filter.mp hn).1) (fun _ hn => hn)
      (fun n _ hn => (List.mem_filter.mp hn).1) (fun _ _ hl => hl) fun ht => ⟨ht, rfl⟩
    refine List.mem_filter.mpr ⟨h.listed n hn, ?_⟩
    rw [decide_eq_true_eq]
    rintro rfl
    exact hg hn
  · cases hs

/-- The list of a merge is removed when the other one is there, or the dictionary is gone. -/
theorem Inv.removeDkm (h : Inv s) {name : SegmentName} (hs : s.step (.removeDkm name) = some s') :
    Inv s' := by
  simp only [IndexState.step] at hs
  split at hs
  · next hg =>
    obtain rfl := Option.some.inj hs
    refine h.writer rfl h.tocTime h.clock h.dk
      (dated_update h.dkm name fun f hf => absurd hf (Option.not_mem_none f)) h.listed h.used
      (fun _ hn => hn) (fun _ _ hn => hn) (fun n hd hl => ?_) fun ht => ⟨ht, rfl⟩
    by_cases hn : n = name
    · subst hn
      rcases hg with hg | hg
      · exact .inl hg
      · exact absurd hd hg
    · exact hl.imp_right (isSome_update fun h => absurd h hn)
  · cases hs

theorem Inv.removeDk (h : Inv s) {name : SegmentName} (hs : s.step (.removeDk name) = some s') :
    Inv s' := by
  simp only [IndexState.step] at hs
  split at hs
  · next hg =>
    obtain rfl := Option.some.inj hs
    refine h.writer rfl h.tocTime h.clock
      (dated_update h.dk name fun f hf => absurd hf (Option.not_mem_none f)) h.dkm h.listed h.used
      (fun _ hn => hn) (fun _ _ hn => hn) (fun n hd hl => ?_) fun ht => ⟨ht, rfl⟩
    have hn : n ≠ name := by
      rintro rfl
      exact hg hd
    exact hl.imp_left (isSome_update fun h => absurd h hn)
  · cases hs

/-- **One step** keeps the invariant. -/
theorem Inv.step (h : Inv s) {e : IndexEvent} (hok : Timely s e) (hs : s.step e = some s') :
    Inv s' := by
  cases e with
  | addSegment name => exact h.addSegment hs
  | writeToc time names =>
    simp only [IndexState.step] at hs
    split at hs
    · next hg =>
      obtain rfl := Option.some.inj hs
      have hpos : 0 < time := h.clock.trans_le hg.1
      refine h.writer rfl hpos hpos h.dk h.dkm hg.2 h.used (fun _ hn => hn) (fun _ _ hn => hn)
        (fun _ _ hl => hl) fun ht => ?_
      have hlater : s.reader.lastModificationTime < time := hok
      exact absurd ht (not_le.mpr hlater)
    · cases hs
  | persistDk time name keys =>
    simp only [IndexState.step] at hs
    split at hs
    · next hg =>
      obtain rfl := Option.some.inj hs
      have hpos : 0 < time := h.clock.trans_le hg
      refine h.writer rfl h.tocTime hpos (dated_update h.dk name fun f hf => ?_) h.dkm h.listed h.used
        (fun _ hn => hn) (fun _ _ hn => hn) (fun n _ hl => hl.imp_left (isSome_update fun _ => rfl))
        fun ht => ⟨ht, rfl⟩
      rw [← Option.some.inj hf]
      exact hpos
    · cases hs
  | persistDkm time name keys =>
    simp only [IndexState.step] at hs
    split at hs
    · next hg =>
      obtain rfl := Option.some.inj hs
      have hpos : 0 < time := h.clock.trans_le hg
      refine h.writer rfl h.tocTime hpos h.dk (dated_update h.dkm name fun f hf => ?_) h.listed h.used
        (fun _ hn => hn) (fun _ _ hn => hn) (fun n _ hl => hl.imp_right (isSome_update fun _ => rfl))
        fun ht => ⟨ht, rfl⟩
      rw [← Option.some.inj hf]
      exact hpos
    · cases hs
  | removeDictionary name => exact h.removeDictionary hs
  | removeDkm name => exact h.removeDkm hs
  | removeDk name => exact h.removeDk hs
  | beginRefresh watcher =>
    have hr := h.refresh
    obtain ⟨hph, ⟨-, rfl⟩ | ⟨-, rfl⟩⟩ := step_beginRefresh hs
    · unfold RefreshInv at hr
      rw [hph] at hr
      exact h.reader rfl h.segments hr
    · exact h.reader rfl h.segments trivial
  | readToc =>
    obtain ⟨watcher, -, rfl⟩ := step_readToc hs
    exact h.reader rfl h.segments ⟨fun w hw => (List.not_mem_nil hw).elim, fun _ => rfl⟩
  | openSegment => exact h.openSegment hs
  | swapSegments =>
    have hr := h.refresh
    obtain ⟨watcher, newSegments, hph, rfl⟩ := step_swapSegments hs
    unfold RefreshInv at hr
    rw [hph] at hr
    refine h.reader rfl hr.1 fun ht => ?_
    have hnames := hr.2 ht
    rwa [List.append_nil] at hnames
  | reloadDeletedKeys => exact h.reloadDeletedKeys hs
  | fail => exact h.fail hok hs

theorem inv_init {time : Nat} (h : 0 < time) : Inv (init time) := by
  refine ⟨h, h, ?_, ?_, ?_, ?_, ?_, fun _ => rfl⟩ <;> simp [init]

/-! ## A refresh without updates -/

/-- What a refresh has got, when no update came in between. -/
def Loading (s : IndexState) : Prop :=
  match s.reader.refresh with
  | .idle => s.Fresh
  | .readToc _ => True
  | .openSegments _ names newSegments =>
    newSegments.map ReadOnlySegment.dictionaryFilename ++ names = s.files.toc
  | .reloadDeletedKeys _ i =>
    s.reader.segments.map ReadOnlySegment.dictionaryFilename = s.files.toc ∧
    ∀ j w, j < i → s.reader.segments[j]? = some w →
      w.visibleDeletes = s.writtenDeletes w.dictionaryFilename

/-- **Refreshing** goes on with what is in the files. -/
theorem Loading.step (hinv : Inv s) (h : Loading s) {e : IndexEvent} (he : Refreshes e)
    (hs : s.step e = some s') : Loading s' := by
  unfold Loading at h
  cases e with
  | beginRefresh watcher =>
    obtain ⟨hph, ⟨-, rfl⟩ | ⟨-, rfl⟩⟩ := step_beginRefresh hs
    · rw [hph] at h
      exact ⟨h.1, fun j w hj _ => absurd hj (Nat.not_lt_zero j)⟩
    · trivial
  | readToc =>
    obtain ⟨watcher, -, rfl⟩ := step_readToc hs
    exact List.nil_append _
  | openSegment =>
    obtain ⟨watcher, name, names, newSegments, w, hph, rfl, hwn, -⟩ := step_openSegment hs
    rw [hph] at h
    show (newSegments ++ [w]).map ReadOnlySegment.dictionaryFilename ++ names = s.files.toc
    rw [List.map_append, List.append_assoc]
    show newSegments.map _ ++ (w.dictionaryFilename :: names) = _
    rw [hwn]
    exact h
  | swapSegments =>
    obtain ⟨watcher, newSegments, hph, rfl⟩ := step_swapSegments hs
    rw [hph] at h
    have hall : newSegments.map ReadOnlySegment.dictionaryFilename ++ [] = s.files.toc := h
    rw [List.append_nil] at hall
    exact ⟨hall, fun j w hj _ => absurd hj (Nat.not_lt_zero j)⟩
  | reloadDeletedKeys =>
    obtain ⟨watcher, i, hph, ⟨-, rfl⟩ | ⟨hi, rfl⟩⟩ := step_reloadDeletedKeys hs
    all_goals
      rw [hph] at h
      obtain ⟨hnames, hdone⟩ := h
    · refine ⟨?_, fun j w hj hw => ?_⟩
      · rw [← hnames]
        exact map_dictionaryFilename_modify _ _ _
      · rw [List.getElem?_modify] at hw
        obtain ⟨x, hx, hxw⟩ := Option.map_eq_some_iff.mp hw
        by_cases hij : i = j
        · subst hij
          rw [if_pos rfl] at hxw
          subst hxw
          have hmem := List.mem_of_getElem? hx
          have hlisted : x.dictionaryFilename ∈ s.files.toc := by
            rw [← hnames]
            exact List.mem_map_of_mem hmem
          rw [loadDeletedKeys_dictionaryFilename]
          exact visibleDeletes_loadDeletedKeys hinv (hinv.segments x hmem) (hinv.listed _ hlisted)
        · rw [if_neg hij] at hxw
          have hxw' : x = w := hxw
          subst hxw'
          exact hdone j x (by omega) hx
    · refine ⟨hnames, fun w hw => ?_⟩
      obtain ⟨j, hj, rfl⟩ := List.getElem_of_mem hw
      exact hdone j _ (hj.trans_le hi) (List.getElem?_eq_getElem hj)
  | _ => exact he.elim

/-- A refresh begins with what the reader has, or reads everything again. -/
theorem Inv.loading (h : Inv s) {watcher : Bool} (hs : s.step (.beginRefresh watcher) = some s') :
    Loading s' := by
  have hr := h.refresh
  obtain ⟨hph, ⟨ht, rfl⟩ | ⟨-, rfl⟩⟩ := step_beginRefresh hs
  · unfold RefreshInv at hr
    rw [hph] at hr
    exact ⟨hr ht, fun j w hj _ => absurd hj (Nat.not_lt_zero j)⟩
  · trivial

theorem timely_of_refreshes {e : IndexEvent} (he : Refreshes e) : Timely s e := by
  cases e <;> trivial

/-- **A refresh without updates**, by induction on its steps. -/
theorem loading_run {es : List IndexEvent} (hinv : Inv s) (h : Loading s) (he : ∀ e ∈ es, Refreshes e)
    (hs : Run.run step s es = some s') : Loading s' := by
  induction es generalizing s with
  | nil =>
    rw [Run.run_nil] at hs
    obtain rfl := Option.some.inj hs
    exact h
  | cons e es ih =>
    obtain ⟨t, ht, hs⟩ := Run.run_cons.mp hs
    have hrefresh := he e List.mem_cons_self
    exact ih (hinv.step (timely_of_refreshes hrefresh) ht) (h.step hinv hrefresh ht)
      (fun e he' => he e (List.mem_cons_of_mem _ he')) hs

/-! ## A refresh comes to its end -/

/-- Steps of the reader bring a refresh to its end. -/
def Finishes (s : IndexState) : Prop :=
  ∃ es s', (∀ e ∈ es, Proceeds e) ∧ Run.run step s es = some s' ∧ s'.reader.refresh = .idle

theorem Finishes.step {e : IndexEvent} (he : Proceeds e) (hs : s.step e = some s')
    (h : Finishes s') : Finishes s := by
  obtain ⟨es, t, hes, ht, hidle⟩ := h
  refine ⟨e :: es, t, fun x hx => ?_, Run.run_cons.mpr ⟨s', hs, ht⟩, hidle⟩
  rcases List.mem_cons.mp hx with rfl | hx
  · exact he
  · exact hes x hx

/-- Loading the deleted keys, by induction on the number of segments left. -/
theorem finishes_reloadDeletedKeys {watcher : Bool} {i n : Nat}
    (hph : s.reader.refresh = .reloadDeletedKeys watcher i)
    (hn : s.reader.segments.length = i + n) : Finishes s := by
  induction n generalizing s i with
  | zero =>
    refine ⟨[.reloadDeletedKeys], { s with reader := { s.reader with refresh := .idle } },
      fun e he => ?_, ?_, rfl⟩
    · rw [List.mem_singleton.mp he]
      trivial
    · rw [Run.run_cons]
      refine ⟨_, ?_, Run.run_nil _⟩
      simp only [IndexState.step, hph]
      rw [if_neg (by omega)]
  | succ n ih =>
    have hstep : s.step .reloadDeletedKeys = some { s with reader := { s.reader with
        segments := s.reader.segments.modify i (ReadOnlySegment.loadDeletedKeys s.files)
        refresh := .reloadDeletedKeys watcher (i + 1) } } := by
      simp only [IndexState.step, hph]
      rw [if_pos (by omega)]
    refine Finishes.step (by trivial) hstep (ih rfl ?_)
    rw [List.length_modify]
    omega

/-- Opening the segments, by induction on the names left. -/
theorem finishes_openSegments {watcher : Bool} {names : List SegmentName}
    {newSegments : List ReadOnlySegment}
    (hph : s.reader.refresh = .openSegments watcher names newSegments)
    (hnames : ∀ name ∈ names, name ∈ s.files.dictionaries) : Finishes s := by
  induction names generalizing s newSegments with
  | nil =>
    have hstep : s.step .swapSegments = some { s with reader := { s.reader with
        segments := newSegments
        refresh := .reloadDeletedKeys watcher 0 } } := by
      simp only [IndexState.step, hph]
    exact Finishes.step (by trivial) hstep (finishes_reloadDeletedKeys rfl (Nat.zero_add _).symm)
  | cons name names ih =>
    have hopen : ∃ w, s.step .openSegment = some { s with reader := { s.reader with
        refresh := .openSegments watcher names (newSegments ++ [w]) } } := by
      simp only [IndexState.step, hph]
      cases hf : s.reader.segments.find? fun w => w.dictionaryFilename = name with
      | some w => exact ⟨w, rfl⟩
      | none => exact ⟨_, if_pos (hnames name List.mem_cons_self)⟩
    obtain ⟨w, hstep⟩ := hopen
    exact Finishes.step (by trivial) hstep
      (ih rfl fun n hn => hnames n (List.mem_cons_of_mem _ hn))

/-- **A refresh that nothing disturbs** comes to its end. -/
theorem finishes_beginRefresh (h : Inv s) (hidle : s.reader.refresh = .idle) (watcher : Bool) :
    ∃ t, s.step (.beginRefresh watcher) = some t ∧ Finishes t := by
  by_cases ht : s.files.tocTime ≤ s.reader.lastModificationTime
  · refine ⟨{ s with reader := { s.reader with refresh := .reloadDeletedKeys watcher 0 } }, ?_,
      finishes_reloadDeletedKeys rfl (Nat.zero_add _).symm⟩
    simp only [IndexState.step, hidle]
    rw [if_pos ht]
  · refine ⟨{ s with reader := { s.reader with
      lastModificationTime := s.files.tocTime
      refresh := .readToc watcher } }, ?_, ?_⟩
    · simp only [IndexState.step, hidle]
      rw [if_neg ht]
    · have hstep : IndexState.step { s with reader := { s.reader with
          lastModificationTime := s.files.tocTime
          refresh := .readToc watcher } } .readToc = some { s with reader := { s.reader with
          lastModificationTime := s.files.tocTime
          refresh := .openSegments watcher s.files.toc [] } } := rfl
      exact Finishes.step (by trivial) hstep (finishes_openSegments rfl h.listed)

/-! ## Freshness -/

/-- **A refresh with no update before its end** is possible, and leaves the reader with what is in the
files. -/
theorem fresh_of_refresh (h : Inv s) (hidle : s.reader.refresh = .idle) (watcher : Bool) :
    (∃ es s', (∀ e ∈ es, Proceeds e) ∧
      Run.run step s (.beginRefresh watcher :: es) = some s' ∧ s'.reader.refresh = .idle) ∧
    ∀ es s', (∀ e ∈ es, Proceeds e) → Run.run step s (.beginRefresh watcher :: es) = some s' →
      s'.reader.refresh = .idle → Fresh s' := by
  refine ⟨?_, fun evs s' hevs hrun hend => ?_⟩
  · obtain ⟨t, ht, evs, s', hevs, hrun, hend⟩ := finishes_beginRefresh h hidle watcher
    exact ⟨evs, s', hevs, Run.run_cons.mpr ⟨t, ht, hrun⟩, hend⟩
  · obtain ⟨t, ht, hrun⟩ := Run.run_cons.mp hrun
    have hinv' : Inv t := h.step (e := .beginRefresh watcher) trivial ht
    have hload := loading_run hinv' (h.loading ht) (fun e he => (hevs e he).refreshes) hrun
    unfold Loading at hload
    rw [hend] at hload
    exact hload

/-! ## A reader that remembers the time -/

/-- The reader remembers the time of the table of contents and does not read it. -/
structure Remembers (names : List SegmentName) (s : IndexState) : Prop where
  tocTime : s.files.tocTime ≤ s.reader.lastModificationTime
  names : s.reader.segments.map ReadOnlySegment.dictionaryFilename = names
  phase : s.reader.refresh = .idle ∨ ∃ watcher i, s.reader.refresh = .reloadDeletedKeys watcher i

theorem Remembers.step {names : List SegmentName} (h : Remembers names s) {e : IndexEvent}
    (he : Refreshes e) (hs : s.step e = some s') : Remembers names s' := by
  -- The table of contents is not read, so no list of segments is opened.
  have hno : (∀ watcher, s.reader.refresh ≠ .readToc watcher) ∧
      ∀ watcher names newSegments, s.reader.refresh ≠ .openSegments watcher names newSegments := by
    rcases h.phase with hph | ⟨_, _, hph⟩ <;> simp [hph]
  cases e with
  | beginRefresh watcher =>
    obtain ⟨-, ⟨-, rfl⟩ | ⟨hlater, -⟩⟩ := step_beginRefresh hs
    · exact ⟨h.tocTime, h.names, .inr ⟨watcher, 0, rfl⟩⟩
    · exact absurd h.tocTime (not_le.mpr hlater)
  | readToc =>
    obtain ⟨watcher, hph, -⟩ := step_readToc hs
    exact absurd hph (hno.1 _)
  | openSegment =>
    obtain ⟨watcher, name, names', newSegments, w, hph, -⟩ := step_openSegment hs
    exact absurd hph (hno.2 _ _ _)
  | swapSegments =>
    obtain ⟨watcher, newSegments, hph, -⟩ := step_swapSegments hs
    exact absurd hph (hno.2 _ _ _)
  | reloadDeletedKeys =>
    obtain ⟨watcher, i, -, ⟨-, rfl⟩ | ⟨-, rfl⟩⟩ := step_reloadDeletedKeys hs
    · exact ⟨h.tocTime, (map_dictionaryFilename_modify _ _ _).trans h.names,
        .inr ⟨watcher, i + 1, rfl⟩⟩
    · exact ⟨h.tocTime, h.names, .inl rfl⟩
  | _ => exact he.elim

/-- **A reader that remembers the time stays on its list** however often it refreshes. -/
theorem segments_of_remembered (ht : s.files.tocTime ≤ s.reader.lastModificationTime)
    (hidle : s.reader.refresh = .idle) {es : List IndexEvent} (he : ∀ e ∈ es, Refreshes e)
    (hs : Run.run step s es = some s') :
    s'.reader.segments.map ReadOnlySegment.dictionaryFilename =
      s.reader.segments.map ReadOnlySegment.dictionaryFilename := by
  have h : Remembers (s.reader.segments.map ReadOnlySegment.dictionaryFilename) s :=
    ⟨ht, rfl, .inl hidle⟩
  generalize s.reader.segments.map ReadOnlySegment.dictionaryFilename = names at h ⊢
  clear ht hidle
  induction es generalizing s with
  | nil =>
    rw [Run.run_nil] at hs
    obtain rfl := Option.some.inj hs
    exact h.names
  | cons e es ih =>
    obtain ⟨t, hst, hs⟩ := Run.run_cons.mp hs
    exact ih (fun x hx => he x (List.mem_cons_of_mem _ hx)) hs
      (h.step (he e List.mem_cons_self) hst)

end IndexState

/-! ## The user and the watcher -/

/-- The reader with its two threads: `Reload` of the user, and `UpdateWatcher`. Nothing keeps one out while
the other refreshes. -/
structure Threads where
  files : IndexFiles
  lastModificationTime : Nat
  segments : List ReadOnlySegment
  /-- Where the refresh of the user stands, and that of the watcher. -/
  refresh : Bool → Refresh

/-- A step of the writer, or one of a refresh. -/
inductive ThreadEvent
  | writer (e : IndexEvent)
  | refresh (watcher : Bool) (e : IndexEvent)

namespace IndexEvent

def ofWriter : IndexEvent → Bool
  | .addSegment _ | .writeToc _ _ | .persistDk _ _ _ | .persistDkm _ _ _ | .removeDictionary _
  | .removeDkm _ | .removeDk _ => true
  | .beginRefresh _ | .readToc | .openSegment | .swapSegments | .reloadDeletedKeys | .fail => false

def ofRefresh (watcher : Bool) : IndexEvent → Bool
  | .beginRefresh w => w = watcher
  | .readToc | .openSegment | .swapSegments | .reloadDeletedKeys | .fail => true
  | .addSegment _ | .writeToc _ _ | .persistDk _ _ _ | .persistDkm _ _ _ | .removeDictionary _
  | .removeDkm _ | .removeDk _ => false

end IndexEvent

namespace Threads

/-- What a refresh that stands here sees. -/
def view (t : Threads) (refresh : Refresh) : IndexState :=
  ⟨t.files, ⟨t.lastModificationTime, t.segments, refresh⟩⟩

/-- The next step. -/
def step (t : Threads) : ThreadEvent → Option Threads
  | .writer e =>
    if e.ofWriter then ((t.view .idle).step e).map fun s => { t with files := s.files } else none
  | .refresh watcher e =>
    if e.ofRefresh watcher then
      ((t.view (t.refresh watcher)).step e).map fun s =>
        ⟨s.files, s.reader.lastModificationTime, s.reader.segments,
          Function.update t.refresh watcher s.reader.refresh⟩
    else none

/-- An index without segments, and its reader. -/
def init (time : Nat) : Threads :=
  ⟨(IndexState.init time).files, 0, [], fun _ => .idle⟩

/-- The steps are timely, and no refresh begins while the other thread refreshes. -/
def Timely (t : Threads) : ThreadEvent → Prop
  | .writer e => IndexState.Timely (t.view .idle) e
  | .refresh watcher e => IndexState.Timely (t.view (t.refresh watcher)) e ∧
      (e = .beginRefresh watcher → t.refresh (!watcher) = .idle)

instance (t : Threads) : DecidablePred t.Timely
  | .writer e => inferInstanceAs (Decidable (IndexState.Timely (t.view .idle) e))
  | .refresh watcher e => inferInstanceAs (Decidable
      (IndexState.Timely (t.view (t.refresh watcher)) e ∧ (e = .beginRefresh watcher → _ = _)))

/-- One of the threads does not refresh, and the invariant holds with the refresh of the other. -/
def Inv (t : Threads) : Prop :=
  ∃ watcher, t.refresh (!watcher) = .idle ∧ IndexState.Inv (t.view (t.refresh watcher))

variable {t t' : Threads} {watcher : Bool}

/-- The writer does not look at the reader. -/
theorem step_ofWriter {files files' : IndexFiles} {reader reader' : IndexReaderWorker} {e : IndexEvent}
    (he : e.ofWriter = true)
    (hs : IndexState.step ⟨files, reader⟩ e = some ⟨files', reader⟩) :
    IndexState.step ⟨files, reader'⟩ e = some ⟨files', reader'⟩ := by
  cases e with
  | addSegment | writeToc | persistDk | persistDkm | removeDictionary | removeDkm | removeDk =>
    simp only [IndexState.step] at hs ⊢
    split at hs
    · next hg =>
      rw [if_pos hg]
      exact congrArg (fun s : IndexState => some (⟨s.files, reader'⟩ : IndexState)) (Option.some.inj hs)
    · cases hs
  | _ => cases he

theorem reader_ofWriter {s s' : IndexState} {e : IndexEvent} (he : e.ofWriter = true)
    (hs : s.step e = some s') : s'.reader = s.reader := by
  cases e with
  | addSegment | writeToc | persistDk | persistDkm | removeDictionary | removeDkm | removeDk =>
    simp only [IndexState.step] at hs
    split at hs
    · rw [← Option.some.inj hs]
    · cases hs
  | _ => cases he

/-- A thread that does not refresh can only begin. -/
theorem beginRefresh_of_idle {s s' : IndexState} {e : IndexEvent} (he : e.ofRefresh watcher = true)
    (hidle : s.reader.refresh = .idle) (hs : s.step e = some s') : e = .beginRefresh watcher := by
  cases e with
  | beginRefresh w => rw [of_decide_eq_true he]
  | readToc | openSegment | swapSegments | reloadDeletedKeys | fail =>
    simp [IndexState.step, hidle] at hs
  | _ => cases he

/-- The steps of one thread are those of the index with its refresh. -/
theorem step_refresh {e : IndexEvent} (hs : t.step (.refresh watcher e) = some t') :
    e.ofRefresh watcher = true ∧
      (t.view (t.refresh watcher)).step e = some (t'.view (t'.refresh watcher)) ∧
      t'.refresh (!watcher) = t.refresh (!watcher) := by
  rw [step] at hs
  split at hs
  · next he =>
    obtain ⟨s, hstep, rfl⟩ := Option.map_eq_some_iff.mp hs
    refine ⟨he, ?_, Function.update_of_ne (Bool.not_ne_self watcher) _ _⟩
    rw [hstep]
    simp only [view, Function.update_self]
  · cases hs

/-- **One step** keeps the invariant. -/
theorem Inv.step (h : Inv t) {e : ThreadEvent} (hok : t.Timely e) (hs : t.step e = some t') :
    Inv t' := by
  obtain ⟨active, hidle, hinv⟩ := h
  cases e with
  | writer e =>
    rw [Threads.step] at hs
    split at hs
    · next he =>
      obtain ⟨⟨files, reader⟩, hstep, rfl⟩ := Option.map_eq_some_iff.mp hs
      obtain rfl : reader = (t.view .idle).reader := reader_ofWriter he hstep
      refine ⟨active, hidle, hinv.step ?_ (step_ofWriter he hstep)⟩
      cases e with
      | writeToc => exact hok
      | addSegment | persistDk | persistDkm | removeDictionary | removeDkm | removeDk => trivial
      | _ => cases he
    · cases hs
  | refresh watcher e =>
    obtain ⟨he, hstep, hother⟩ := step_refresh hs
    rcases eq_or_ne watcher active with rfl | hne
    · exact ⟨watcher, hother.trans hidle, hinv.step hok.1 hstep⟩
    · -- The other thread begins, so that this one does not refresh.
      obtain rfl : watcher = !active := Bool.eq_not.mpr hne
      have hbegin := beginRefresh_of_idle he hidle hstep
      have hboth : t.refresh active = .idle := by
        rw [← hok.2 hbegin, Bool.not_not]
      rw [hboth, ← hidle] at hinv
      exact ⟨!active, by rw [hother, Bool.not_not, hboth], hinv.step hok.1 hstep⟩

theorem inv_init {time : Nat} (h : 0 < time) : Inv (init time) :=
  ⟨false, rfl, IndexState.inv_init h⟩

/-- The steps of one thread, one after the other. -/
theorem run_refresh {es : List IndexEvent}
    (hs : Run.run step t (es.map (.refresh watcher)) = some t') :
    Run.run IndexState.step (t.view (t.refresh watcher)) es = some (t'.view (t'.refresh watcher)) := by
  induction es generalizing t with
  | nil =>
    obtain rfl := Option.some.inj hs
    rfl
  | cons e es ih =>
    obtain ⟨u, hu, hs⟩ := Run.run_cons.mp hs
    exact Run.run_cons.mpr ⟨_, (step_refresh hu).2.1, ih hs⟩

theorem refresh_run {es : List IndexEvent} {s : IndexState}
    (he : ∀ e ∈ es, e.ofRefresh watcher = true)
    (hs : Run.run IndexState.step (t.view (t.refresh watcher)) es = some s) :
    ∃ t', Run.run step t (es.map (.refresh watcher)) = some t' ∧
      t'.view (t'.refresh watcher) = s := by
  induction es generalizing t with
  | nil => exact ⟨t, rfl, Option.some.inj hs⟩
  | cons e es ih =>
    obtain ⟨s₁, h₁, hs⟩ := Run.run_cons.mp hs
    have hstep : t.step (.refresh watcher e) = some ⟨s₁.files, s₁.reader.lastModificationTime,
        s₁.reader.segments, Function.update t.refresh watcher s₁.reader.refresh⟩ := by
      rw [step, if_pos (he e List.mem_cons_self), h₁, Option.map_some]
    generalize ht₁ : Threads.mk s₁.files s₁.reader.lastModificationTime s₁.reader.segments
      (Function.update t.refresh watcher s₁.reader.refresh) = t₁ at hstep
    have hview₁ : t₁.view (t₁.refresh watcher) = s₁ := by
      rw [← ht₁]
      simp only [view, Function.update_self]
    obtain ⟨t', ht', hview⟩ := ih (t := t₁) (fun e' h' => he e' (List.mem_cons_of_mem _ h'))
      (hview₁ ▸ hs)
    exact ⟨t', Run.run_cons.mpr ⟨_, hstep, ht'⟩, hview⟩

/-- A refresh of the user or of the watcher that begins now, with no update before its end, is possible, and
leaves the reader with what is in the files. -/
def ReloadsFresh (t : Threads) : Prop :=
  ∀ watcher,
    (∃ es t', (∀ e ∈ es, IndexState.Proceeds e) ∧
      Run.run step t ((.beginRefresh watcher :: es).map (.refresh watcher)) = some t' ∧
      t'.refresh watcher = .idle) ∧
    ∀ es t', (∀ e ∈ es, IndexState.Proceeds e) →
      Run.run step t ((.beginRefresh watcher :: es).map (.refresh watcher)) = some t' →
      t'.refresh watcher = .idle → IndexState.Fresh (t'.view .idle)

theorem ofRefresh_of_proceeds : ∀ {e : IndexEvent}, IndexState.Proceeds e →
    e.ofRefresh watcher = true
  | .readToc, _ | .openSegment, _ | .swapSegments, _ | .reloadDeletedKeys, _ => rfl

/-- **In every run whose steps are timely**, a refresh leaves the reader with what is in the files. -/
theorem reloadsFresh_run {time : Nat} (htime : 0 < time) {es : List ThreadEvent} {t : Threads}
    (hok : Run.Along step Timely (init time) es) (hs : Run.run step (init time) es = some t)
    (hidle : ∀ watcher, t.refresh watcher = .idle) : ReloadsFresh t := by
  have hinv : Inv t := Run.invariant (fun _ _ _ h hok hs => h.step hok hs) (inv_init htime) hok hs
  intro watcher
  have hinv : IndexState.Inv (t.view (t.refresh watcher)) := by
    obtain ⟨active, -, hinv⟩ := hinv
    rwa [hidle active, ← hidle watcher] at hinv
  obtain ⟨hpossible, hfresh⟩ := IndexState.fresh_of_refresh hinv (hidle watcher) watcher
  refine ⟨?_, fun es t' hes hrun hend => ?_⟩
  · obtain ⟨es, s', hes, hrun, hend⟩ := hpossible
    have hof : ∀ e ∈ IndexEvent.beginRefresh watcher :: es, e.ofRefresh watcher = true := by
      intro e he
      rcases List.mem_cons.mp he with rfl | he
      · exact decide_eq_true rfl
      · exact ofRefresh_of_proceeds (hes e he)
    obtain ⟨t', ht', rfl⟩ := refresh_run hof hrun
    exact ⟨es, t', hes, ht', hend⟩
  · exact hend ▸ hfresh es _ hes (run_refresh hrun) hend

/-- A segment is listed and read, and the table of contents is written again. -/
def listedTwice (time : Nat) : List ThreadEvent :=
  [.writer (.addSegment "a"), .writer (.addSegment "b"), .writer (.writeToc 1 ["a"]),
    .refresh false (.beginRefresh false), .refresh false .readToc, .refresh false .openSegment,
    .refresh false .swapSegments, .refresh false .reloadDeletedKeys, .refresh false .reloadDeletedKeys,
    .writer (.persistDk 1 "a" {[107]}), .writer (.writeToc time ["b"])]

theorem reloadsFresh_run_nextSecond :
    ∃ t, Run.run step (init 1) (listedTwice 2) = some t ∧ ReloadsFresh t := by
  have hrun : ((Run.run step (init 1) (listedTwice 2)).any fun t =>
      ∀ watcher, t.refresh watcher = .idle) = true := by decide +kernel
  obtain ⟨t, ht, hidle⟩ := (Option.any_eq_true _ _).mp hrun
  exact ⟨t, ht, reloadsFresh_run Nat.one_pos (by decide +kernel) ht (of_decide_eq_true hidle)⟩

/-- The table of contents written in the second that is remembered is not read. -/
theorem not_reloadsFresh :
    ¬ ∀ es t, Run.run step (init 1) es = some t → (∀ watcher, t.refresh watcher = .idle) →
      ReloadsFresh t := by
  intro h
  have hrun : ((Run.run step (init 1) (listedTwice 1)).any fun t =>
      (∀ watcher, t.refresh watcher = .idle) ∧
      (Run.run step t ([.beginRefresh false, .reloadDeletedKeys, .reloadDeletedKeys].map
        (.refresh false))).any fun t' => t'.refresh false = .idle ∧
          t'.segments.map ReadOnlySegment.dictionaryFilename ≠ t'.files.toc) = true := by
    decide +kernel
  obtain ⟨t, ht, hstale⟩ := (Option.any_eq_true _ _).mp hrun
  obtain ⟨hidle, hstale⟩ := of_decide_eq_true hstale
  obtain ⟨t', ht', hstale⟩ := (Option.any_eq_true _ _).mp hstale
  obtain ⟨hidle', hstale⟩ := of_decide_eq_true hstale
  exact hstale ((h _ t ht hidle false).2 _ t' (by decide) ht' hidle').1

end Threads

end Keyvi.Index
