import Mathlib
import Keyvi.Index.Segment

/-!
# What the writer relies on in a segment

The segments in the writer's list are in step with their files (`SegmentOk`): the files never list a
key that is not deleted in memory, and writing the lists closes the gap. Every method of a segment
is described by what it does to three sets: the keys deleted in memory (`allDeleted`), those deleted
according to the files, and those a reader sees as deleted (`visible`).
-/

namespace Keyvi.Index

variable {V : Type}

namespace Segment

/-- The keys deleted in a segment, before or during a merge. -/
def allDeleted (s : Segment V) : DeletedKeys :=
  s.deletedKeysForWrite ∪ s.deletedKeysDuringMergeForWrite

/-- What a reader sees. -/
def visible (s : Segment V) : DeletedKeys := if s.hasDeletedKeys_ then s.deletedKeys else ∅

end Segment

/-- A segment in the writer's list and its files. -/
structure SegmentOk (f : SegmentFiles V) (s : Segment V) : Prop where
  loaded : s.deletesLoaded = true
  kv : f.kv = some s.dictionary
  onDisk : f.deleted ⊆ s.allDeleted
  notNew : s.newDelete = false → s.allDeleted = ∅ ∧ s.hasDeletedKeys_ = false
  inMerge : s.inMerge = true → f.loadDk = s.deletedKeysForWrite
  notInMerge : s.inMerge = false → s.deletedKeysDuringMergeForWrite = ∅

/-- The files are on the way from what they were to what the sets in memory say. -/
def Between (f : SegmentFiles V) (s : Segment V) (f' : SegmentFiles V) : Prop :=
  f'.kv = f.kv ∧ f.deleted ⊆ f'.deleted ∧ f'.deleted ⊆ s.allDeleted

variable {f : SegmentFiles V} {s : Segment V}

theorem SegmentOk.between_self (h : SegmentOk f s) : Between f s f :=
  ⟨rfl, subset_rfl, h.onDisk⟩

/-- Loading the lists does nothing more. -/
theorem SegmentOk.lazyLoad (h : SegmentOk f s) (f' : SegmentFiles V) :
    s.lazyLoadDeletedKeys f' = s := by
  rw [Segment.lazyLoadDeletedKeys, if_pos h.loaded]

/-- A segment that has just been opened answers what its files say. -/
theorem isDeleted_ofPath (f : SegmentFiles V) (d : Dictionary V) (k : Key) :
    ((Segment.ofPath f d false).isDeleted f k).1 = decide (k ∈ f.deleted) := by
  unfold Segment.isDeleted Segment.lazyLoadDeletedKeys Segment.ofPath Segment.loadDeletedKeys
  cases hdk : f.dk with
  | some keys => simp
  | none =>
    cases hdkm : f.dkm with
    | some keys => simp
    | none => simp [SegmentFiles.deleted, SegmentFiles.loadDk, SegmentFiles.loadDkm, hdk, hdkm]

/-! ## Deleting -/

theorem SegmentOk.deleteKey_eq (h : SegmentOk f s) (f' : SegmentFiles V) (k : Key) :
    s.deleteKey f' k =
      if s.contains k then
        if s.inMerge then
          { s with
            deletedKeysDuringMergeForWrite := insert k s.deletedKeysDuringMergeForWrite
            newDelete := true }
        else { s with deletedKeysForWrite := insert k s.deletedKeysForWrite, newDelete := true }
      else s := by
  rw [Segment.deleteKey, h.lazyLoad]
  cases s.contains k <;> simp

theorem SegmentOk.allDeleted_deleteKey (h : SegmentOk f s) (f' : SegmentFiles V) (k : Key) :
    (s.deleteKey f' k).allDeleted = if s.contains k then insert k s.allDeleted else s.allDeleted := by
  rw [h.deleteKey_eq]
  cases s.contains k <;> cases s.inMerge <;>
    simp [Segment.allDeleted, Finset.union_insert, Finset.insert_union]

theorem SegmentOk.deleteKey_kept (h : SegmentOk f s) (f' : SegmentFiles V) (k : Key) :
    (s.deleteKey f' k).dictionary = s.dictionary ∧ (s.deleteKey f' k).inMerge = s.inMerge ∧
      (s.deleteKey f' k).hasDeletedKeys_ = s.hasDeletedKeys_ ∧
      (s.deleteKey f' k).deletedKeys = s.deletedKeys := by
  rw [h.deleteKey_eq]
  cases s.contains k <;> cases hm : s.inMerge <;> simp [hm]

theorem SegmentOk.deleteKey (h : SegmentOk f s) (k : Key) : SegmentOk f (s.deleteKey f k) := by
  have hall := h.allDeleted_deleteKey f k
  obtain ⟨hd, hm, -, -⟩ := h.deleteKey_kept f k
  cases hk : s.contains k with
  | false =>
    rw [h.deleteKey_eq, hk]
    simpa using h
  | true =>
    rw [hk, if_pos rfl] at hall
    refine ⟨?_, hd ▸ h.kv, ?_, ?_, ?_, ?_⟩
    · rw [h.deleteKey_eq, hk]
      cases s.inMerge <;> simpa using h.loaded
    · rw [hall]
      exact h.onDisk.trans (Finset.subset_insert _ _)
    · rw [h.deleteKey_eq, hk]
      cases s.inMerge <;> simp
    · intro hmerge
      rw [hm] at hmerge
      rw [h.inMerge hmerge, h.deleteKey_eq, hk, hmerge]
      simp
    · intro hmerge
      rw [hm] at hmerge
      rw [h.deleteKey_eq, hk, hmerge]
      simpa using h.notInMerge hmerge

/-- What is deleted while a segment is merged. -/
theorem SegmentOk.during_deleteKey (h : SegmentOk f s) (hm : s.inMerge = true)
    (f' : SegmentFiles V) (k : Key) : (s.deleteKey f' k).deletedKeysDuringMergeForWrite =
      if s.contains k then insert k s.deletedKeysDuringMergeForWrite
      else s.deletedKeysDuringMergeForWrite := by
  rw [h.deleteKey_eq]
  cases s.contains k <;> simp [hm]

/-! ## Writing the lists -/

/-- `Persist` brings the files up to date. -/
theorem SegmentOk.deleted_persist (h : SegmentOk f s) :
    (SegmentFileOp.applyAll f s.persist.2).deleted = s.allDeleted := by
  rw [applyAll_persist]
  have hd := h.onDisk
  cases hn : s.newDelete with
  | false =>
    have he := (h.notNew hn).1
    rw [he] at hd ⊢
    simpa using hd
  | true =>
    cases hm : s.inMerge with
    | true =>
      simp [SegmentFiles.deleted, SegmentFiles.loadDk, SegmentFiles.loadDkm, Segment.allDeleted,
        ← h.inMerge hm]
    | false =>
      have hdkm : f.loadDkm ⊆ s.deletedKeysForWrite := by
        rw [Segment.allDeleted, h.notInMerge hm, Finset.union_empty] at hd
        exact Finset.union_subset_iff.mp hd |>.2
      simp only [SegmentFiles.deleted, SegmentFiles.loadDk, SegmentFiles.loadDkm, Segment.allDeleted,
        h.notInMerge hm, Finset.union_empty, Bool.false_eq_true, if_false, if_true,
        Option.getD_some] at hdkm ⊢
      exact Finset.union_eq_left.mpr hdkm

theorem loadDk_persist (hm : s.inMerge = true) :
    (SegmentFileOp.applyAll f s.persist.2).loadDk = f.loadDk := by
  rw [applyAll_persist]
  cases s.newDelete <;> simp [hm, SegmentFiles.loadDk]

theorem kv_persist (f : SegmentFiles V) (s : Segment V) :
    (SegmentFileOp.applyAll f s.persist.2).kv = f.kv := by
  rw [applyAll_persist]
  cases s.newDelete <;> cases s.inMerge <;> rfl

theorem SegmentOk.persist (h : SegmentOk f s) :
    SegmentOk (SegmentFileOp.applyAll f s.persist.2) s :=
  ⟨h.loaded, (kv_persist f s).trans h.kv, h.deleted_persist.le, h.notNew,
    fun hm => (loadDk_persist hm).trans (h.inMerge hm), h.notInMerge⟩

/-- A cut anywhere in `Persist`. -/
theorem SegmentOk.between_persist (h : SegmentOk f s) (n : Nat) :
    Between f s (SegmentFileOp.applyAll f (s.persist.2.take n)) := by
  have hfull : Between f s (SegmentFileOp.applyAll f s.persist.2) :=
    ⟨kv_persist f s, h.deleted_persist ▸ h.onDisk, h.deleted_persist.le⟩
  match n with
  | 0 => exact h.between_self
  | 1 =>
    -- only the swap file is written
    unfold Segment.persist
    cases s.newDelete <;> cases s.inMerge <;>
      exact ⟨rfl, subset_rfl, h.onDisk⟩
  | n + 2 =>
    have hlen : s.persist.2.length ≤ n + 2 := by
      unfold Segment.persist
      cases s.newDelete <;> cases s.inMerge <;> simp
    rw [List.take_of_length_le hlen]
    exact hfull

/-- `Persist` and then `ReloadDeletedKeys`, if anything was written. -/
def persistReload (f : SegmentFiles V) (s : Segment V) : Segment V × List (SegmentFileOp V) :=
  (if s.persist.1 then s.reloadDeletedKeys (SegmentFileOp.applyAll f s.persist.2) else s,
    s.persist.2)

theorem persistReload_kept (f : SegmentFiles V) (s : Segment V) :
    ∃ has keys, (persistReload f s).1 = { s with hasDeletedKeys_ := has, deletedKeys := keys } := by
  unfold persistReload Segment.reloadDeletedKeys Segment.loadDeletedKeys
  split
  · split
    · exact ⟨_, _, rfl⟩
    · exact ⟨_, _, rfl⟩
  · exact ⟨_, _, rfl⟩

/-- After that readers see what is deleted. -/
theorem SegmentOk.visible_persistReload (h : SegmentOk f s) :
    (persistReload f s).1.visible = s.allDeleted := by
  cases hn : s.newDelete with
  | false =>
    obtain ⟨he, hh⟩ := h.notNew hn
    simp [persistReload, Segment.persist, hn, Segment.visible, hh, he]
  | true =>
    have hex : ((SegmentFileOp.applyAll f s.persist.2).dk.isSome ||
        (SegmentFileOp.applyAll f s.persist.2).dkm.isSome) = true := by
      rw [applyAll_persist, hn]
      cases s.inMerge <;> simp
    have hp : s.persist.1 = true := by
      rw [Segment.persist, hn]
      cases s.inMerge <;> rfl
    rw [persistReload, if_pos hp, Segment.reloadDeletedKeys, Segment.loadDeletedKeys, if_pos hex,
      Segment.visible, h.deleted_persist]
    rfl

/-- What was deleted during a merge is then in `.dkm`. -/
theorem SegmentOk.during_persist (h : SegmentOk f s) : s.deletedKeysDuringMergeForWrite ⊆
    (SegmentFileOp.applyAll f s.persist.2).loadDkm := by
  cases hn : s.newDelete with
  | false =>
    have he := (h.notNew hn).1
    rw [Segment.allDeleted, Finset.union_eq_empty] at he
    simp [he.2]
  | true =>
    cases hm : s.inMerge with
    | true =>
      rw [applyAll_persist, hn, hm]
      exact subset_rfl
    | false => simp [h.notInMerge hm]

theorem SegmentOk.persistReload (h : SegmentOk f s) :
    SegmentOk (SegmentFileOp.applyAll f (persistReload f s).2) (persistReload f s).1 := by
  have hp := h.persist
  have hnot : s.newDelete = false → (Index.persistReload f s).1 = s := by
    intro hn
    simp [Index.persistReload, Segment.persist, hn]
  cases hn : s.newDelete with
  | false =>
    rw [hnot hn]
    exact hp
  | true =>
    obtain ⟨has, keys, he⟩ := persistReload_kept f s
    rw [he]
    refine ⟨hp.loaded, hp.kv, hp.onDisk, fun hf => ?_, hp.inMerge, hp.notInMerge⟩
    rw [hn] at hf
    cases hf

/-! ## Merging -/

/-- An elected segment has everything in `.dk` that was deleted in it. -/
theorem SegmentOk.electedForMerge (h : SegmentOk f s) (hm : s.inMerge = false) :
    SegmentOk (SegmentFileOp.applyAll f s.electedForMerge.2) s.electedForMerge.1 := by
  have hp := h.persist
  refine ⟨hp.loaded, hp.kv, hp.onDisk, hp.notNew, fun _ => ?_, fun hf => by cases hf⟩
  simp only [Segment.electedForMerge]
  cases hn : s.newDelete with
  | true =>
    rw [applyAll_persist, hn, hm]
    rfl
  | false =>
    have hempty := (h.notNew hn).1
    have hd := h.onDisk
    rw [hempty, Finset.subset_empty, SegmentFiles.deleted, Finset.union_eq_empty] at hd
    rw [Segment.allDeleted, Finset.union_eq_empty] at hempty
    rw [applyAll_persist, hn, hempty.1]
    simpa using hd.1

/-- `MergeFailed` turns the deletes made during the merge into ordinary ones. -/
theorem SegmentOk.mergeFailed (h : SegmentOk f s) :
    SegmentOk (SegmentFileOp.applyAll f s.mergeFailed.2) s.mergeFailed.1 ∧
      s.mergeFailed.1.dictionary = s.dictionary ∧
      s.mergeFailed.1.allDeleted = s.allDeleted ∧ s.mergeFailed.1.inMerge = false ∧
      s.mergeFailed.1.visible = s.visible ∧
      ∀ n, Between f s (SegmentFileOp.applyAll f (s.mergeFailed.2.take n)) := by
  unfold Segment.mergeFailed
  by_cases hd : s.deletedKeysDuringMergeForWrite = ∅
  · rw [if_neg (by simp [hd])]
    refine ⟨⟨h.loaded, h.kv, h.onDisk, h.notNew, fun hf => (by cases hf), fun _ => hd⟩,
      rfl, rfl, rfl, rfl, fun n => ?_⟩
    rw [List.take_nil]
    exact h.between_self
  · rw [if_pos (Finset.card_pos.mpr (Finset.nonempty_iff_ne_empty.mpr hd))]
    have hall : s.deletedKeysForWrite ∪ s.deletedKeysDuringMergeForWrite = s.allDeleted := rfl
    have hdkm : f.loadDkm ⊆ s.allDeleted := (Finset.union_subset_iff.mp h.onDisk).2
    refine ⟨⟨h.loaded, h.kv, ?_, ?_, ?_, fun _ => rfl⟩, rfl, ?_, rfl, rfl, fun n => ?_⟩
    · simp [Segment.persist, SegmentFileOp.applyAll, SegmentFileOp.apply, SegmentFiles.deleted,
        SegmentFiles.loadDk, SegmentFiles.loadDkm, Segment.allDeleted]
    · simp
    · simp
    · simp [Segment.allDeleted]
    · simp only [Segment.persist, Bool.not_true, Bool.false_eq_true, if_false, hall,
        List.cons_append, List.nil_append]
      match n with
      | 0 => exact h.between_self
      | 1 => exact ⟨rfl, subset_rfl, h.onDisk⟩
      | 2 =>
        refine ⟨rfl, h.onDisk.trans Finset.subset_union_left, ?_⟩
        exact Finset.union_subset subset_rfl hdkm
      | n + 3 =>
        rw [List.take_of_length_le (by simp)]
        refine ⟨rfl, h.onDisk.trans ?_, ?_⟩
        · exact fun k hk => Finset.mem_union_left _ hk
        · exact Finset.union_subset subset_rfl (Finset.empty_subset _)

/-- A compiled segment. -/
theorem segmentOk_compiled (f : SegmentFiles V) (d : Dictionary V) (hkv : f.kv = some d)
    (hdk : f.dk = none) (hdkm : f.dkm = none) : SegmentOk f (Segment.ofPath f d true) := by
  constructor <;>
    simp [Segment.ofPath, Segment.allDeleted, hkv, SegmentFiles.deleted, SegmentFiles.loadDk,
      SegmentFiles.loadDkm, hdk, hdkm]

/-- The keys deleted in the parents while they were merged. -/
theorem mem_allDeleted_ofParents (d : Dictionary V) (parents : List (Segment V)) (k : Key) :
    k ∈ (Segment.ofParents d parents).1.allDeleted ↔
      ∃ p ∈ parents, k ∈ p.deletedKeysDuringMergeForWrite := by
  have hfold : ∀ (ps : List (Segment V)) (acc : DeletedKeys),
      k ∈ ps.foldl (fun acc p => acc ∪ p.deletedKeysDuringMergeForWrite) acc ↔
        k ∈ acc ∨ ∃ p ∈ ps, k ∈ p.deletedKeysDuringMergeForWrite := by
    intro ps
    induction ps with
    | nil => simp
    | cons p ps ih =>
      intro acc
      rw [List.foldl_cons, ih, Finset.mem_union, List.exists_mem_cons_iff, or_assoc]
  have hset : (Segment.ofParents d parents).1.allDeleted =
      parents.foldl (fun acc p => acc ∪ p.deletedKeysDuringMergeForWrite) ∅ := by
    simp only [Segment.ofParents]
    split <;> simp [Segment.allDeleted]
  rw [hset, hfold]
  simp

/-- A merged segment shows none of them until its lists are loaded. -/
theorem visible_ofParents (d : Dictionary V) (parents : List (Segment V)) :
    (Segment.ofParents d parents).1.visible = ∅ := by
  unfold Segment.ofParents
  dsimp only
  split <;> rfl

/-- A merged segment, built next to a dictionary file that has no lists yet. -/
theorem segmentOk_ofParents (f : SegmentFiles V) (d : Dictionary V) (parents : List (Segment V))
    (hkv : f.kv = some d) (hdk : f.dk = none) (hdkm : f.dkm = none) :
    let r := Segment.ofParents d parents
    SegmentOk (SegmentFileOp.applyAll f r.2) r.1 ∧
      (SegmentFileOp.applyAll f r.2).deleted = r.1.allDeleted ∧
      r.1.dictionary = d ∧ r.1.inMerge = false := by
  have hf : f.deleted = ∅ := by
    simp [SegmentFiles.deleted, SegmentFiles.loadDk, SegmentFiles.loadDkm, hdk, hdkm]
  unfold Segment.ofParents
  generalize parents.foldl (fun acc p => acc ∪ p.deletedKeysDuringMergeForWrite) ∅ = keys
  by_cases hk : keys.card ≠ 0
  · have hdel : (SegmentFileOp.applyAll f [.writeSwap keys, .renameSwapToDk]).deleted = keys := by
      simp [SegmentFileOp.applyAll, SegmentFileOp.apply, SegmentFiles.deleted, SegmentFiles.loadDk,
        SegmentFiles.loadDkm, hdkm]
    simp only [if_pos hk, Segment.persist, Bool.not_true, Bool.false_eq_true, if_false, hdel]
    exact ⟨⟨rfl, hkv, by simp [hdel, Segment.allDeleted], by simp, by simp, by simp⟩,
      by simp [Segment.allDeleted], by simp⟩
  · have hempty := Finset.card_eq_zero.mp (not_not.mp hk)
    simp only [if_neg hk]
    subst hempty
    exact ⟨⟨rfl, hkv, by simp [SegmentFileOp.applyAll, hf], by simp [Segment.allDeleted], by simp,
      by simp⟩, by simp [SegmentFileOp.applyAll, hf, Segment.allDeleted], by simp⟩

end Keyvi.Index
