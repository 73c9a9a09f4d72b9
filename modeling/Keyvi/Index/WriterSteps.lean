import Mathlib
import Keyvi.Index.IndexWriterWorker
import Keyvi.Index.SegmentSteps

/-!
# File operations of the writer

Nearly everything the writer does is done segment by segment: it changes the object of a segment and
writes to the files of that segment. `actOn` is that pattern, and `foldl_actOn` its effect on a list
of segments. `Cuts` speaks about the directory after every part of a journal.
-/

namespace Keyvi.Index

variable {V : Type}

/-! ## Directories -/

namespace Directory

@[simp] theorem replay_nil (d : Directory V) : d.replay [] = d := rfl

theorem replay_append (d : Directory V) (a b : List (FileOp V)) :
    d.replay (a ++ b) = (d.replay a).replay b := List.foldl_append

theorem replay_segment (i : Nat) : ∀ (ops : List (SegmentFileOp V)) (d : Directory V),
    d.replay (ops.map (.segment i)) =
      { d with files := Function.update d.files i (SegmentFileOp.applyAll (d.files i) ops) }
  | [], d => by simp [SegmentFileOp.applyAll]
  | op :: ops, d => by
    rw [List.map_cons, replay, List.foldl_cons, ← replay, replay_segment i ops]
    simp [apply, SegmentFileOp.applyAll]

/-- A property of the directory that holds before, between and after the operations. -/
def Cuts (P : Directory V → Prop) (d : Directory V) (ops : List (FileOp V)) : Prop :=
  ∀ n, P (d.replay (ops.take n))

variable {P : Directory V → Prop} {d : Directory V}

theorem Cuts.nil (h : P d) : Cuts P d [] := fun n => by simpa using h

theorem Cuts.start {ops : List (FileOp V)} (h : Cuts P d ops) : P d := by simpa using h 0

theorem Cuts.last {ops : List (FileOp V)} (h : Cuts P d ops) : P (d.replay ops) := by
  simpa using h ops.length

theorem Cuts.append {a b : List (FileOp V)} (ha : Cuts P d a) (hb : Cuts P (d.replay a) b) :
    Cuts P d (a ++ b) := by
  intro n
  rw [List.take_append]
  by_cases hn : n ≤ a.length
  · rw [Nat.sub_eq_zero_of_le hn, List.take_zero, List.append_nil]
    exact ha n
  · rw [List.take_of_length_le (by omega), replay_append]
    exact hb _

theorem Cuts.single {op : FileOp V} (h : P d) (h' : P (d.apply op)) : Cuts P d [op] := by
  intro n
  cases n with
  | zero => exact h
  | succ n => simpa [replay] using h'

end Directory

namespace Writer

open Directory

/-! ## Emitting -/

theorem emitAll_eq : ∀ (ops : List (FileOp V)) (w : Writer V), w.emitAll ops =
    { w with directory := w.directory.replay ops, journal := w.journal ++ ops }
  | [], w => by simp [emitAll]
  | op :: ops, w => by
    rw [emitAll, List.foldl_cons, ← emitAll, emitAll_eq ops]
    simp [emit, Directory.replay]

theorem emitSegment_eq (w : Writer V) (i : Nat) (ops : List (SegmentFileOp V)) :
    w.emitSegment i ops = { w with
      directory := { w.directory with
        files := Function.update w.directory.files i
          (SegmentFileOp.applyAll (w.directory.files i) ops) }
      journal := w.journal ++ ops.map (.segment i) } := by
  rw [emitSegment, emitAll_eq, replay_segment]

/-- From one state to the next through file operations, with a property of the directory that holds
before, between and after them. -/
def Emits (P : Directory V → Prop) (w w' : Writer V) : Prop := ∃ ops,
  w'.journal = w.journal ++ ops ∧ w'.directory = w.directory.replay ops ∧ Cuts P w.directory ops

section Emits

variable {P Q : Directory V → Prop} {w w' w'' : Writer V}

theorem Emits.quiet (h : P w.directory) (hj : w'.journal = w.journal)
    (hd : w'.directory = w.directory) : Emits P w w' :=
  ⟨[], by simp [hj], by simp [hd], Cuts.nil h⟩

theorem Emits.trans (h : Emits P w w') (h' : Emits P w' w'') : Emits P w w'' := by
  obtain ⟨a, hja, hda, hca⟩ := h
  obtain ⟨b, hjb, hdb, hcb⟩ := h'
  refine ⟨a ++ b, by rw [hjb, hja, List.append_assoc], by rw [hdb, hda, replay_append], ?_⟩
  exact hca.append (hda ▸ hcb)

theorem Emits.last (h : Emits P w w') : P w'.directory := by
  obtain ⟨ops, -, hd, hc⟩ := h
  exact hd ▸ hc.last

end Emits

/-! ## Segment by segment -/

/-- What a method makes of the files and the object of a segment. -/
abbrev Act (V : Type) := SegmentFiles V → Segment V → Segment V × List (SegmentFileOp V)

/-- A method called on the segment `i`. -/
def actOn (act : Act V) (w : Writer V) (i : Nat) : Writer V :=
  let r := act (w.directory.files i) (w.object i)
  (w.emitSegment i r.2).setObject i r.1

theorem persistAndReload_eq : persistAndReload (V := V) = actOn persistReload := by
  funext w i
  simp only [persistAndReload, actOn, persistReload, emitSegment_eq, setObject]
  cases (w.object i).persist.1 <;> simp

theorem elect_eq : elect (V := V) = actOn fun _ s => s.electedForMerge := rfl

theorem mergeFailed_eq (w : Writer V) (p : MergeJob) :
    w.mergeFailed p = p.segments.foldl (actOn fun _ s => s.mergeFailed) w := rfl

/-- The operations of a method on several segments. -/
def actOps (act : Act V) (w : Writer V) (is : List Nat) : List (FileOp V) :=
  is.flatMap fun i => (act (w.directory.files i) (w.object i)).2.map (.segment i)

/-- The effect on a list of segments: each is treated once, from what it was before. -/
theorem foldl_actOn (act : Act V) : ∀ {is : List Nat} (w : Writer V), is.Nodup →
    is.foldl (actOn act) w = { w with
      object := fun i =>
        if i ∈ is then (act (w.directory.files i) (w.object i)).1 else w.object i
      directory := { w.directory with
        files := fun i =>
          if i ∈ is then SegmentFileOp.applyAll (w.directory.files i)
            (act (w.directory.files i) (w.object i)).2
          else w.directory.files i }
      journal := w.journal ++ actOps act w is }
  | [], w, _ => by simp [actOps]
  | i :: is, w, h => by
    obtain ⟨hi, his⟩ := List.nodup_cons.mp h
    have hne : ∀ {j}, j ∈ is → j ≠ i := fun hj he => hi (he ▸ hj)
    rw [List.foldl_cons, foldl_actOn act _ his]
    simp only [actOn, setObject, emitSegment_eq, actOps, List.flatMap_cons, List.append_assoc]
    congr 1
    · funext j
      by_cases hj : j ∈ is
      · simp [hj, hne hj]
      · by_cases hji : j = i
        · subst hji
          simp [hi]
        · simp [hj, hji]
    · congr 1
      funext j
      by_cases hj : j ∈ is
      · simp [hj, hne hj]
      · by_cases hji : j = i
        · subst hji
          simp [hi]
        · simp [hj, hji]
    · congr 2
      exact List.flatMap_congr fun j hj => by simp [hne hj]

section Fold

variable (act : Act V) (w : Writer V) {is : List Nat} (h : is.Nodup)

include h

theorem foldl_actOn_object (i : Nat) : (is.foldl (actOn act) w).object i =
    if i ∈ is then (act (w.directory.files i) (w.object i)).1 else w.object i := by
  rw [foldl_actOn act w h]

theorem foldl_actOn_files (i : Nat) : (is.foldl (actOn act) w).directory.files i =
    if i ∈ is then
      SegmentFileOp.applyAll (w.directory.files i) (act (w.directory.files i) (w.object i)).2
    else w.directory.files i := by
  rw [foldl_actOn act w h]

theorem foldl_actOn_kept :
    (is.foldl (actOn act) w).compiler = w.compiler ∧
      (is.foldl (actOn act) w).segments = w.segments ∧
      (is.foldl (actOn act) w).mergeJobs = w.mergeJobs ∧
      (is.foldl (actOn act) w).anyDelete = w.anyDelete ∧
      (is.foldl (actOn act) w).mergeEnabled = w.mergeEnabled ∧
      (is.foldl (actOn act) w).nextFile = w.nextFile ∧
      (is.foldl (actOn act) w).directory.toc = w.directory.toc := by
  rw [foldl_actOn act w h]
  exact ⟨rfl, rfl, rfl, rfl, rfl, rfl, rfl⟩

/-- The operations are those of the journal. -/
theorem foldl_actOn_directory : (is.foldl (actOn act) w).directory =
    w.directory.replay (actOps act w is) := by
  have hall : ∀ (is : List Nat) (w : Writer V), ∃ ops,
      (is.foldl (actOn act) w).journal = w.journal ++ ops ∧
        (is.foldl (actOn act) w).directory = w.directory.replay ops := by
    intro is
    induction is with
    | nil => exact fun w => ⟨[], by simp⟩
    | cons i is ih =>
      intro w
      obtain ⟨ops, hj, hd⟩ := ih (actOn act w i)
      refine ⟨(act (w.directory.files i) (w.object i)).2.map (.segment i) ++ ops, ?_, ?_⟩
      · rw [List.foldl_cons, hj, actOn, emitSegment, emitAll_eq, setObject, List.append_assoc]
      · rw [List.foldl_cons, hd, actOn, emitSegment, emitAll_eq, setObject, replay_append]
  obtain ⟨ops, hj, hd⟩ := hall is w
  rw [foldl_actOn act w h, List.append_cancel_left_eq] at hj
  rw [hd, ← hj]

end Fold

/-- The directory after a part of the operations: every segment has got as far as some part of its
own operations. -/
theorem replay_take_actOps (act : Act V) (w : Writer V) : ∀ {is : List Nat} (d : Directory V)
    (n : Nat), is.Nodup → (∀ i ∈ is, d.files i = w.directory.files i) →
      (d.replay ((actOps act w is).take n)).toc = d.toc ∧
      ∀ i, (d.replay ((actOps act w is).take n)).files i = d.files i ∨ i ∈ is ∧
        ∃ m, (d.replay ((actOps act w is).take n)).files i =
          SegmentFileOp.applyAll (d.files i)
            ((act (w.directory.files i) (w.object i)).2.take m)
  | [], d, n, _, _ => by simp [actOps]
  | i :: is, d, n, h, hd => by
    obtain ⟨hi, his⟩ := List.nodup_cons.mp h
    simp only [actOps, List.flatMap_cons]
    set ops := (act (w.directory.files i) (w.object i)).2 with hops
    rw [List.take_append, replay_append, List.length_map, ← List.map_take, replay_segment]
    obtain ⟨htoc, hfiles⟩ := replay_take_actOps act w
      { d with
        files := Function.update d.files i
          (SegmentFileOp.applyAll (d.files i) (ops.take n)) } (n - ops.length) his
      (fun j hj => by
        have hne : j ≠ i := fun he => hi (he ▸ hj)
        simpa [hne] using hd j (List.mem_cons_of_mem _ hj))
    refine ⟨htoc, fun j => ?_⟩
    rcases hfiles j with hj | ⟨hj, m, hm⟩
    · by_cases hji : j = i
      · subst hji
        exact .inr ⟨List.mem_cons_self, n, by simpa [actOps] using hj⟩
      · exact .inl (by simpa [actOps, hji] using hj)
    · have hne : j ≠ i := fun he => hi (he ▸ hj)
      exact .inr ⟨List.mem_cons_of_mem _ hj, m, by simpa [actOps, hne] using hm⟩

end Writer
end Keyvi.Index
