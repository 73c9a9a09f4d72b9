import Mathlib
import Keyvi.Library.NewestWins
import Keyvi.Index.IndexWriterWorker
import Keyvi.Index.SegmentSteps

/-!
# What a list of segments holds

A segment tells about a key in its dictionary that it is deleted or has a value, and about other
keys nothing; the newest segment that tells something decides. The main result is that adjacent
segments may be replaced by the merged one.
-/

namespace Keyvi.Index

open NewestWins Writer

variable {V : Type} {k : Key}

/-- What the segment `i` tells about a key: `some none` is a deleted key. -/
def tells (dict : Nat → Dictionary V) (del : Nat → DeletedKeys) (i : Nat) (k : Key) :
    Option (Option V) :=
  (dict i k).map fun v => if k ∈ del i then none else some v

/-- What the segments hold, newest first. -/
def valueOf (dict : Nat → Dictionary V) (del : Nat → DeletedKeys) (segments : List Nat) (k : Key) :
    Option V :=
  (answer (tells dict del) segments k).join

variable {dict dict' : Nat → Dictionary V} {del del' : Nat → DeletedKeys}

theorem tells_eq_none {i : Nat} : tells dict del i k = none ↔ dict i k = none := by
  simp [tells]

theorem tells_congr {i : Nat} (hd : dict' i k = dict i k) (hk : k ∈ del' i ↔ k ∈ del i) :
    tells dict' del' i k = tells dict del i k := by
  simp only [tells, hd, hk]

/-- Every segment that has the key says that it is deleted. -/
theorem answer_eq_none_or_deleted {segments : List Nat}
    (h : ∀ i ∈ segments, (dict i k).isSome → k ∈ del i) :
    answer (tells dict del) segments k = none ∨
      answer (tells dict del) segments k = some none := by
  cases ha : answer (tells dict del) segments k with
  | none => exact .inl rfl
  | some a =>
    obtain ⟨pre, i, post, rfl, hi, -⟩ := answer_eq_some.mp ha
    obtain ⟨v, hv, rfl⟩ := Option.map_eq_some_iff.mp hi
    have hk : k ∈ del i := h i (by simp) (by simp [hv])
    simp [hk]

theorem valueOf_congr {segments : List Nat}
    (h : ∀ i ∈ segments, dict' i k = dict i k ∧ (k ∈ del' i ↔ k ∈ del i)) :
    valueOf dict' del' segments k = valueOf dict del segments k := by
  rw [valueOf, valueOf]
  exact congrArg Option.join (answer_congr fun i hi => tells_congr (h i hi).1 (h i hi).2)

/-- A key that is deleted in every segment has no value. -/
theorem valueOf_eq_none {segments : List Nat}
    (h : ∀ i ∈ segments, (dict i k).isSome → k ∈ del i) : valueOf dict del segments k = none := by
  rw [valueOf]
  rcases answer_eq_none_or_deleted h with h | h <;> rw [h] <;> rfl

/-- More keys are deleted: a value stays or is deleted in some segment that has it. -/
theorem valueOf_between {segments : List Nat}
    (h : ∀ i ∈ segments, dict' i k = dict i k ∧ (k ∈ del i → k ∈ del' i)) :
    valueOf dict' del' segments k = valueOf dict del segments k ∨
      valueOf dict' del' segments k = none ∧
        ∃ i ∈ segments, (dict i k).isSome ∧ k ∈ del' i ∧ k ∉ del i := by
  unfold valueOf
  cases ha : answer (tells dict del) segments k with
  | none =>
    have ha' : answer (tells dict' del') segments k = none := by
      rw [answer_eq_none] at ha ⊢
      intro i hi
      rw [tells_eq_none, (h i hi).1]
      exact tells_eq_none.mp (ha i hi)
    rw [ha']
    exact .inl rfl
  | some a =>
    obtain ⟨pre, i, post, hs, hi, hpost⟩ := answer_eq_some.mp ha
    obtain ⟨v, hv, rfl⟩ := Option.map_eq_some_iff.mp hi
    have hmem : i ∈ segments := by simp [hs]
    have ha' : answer (tells dict' del') segments k =
        some (if k ∈ del' i then none else some v) := by
      refine answer_eq_some.mpr ⟨pre, i, post, hs, ?_, fun x hx => ?_⟩
      · rw [tells, (h i hmem).1, hv]
        rfl
      · rw [tells_eq_none, (h x (by simp [hs, hx])).1]
        exact tells_eq_none.mp (hpost x hx)
    rw [ha']
    by_cases hk : k ∈ del i
    · simp [hk, (h i hmem).2 hk]
    · by_cases hk' : k ∈ del' i
      · exact .inr ⟨by simp [hk'], i, hmem, by simp [hv], hk', hk⟩
      · simp [hk, hk']

theorem valueOf_append_singleton (segments : List Nat) (i : Nat) :
    valueOf dict del (segments ++ [i]) k =
      ((tells dict del i k).or (answer (tells dict del) segments k)).join := by
  rw [valueOf, answer_append]
  simp [answer_cons]

/-! ## Merging -/

/-- The merged dictionary holds what its inputs held when their `.dk` lists were read. -/
theorem mergedDictionary_eq (dk : Nat → DeletedKeys) (block : List Nat) :
    mergedDictionary (block.map fun i => (dict i, dk i)) k = valueOf dict dk block k := by
  rw [mergedDictionary, newest_bind, answer_map, valueOf]
  refine congrArg Option.join (answer_congr fun i _ => ?_)
  cases hd : dict i k <;> simp [tells, hd]

/-- **Adjacent segments give way to the merged one.** `dk` are the lists that the merge has read,
`del` the keys deleted before and `del'` those deleted afterwards. -/
theorem valueOf_merged (dk : Nat → DeletedKeys) {pre block post : List Nat} {out : Nat}
    (hout : dict' out = mergedDictionary (block.map fun i => (dict i, dk i)))
    (hrest : ∀ i ∈ pre ++ post, dict' i k = dict i k ∧ (k ∈ del' i ↔ k ∈ del i))
    (hdk : ∀ i ∈ block, k ∈ dk i → k ∈ del i)
    (hdel : ∀ i ∈ block, (dict i k).isSome → k ∉ dk i → (k ∈ del' out ↔ k ∈ del i))
    (hpre : ∀ i ∈ block, (dict i k).isSome → k ∈ dk i →
      ∀ o ∈ pre, (dict o k).isSome → k ∈ del o) :
    valueOf dict' del' (pre ++ out :: post) k = valueOf dict del (pre ++ block ++ post) k := by
  -- the stacks of what the segments tell
  have hmap : ∀ (d : Nat → Dictionary V) (x : Nat → DeletedKeys) (l : List Nat),
      answer (tells d x) l k = answer (fun t _ => t) (l.map (tells d x · k)) k :=
    fun d x l => by
      rw [answer_map]
      exact answer_congr fun _ _ => rfl
  have hkeep : ∀ l : List Nat, (∀ i ∈ l, i ∈ pre ++ post) →
      l.map (tells dict' del' · k) = l.map (tells dict del · k) := fun l hl =>
    List.map_congr_left fun i hi => tells_congr (hrest i (hl i hi)).1 (hrest i (hl i hi)).2
  have hblock : tells dict' del' out k = answer (tells dict del) block k ∨
      tells dict' del' out k = none ∧ answer (tells dict del) block k = some none ∧
        (answer (tells dict del) pre k = none ∨ answer (tells dict del) pre k = some none) := by
    have htells : tells dict' del' out k =
        (valueOf dict dk block k).map fun v => if k ∈ del' out then none else some v := by
      rw [tells, hout, mergedDictionary_eq]
    rw [htells, valueOf]
    cases ha : answer (tells dict dk) block k with
    | none =>
      refine .inl (answer_eq_none.mpr fun i hi => tells_eq_none.mpr ?_).symm
      exact tells_eq_none.mp (answer_eq_none.mp ha i hi)
    | some a =>
      obtain ⟨a₁, s, a₂, hs, ht, hlater⟩ := answer_eq_some.mp ha
      obtain ⟨v, hv, rfl⟩ := Option.map_eq_some_iff.mp ht
      have hmem : s ∈ block := by simp [hs]
      have hold : answer (tells dict del) block k =
          some (if k ∈ del s then none else some v) := by
        refine answer_eq_some.mpr ⟨a₁, s, a₂, hs, by simp [tells, hv], fun x hx => ?_⟩
        exact tells_eq_none.mpr (tells_eq_none.mp (hlater x hx))
      by_cases hk : k ∈ dk s
      · refine .inr ⟨by simp [hk], by rw [hold, if_pos (hdk s hmem hk)], ?_⟩
        exact answer_eq_none_or_deleted (hpre s hmem (by simp [hv]) hk)
      · left
        rw [hold]
        simp [hk, hdel s hmem (by simp [hv]) hk]
  rw [valueOf, valueOf, hmap, hmap, List.map_append, List.map_cons, List.map_append,
    List.map_append, hkeep pre fun i hi => List.mem_append_left _ hi,
    hkeep post fun i hi => List.mem_append_right _ hi]
  rw [hmap, hmap] at hblock
  have hreplace := @answer_replace (Option (Option V)) Key k (Option V) (fun t _ => t) none
    (pre.map (tells dict del · k)) (block.map (tells dict del · k))
    (post.map (tells dict del · k)) (tells dict' del' out k) hblock
  rcases hreplace with h | ⟨h, h'⟩
  · rw [h]
  · rw [h, h']
    rfl

/-- Where `FinalizeMerge` puts the merged segment, if the merged ones are adjacent. -/
theorem rewriteSegments_block {pre job post : List Nat} {merged : Nat} (hne : job ≠ [])
    (hnd : (pre ++ job ++ post).Nodup) :
    rewriteSegments job merged false (pre ++ job ++ post) = pre ++ merged :: post := by
  have hpost : ∀ l : List Nat, (∀ i ∈ l, i ∉ job) → ∀ b, rewriteSegments job merged b l = l := by
    intro l hl b
    induction l with
    | nil => rfl
    | cons i l ih =>
      rw [rewriteSegments, if_neg (hl i List.mem_cons_self),
        ih fun j hj => hl j (List.mem_cons_of_mem _ hj)]
  have hblock : ∀ l : List Nat, (∀ i ∈ l, i ∈ job) →
      rewriteSegments job merged true (l ++ post) = rewriteSegments job merged true post := by
    intro l hl
    induction l with
    | nil => rfl
    | cons i l ih =>
      rw [List.cons_append, rewriteSegments, if_pos (hl i List.mem_cons_self), if_pos rfl,
        ih fun j hj => hl j (List.mem_cons_of_mem _ hj)]
  have hjob : ∀ l : List Nat, l ≠ [] → (∀ i ∈ l, i ∈ job) →
      rewriteSegments job merged false (l ++ post) =
        merged :: rewriteSegments job merged true post := by
    intro l hl hmem
    cases l with
    | nil => exact absurd rfl hl
    | cons i l =>
      rw [List.cons_append, rewriteSegments, if_pos (hmem i List.mem_cons_self),
        if_neg Bool.false_ne_true, hblock l fun j hj => hmem j (List.mem_cons_of_mem _ hj)]
  rw [List.append_assoc, List.nodup_append'] at hnd
  obtain ⟨-, hnd, hdis⟩ := hnd
  have hdis' := (List.nodup_append'.mp hnd).2.2
  have hpre : ∀ l : List Nat, (∀ i ∈ l, i ∉ job) → rewriteSegments job merged false
      (l ++ (job ++ post)) = l ++ rewriteSegments job merged false (job ++ post) := by
    intro l hl
    induction l with
    | nil => rfl
    | cons i l ih =>
      rw [List.cons_append, rewriteSegments, if_neg (hl i List.mem_cons_self),
        ih fun j hj => hl j (List.mem_cons_of_mem _ hj), List.cons_append]
  rw [List.append_assoc, hpre pre fun i hi hj => hdis hi (List.mem_append_left _ hj),
    hjob job hne fun _ hi => hi, hpost post (fun i hi hj => hdis' hj hi)]

/-- Another block of the list is on one side of the merged one. -/
theorem infix_of_disjoint {α : Type} {l pre block post : List α} {m : α}
    (hl : l <:+: pre ++ block ++ post) (hne : block ≠ []) (hdis : List.Disjoint l block) :
    l <:+: pre ++ m :: post := by
  have hside : l <:+: pre ∨ l <:+: post := by
    rcases List.infix_append_iff_ne_nil.mp hl with h | h | ⟨t, s, ht, -, rfl, hsuf, -⟩
    · rcases List.infix_append_iff_ne_nil.mp h with h | h | ⟨t, s, -, hs, rfl, -, hpre⟩
      · exact .inl h
      · have hnil : l = [] := List.eq_nil_iff_forall_not_mem.mpr fun x hx => hdis hx (h.mem hx)
        exact .inl (hnil ▸ List.nil_infix)
      · obtain ⟨x, hx⟩ := List.exists_mem_of_ne_nil s hs
        exact absurd (hpre.mem hx) (hdis (List.mem_append_right _ hx))
    · exact .inr h
    · -- the last element of the left part is in the block
      have hlast : t.getLast ht = block.getLast hne := by
        obtain ⟨u, hu⟩ := hsuf
        have := congrArg List.getLast? hu
        simpa [List.getLast?_append, List.getLast?_eq_some_getLast ht,
          List.getLast?_eq_some_getLast hne] using this
      exact absurd (hlast ▸ List.getLast_mem hne)
        (hdis (List.mem_append_left _ (List.getLast_mem ht)))
  rcases hside with h | h
  · exact h.trans (List.prefix_append _ _).isInfix
  · exact h.trans (((List.suffix_cons m post).trans (List.suffix_append _ _)).isInfix)

/-! ## Readers -/

variable {atZero : Nat → Dictionary V}

/-- `operator[]` in terms of what readers see, once the lists have been loaded. -/
theorem lookup_eq (w : Writer V) (hzero : ∀ i, atZero i k = none)
    (h : ∀ i ∈ w.segments, (w.object i).deletesLoaded = true) :
    w.lookup atZero k = valueOf (fun i => (w.object i).dictionary) (fun i => (w.object i).visible)
      w.segments k := by
  have hfind : ∀ l : List Nat, (∀ i ∈ l, (w.object i).deletesLoaded = true) →
      w.find atZero k l.reverse =
        valueOf (fun i => (w.object i).dictionary) (fun i => (w.object i).visible) l k := by
    intro l
    induction l using List.reverseRecOn with
    | nil => exact fun _ => rfl
    | append_singleton l i ih =>
      intro hl
      have hi := hl i (by simp)
      rw [List.reverse_append, List.reverse_singleton, List.singleton_append, find,
        valueOf_append_singleton, ih fun j hj => hl j (by simp [hj]), tells, hzero, Option.or_none]
      cases hd : (w.object i).dictionary k with
      | none => simp [valueOf]
      | some v =>
        simp only [Option.map_some, Option.some_or, Option.join_some, Segment.isDeleted,
          Segment.lazyLoadDeletedKeys, if_pos hi, Segment.visible]
        by_cases hh : (w.object i).hasDeletedKeys_ = true
        · simp [hh]
        · simp [hh]
  exact hfind w.segments h

/-- `Contains` answers whether `operator[]` finds a value. -/
theorem contains_eq (w : Writer V) (hzero : ∀ i, atZero i k = none) :
    w.contains k = (w.lookup atZero k).isSome := by
  have hfind : ∀ l : List Nat, w.containsIn k l = (w.find atZero k l).isSome := by
    intro l
    induction l with
    | nil => rfl
    | cons i l ih =>
      rw [containsIn, find, Segment.contains, ih, hzero, Option.or_none]
      cases (w.object i).dictionary k with
      | none => rfl
      | some v =>
        cases ((w.object i).isDeleted (w.directory.files i) k).1 <;> rfl
  exact hfind _

end Keyvi.Index
