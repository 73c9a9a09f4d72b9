import Mathlib
import Keyvi.Dictionary.DictionaryMerger

/-!
# What the merge loop visits

The queue decides which iterators reach `KeyDeleted`; the delete lists and the value store do not
influence it. `survivors` is that sequence: for every key the iterator of the newest segment that
has it, in ascending order of the keys. The merge is a fold of `mergeKey` over it.
-/

namespace Keyvi.Dictionary

/-! ## The order of the queue -/

namespace SegmentIterator

/-- Smaller keys have priority; of equal keys the higher index. -/
theorem less_iff (it rhs : SegmentIterator) : it.less rhs = true ↔
    rhs.key < it.key ∨ rhs.key = it.key ∧ it.segmentIndex < rhs.segmentIndex := by
  unfold less
  split
  · next h =>
    rw [Bool.not_eq_true', ← Bool.not_eq_true, entryLess_iff, not_lt, le_iff_lt_or_eq]
    simp [h]
  · next h =>
    rw [entryLess_iff]
    simp [h]

theorem mem_entries_next {it it' : SegmentIterator} (h : it.next = some it') :
    it'.entries = it.rest ∧ it'.segmentIndex = it.segmentIndex := by
  unfold next ofEntries at h
  split at h
  · simp at h
  · next hr =>
    obtain rfl := Option.some.inj h
    exact ⟨hr.symm, rfl⟩

theorem rest_of_next_none {it : SegmentIterator} (h : it.next = none) : it.rest = [] := by
  unfold next ofEntries at h
  split at h
  · next hr => exact hr
  · simp at h

end SegmentIterator

namespace SegmentQueue

/-- Every segment has one iterator, and each visits its keys in ascending order. -/
structure Ordered (q : SegmentQueue) : Prop where
  nodup : (q.map SegmentIterator.segmentIndex).Nodup
  ascending : ∀ it ∈ q, it.entries.Pairwise fun a b => a.1 < b.1

/-- Segment `i` has still to visit `k` with value id `v`. -/
def Pending (q : SegmentQueue) (i : Nat) (k : Key) (v : Nat) : Prop :=
  ∃ it ∈ q, it.segmentIndex = i ∧ (k, v) ∈ it.entries

variable {q : SegmentQueue} {t : SegmentIterator}

theorem top_eq_none : q.top = none ↔ q = [] := by
  cases q with
  | nil => simp [top]
  | cons it q =>
    rw [top]
    cases top q
    · simp
    · simp only [reduceCtorEq, iff_false]
      split <;> simp

/-- No element has a smaller key than the top, and of those with its key it has the highest
index. -/
theorem top_le (h : q.top = some t) : ∀ it ∈ q,
    t.key < it.key ∨ t.key = it.key ∧ it.segmentIndex ≤ t.segmentIndex := by
  induction q generalizing t with
  | nil => simp
  | cons x q ih =>
    rw [top] at h
    intro it hit
    cases ht : top q with
    | none =>
      rw [ht] at h
      obtain rfl := Option.some.inj h
      rw [top_eq_none.mp ht, List.mem_singleton] at hit
      subst hit
      exact .inr ⟨rfl, le_rfl⟩
    | some y =>
      rw [ht] at h
      simp only at h
      have hle := ih ht
      by_cases hx : x.less y = true
      · rw [if_pos hx] at h
        obtain rfl := Option.some.inj h
        rcases List.mem_cons.mp hit with rfl | hit
        · rcases (SegmentIterator.less_iff _ _).mp hx with h1 | ⟨h1, h2⟩
          · exact .inl h1
          · exact .inr ⟨h1, h2.le⟩
        · exact hle it hit
      · rw [if_neg hx] at h
        obtain rfl := Option.some.inj h
        rw [SegmentIterator.less_iff] at hx
        push Not at hx
        rcases List.mem_cons.mp hit with rfl | hit
        · exact .inr ⟨rfl, le_rfl⟩
        · rcases lt_or_eq_of_le hx.1 with h1 | h1
          · rcases hle it hit with h2 | ⟨h2, -⟩
            · exact .inl (h1.trans h2)
            · exact .inl (h2 ▸ h1)
          · rcases hle it hit with h2 | ⟨h2, h3⟩
            · exact .inl (h1 ▸ h2)
            · exact .inr ⟨h1.trans h2, h3.trans (hx.2 h1.symm)⟩

theorem Ordered.key_le {it : SegmentIterator} (ho : Ordered q) (hit : it ∈ q) {e : Key × Nat}
    (he : e ∈ it.entries) : it.key ≤ e.1 := by
  rcases List.mem_cons.mp he with rfl | he
  · exact le_rfl
  · exact (List.rel_of_pairwise_cons (ho.ascending it hit) he).le

/-- All keys that are still to be visited are at least the key on top. -/
theorem Ordered.top_le_pending (ho : Ordered q) (h : q.top = some t) {i v : Nat} {k : Key}
    (hp : q.Pending i k v) : t.key ≤ k := by
  obtain ⟨it, hit, -, he⟩ := hp
  have hk := ho.key_le hit he
  rcases top_le h it hit with h1 | ⟨h1, -⟩
  · exact h1.le.trans hk
  · exact h1 ▸ hk

theorem Ordered.eq_of_index (ho : Ordered q) {a b : SegmentIterator} (ha : a ∈ q) (hb : b ∈ q)
    (h : a.segmentIndex = b.segmentIndex) : a = b :=
  List.inj_on_of_nodup_map ho.nodup ha hb h

theorem pop_eq (h : q.top = some t) : q.pop = q.erase t := by rw [pop, h]

theorem Ordered.pop (ho : Ordered q) (h : q.top = some t) : Ordered q.pop := by
  rw [pop_eq h]
  exact ⟨ho.nodup.sublist (List.erase_sublist.map _),
    fun it hit => ho.ascending it (List.mem_of_mem_erase hit)⟩

theorem Ordered.mem_pop (ho : Ordered q) (h : q.top = some t) {it : SegmentIterator} :
    it ∈ q.pop ↔ it ∈ q ∧ it.segmentIndex ≠ t.segmentIndex := by
  rw [pop_eq h, (ho.nodup.of_map _).mem_erase_iff]
  constructor
  · rintro ⟨hne, hit⟩
    exact ⟨hit, fun hi => hne (ho.eq_of_index hit (Merging.top_mem h) hi)⟩
  · rintro ⟨hit, hne⟩
    exact ⟨fun he => hne (congrArg _ he), hit⟩

theorem Ordered.pending_pop (ho : Ordered q) (h : q.top = some t) {i v : Nat} {k : Key} :
    q.pop.Pending i k v ↔ q.Pending i k v ∧ i ≠ t.segmentIndex := by
  unfold Pending
  constructor
  · rintro ⟨it, hit, rfl, he⟩
    exact ⟨⟨it, ((ho.mem_pop h).mp hit).1, rfl, he⟩, ((ho.mem_pop h).mp hit).2⟩
  · rintro ⟨⟨it, hit, rfl, he⟩, hne⟩
    exact ⟨it, (ho.mem_pop h).mpr ⟨hit, hne⟩, rfl, he⟩

theorem Ordered.push (ho : Ordered q) {it : SegmentIterator}
    (hnew : ∀ x ∈ q, x.segmentIndex ≠ it.segmentIndex)
    (hasc : it.entries.Pairwise fun a b => a.1 < b.1) : Ordered (q.push it) := by
  refine ⟨List.nodup_cons.mpr ⟨?_, ho.nodup⟩, ?_⟩
  · rintro hmem
    obtain ⟨x, hx, hxi⟩ := List.mem_map.mp hmem
    exact hnew x hx hxi
  · intro x hx
    rcases List.mem_cons.mp hx with rfl | hx
    · exact hasc
    · exact ho.ascending x hx

theorem pending_push {it : SegmentIterator} {i v : Nat} {k : Key} :
    (q.push it).Pending i k v ↔
      (i = it.segmentIndex ∧ (k, v) ∈ it.entries) ∨ q.Pending i k v := by
  unfold Pending push
  simp only [List.mem_cons, exists_eq_or_imp]
  exact or_congr_left ⟨fun h => ⟨h.1.symm, h.2⟩, fun h => ⟨h.1.symm, h.2⟩⟩

theorem pending_pushNext {it : SegmentIterator} {i v : Nat} {k : Key} :
    (q.pushNext it).Pending i k v ↔
      (i = it.segmentIndex ∧ (k, v) ∈ it.rest) ∨ q.Pending i k v := by
  unfold pushNext
  cases h : it.next with
  | some it' =>
    obtain ⟨he, hi⟩ := SegmentIterator.mem_entries_next h
    rw [pending_push, he, hi]
  | none =>
    rw [SegmentIterator.rest_of_next_none h]
    simp

theorem Ordered.pushNext (ho : Ordered q) {it : SegmentIterator}
    (hnew : ∀ x ∈ q, x.segmentIndex ≠ it.segmentIndex)
    (hasc : it.entries.Pairwise fun a b => a.1 < b.1) : Ordered (q.pushNext it) := by
  unfold SegmentQueue.pushNext
  cases h : it.next with
  | some it' =>
    obtain ⟨he, hi⟩ := SegmentIterator.mem_entries_next h
    refine ho.push (fun x hx => hi ▸ hnew x hx) ?_
    rw [he]
    exact (List.pairwise_cons.mp hasc).2
  | none => exact ho

/-! ## Passing over a key -/

/-- The queue after the inner loop. -/
def passOver (topKey : Key) (q : SegmentQueue) : SegmentQueue :=
  match _h : q.top with
  | none => q
  | some toInc => if toInc.key = topKey then passOver topKey (q.pop.pushNext toInc) else q
termination_by q.size
decreasing_by
  have := Merging.size_pop _h
  rw [Merging.size_pushNext]
  omega

theorem size_passOver (topKey : Key) (q : SegmentQueue) : (passOver topKey q).size ≤ q.size := by
  fun_induction passOver topKey q with
  | case1 => exact le_rfl
  | case2 q toInc h hk ih =>
    have := Merging.size_pop h
    rw [Merging.size_pushNext] at ih
    omega
  | case3 => exact le_rfl

/-- Advancing the iterator on top. -/
theorem Ordered.advance (ho : Ordered q) (h : q.top = some t) : Ordered (q.pop.pushNext t) :=
  (ho.pop h).pushNext (fun _ hx => ((ho.mem_pop h).mp hx).2)
    (ho.ascending t (Merging.top_mem h))

/-- Only the entry on top is gone. -/
theorem Ordered.pending_advance (ho : Ordered q) (h : q.top = some t) {i v : Nat} {k : Key} :
    (q.pop.pushNext t).Pending i k v ↔ q.Pending i k v ∧ ¬(i = t.segmentIndex ∧ k = t.key) := by
  have ht := Merging.top_mem h
  have hasc := List.pairwise_cons.mp (ho.ascending t ht)
  rw [pending_pushNext, ho.pending_pop h]
  constructor
  · rintro (⟨rfl, hr⟩ | ⟨hp, hne⟩)
    · exact ⟨⟨t, ht, rfl, List.mem_cons_of_mem _ hr⟩, fun hk => (hasc.1 _ hr).ne hk.2.symm⟩
    · exact ⟨hp, fun hk => hne hk.1⟩
  · rintro ⟨⟨it, hit, rfl, he⟩, hne⟩
    by_cases hi : it.segmentIndex = t.segmentIndex
    · obtain rfl := ho.eq_of_index hit ht hi
      rcases List.mem_cons.mp he with he | he
      · exact absurd ⟨rfl, congrArg Prod.fst he⟩ hne
      · exact .inl ⟨rfl, he⟩
    · exact .inr ⟨⟨it, hit, rfl, he⟩, hi⟩

/-- When no smaller key is pending, the inner loop removes the key everywhere and nothing else. -/
theorem Ordered.passOver (ho : Ordered q) (topKey : Key)
    (hmin : ∀ i k v, q.Pending i k v → topKey ≤ k) :
    Ordered (passOver topKey q) ∧
      ∀ i k v, (passOver topKey q).Pending i k v ↔ q.Pending i k v ∧ k ≠ topKey := by
  fun_induction SegmentQueue.passOver topKey q with
  | case1 q h =>
    obtain rfl := top_eq_none.mp h
    exact ⟨ho, fun i k v => by simp [Pending]⟩
  | case2 q toInc h hk ih =>
    obtain ⟨hord, hpend⟩ := ih (ho.advance h)
      fun i k v hp => hmin i k v ((ho.pending_advance h).mp hp).1
    refine ⟨hord, fun i k v => ?_⟩
    rw [hpend, ho.pending_advance h]
    constructor
    · rintro ⟨⟨hp, -⟩, hne⟩
      exact ⟨hp, hne⟩
    · rintro ⟨hp, hne⟩
      exact ⟨⟨hp, fun he => hne (he.2.trans hk)⟩, hne⟩
  | case3 q toInc h hk =>
    refine ⟨ho, fun i k v => ⟨fun hp => ⟨hp, ?_⟩, fun hp => hp.1⟩⟩
    rintro rfl
    -- the top would be smaller than the smallest key
    have htop := Merging.top_mem h
    have := hmin _ _ _ ⟨toInc, htop, rfl, List.mem_cons_self⟩
    exact hk (le_antisymm (ho.top_le_pending h hp) this)

/-! ## The survivors -/

/-- The iterators that reach `KeyDeleted`. -/
def survivors (q : SegmentQueue) : List SegmentIterator :=
  match _h : q.top with
  | none => []
  | some it => it :: survivors ((passOver it.key q.pop).pushNext it)
termination_by q.size
decreasing_by
  have := Merging.size_pop _h
  have := size_passOver it.key q.pop
  rw [Merging.size_pushNext]
  omega

/-- One round removes the smallest key from all segments. -/
theorem Ordered.round (ho : Ordered q) (h : q.top = some t) :
    Ordered ((SegmentQueue.passOver t.key q.pop).pushNext t) ∧
      ∀ i k v, ((SegmentQueue.passOver t.key q.pop).pushNext t).Pending i k v ↔
        q.Pending i k v ∧ k ≠ t.key := by
  have ht := Merging.top_mem h
  have hasc := List.pairwise_cons.mp (ho.ascending t ht)
  obtain ⟨hord, hpend⟩ := (ho.pop h).passOver t.key
    fun i k v hp => ho.top_le_pending h ((ho.pending_pop h).mp hp).1
  constructor
  · refine hord.pushNext (fun x hx hi => ?_) (ho.ascending t ht)
    have hp := ((hpend _ _ _).mp ⟨x, hx, rfl, List.mem_cons_self⟩).1
    exact ((ho.pending_pop h).mp hp).2 hi
  · intro i k v
    rw [pending_pushNext, hpend, ho.pending_pop h]
    constructor
    · rintro (⟨rfl, hr⟩ | ⟨⟨hp, -⟩, hne⟩)
      · exact ⟨⟨t, ht, rfl, List.mem_cons_of_mem _ hr⟩, (hasc.1 _ hr).ne'⟩
      · exact ⟨hp, hne⟩
    · rintro ⟨⟨it, hit, rfl, he⟩, hne⟩
      by_cases hi : it.segmentIndex = t.segmentIndex
      · obtain rfl := ho.eq_of_index hit ht hi
        rcases List.mem_cons.mp he with he | he
        · exact absurd (congrArg Prod.fst he) hne
        · exact .inl ⟨rfl, he⟩
      · exact .inr ⟨⟨⟨it, hit, rfl, he⟩, hi⟩, hne⟩

/-- **What survives.** For every pending key the entry of the highest segment that has it. -/
theorem Ordered.mem_survivors (ho : Ordered q) (i : Nat) (k : Key) (v : Nat) :
    (∃ it ∈ survivors q, it.segmentIndex = i ∧ it.key = k ∧ it.valueId = v) ↔
      q.Pending i k v ∧ ∀ j w, q.Pending j k w → j ≤ i := by
  fun_induction survivors q with
  | case1 q h =>
    obtain rfl := top_eq_none.mp h
    simp [Pending]
  | case2 q t h ih =>
    obtain ⟨hord, hpend⟩ := ho.round h
    have ht := Merging.top_mem h
    simp only [List.mem_cons, exists_eq_or_imp, ih hord, hpend]
    constructor
    · rintro (⟨rfl, rfl, rfl⟩ | ⟨⟨hp, hne⟩, hmax⟩)
      · refine ⟨⟨t, ht, rfl, List.mem_cons_self⟩, ?_⟩
        rintro j w ⟨it, hit, rfl, he⟩
        rcases top_le h it hit with h1 | ⟨-, h2⟩
        · exact absurd (ho.key_le hit he) (not_le.mpr h1)
        · exact h2
      · exact ⟨hp, fun j w hj => hmax j w ⟨hj, hne⟩⟩
    · rintro ⟨hp, hmax⟩
      by_cases hk : k = t.key
      · subst hk
        obtain ⟨it, hit, rfl, he⟩ := hp
        -- the top has this key, so the segment is at least as new; and the top is the newest
        have hle := hmax _ _ ⟨t, ht, rfl, List.mem_cons_self⟩
        have hge : it.segmentIndex ≤ t.segmentIndex := by
          rcases top_le h it hit with h1 | ⟨-, h2⟩
          · exact absurd (ho.key_le hit he) (not_le.mpr h1)
          · exact h2
        obtain rfl := ho.eq_of_index hit ht (le_antisymm hge hle)
        refine .inl ⟨rfl, rfl, ?_⟩
        rcases List.mem_cons.mp he with he | he
        · exact (congrArg Prod.snd he).symm
        · have := (List.pairwise_cons.mp (ho.ascending it hit)).1 _ he
          exact absurd this (lt_irrefl _)
      · exact .inr ⟨⟨hp, hk⟩, fun j w hj => hmax j w hj.1⟩

/-- **In order.** The keys of the survivors are strictly ascending. -/
theorem Ordered.survivors_ascending (ho : Ordered q) :
    (survivors q).Pairwise fun a b => a.key < b.key := by
  fun_induction survivors q with
  | case1 => exact .nil
  | case2 q t h ih =>
    obtain ⟨hord, hpend⟩ := ho.round h
    refine List.pairwise_cons.mpr ⟨fun it hit => ?_, ih hord⟩
    obtain ⟨hp, -⟩ := (hord.mem_survivors _ _ _).mp ⟨it, hit, rfl, rfl, rfl⟩
    obtain ⟨hp, hne⟩ := (hpend _ _ _).mp hp
    exact lt_of_le_of_ne (ho.top_le_pending h hp) (Ne.symm hne)

end SegmentQueue

/-! ## The merge as a fold -/

namespace Merging

variable {S : Type}

/-- What a merge has written: the delete lists, the value store and the generator. -/
def output (m : Merging S) : List (List Key) × S × List (Key × ValueHandle) :=
  (m.deletedKeys, m.valueStore, m.generator)

end Merging
end Keyvi.Dictionary
