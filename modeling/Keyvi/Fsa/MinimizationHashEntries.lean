import Mathlib
import Keyvi.Fsa.MinimizationHash

/-!
# The entries of a minimization hash

A hash to which entries are only added holds each of them once, and each cell that was taken is in a
chain; what re-hashing inserts again is then what it held. An entry that is moved away leaves its
chain, if it stands at its head or at the first link.
-/

namespace Keyvi.Fsa

open HashEntry

namespace MinimizationHash

variable {K : Type} [HashEntry K] {t : MinimizationHash K} {bs : Nat → List K} {k : K}

/-! ## Hashes without entries that were moved away -/

/-- The key of an entry itself. -/
def exactly [DecidableEq K] (k : K) : Query K := ⟨getHashcode k, fun k' => k' = k⟩

/-- The hash holds an entry: `Get` finds it. -/
def Holds [DecidableEq K] (t : MinimizationHash K) (k : K) : Prop := t.get (exactly k) = some (some k)

theorem Chained.holds_iff [DecidableEq K] (h : Chained t bs) :
    t.Holds k ↔ k ∈ bs (t.bucket k) := by
  rw [Holds, h.get, Option.some.injEq]
  constructor
  · exact fun hf => List.mem_of_find?_eq_some hf
  · intro hm
    have hsome : ((bs (t.bucket k)).find? (exactly k).equals).isSome := by
      rw [List.find?_isSome]
      exact ⟨k, hm, decide_eq_true rfl⟩
    obtain ⟨k', hk'⟩ := Option.isSome_iff_exists.mp hsome
    have heq : (exactly k).equals k' = true := List.find?_some hk'
    have he : k' = k := of_decide_eq_true heq
    rw [← he]
    exact he ▸ hk'

/-- Every entry is in its bucket once, and every cell that was taken is in a chain. -/
structure Clean (t : MinimizationHash K) (bs : Nat → List K) : Prop extends Chained t bs where
  nodup : ∀ b, (bs b).Nodup
  placed : ∀ i, 0 < i → i < t.overflowCount →
    (t.overflowEntries i).key ∈ bs (t.bucket (t.overflowEntries i).key)
  distinct : ∀ i j, 0 < i → i < t.overflowCount → 0 < j → j < t.overflowCount →
    (t.overflowEntries i).key = (t.overflowEntries j).key → i = j
  apart : ∀ b i, isEmpty (t.entries b).key = false → 0 < i → i < t.overflowCount →
    (t.entries b).key ≠ (t.overflowEntries i).key

theorem Chained.mem_of_entry (h : Chained t bs) {b : Nat} (hb : isEmpty (t.entries b).key = false) :
    (t.entries b).key ∈ bs b := by
  cases hbs : bs b with
  | nil =>
    rw [h.free b hbs] at hb
    cases hb
  | cons k ks =>
    rw [(h.chain b k ks hbs).1]
    exact List.mem_cons_self

/-- The entries that are inserted again are different. -/
theorem Clean.nodup_oldKeys (h : Clean t bs) : t.oldKeys.Nodup := by
  rw [oldKeys, List.nodup_append]
  refine ⟨?_, ?_, ?_⟩
  · rw [List.filter_map]
    refine (List.nodup_range.filter _).map_on fun b hb b' hb' he => ?_
    have hb : isEmpty (t.entries b).key = false := by simpa using (List.mem_filter.mp hb).2
    have hb' : isEmpty (t.entries b').key = false := by simpa using (List.mem_filter.mp hb').2
    rw [← (h.keys b _ (h.mem_of_entry hb)).2, he, (h.keys b' _ (h.mem_of_entry hb')).2]
  · refine List.Nodup.map_on (fun i hi j hj he => ?_) List.nodup_range'
    rw [List.mem_range'_1] at hi hj
    exact h.distinct i j hi.1 (by omega) hj.1 (by omega) he
  · intro k hk k' hk' he
    obtain ⟨hm, hne⟩ := List.mem_filter.mp hk
    obtain ⟨b, -, rfl⟩ := List.mem_map.mp hm
    obtain ⟨i, hi, rfl⟩ := List.mem_map.mp hk'
    rw [List.mem_range'_1] at hi
    exact h.apart b i (by simpa using hne) hi.1 (by omega) he

/-- What is inserted again is held. -/
theorem Clean.mem_of_oldKeys (h : Clean t bs) (hk : k ∈ t.oldKeys) : k ∈ bs (t.bucket k) := by
  rcases List.mem_append.mp hk with hk | hk
  · obtain ⟨hm, hne⟩ := List.mem_filter.mp hk
    obtain ⟨b, -, rfl⟩ := List.mem_map.mp hm
    have hb := h.mem_of_entry (b := b) (by simpa using hne)
    rw [(h.keys b _ hb).2]
    exact hb
  · obtain ⟨i, hi, rfl⟩ := List.mem_map.mp hk
    rw [List.mem_range'_1] at hi
    exact h.placed i hi.1 (by omega)

/-- The entries of the arrays after `Insert`. -/
theorem insert_arrays {t' : MinimizationHash K} {d : Bool} (h : t.insert k = some (t', d)) :
    (d = true ∧ t' = t) ∨
    (d = false ∧ t'.overflowCount = t.overflowCount ∧ t'.overflowEntries = t.overflowEntries ∧
      t'.entries = Function.update t.entries (t.bucket k) ⟨k, 0⟩) ∨
    (d = false ∧ t'.overflowCount = t.overflowCount + 1 ∧
      (∀ b, (t'.entries b).key = (t.entries b).key) ∧
      (t'.overflowEntries t.overflowCount).key = k ∧
      ∀ i, i ≠ t.overflowCount → (t'.overflowEntries i).key = (t.overflowEntries i).key) := by
  obtain ⟨p, hp, h⟩ := Option.bind_eq_some_iff.mp h
  cases p with
  | free =>
    obtain ⟨rfl, rfl⟩ := Prod.mk.inj (Option.some.inj h)
    exact .inr (.inl ⟨rfl, rfl, rfl, rfl⟩)
  | dropped =>
    obtain ⟨rfl, rfl⟩ := Prod.mk.inj (Option.some.inj h)
    exact .inl ⟨rfl, rfl⟩
  | head =>
    obtain ⟨u, hu, he⟩ := Option.map_eq_some_iff.mp h
    obtain ⟨rfl, rfl⟩ := Prod.mk.inj he
    rw [pushOverflow] at hu
    split at hu
    · obtain rfl := Option.some.inj hu
      refine .inr (.inr ⟨rfl, rfl, fun b => ?_, by simp only [Function.update_self], fun i hi => ?_⟩)
      · rcases eq_or_ne b (t.bucket k) with rfl | hne
        · simp only [Function.update_self]
          rfl
        · simp only [Function.update_of_ne hne]
      · simp only [Function.update_of_ne hi]
    · cases hu
  | link z =>
    obtain ⟨u, hu, he⟩ := Option.map_eq_some_iff.mp h
    obtain ⟨rfl, rfl⟩ := Prod.mk.inj he
    rw [pushOverflow] at hu
    split at hu
    · obtain rfl := Option.some.inj hu
      refine .inr (.inr ⟨rfl, rfl, fun b => rfl, by simp only [Function.update_self], fun i hi => ?_⟩)
      simp only [Function.update_of_ne hi]
      rcases eq_or_ne i z with rfl | hne
      · rw [Function.update_self]
        rfl
      · rw [Function.update_of_ne hne]
    · cases hu

/-- **A new entry leaves no cell outside of the chains.** -/
theorem Clean.insert (h : Clean t bs) (hk : isEmpty k = false) (hnew : k ∉ bs (t.bucket k))
    (hroom : t.Room k) : ∃ t' d, t.insert k = some (t', d) ∧ Inserted t bs k t' d ∧
      Clean t' (if d then bs else Function.update bs (t.bucket k) (bs (t.bucket k) ++ [k])) := by
  obtain ⟨t', d, ht', hi⟩ := h.toChained.insert hk hroom
  refine ⟨t', d, ht', hi, hi.chained, ?_, ?_, ?_, ?_⟩
  · intro b
    split
    · exact h.nodup b
    · rcases eq_or_ne b (t.bucket k) with rfl | hne
      · rw [Function.update_self, List.nodup_append]
        refine ⟨h.nodup _, List.nodup_singleton k, fun x hx y hy he => ?_⟩
        rw [he, List.mem_singleton.mp hy] at hx
        exact hnew hx
      · rw [Function.update_of_ne hne]
        exact h.nodup b
  all_goals
    have hbucket : t'.bucket = t.bucket := by
      obtain ⟨e, o, n, rfl⟩ := hi.frame
      rfl
    have hcell : ∀ i, 0 < i → i < t.overflowCount → (t.overflowEntries i).key ≠ k := by
      intro i hi hi' he
      exact hnew (he ▸ h.placed i hi hi')
    have hentry : ∀ b, isEmpty (t.entries b).key = false → (t.entries b).key ≠ k := by
      intro b hb he
      have hm := h.mem_of_entry hb
      have hb := (h.keys b _ hm).2
      rw [he] at hm hb
      rw [hb] at hnew
      exact hnew hm
  · intro i hi0 hi'
    rw [hbucket]
    have hold : ∀ x, x ∈ bs (t.bucket x) → x ∈ (if d = true then bs else
        Function.update bs (t.bucket k) (bs (t.bucket k) ++ [k])) (t.bucket x) := by
      intro x hx
      split
      · exact hx
      · exact mem_update_of_mem rfl hx fun hm => List.mem_append_left _ hm
    rcases insert_arrays ht' with ⟨rfl, rfl⟩ | ⟨rfl, hn, ho, he⟩ | ⟨rfl, hn, he, hlast, ho⟩
    · exact h.placed i hi0 hi'
    · rw [ho]
      exact hold _ (h.placed i hi0 (hn ▸ hi'))
    · rcases eq_or_ne i t.overflowCount with rfl | hne
      · rw [hlast, if_neg (by simp), Function.update_self]
        simp
      · rw [ho i hne]
        exact hold _ (h.placed i hi0 (by omega))
  · intro i j hi0 hi' hj0 hj' heq
    rcases insert_arrays ht' with ⟨rfl, rfl⟩ | ⟨rfl, hn, ho, he⟩ | ⟨rfl, hn, he, hlast, ho⟩
    · exact h.distinct i j hi0 hi' hj0 hj' heq
    · rw [ho] at heq
      exact h.distinct i j hi0 (hn ▸ hi') hj0 (hn ▸ hj') heq
    · rcases eq_or_ne i t.overflowCount with hin | hin <;>
        rcases eq_or_ne j t.overflowCount with hjn | hjn
      · rw [hin, hjn]
      · rw [hin, hlast, ho j hjn] at heq
        exact absurd heq.symm (hcell j hj0 (by omega))
      · rw [hjn, hlast, ho i hin] at heq
        exact absurd heq (hcell i hi0 (by omega))
      · rw [ho i hin, ho j hjn] at heq
        exact h.distinct i j hi0 (by omega) hj0 (by omega) heq
  · intro b i hb hi0 hi'
    rcases insert_arrays ht' with ⟨rfl, rfl⟩ | ⟨rfl, hn, ho, he⟩ | ⟨rfl, hn, he, hlast, ho⟩
    · exact h.apart b i hb hi0 hi'
    · rw [he] at hb ⊢
      rw [ho]
      rcases eq_or_ne b (t.bucket k) with rfl | hne
      · rw [Function.update_self]
        exact (hcell i hi0 (hn ▸ hi')).symm
      · rw [Function.update_of_ne hne] at hb ⊢
        exact h.apart b i hb hi0 (hn ▸ hi')
    · rw [he] at hb ⊢
      rcases eq_or_ne i t.overflowCount with rfl | hne
      · rw [hlast]
        exact hentry b hb
      · rw [ho i hne]
        exact h.apart b i hb hi0 (by omega)

/-- **Different new entries, one after the other.** -/
theorem Clean.insertAll : ∀ {ks : List K} {t : MinimizationHash K} {bs : Nat → List K}
    {seen : List Nat}, Clean t bs → (∀ k ∈ ks, isEmpty k = false) → ks.Nodup →
    (∀ k ∈ ks, k ∉ bs (t.bucket k)) → Spacious t bs seen (ks.map t.bucket) →
    ∃ t' lost bs', t.insertAll ks = some (t', lost) ∧ Frame t t' ∧ Clean t' bs' ∧
      (∀ b, ∀ k ∈ bs' b, k ∈ bs b ∨ k ∈ ks) ∧ (∀ b, bs b ⊆ bs' b) ∧
      (∀ k ∈ ks, k ∈ bs' (t.bucket k) ∨ k ∈ lost) ∧
      (Tight t bs seen (ks.map t.bucket) → ∀ k ∈ lost,
        t.overflowLimit + 2 < seen.count (t.bucket k) + (ks.map t.bucket).count (t.bucket k))
  | [], t, bs, _, h, _, _, _, _ =>
    ⟨t, [], bs, rfl, Frame.refl t, h, fun _ _ hk => .inl hk, fun _ _ hk => hk, by simp, by simp⟩
  | k :: ks, t, bs, seen, h, hks, hnd, hnew, hs => by
    obtain ⟨hk, hnd⟩ := List.nodup_cons.mp hnd
    obtain ⟨t₁, d, ht₁, hi, h₁⟩ := h.insert (hks k List.mem_cons_self)
      (hnew k List.mem_cons_self) (h.room_of_spacious hs)
    have hbucket : t₁.bucket = t.bucket := by
      obtain ⟨e, o, n, rfl⟩ := hi.frame
      rfl
    have hlimit : t₁.overflowLimit = t.overflowLimit := by
      obtain ⟨e, o, n, rfl⟩ := hi.frame
      rfl
    have hmap : ks.map t₁.bucket = ks.map t.bucket := by rw [hbucket]
    have hs₁ := hi.spacious h.toChained hs
    rw [← hmap] at hs₁
    have hgrown : ∀ b, ∀ x ∈ (if d = true then bs else
        Function.update bs (t.bucket k) (bs (t.bucket k) ++ [k])) b, x ∈ bs b ∨ x = k := by
      intro b x hx
      split at hx
      · exact .inl hx
      · rcases eq_or_ne b (t.bucket k) with rfl | hne
        · rw [Function.update_self, List.mem_append, List.mem_singleton] at hx
          exact hx
        · rw [Function.update_of_ne hne] at hx
          exact .inl hx
    have hkept : ∀ b, bs b ⊆ (if d = true then bs else
        Function.update bs (t.bucket k) (bs (t.bucket k) ++ [k])) b := by
      intro b x hx
      split
      · exact hx
      · exact mem_update_of_mem rfl hx fun hm => List.mem_append_left _ hm
    obtain ⟨t', lost, bs', ht', hframe, h', hsub, hsup, hin, hlost⟩ :=
      h₁.insertAll (fun k' hk' => hks k' (List.mem_cons_of_mem k hk')) hnd (fun k' hk' hm => by
        rw [hbucket] at hm
        rcases hgrown _ k' hm with hm | rfl
        · exact hnew k' (List.mem_cons_of_mem k hk') hm
        · exact hk hk') hs₁
    refine ⟨t', if d then k :: lost else lost, bs', ?_, hi.frame.trans hframe, h', fun b x hx => ?_,
      fun b => List.Subset.trans (hkept b) (hsup b), fun k' hk' => ?_, fun htight k' hk' => ?_⟩
    · rw [MinimizationHash.insertAll, ht₁, Option.bind_some, ht']
      rfl
    · rcases hsub b x hx with hx | hx
      · rcases hgrown b x hx with hx | rfl
        · exact .inl hx
        · exact .inr List.mem_cons_self
      · exact .inr (List.mem_cons_of_mem k hx)
    · rcases List.mem_cons.mp hk' with rfl | hk'
      · cases d with
        | true => exact .inr List.mem_cons_self
        | false =>
          refine .inl (hsup _ ?_)
          rw [if_neg (by simp), Function.update_self]
          simp
      · rw [hbucket] at hin
        refine (hin k' hk').imp_right fun hl => ?_
        split
        · exact List.mem_cons_of_mem k hl
        · exact hl
    · -- What is dropped comes behind a full bucket.
      have htight₁ := hi.tight h.toChained htight
      rw [← hmap] at htight₁
      have hrest := hlost htight₁
      rw [hlimit, hbucket] at hrest
      have hcons : ∀ b, seen.count b + ((k :: ks).map t.bucket).count b =
          (t.bucket k :: seen).count b + (ks.map t.bucket).count b := by
        intro b
        rw [List.map_cons, List.count_cons, List.count_cons]
        omega
      rw [hcons]
      have hcase : k' ∈ lost ∨ d = true ∧ k' = k := by
        split at hk'
        · next hd => exact (List.mem_cons.mp hk').symm.imp_right fun he => ⟨hd, he⟩
        · exact .inl hk'
      rcases hcase with hl | ⟨hd, rfl⟩
      · exact hrest k' hl
      · have hfull := (hi.linked_iff (h.count_ne_of_tight htight) (htight.2 _)).1.mp hd
        rw [List.count_cons_self]
        omega

theorem place_of_dropped {t' : MinimizationHash K} (h : t.insert k = some (t', true)) :
    t.place k = some .dropped := by
  obtain ⟨p, hp, h⟩ := Option.bind_eq_some_iff.mp h
  cases p with
  | dropped => exact hp
  | free => cases (Prod.mk.inj (Option.some.inj h)).2
  | head =>
    obtain ⟨u, -, he⟩ := Option.map_eq_some_iff.mp h
    cases (Prod.mk.inj he).2
  | link z =>
    obtain ⟨u, -, he⟩ := Option.map_eq_some_iff.mp h
    cases (Prod.mk.inj he).2

section Add

variable (loadLimit : Nat → Nat)

/-- Re-hashing does not drop the entry: its new bucket is below the limit and there are cells for all
entries that are linked. -/
def RehashKeeps (t : MinimizationHash K) (k : K) : Prop :=
  1 + takenCells t.overflowLimit [] (t.oldKeys.map (t.grown loadLimit).bucket) ≤
      (t.grown loadLimit).overflowEntriesSize ∧
    (t.oldKeys.map (t.grown loadLimit).bucket).count ((t.grown loadLimit).bucket k) ≤
      t.overflowLimit + 2

/-- `Add` does not drop the entry. -/
def AddKeeps (t : MinimizationHash K) (k : K) : Prop :=
  t.place k ≠ some .dropped ∧ ∀ r ∈ t.addFirst k,
    (r.1.outgrown = true → RehashKeeps loadLimit r.1 k) ∧
      ∀ r' ∈ growIf loadLimit r.1.outgrown r.1, r'.1.crowded = true → RehashKeeps loadLimit r'.1 k

variable {loadLimit}

theorem Clean.growAndRehash (h : Clean t bs) (hstep : t.hashSizeStep < hashMaxSizeStep)
    (hroom : t.RehashRoom loadLimit) :
    ∃ t' lost bs', t.growAndRehash loadLimit = some (t', lost) ∧ Clean t' bs' ∧
      (∀ b, ∀ x ∈ bs' b, x ∈ bs (t.bucket x)) ∧
      (∀ b, ∀ x ∈ bs b, x ∈ bs' (t'.bucket x) ∨ x ∈ lost) ∧
      ∀ x, RehashKeeps loadLimit t x → x ∉ lost := by
  have hgrown : Clean (t.grown loadLimit) fun _ => [] := by
    refine ⟨chained_empty hstep h.original rfl rfl rfl (fun _ => isEmpty_empty) isEmpty_empty,
      fun _ => List.nodup_nil, fun i hi hi' => ?_, fun i _ hi hi' => ?_, fun b i _ hi hi' => ?_⟩
    all_goals
      have hi' : i < 1 := hi'
      omega
  have hspacious : Spacious (t.grown loadLimit) (fun _ => []) []
      (t.oldKeys.map (t.grown loadLimit).bucket) := hroom.imp_right fun hle => ⟨hle, by simp⟩
  obtain ⟨t', lost, bs', ht', hframe, h', hsub, -, hin, hlost⟩ :=
    hgrown.insertAll h.oldKeys_nonempty h.nodup_oldKeys (by simp) hspacious
  have hbucket : t'.bucket = (t.grown loadLimit).bucket := by
    obtain ⟨e, o, n, rfl⟩ := hframe
    rfl
  refine ⟨t', lost, bs', ?_, h', fun b x hx => ?_, fun b x hx => ?_, fun x hx hl => ?_⟩
  · rw [MinimizationHash.growAndRehash, if_pos h.count.2, ht']
  · exact h.mem_of_oldKeys ((hsub b x hx).resolve_left (by simp))
  · rw [hbucket]
    exact hin x (h.mem_oldKeys hx)
  · have hcount := hlost ⟨hx.1, by simp⟩ x hl
    rw [List.count_nil, Nat.zero_add] at hcount
    exact absurd hx.2 (not_le.mpr hcount)

theorem Clean.growIf (h : Clean t bs) {p : Bool}
    (hstep : p = true → t.hashSizeStep < hashMaxSizeStep) (hroom : GrowRoom loadLimit p t) :
    ∃ r bs', growIf loadLimit p t = some r ∧ Clean r.1 bs' ∧
      (∀ b, ∀ x ∈ bs' b, x ∈ bs (t.bucket x)) ∧
      (∀ b, ∀ x ∈ bs b, x ∈ bs' (r.1.bucket x) ∨ x ∈ r.2) ∧
      ∀ x, (p = true → RehashKeeps loadLimit t x) → x ∉ r.2 := by
  cases p with
  | true =>
    obtain ⟨t', lost, bs', ht', h', hsub, hin, hlost⟩ := h.growAndRehash (hstep rfl) (hroom rfl)
    exact ⟨(t', lost), bs', ht', h', hsub, hin, fun x hx => hlost x (hx rfl)⟩
  | false =>
    refine ⟨(t, []), bs, rfl, h, fun b x hx => ?_, fun b x hx => .inl ?_, by simp⟩
    all_goals
      rw [(h.keys b x hx).2]
      exact hx

/-- **`Add` of a new entry.** Nothing else comes into the hash, and the entry does unless it is
dropped. -/
theorem Clean.add (h : Clean t bs) (hnew : k ∉ bs (t.bucket k)) (hroom : AddRoom loadLimit t k) :
    ∃ r bs', t.add loadLimit k = some r ∧ Clean r.1 bs' ∧
      (∀ b, ∀ x ∈ bs' b, x ∈ bs (t.bucket x) ∨ x = k) ∧
      (AddKeeps loadLimit t k → k ∈ bs' (r.1.bucket k)) := by
  obtain ⟨hk, hplace, hgrow⟩ := hroom
  obtain ⟨t₁, d, ht₁, hi, hc⟩ := h.insert hk hnew hplace
  have hfirst : t.addFirst k = some ({ t₁ with count := t₁.count + 1 }, d) := by
    rw [addFirst, ht₁]
    rfl
  have hbucket : t₁.bucket = t.bucket := by
    obtain ⟨e, o, n, rfl⟩ := hi.frame
    rfl
  obtain ⟨bs₁, h₁, hsub₁, hin₁⟩ : ∃ bs₁, Clean { t₁ with count := t₁.count + 1 } bs₁ ∧
      (∀ b, ∀ x ∈ bs₁ b, x ∈ bs (t.bucket x) ∨ x = k) ∧ (d = false → k ∈ bs₁ (t.bucket k)) := by
    refine ⟨_, ⟨⟨hc.step, hc.original, hc.size, hc.overflowSize, hc.count, hc.zero, hc.cells, hc.free,
      hc.chain, hc.keys⟩, hc.nodup, hc.placed, hc.distinct, hc.apart⟩, fun b x hx => ?_,
      fun hd => ?_⟩
    · have hb : t.bucket x = b := by
        rw [← hbucket]
        exact (hc.keys b x hx).2
      rw [hb]
      split at hx
      · exact .inl hx
      · rcases eq_or_ne b (t.bucket k) with rfl | hne
        · rw [Function.update_self, List.mem_append, List.mem_singleton] at hx
          exact hx
        · rw [Function.update_of_ne hne] at hx
          exact .inl hx
    · rw [hd, if_neg (by simp), Function.update_self]
      simp
  obtain ⟨hroom₁, hroom₂⟩ := hgrow _ hfirst
  obtain ⟨r₂, bs₂, hr₂, h₂, hsub₂, hin₂, hlost₂⟩ := h₁.growIf (fun hp => by
    rw [outgrown, Bool.and_eq_true] at hp
    exact of_decide_eq_true hp.2) hroom₁
  obtain ⟨r₃, bs₃, hr₃, h₃, hsub₃, hin₃, hlost₃⟩ := h₂.growIf (fun hp => by
    rw [crowded, Bool.and_eq_true] at hp
    exact of_decide_eq_true hp.2) (hroom₂ _ hr₂)
  refine ⟨(r₃.1, d, r₂.2 ++ r₃.2), bs₃, ?_, h₃, fun b x hx => ?_, fun hkeeps => ?_⟩
  · rw [MinimizationHash.add, hfirst, Option.bind_some, hr₂, Option.bind_some, hr₃]
    rfl
  · exact hsub₁ _ x (hsub₂ _ x (hsub₃ b x hx))
  · obtain ⟨hplaced, hgrows⟩ := hkeeps
    obtain ⟨hk₁, hk₂⟩ := hgrows _ hfirst
    have hd : d = false := by
      cases d with
      | false => rfl
      | true => exact absurd (place_of_dropped ht₁) hplaced
    have hm₂ := (hin₂ _ k (hin₁ hd)).resolve_right (hlost₂ k hk₁)
    exact (hin₃ _ k hm₂).resolve_right (hlost₃ k (hk₂ _ hr₂))

end Add

section Moved

variable [DecidableEq K] {q : Query K}

/-! ## What is moved away -/

/-- The key stands at the head of a chain with a link, or at the first link: only there does
`GetAndMove` take an entry out of the chain. -/
def detaches (t : MinimizationHash K) (q : Query K) : Bool :=
  let entry := t.entries (t.bucketOf q.hashcode)
  entry.cookie ≠ 0 && (q.equals entry.key || q.equals (t.overflowEntries entry.cookie).key)

/-- Every entry is in its bucket once. -/
def Distinct (t : MinimizationHash K) : Prop := ∃ bs, Chained t bs ∧ ∀ b, (bs b).Nodup

omit [DecidableEq K] in
theorem Clean.toDistinct (h : Clean t bs) : Distinct t := ⟨bs, h.toChained, h.nodup⟩

/-- **An entry at the head or at the first link is taken out of its bucket.** -/
theorem Chained.detach (h : Chained t bs) (hnd : ∀ b, (bs b).Nodup) (hf : t.get q = some (some k))
    (hd : t.detaches q = true) :
    ∃ t', t.getAndMove q = some (some k, t') ∧ Frame t t' ∧
      Chained t' (Function.update bs (t.bucketOf q.hashcode)
        ((bs (t.bucketOf q.hashcode)).erase k)) := by
  have hread : ∀ c, c < t.overflowCount → t.readOverflow c = some (t.overflowEntries c) :=
    fun c hc => if_pos (hc.trans_le h.count.2)
  rw [h.get, Option.some.injEq] at hf
  rw [detaches] at hd
  rw [MinimizationHash.getAndMove]
  revert hf hd
  generalize t.bucketOf q.hashcode = b
  intro hf hd
  have hkeys := h.keys b
  have hnd := hnd b
  cases hbs : bs b with
  | nil =>
    rw [hbs] at hf
    cases hf
  | cons k₀ ks =>
    obtain ⟨hkey, hlinks⟩ := h.chain _ _ _ hbs
    rw [hbs] at hkeys hf hnd
    simp only [hkey, Bool.and_eq_true, decide_eq_true_eq, Bool.or_eq_true] at hd
    rw [if_neg (by simp [hkey, (hkeys k₀ List.mem_cons_self).1]), hkey]
    cases ks with
    | nil => exact absurd hlinks hd.1
    | cons k₁ ks =>
      obtain ⟨h0, hc, hk₁, -, hrest⟩ := hlinks
      rw [hk₁] at hd
      rw [if_pos h0.ne', if_pos h0.ne', hread _ hc, Option.map_some, Option.bind_some, hk₁]
      by_cases hq : q.equals k₀ = true
      · rw [List.find?_cons, hq] at hf
        obtain rfl := Option.some.inj hf
        rw [if_pos hq, List.erase_cons_head]
        refine ⟨_, rfl, ⟨_, _, _, rfl⟩, h.setEntry b (k₁ :: ks) (by simp) ?_ ?_⟩
        · intro k ks' hks
          obtain ⟨rfl, rfl⟩ := List.cons.inj hks
          exact ⟨hk₁, hrest⟩
        · exact fun k hk => hkeys k (List.mem_cons_of_mem _ hk)
      · have hq₁ := hd.2.resolve_left hq
        rw [List.find?_cons, Bool.eq_false_of_not_eq_true hq] at hf
        simp only [List.find?_cons, hq₁, Option.some.injEq] at hf
        have hne : k₀ ≠ k := by
          rw [← hf]
          exact fun he => (List.nodup_cons.mp hnd).1 (he ▸ List.mem_cons_self)
        rw [if_neg hq, if_pos hq₁, hf, List.erase_cons_tail (by simpa using hne),
          List.erase_cons_head]
        refine ⟨_, rfl, ⟨_, _, _, rfl⟩, h.setEntry b (k₀ :: ks) (by simp) ?_ ?_⟩
        · intro k ks' hks
          obtain ⟨rfl, rfl⟩ := List.cons.inj hks
          exact ⟨rfl, hrest⟩
        · intro k hk
          refine hkeys k (List.mem_cons.mpr ((List.mem_cons.mp hk).imp_right fun hk => ?_))
          exact List.mem_cons_of_mem k₁ hk

omit [DecidableEq K] in
theorem eq_of_getAndMove_none {t' : MinimizationHash K} (h : t.getAndMove q = some (none, t')) :
    t' = t := by
  rw [MinimizationHash.getAndMove] at h
  split at h
  · exact (Prod.mk.inj (Option.some.inj h)).2.symm
  · split at h
    · split at h
      · obtain ⟨c, -, hc⟩ := Option.map_eq_some_iff.mp h
        cases (Prod.mk.inj hc).1
      · cases (Prod.mk.inj (Option.some.inj h)).1
    · split at h
      · obtain ⟨c, -, hc⟩ := Option.bind_eq_some_iff.mp h
        split at hc
        · cases (Prod.mk.inj (Option.some.inj hc)).1
        · obtain ⟨f, -, hf⟩ := Option.map_eq_some_iff.mp hc
          exact (Prod.mk.inj hf).2.symm
      · exact (Prod.mk.inj (Option.some.inj h)).2.symm

omit [DecidableEq K] in
/-- What `Get` does not find is not moved. -/
theorem Chained.getAndMove_none (h : Chained t bs) (hf : t.get q = some none) :
    t.getAndMove q = some (none, t) := by
  obtain ⟨t', bs', ht', -⟩ := h.getAndMove q
  rw [h.get, Option.some.injEq] at hf
  rw [hf] at ht'
  rw [ht', eq_of_getAndMove_none ht']

theorem Chained.holds_of_get (h : Chained t bs) (hf : t.get q = some (some k)) : t.Holds k := by
  rw [h.get, Option.some.injEq] at hf
  have hm := List.mem_of_find?_eq_some hf
  rw [h.holds_iff, (h.keys _ k hm).2]
  exact hm

/-- **The entry leaves the hash, all others stay.** -/
theorem Distinct.detach (h : Distinct t) (hf : t.get q = some (some k)) (hd : t.detaches q = true) :
    ∃ t', t.getAndMove q = some (some k, t') ∧ Distinct t' ∧ ¬ t'.Holds k ∧
      ∀ x, x ≠ k → (t'.Holds x ↔ t.Holds x) := by
  obtain ⟨bs, hc, hnd⟩ := h
  obtain ⟨t', ht', hframe, hc'⟩ := hc.detach hnd hf hd
  have hbucket : t'.bucket = t.bucket := by
    obtain ⟨e, o, n, rfl⟩ := hframe
    rfl
  have hm : k ∈ bs (t.bucketOf q.hashcode) := by
    have hf' := hf
    rw [hc.get, Option.some.injEq] at hf'
    exact List.mem_of_find?_eq_some hf'
  have hk := (hc.keys _ k hm).2
  refine ⟨t', ht', ⟨_, hc', fun b => ?_⟩, ?_, fun x hx => ?_⟩
  · rcases eq_or_ne b (t.bucketOf q.hashcode) with rfl | hne
    · rw [Function.update_self]
      exact (hnd _).erase k
    · rw [Function.update_of_ne hne]
      exact hnd b
  · rw [hc'.holds_iff, hbucket, hk, Function.update_self, (hnd _).mem_erase_iff]
    exact fun h => h.1 rfl
  · rw [hc'.holds_iff, hc.holds_iff, hbucket]
    rcases eq_or_ne (t.bucket x) (t.bucketOf q.hashcode) with he | hne
    · rw [he, Function.update_self, (hnd _).mem_erase_iff]
      exact and_iff_right hx
    · rw [Function.update_of_ne hne]

omit [DecidableEq K] in
theorem clean_empty (hc : Chained t fun _ => []) (hcount : t.overflowCount = 1) :
    Clean t fun _ => [] := by
  refine ⟨hc, fun _ => List.nodup_nil, fun i hi hi' => ?_, fun i _ hi hi' => ?_, fun b i _ hi hi' => ?_⟩
  all_goals omega

theorem not_holds_empty (hc : Chained t fun _ => []) : ¬ t.Holds k := by
  rw [hc.holds_iff]
  simp

end Moved

end MinimizationHash

end Keyvi.Fsa
