import Mathlib
import Keyvi.Fsa.BitVector

/-!
# Searching with bit vectors

The shifts of `DisjointAndShiftThis` and `DisjointAndShiftOther` skip no place where a vector fits.
`GetNextNonSetBit` stops inside the array unless it runs over whole words that are set up to its end.
-/

namespace Keyvi.Fsa

namespace BitVector

variable {size other : Nat}

/-! ## Shifts -/

/-- The vector `o` fits at a place of `v`. -/
def FitsAt (v : BitVector size) (o : BitVector other) (place : Nat) : Prop :=
  ∀ j < words other * 64, place + j < words size * 64 → ¬(v.bit (place + j) = true ∧ o.bit j = true)

/-- The rest of `v`, from a bit on, fits at a place of `o`. -/
def RestFitsAt (v : BitVector size) (o : BitVector other) (startBit place : Nat) : Prop :=
  ∀ j < words other * 64, startBit + j < words size * 64 → place + j < words other * 64 →
    ¬(v.bit (startBit + j) = true ∧ o.bit (place + j) = true)

/-- The loop goes on while there are common bits. -/
theorem shiftsLoop_spec (b a : BitVec 64) (shifts : Nat) :
    ∀ k, shifts + k < shiftsLoop b a shifts → a >>> k &&& b ≠ 0 := by
  fun_induction shiftsLoop b a shifts with
  | case1 a shifts h ih =>
    intro k hk
    cases k with
    | zero => simpa using h
    | succ k =>
      have hnext := ih k (by omega)
      rwa [← BitVec.shiftRight_add, Nat.add_comm 1 k] at hnext
  | case2 a shifts h => exact fun k hk => by omega

theorem getMinimumNumberOfShifts_spec (b a : BitVec 64) {k : Nat} (h0 : 0 < k)
    (hk : k < getMinimumNumberOfShifts b a) : a >>> k &&& b ≠ 0 := by
  have h := shiftsLoop_spec b (a >>> 1) 1 (k - 1) (by rw [getMinimumNumberOfShifts] at hk; omega)
  rwa [← BitVec.shiftRight_add, Nat.add_sub_cancel' h0] at h

/-- The shift is that of the first words with a common bit. -/
theorem disjointLoop_of_ne_zero {a b : Nat → BitVec 64} {shifts : BitVec 64 → BitVec 64 → Nat} :
    ∀ n i, disjointLoop a b shifts n i ≠ 0 →
      ∃ k, i ≤ k ∧ k < i + n ∧ disjointLoop a b shifts n i = shifts (a k) (b k)
  | 0, i, h => absurd rfl h
  | n + 1, i, h => by
    have hrest : disjointLoop a b shifts n (i + 1) ≠ 0 →
        ∃ k, i ≤ k ∧ k < i + (n + 1) ∧ disjointLoop a b shifts n (i + 1) = shifts (a k) (b k) := by
      intro hne
      obtain ⟨k, hle, hlt, hk⟩ := disjointLoop_of_ne_zero n (i + 1) hne
      exact ⟨k, by omega, by omega, hk⟩
    rw [disjointLoop] at h ⊢
    split
    · next hb =>
      rw [if_pos hb] at h
      split
      · exact ⟨i, le_rfl, by omega, rfl⟩
      · next hab =>
        rw [if_neg hab] at h
        exact hrest h
    · next hb =>
      rw [if_neg hb] at h
      exact hrest h

/-- A common bit of two words, one of them shifted. -/
theorem exists_common {a b : BitVec 64} {k : Nat} (h : a >>> k &&& b ≠ 0) :
    ∃ j < 64, k + j < 64 ∧ a.getLsbD (k + j) = true ∧ b.getLsbD j = true := by
  by_contra hnone
  refine h (and_eq_zero_iff.mpr fun j hj hab => ?_)
  rw [BitVec.getLsbD_ushiftRight] at hab
  refine hnone ⟨j, hj, ?_, hab.1, hab.2⟩
  by_contra hge
  rw [BitVec.getLsbD_of_ge _ _ (not_lt.mp hge)] at hab
  cases hab.1

/-- A bit of a word that is read at a place of the array. -/
theorem bit_of_underlying (v : BitVector size) {startBit k j : Nat}
    (hk : k < words size - startBit / 64) (hj : j < 64)
    (h : (v.getUnderlyingIntegerAtPosition (startBit / 64 + k) (startBit % 64)).getLsbD j = true) :
    startBit + (k * 64 + j) < words size * 64 ∧ v.bit (startBit + (k * 64 + j)) = true := by
  have hmod : startBit % 64 < 64 := Nat.mod_lt _ (by decide)
  rwa [getLsbD_underlying v hmod (by omega) hj, Bool.and_eq_true, decide_eq_true_eq,
    show (startBit / 64 + k) * 64 + startBit % 64 + j = startBit + (k * 64 + j) by omega] at h

theorem bit_of_word (o : BitVector other) {k j : Nat} (hj : j < 64)
    (h : (o.bits k).getLsbD j = true) : o.bit (k * 64 + j) = true := by
  rwa [bit, show (k * 64 + j) / 64 = k by omega, show (k * 64 + j) % 64 = j by omega]

theorem not_fitsAt_of_lt (v : BitVector size) (o : BitVector other) {startBit s : Nat} (h0 : 0 < s)
    (hs : s < v.disjointAndShiftThis o startBit) : ¬v.FitsAt o (startBit + s) := by
  rw [disjointAndShiftThis] at hs
  obtain ⟨k, -, hk, hshift⟩ := disjointLoop_of_ne_zero _ _ (h0.trans hs).ne'
  rw [hshift] at hs
  obtain ⟨j, hj, hsj, ha, hb⟩ := exists_common (getMinimumNumberOfShifts_spec _ _ h0 hs)
  obtain ⟨hin, hv⟩ := bit_of_underlying v (by omega) hsj ha
  have hplace : startBit + s + (k * 64 + j) = startBit + (k * 64 + (s + j)) := by omega
  intro hfits
  exact hfits (k * 64 + j) (by omega) (hplace ▸ hin) ⟨hplace ▸ hv, bit_of_word o hj hb⟩

theorem not_restFitsAt_of_lt (v : BitVector size) (o : BitVector other) {startBit s : Nat}
    (h0 : 0 < s) (hs : s < v.disjointAndShiftOther o startBit) : ¬v.RestFitsAt o startBit s := by
  rw [disjointAndShiftOther] at hs
  obtain ⟨k, -, hk, hshift⟩ := disjointLoop_of_ne_zero _ _ (h0.trans hs).ne'
  rw [hshift] at hs
  obtain ⟨j, hj, hsj, ha, hb⟩ := exists_common (getMinimumNumberOfShifts_spec _ _ h0 hs)
  obtain ⟨hin, hv⟩ := bit_of_underlying v (by omega) hj hb
  have ho := bit_of_word o hsj ha
  have hplace : s + (k * 64 + j) = k * 64 + (s + j) := by omega
  intro hfits
  exact hfits (k * 64 + j) (by omega) hin (by omega) ⟨hv, hplace ▸ ho⟩

/-- **A search that advances by the shifts skips no place.** -/
theorem shifts_skip_none (v : BitVector size) (o : BitVector other) {startBit : Nat}
    (hstart : startBit < words size * 64) :
    (v.disjointAndShiftThis o startBit = 0 ↔ v.FitsAt o startBit) ∧
      (∀ s, 0 < s → s < v.disjointAndShiftThis o startBit → ¬v.FitsAt o (startBit + s)) ∧
      (v.disjointAndShiftOther o startBit = 0 ↔ v.RestFitsAt o startBit 0) ∧
      (∀ s, 0 < s → s < v.disjointAndShiftOther o startBit → ¬v.RestFitsAt o startBit s) := by
  refine ⟨disjointAndShiftThis_eq_zero_iff v o hstart, fun s h0 hs => not_fitsAt_of_lt v o h0 hs, ?_,
    fun s h0 hs => not_restFitsAt_of_lt v o h0 hs⟩
  rw [disjointAndShiftOther_eq_zero_iff v o hstart]
  refine forall₂_congr fun j hj => ?_
  rw [Nat.zero_add]
  exact ⟨fun h hin _ => h hin, fun h hin => h hin hj⟩

/-- The taken positions 0 to 2, and a vector with the positions 0 and 1. -/
theorem shifts_skip_none_three :
    (((new 2048).set 0).set 1 |>.set 2).disjointAndShiftThis (((new 261).set 0).set 1) 1 = 2 ∧
    ∀ s, 0 < s → s < (((new 2048).set 0).set 1 |>.set 2).disjointAndShiftThis
        (((new 261).set 0).set 1) 1 →
      ¬(((new 2048).set 0).set 1 |>.set 2).FitsAt (((new 261).set 0).set 1) (1 + s) :=
  ⟨by decide +kernel, (shifts_skip_none _ _ (show 1 < words 2048 * 64 by decide)).2.1⟩

/-! ## The words that are read -/

/-- The words that `GetUnderlyingIntegerAtPosition` reads. -/
def underlyingReads (size bytePosition bitPosition : Nat) : List Nat :=
  if bitPosition = 0 then [bytePosition]
  else if bytePosition + 1 < words size then [bytePosition, bytePosition + 1]
  else [bytePosition]

/-- The words that the loop of `GetNextNonSetBit` reads. -/
def nextNonSetBitReads (v : BitVector size) (bitPosition : Nat) : Nat → Nat → List Nat
  | 0, _ => []
  | fuel + 1, bytePosition =>
    underlyingReads size bytePosition bitPosition ++
      if v.getUnderlyingIntegerAtPosition bytePosition bitPosition = BitVec.allOnes 64 then
        v.nextNonSetBitReads bitPosition fuel (bytePosition + 1)
      else []

/-- The words that `GetNextNonSetBit` reads, up to the first one behind the array. -/
def getNextNonSetBitReads (v : BitVector size) (startBit : Nat) : List Nat :=
  v.nextNonSetBitReads (startBit % 64) (words size + 1) (startBit / 64)

/-- The least position from a start on that is not set, if there is one below the size. -/
def FindsFree (v : BitVector size) (startBit : Nat) : Prop :=
  ∃ q, v.getNextNonSetBit startBit = some q ∧ startBit ≤ q ∧
    (∀ i, startBit ≤ i → i < q → i < size → v.bit i = true) ∧ (q < size → v.bit q = false)

/-- All bits of the array from a start on. -/
def SetToEnd (v : BitVector size) (startBit : Nat) : Prop :=
  ∀ i, startBit ≤ i → i < words size * 64 → v.bit i = true

theorem size_le_words (size : Nat) : size ≤ words size * 64 := by
  rw [words]
  omega

theorem mem_underlyingReads {bytePosition bitPosition i : Nat} (h : bytePosition < words size)
    (hi : i ∈ underlyingReads size bytePosition bitPosition) : i < words size := by
  rw [underlyingReads] at hi
  split at hi
  · simp only [List.mem_singleton] at hi
    omega
  · split at hi
    · simp only [List.mem_cons, List.not_mem_nil, or_false] at hi
      omega
    · simp only [List.mem_singleton] at hi
      omega

/-- The loop stops inside the array if it starts inside of a word or meets a bit that is not set. -/
theorem nextNonSetBitLoop_inside (v : BitVector size) {bitPosition : Nat} (hbit : bitPosition < 64) :
    ∀ (fuel bytePosition : Nat), bytePosition < words size → words size ≤ bytePosition + fuel →
    (bitPosition = 0 → ∃ i, bytePosition * 64 ≤ i ∧ i < words size * 64 ∧ v.bit i = false) →
    (∃ q, v.nextNonSetBitLoop bitPosition fuel bytePosition (bytePosition * 64 + bitPosition) = some q ∧
      bytePosition * 64 + bitPosition ≤ q ∧
      (∀ i, bytePosition * 64 + bitPosition ≤ i → i < q → i < words size * 64 → v.bit i = true) ∧
      (q < words size * 64 → v.bit q = false)) ∧
    ∀ i ∈ v.nextNonSetBitReads bitPosition fuel bytePosition, i < words size
  | 0, bytePosition, hlt, hfuel, _ => by omega
  | fuel + 1, bytePosition, hlt, hfuel, hclear => by
    rw [nextNonSetBitLoop, nextNonSetBitReads]
    generalize hword : v.getUnderlyingIntegerAtPosition bytePosition bitPosition = a
    have hbits : ∀ j < 64, a.getLsbD j =
        (decide (bytePosition * 64 + bitPosition + j < words size * 64) &&
          v.bit (bytePosition * 64 + bitPosition + j)) := fun j hj => by
      rw [← hword, getLsbD_underlying v hbit hlt hj]
    by_cases hall : a = BitVec.allOnes 64
    · have hset : ∀ j < 64, bytePosition * 64 + bitPosition + j < words size * 64 ∧
          v.bit (bytePosition * 64 + bitPosition + j) = true := fun j hj => by
        have h1 := hbits j hj
        rw [eq_allOnes_iff.mp hall j hj, eq_comm, Bool.and_eq_true, decide_eq_true_eq] at h1
        exact h1
      have hnext : bitPosition = 0 →
          ∃ i, (bytePosition + 1) * 64 ≤ i ∧ i < words size * 64 ∧ v.bit i = false := by
        intro h0
        obtain ⟨i, hi, hin, hfalse⟩ := hclear h0
        refine ⟨i, ?_, hin, hfalse⟩
        by_contra hge
        have := (hset (i - bytePosition * 64) (by omega)).2
        rw [show bytePosition * 64 + bitPosition + (i - bytePosition * 64) = i by omega, hfalse] at this
        cases this
      have hlt' : bytePosition + 1 < words size := by
        have h63 := (hset 63 (by decide)).1
        rcases Nat.eq_zero_or_pos bitPosition with h0 | h0
        · obtain ⟨i, hi, hin, -⟩ := hnext h0
          omega
        · omega
      obtain ⟨⟨q, hq, hge, hbefore, hfree⟩, hreads⟩ := nextNonSetBitLoop_inside v hbit fuel
        (bytePosition + 1) hlt' (by omega) hnext
      rw [if_pos hall, if_pos hall, show bytePosition * 64 + bitPosition + 64 =
        (bytePosition + 1) * 64 + bitPosition by omega]
      refine ⟨⟨q, hq, by omega, fun i hi hiq hin => ?_, hfree⟩, fun i hi => ?_⟩
      · by_cases hfirst : i < (bytePosition + 1) * 64 + bitPosition
        · have := (hset (i - (bytePosition * 64 + bitPosition)) (by omega)).2
          rwa [Nat.add_sub_cancel' hi] at this
        · exact hbefore i (by omega) hiq hin
      · rcases List.mem_append.mp hi with hi | hi
        · exact mem_underlyingReads hlt hi
        · exact hreads i hi
    · obtain ⟨hpos, hfree, hbefore⟩ := position_not_spec hall
      rw [if_neg hall, if_neg hall, List.append_nil]
      refine ⟨⟨_, rfl, by omega, fun i hi hiq hin => ?_, fun hin => ?_⟩,
        fun i hi => mem_underlyingReads hlt hi⟩
      · have h1 := hbits (i - (bytePosition * 64 + bitPosition)) (by omega)
        rw [hbefore _ (by omega), eq_comm, Bool.and_eq_true, Nat.add_sub_cancel' hi] at h1
        exact h1.2
      · have h1 := hbits _ hpos
        rw [hfree, Nat.add_comm _ (position _), decide_eq_true hin, Bool.true_and] at h1
        exact h1.symm

/-- The loop over whole words that are set reads the word behind the array. -/
theorem words_mem_nextNonSetBitReads (v : BitVector size) : ∀ (fuel bytePosition : Nat),
    bytePosition ≤ words size → words size + 1 ≤ bytePosition + fuel →
    v.SetToEnd (bytePosition * 64) → words size ∈ v.nextNonSetBitReads 0 fuel bytePosition
  | 0, bytePosition, hle, hfuel, _ => by omega
  | fuel + 1, bytePosition, hle, hfuel, hset => by
    rw [nextNonSetBitReads, List.mem_append]
    rcases Nat.eq_or_lt_of_le hle with rfl | hlt
    · exact .inl (by simp [underlyingReads])
    · have hall : v.getUnderlyingIntegerAtPosition bytePosition 0 = BitVec.allOnes 64 := by
        refine eq_allOnes_iff.mpr fun j hj => ?_
        rw [getLsbD_underlying v (by decide) hlt hj, decide_eq_true (by omega), Bool.true_and]
        exact hset _ (by omega) (by omega)
      rw [if_pos hall]
      exact .inr (words_mem_nextNonSetBitReads v fuel (bytePosition + 1) hlt (by omega)
        fun i hi hin => hset i (by omega) hin)

/-- The search stops in the array. -/
def StopsFrom (v : BitVector size) (startBit : Nat) : Prop :=
  ¬(startBit % 64 = 0 ∧ v.SetToEnd startBit)

theorem StopsFrom.exists_clear {v : BitVector size} {startBit : Nat} (h : v.StopsFrom startBit)
    (h0 : startBit % 64 = 0) :
    ∃ i, startBit / 64 * 64 ≤ i ∧ i < words size * 64 ∧ v.bit i = false := by
  by_contra hnone
  refine h ⟨h0, fun i hi hin => ?_⟩
  by_contra hbit
  exact hnone ⟨i, by omega, hin, by simpa using hbit⟩

/-- A search that stops in the array finds the least bit that is not set, if there is one. -/
theorem getNextNonSetBit_spec (v : BitVector size) {startBit : Nat}
    (hstart : startBit < words size * 64) (hstops : v.StopsFrom startBit) :
    ∃ q, v.getNextNonSetBit startBit = some q ∧ startBit ≤ q ∧
      (∀ i, startBit ≤ i → i < q → i < words size * 64 → v.bit i = true) ∧
      (q < words size * 64 → v.bit q = false) := by
  have h := (nextNonSetBitLoop_inside v (Nat.mod_lt startBit (show 0 < 64 by decide))
    (words size - startBit / 64) (startBit / 64) (by omega) (by omega) hstops.exists_clear).1
  rwa [Nat.div_add_mod'] at h

/-- **`GetNextNonSetBit`** finds the least free position and stays inside the array, except for a start
at a word from which on all bits of the array are set. -/
theorem getNextNonSetBit_iff (v : BitVector size) {startBit : Nat} (h : startBit < size) :
    (v.FindsFree startBit ∧ ∀ i ∈ v.getNextNonSetBitReads startBit, i < words size) ↔
      ¬(startBit % 64 = 0 ∧ v.SetToEnd startBit) := by
  have hsize := size_le_words size
  have hmod : startBit % 64 < 64 := Nat.mod_lt _ (by decide)
  constructor
  · rintro ⟨-, hreads⟩ ⟨h0, hset⟩
    have hbehind := words_mem_nextNonSetBitReads v (words size + 1) (startBit / 64) (by omega)
      (by omega) (by rwa [show startBit / 64 * 64 = startBit by omega])
    rw [getNextNonSetBitReads, h0] at hreads
    exact absurd (hreads _ hbehind) (lt_irrefl _)
  · intro hnot
    obtain ⟨q, hq, hle, hbefore, hfree⟩ := getNextNonSetBit_spec v (by omega) hnot
    have hreads := (nextNonSetBitLoop_inside v hmod (words size + 1) (startBit / 64) (by omega)
      (by omega) (StopsFrom.exists_clear hnot)).2
    exact ⟨⟨q, hq, hle, fun i hi hiq hin => hbefore i hi hiq (by omega),
      fun hin => hfree (by omega)⟩, hreads⟩

/-- A start inside of a word, with a bit that is set. -/
theorem getNextNonSetBit_iff_three :
    3 < 2048 ∧ (((new 2048).set 3).FindsFree 3 ∧
      ∀ i ∈ ((new 2048).set 3).getNextNonSetBitReads 3, i < words 2048) :=
  ⟨by decide, ((getNextNonSetBit_iff ((new 2048).set 3) (show 3 < 2048 by decide)).mpr
    fun h => absurd h.1 (by decide))⟩

/-- All positions of a state. -/
def allRequested : BitVector 261 := (List.range 261).foldl (fun v i => v.set i) (new 261)

/-- A vector of a state that reaches into the spare word fills it. -/
theorem not_getNextNonSetBit : ¬ ∀ startBit < 2048,
    ((new 2048).setVector allRequested 1856).FindsFree startBit ∧
      ∀ i ∈ ((new 2048).setVector allRequested 1856).getNextNonSetBitReads startBit,
        i < words 2048 := by
  intro h
  have hreads : words 2048 ∈ ((new 2048).setVector allRequested 1856).getNextNonSetBitReads 1856 := by
    decide +kernel
  exact absurd ((h 1856 (by decide)).2 _ hreads) (lt_irrefl _)

end BitVector

end Keyvi.Fsa
