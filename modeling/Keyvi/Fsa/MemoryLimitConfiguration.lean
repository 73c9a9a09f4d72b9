import Mathlib
import Keyvi.Fsa.MinimizationHash

/-!
# The memory limit of the generations

`FindMemoryLimitConfigurationForLRUCache` of `minimization_hash.h`: for every number of generations the
largest table that fits so many times is looked up, and the number that uses most memory is taken. The
smallest table is not compared with the limit.
-/

namespace Keyvi.Fsa

namespace MinimizationHash

/-- `MemoryLimitConfiguration`, and the table for so many items. -/
structure MemoryLimitConfiguration where
  bestFitMemoryLimit : Nat
  bestFitGenerations : Nat
  bestFitMaximumNumberOfItemsPerTable : Nat
  table : Nat

section Configuration

variable (loadLimit : Nat → Nat) (sizeofT maxCookieSize memoryLimit : Nat)

/-- The memory of a table with its overflow area. -/
def memoryOf (table : Nat) : Nat := (table + min (table / 4) maxCookieSize) * sizeofT

/-- The memory of so many tables, as it is computed at the end of a round: the overflow area is taken to
be a quarter of the table. -/
def usageOf (generations table : Nat) : Nat := (table + table / 4) * sizeofT * generations % 2 ^ 64

/-- The loop over the steps; 0 if the limit is above all of them. -/
def maximumNumberOfItems (generations : Nat) : Nat :=
  match (List.range' 2 20).find? fun step =>
      memoryLimit < memoryOf sizeofT maxCookieSize (sizeOfStep step) * generations % 2 ^ 64 with
  | some step => sizeOfStep (step - 1)
  | none => 0

/-- A round of the loop over the numbers of generations. -/
def fitRound (best : MemoryLimitConfiguration) (generations : Nat) : MemoryLimitConfiguration :=
  let table := maximumNumberOfItems sizeofT maxCookieSize memoryLimit generations
  let usage := usageOf sizeofT generations table
  if best.bestFitMemoryLimit < usage then ⟨usage, generations, loadLimit table, table⟩ else best

/-- `FindMemoryLimitConfigurationForLRUCache`. -/
def findMemoryLimitConfigurationForLRUCache (min max : Nat) :
    Except String MemoryLimitConfiguration :=
  let minMemoryLimit := usageOf sizeofT min (sizeOfStep 1)
  if memoryLimit < minMemoryLimit then
    .error ("memory limit too low, for the given parameters the limit must be at least " ++
      toString minMemoryLimit ++ " bytes")
  else
    let best := (List.range' min (max + 1 - min)).foldl
      (fitRound loadLimit sizeofT maxCookieSize memoryLimit) ⟨0, 0, 0, 0⟩
    if best.bestFitMaximumNumberOfItemsPerTable = 0 then
      .ok ⟨usageOf sizeofT max (sizeOfStep 21), max, loadLimit (sizeOfStep 21), sizeOfStep 21⟩
    else .ok best

/-- What a configuration promises. -/
structure MemoryLimitConfiguration.Fits (c : MemoryLimitConfiguration) (min max : Nat) : Prop where
  generations : min ≤ c.bestFitGenerations ∧ c.bestFitGenerations ≤ max
  items : 0 < c.bestFitMaximumNumberOfItemsPerTable
  memory : memoryOf sizeofT maxCookieSize c.table * c.bestFitGenerations ≤ memoryLimit

/-- A larger table than the smallest one fits so many times, and the next one does not. -/
def LargestTable (generations step : Nat) : Prop :=
  memoryOf sizeofT maxCookieSize (sizeOfStep step) * generations ≤ memoryLimit ∧
    memoryLimit < memoryOf sizeofT maxCookieSize (sizeOfStep (step + 1)) * generations

/-- The smallest tables fit into the limit for the largest number of generations, or larger tables for
some other number are computed to use at least as much memory as these. -/
def SmallestFits (min max : Nat) : Prop :=
  memoryOf sizeofT maxCookieSize (sizeOfStep 1) * max ≤ memoryLimit ∨
    ∃ generations, min ≤ generations ∧ generations ≤ max ∧ ∃ step, 2 ≤ step ∧ step ≤ 20 ∧
      LargestTable sizeofT maxCookieSize memoryLimit generations step ∧
      (sizeOfStep 1 + sizeOfStep 1 / 4) * max ≤
        (sizeOfStep step + sizeOfStep step / 4) * generations

end Configuration

/-! ## One round -/

theorem sizeOfStep_mono : ∀ t ≤ 22, ∀ s ≤ t, sizeOfStep s ≤ sizeOfStep t := by decide

variable {loadLimit : Nat → Nat} {sizeofT maxCookieSize memoryLimit min max generations : Nat}

theorem memoryOf_mono {s t : Nat} (h : s ≤ t) (ht : t ≤ 22) :
    memoryOf sizeofT maxCookieSize (sizeOfStep s) ≤ memoryOf sizeofT maxCookieSize (sizeOfStep t) := by
  have hle := sizeOfStep_mono t ht s h
  unfold memoryOf
  gcongr

theorem memoryOf_le (sizeofT maxCookieSize table : Nat) :
    memoryOf sizeofT maxCookieSize table ≤ (table + table / 4) * sizeofT := by
  unfold memoryOf
  gcongr
  exact min_le_left _ _

/-- No product is too large for a `size_t`. -/
def NoWrap (sizeofT max : Nat) : Prop := (sizeOfStep 21 + sizeOfStep 21 / 4) * sizeofT * max < 2 ^ 64

theorem NoWrap.usageOf (h : NoWrap sizeofT max) {step : Nat} (hs : step ≤ 21)
    (hg : generations ≤ max) : usageOf sizeofT generations (sizeOfStep step) =
      (sizeOfStep step + sizeOfStep step / 4) * sizeofT * generations := by
  have hle := sizeOfStep_mono 21 (by decide) step hs
  refine Nat.mod_eq_of_lt (lt_of_le_of_lt ?_ h)
  gcongr

theorem NoWrap.forecast (h : NoWrap sizeofT max) {step : Nat} (hs : step ≤ 21)
    (hg : generations ≤ max) :
    memoryOf sizeofT maxCookieSize (sizeOfStep step) * generations % 2 ^ 64 =
      memoryOf sizeofT maxCookieSize (sizeOfStep step) * generations := by
  have hle := memoryOf_le sizeofT maxCookieSize (sizeOfStep step)
  have hmono := sizeOfStep_mono 21 (by decide) step hs
  refine Nat.mod_eq_of_lt (lt_of_le_of_lt ?_ h)
  calc memoryOf sizeofT maxCookieSize (sizeOfStep step) * generations
      ≤ (sizeOfStep step + sizeOfStep step / 4) * sizeofT * max := by gcongr
    _ ≤ (sizeOfStep 21 + sizeOfStep 21 / 4) * sizeofT * max := by gcongr

/-- The table of a round: none is too large, the smallest one, which need not fit, or a larger one that
fits. -/
theorem maximumNumberOfItems_cases (maxCookieSize memoryLimit : Nat) (h : NoWrap sizeofT max) (hg : generations ≤ max) :
    (maximumNumberOfItems sizeofT maxCookieSize memoryLimit generations = 0 ∧
      memoryOf sizeofT maxCookieSize (sizeOfStep 21) * generations ≤ memoryLimit) ∨
    (maximumNumberOfItems sizeofT maxCookieSize memoryLimit generations = sizeOfStep 1 ∧
      memoryLimit < memoryOf sizeofT maxCookieSize (sizeOfStep 2) * generations) ∨
    ∃ step, 2 ≤ step ∧ step ≤ 20 ∧
      maximumNumberOfItems sizeofT maxCookieSize memoryLimit generations = sizeOfStep step ∧
      LargestTable sizeofT maxCookieSize memoryLimit generations step := by
  rw [maximumNumberOfItems]
  cases hfind : (List.range' 2 20).find? fun step =>
      decide (memoryLimit < memoryOf sizeofT maxCookieSize (sizeOfStep step) * generations % 2 ^ 64) with
  | none =>
    have h21 := List.find?_eq_none.mp hfind 21 (by decide)
    rw [h.forecast le_rfl hg, decide_eq_true_eq, not_lt] at h21
    exact .inl ⟨rfl, h21⟩
  | some step =>
    have hlarge := List.find?_some hfind
    have hmem := List.mem_range'_1.mp (List.mem_of_find?_eq_some hfind)
    rw [h.forecast (by omega) hg, decide_eq_true_eq] at hlarge
    refine .inr ?_
    rcases Nat.eq_or_lt_of_le hmem.1 with rfl | hlt
    · exact .inl ⟨rfl, hlarge⟩
    · -- The step before was not too large.
      have hbefore : memoryOf sizeofT maxCookieSize (sizeOfStep (step - 1)) * generations ≤
          memoryLimit := by
        obtain ⟨-, i, hi, hat, hall⟩ := List.find?_eq_some_iff_getElem.mp hfind
        rw [List.length_range'] at hi
        rw [List.getElem_range'] at hat
        have hprev := hall (i - 1) (by omega)
        rw [List.getElem_range', Bool.not_eq_true', decide_eq_false_iff_not, not_lt,
          show 2 + 1 * (i - 1) = step - 1 by omega, h.forecast (by omega) hg] at hprev
        exact hprev
      exact .inr ⟨step - 1, by omega, by omega, rfl, hbefore,
        by rwa [Nat.sub_add_cancel (by omega)]⟩

/-! ## All rounds -/

/-- What is known of the best configuration after some rounds: none has used memory, or it is that of the
first number that uses most. -/
def Best (loadLimit : Nat → Nat) (sizeofT maxCookieSize memoryLimit : Nat) (tried : List Nat)
    (best : MemoryLimitConfiguration) : Prop :=
  let usage g := usageOf sizeofT g (maximumNumberOfItems sizeofT maxCookieSize memoryLimit g)
  (best = ⟨0, 0, 0, 0⟩ ∧ ∀ g ∈ tried, usage g = 0) ∨
    ∃ earlier g later, tried = earlier ++ g :: later ∧ 0 < usage g ∧
      best = ⟨usage g, g, loadLimit (maximumNumberOfItems sizeofT maxCookieSize memoryLimit g),
        maximumNumberOfItems sizeofT maxCookieSize memoryLimit g⟩ ∧
      (∀ g' ∈ earlier, usage g' < usage g) ∧ ∀ g' ∈ later, usage g' ≤ usage g

theorem Best.round {tried : List Nat} {best : MemoryLimitConfiguration}
    (h : Best loadLimit sizeofT maxCookieSize memoryLimit tried best) (g : Nat) :
    Best loadLimit sizeofT maxCookieSize memoryLimit (tried ++ [g])
      (fitRound loadLimit sizeofT maxCookieSize memoryLimit best g) := by
  unfold Best at h ⊢
  rw [fitRound]
  dsimp only at h ⊢
  rcases h with ⟨rfl, hall⟩ | ⟨earlier, g₀, later, rfl, hpos, rfl, hearlier, hlater⟩
  · split
    · next hlt =>
      exact .inr ⟨tried, g, [], rfl, hlt, rfl, fun g' hg' => by rw [hall g' hg']; exact hlt, by simp⟩
    · next hnot =>
      refine .inl ⟨rfl, fun g' hg' => ?_⟩
      rcases List.mem_append.mp hg' with hg' | hg'
      · exact hall g' hg'
      · rw [List.mem_singleton.mp hg']
        exact Nat.eq_zero_of_not_pos hnot
  · split
    · next hlt =>
      refine .inr ⟨earlier ++ g₀ :: later, g, [], rfl, hpos.trans hlt, rfl, fun g' hg' => ?_, by simp⟩
      rcases List.mem_append.mp hg' with hg' | hg'
      · exact (hearlier g' hg').trans hlt
      · rcases List.mem_cons.mp hg' with rfl | hg'
        · exact hlt
        · exact (hlater g' hg').trans_lt hlt
    · next hnot =>
      refine .inr ⟨earlier, g₀, later ++ [g], by simp, hpos, rfl, hearlier, fun g' hg' => ?_⟩
      rcases List.mem_append.mp hg' with hg' | hg'
      · exact hlater g' hg'
      · rw [List.mem_singleton.mp hg']
        exact not_lt.mp hnot

theorem best_foldl (loadLimit : Nat → Nat) (sizeofT maxCookieSize memoryLimit : Nat)
    (tried : List Nat) : Best loadLimit sizeofT maxCookieSize memoryLimit tried
    (tried.foldl (fitRound loadLimit sizeofT maxCookieSize memoryLimit) ⟨0, 0, 0, 0⟩) := by
  induction tried using List.reverseRecOn with
  | nil => exact .inl ⟨rfl, by simp⟩
  | append_singleton tried g ih =>
    rw [List.foldl_append]
    exact ih.round g

/-- The memory that a round computes. -/
abbrev roundUsage (sizeofT maxCookieSize memoryLimit g : Nat) : Nat :=
  usageOf sizeofT g (maximumNumberOfItems sizeofT maxCookieSize memoryLimit g)

/-- The numbers from `min` to `max`, in their order. -/
theorem Best.of_range {best : MemoryLimitConfiguration}
    (h : Best loadLimit sizeofT maxCookieSize memoryLimit (List.range' min (max + 1 - min)) best) :
    (best = ⟨0, 0, 0, 0⟩ ∧
      ∀ g, min ≤ g → g ≤ max → roundUsage sizeofT maxCookieSize memoryLimit g = 0) ∨
    ∃ g, min ≤ g ∧ g ≤ max ∧ 0 < roundUsage sizeofT maxCookieSize memoryLimit g ∧
      best = ⟨roundUsage sizeofT maxCookieSize memoryLimit g, g,
        loadLimit (maximumNumberOfItems sizeofT maxCookieSize memoryLimit g),
        maximumNumberOfItems sizeofT maxCookieSize memoryLimit g⟩ ∧
      ∀ g', min ≤ g' → g' ≤ max →
        roundUsage sizeofT maxCookieSize memoryLimit g' ≤
          roundUsage sizeofT maxCookieSize memoryLimit g ∧
        (g' < g → roundUsage sizeofT maxCookieSize memoryLimit g' <
          roundUsage sizeofT maxCookieSize memoryLimit g) := by
  have hmem : ∀ g, g ∈ List.range' min (max + 1 - min) ↔ min ≤ g ∧ g ≤ max := by
    intro g
    rw [List.mem_range'_1]
    omega
  rcases h with ⟨rfl, hall⟩ | ⟨earlier, g, later, htried, hpos, hbest, hearlier, hlater⟩
  · exact .inl ⟨rfl, fun g hmin hmax => hall g ((hmem g).mpr ⟨hmin, hmax⟩)⟩
  · have hg : g ∈ List.range' min (max + 1 - min) := by
      rw [htried]
      simp
    have hsorted : (List.range' min (max + 1 - min)).Pairwise (· < ·) := List.pairwise_lt_range'
    rw [htried, List.pairwise_append, List.pairwise_cons] at hsorted
    refine .inr ⟨g, ((hmem g).mp hg).1, ((hmem g).mp hg).2, hpos, hbest, fun g' hmin hmax => ?_⟩
    have hg' := (hmem g').mpr ⟨hmin, hmax⟩
    rw [htried] at hg'
    rcases List.mem_append.mp hg' with he | hg'
    · exact ⟨(hearlier g' he).le, fun _ => hearlier g' he⟩
    · rcases List.mem_cons.mp hg' with rfl | hl
      · exact ⟨le_rfl, fun hlt => absurd hlt (lt_irrefl _)⟩
      · exact ⟨hlater g' hl, fun hlt => absurd hlt (hsorted.2.1.1 g' hl).not_gt⟩

theorem table_of_lt (hwrap : NoWrap sizeofT max) (hg : generations ≤ max)
    (h : memoryLimit < memoryOf sizeofT maxCookieSize (sizeOfStep 2) * generations) :
    maximumNumberOfItems sizeofT maxCookieSize memoryLimit generations = sizeOfStep 1 := by
  have hmono : ∀ s, 2 ≤ s → s ≤ 22 →
      memoryLimit < memoryOf sizeofT maxCookieSize (sizeOfStep s) * generations := fun s h2 h22 =>
    h.trans_le (Nat.mul_le_mul_right generations (memoryOf_mono h2 h22))
  rcases maximumNumberOfItems_cases maxCookieSize memoryLimit hwrap hg with
    ⟨-, hfits⟩ | ⟨htable, -⟩ | ⟨step, h2, h20, -, hlargest⟩
  · exact absurd hfits (hmono 21 (by decide) (by decide)).not_ge
  · exact htable
  · exact absurd hlargest.1 (hmono step h2 (by omega)).not_ge

theorem table_of_largest (hwrap : NoWrap sizeofT max) (hg : generations ≤ max) {step : Nat}
    (h2 : 2 ≤ step) (h20 : step ≤ 20)
    (h : LargestTable sizeofT maxCookieSize memoryLimit generations step) :
    maximumNumberOfItems sizeofT maxCookieSize memoryLimit generations = sizeOfStep step := by
  have hmono : ∀ s t, s ≤ t → t ≤ 22 → memoryOf sizeofT maxCookieSize (sizeOfStep s) * generations ≤
      memoryOf sizeofT maxCookieSize (sizeOfStep t) * generations := fun s t hst ht =>
    Nat.mul_le_mul_right generations (memoryOf_mono hst ht)
  rcases maximumNumberOfItems_cases maxCookieSize memoryLimit hwrap hg with
    ⟨-, hfits⟩ | ⟨-, hnext⟩ | ⟨step', h2', h20', htable, hlargest⟩
  · exact absurd (h.2.trans_le (hmono (step + 1) 21 (by omega) (by decide))) hfits.not_gt
  · exact absurd ((hmono 2 step h2 (by omega)).trans h.1) hnext.not_ge
  · rcases Nat.lt_trichotomy step step' with hlt | rfl | hgt
    · exact absurd (h.2.trans_le (hmono (step + 1) step' hlt (by omega))) hlargest.1.not_gt
    · exact htable
    · exact absurd (hlargest.2.trans_le (hmono (step' + 1) step hgt (by omega))) h.1.not_gt

/-- Every table can be used if the largest one fits. -/
theorem smallestFits_of_largest {min : Nat}
    (h : memoryOf sizeofT maxCookieSize (sizeOfStep 21) * max ≤ memoryLimit) :
    SmallestFits sizeofT maxCookieSize memoryLimit min max := by
  have hmono : memoryOf sizeofT maxCookieSize (sizeOfStep 1) ≤
      memoryOf sizeofT maxCookieSize (sizeOfStep 21) := memoryOf_mono (by decide) (by decide)
  exact .inl ((Nat.mul_le_mul_right max hmono).trans h)

/-- Without memory in any round the largest table fits. -/
theorem largest_of_zero (hwrap : NoWrap sizeofT max)
    (h : roundUsage sizeofT maxCookieSize memoryLimit max = 0) :
    memoryOf sizeofT maxCookieSize (sizeOfStep 21) * max ≤ memoryLimit := by
  have hsteps : ∀ s ≤ 20, 1 ≤ s → 0 < sizeOfStep s + sizeOfStep s / 4 := by decide
  have hnothing : ∀ s ≤ 20, 1 ≤ s →
      maximumNumberOfItems sizeofT maxCookieSize memoryLimit max = sizeOfStep s →
      memoryOf sizeofT maxCookieSize (sizeOfStep 21) * max ≤ memoryLimit := by
    intro s hs h1 htable
    rw [roundUsage, htable, hwrap.usageOf (by omega) le_rfl, Nat.mul_assoc, Nat.mul_eq_zero] at h
    have hzero : sizeofT * max = 0 := h.resolve_left (hsteps s hs h1).ne'
    rw [memoryOf, Nat.mul_assoc, hzero, Nat.mul_zero]
    exact Nat.zero_le _
  rcases maximumNumberOfItems_cases maxCookieSize memoryLimit hwrap le_rfl with ⟨-, hfits⟩ | ⟨htable, -⟩ | ⟨step, h2, h20, htable, -⟩
  · exact hfits
  · exact hnothing 1 (by decide) le_rfl htable
  · exact hnothing step h20 (by omega) htable

/-- **A configuration keeps its promises if and only if the smallest tables fit**, or are not taken. -/
theorem configuration_iff {c : MemoryLimitConfiguration} (hle : min ≤ max)
    (hload : ∀ n, 2 ≤ n → 0 < loadLimit n) (hwrap : NoWrap sizeofT max)
    (hc : findMemoryLimitConfigurationForLRUCache loadLimit sizeofT maxCookieSize memoryLimit min max =
      .ok c) :
    c.Fits sizeofT maxCookieSize memoryLimit min max ↔
      SmallestFits sizeofT maxCookieSize memoryLimit min max := by
  have hsteps : ∀ s ≤ 22, 2 ≤ sizeOfStep s := by decide
  rw [findMemoryLimitConfigurationForLRUCache] at hc
  dsimp only at hc
  split at hc
  · cases hc
  rcases (best_foldl loadLimit sizeofT maxCookieSize memoryLimit
    (List.range' min (max + 1 - min))).of_range with
    ⟨hbest, hzero⟩ | ⟨g, hmin, hmax, hpos, hbest, hfirst⟩
  · rw [hbest, if_pos rfl] at hc
    cases hc
    have hlargest := largest_of_zero hwrap (hzero max hle le_rfl)
    exact iff_of_true ⟨⟨hle, le_rfl⟩, hload _ (hsteps 21 (by decide)), hlargest⟩
      (smallestFits_of_largest hlargest)
  · rw [hbest] at hc
    -- The table of the round that is taken is not 0, as it uses memory.
    rcases maximumNumberOfItems_cases maxCookieSize memoryLimit hwrap hmax with ⟨hnone, -⟩ | ⟨htable, hnext⟩ | ⟨step, h2, h20, htable, hlargest⟩
    · rw [roundUsage, hnone, usageOf, Nat.zero_div, Nat.add_zero, Nat.zero_mul, Nat.zero_mul,
        Nat.zero_mod] at hpos
      exact absurd hpos (lt_irrefl 0)
    · rw [htable, if_neg (hload _ (hsteps 1 (by decide))).ne'] at hc
      cases hc
      have husage : roundUsage sizeofT maxCookieSize memoryLimit g =
          (sizeOfStep 1 + sizeOfStep 1 / 4) * sizeofT * g := by
        rw [roundUsage, htable, hwrap.usageOf (by decide) hmax]
      refine ⟨fun hfits => .inl ?_, fun hfits =>
        ⟨⟨hmin, hmax⟩, hload _ (hsteps 1 (by decide)), ?_⟩⟩
      · -- More of the smallest tables would have used more memory.
        have hnextMax : memoryLimit < memoryOf sizeofT maxCookieSize (sizeOfStep 2) * max :=
          hnext.trans_le (Nat.mul_le_mul_left _ hmax)
        have hlast := (hfirst max hle le_rfl).1
        rw [husage, roundUsage, table_of_lt hwrap le_rfl hnextMax,
          hwrap.usageOf (by decide) le_rfl] at hlast
        rw [husage] at hpos
        have hmaxg := Nat.le_of_mul_le_mul_left hlast (Nat.pos_of_mul_pos_right hpos)
        obtain rfl : g = max := le_antisymm hmax hmaxg
        exact hfits.memory
      · rcases hfits with hfits | ⟨j, hjmin, hjmax, step, h2, h20, hlargest, hmore⟩
        · exact (Nat.mul_le_mul_left _ hmax).trans hfits
        · obtain ⟨hj, hjlt⟩ := hfirst j hjmin hjmax
          rw [husage, roundUsage, table_of_largest hwrap hjmax h2 h20 hlargest,
            hwrap.usageOf (by omega) hjmax] at hj hjlt
          have hge : (sizeOfStep 1 + sizeOfStep 1 / 4) * sizeofT * g ≤
              (sizeOfStep step + sizeOfStep step / 4) * sizeofT * j := by
            calc (sizeOfStep 1 + sizeOfStep 1 / 4) * sizeofT * g
                ≤ (sizeOfStep 1 + sizeOfStep 1 / 4) * sizeofT * max := Nat.mul_le_mul_left _ hmax
              _ = (sizeOfStep 1 + sizeOfStep 1 / 4) * max * sizeofT := by ring
              _ ≤ (sizeOfStep step + sizeOfStep step / 4) * j * sizeofT :=
                Nat.mul_le_mul_right _ hmore
              _ = (sizeOfStep step + sizeOfStep step / 4) * sizeofT * j := by ring
          have hgj : g ≤ j := by
            by_contra hlt
            exact absurd (hjlt (not_le.mp hlt)) hge.not_gt
          have hsecond : memoryOf sizeofT maxCookieSize (sizeOfStep 2) * j ≤ memoryLimit :=
            (Nat.mul_le_mul_right j (memoryOf_mono h2 (by omega))).trans hlargest.1
          exact absurd ((Nat.mul_le_mul_left _ hgj).trans hsecond) hnext.not_ge
    · rw [htable, if_neg (hload _ (hsteps step (by omega))).ne'] at hc
      cases hc
      refine iff_of_true ⟨⟨hmin, hmax⟩, hload _ (hsteps step (by omega)), hlargest.1⟩ ?_
      by_cases hfits : memoryOf sizeofT maxCookieSize (sizeOfStep 1) * max ≤ memoryLimit
      · exact .inl hfits
      · have hnextMax : memoryLimit < memoryOf sizeofT maxCookieSize (sizeOfStep 2) * max :=
          (not_le.mp hfits).trans_le (Nat.mul_le_mul_right max (memoryOf_mono (by decide) (by decide)))
        have hlast := (hfirst max hle le_rfl).1
        rw [roundUsage, roundUsage, table_of_lt hwrap le_rfl hnextMax, htable,
          hwrap.usageOf (by decide) le_rfl, hwrap.usageOf (by omega) hmax] at hlast
        rw [roundUsage, htable, hwrap.usageOf (by omega) hmax] at hpos
        have hsize : 0 < sizeofT := Nat.pos_of_mul_pos_left (Nat.pos_of_mul_pos_right hpos)
        refine .inr ⟨g, hmin, hmax, step, h2, h20, hlargest, Nat.le_of_mul_le_mul_right ?_ hsize⟩
        calc (sizeOfStep 1 + sizeOfStep 1 / 4) * max * sizeofT
            = (sizeOfStep 1 + sizeOfStep 1 / 4) * sizeofT * max := by ring
          _ ≤ (sizeOfStep step + sizeOfStep step / 4) * sizeofT * g := hlast
          _ = (sizeOfStep step + sizeOfStep step / 4) * g * sizeofT := by ring

/-- Three to six generations of entries of 12 bytes in a megabyte. -/
theorem configuration_iff_megabyte :
    (findMemoryLimitConfigurationForLRUCache sixTenths 12 0x7FFFFE 1000000 3 6).toOption.isSome =
      true ∧
    ∀ c, findMemoryLimitConfigurationForLRUCache sixTenths 12 0x7FFFFE 1000000 3 6 = .ok c →
      (c.Fits 12 0x7FFFFE 1000000 3 6 ↔ SmallestFits 12 0x7FFFFE 1000000 3 6) :=
  ⟨by decide +kernel, fun _ hc => configuration_iff (by decide)
    (fun n hn => by rw [sixTenths]; omega) (by rw [NoWrap]; decide) hc⟩

/-- With the least limit that is accepted, six generations are taken where only three fit. -/
theorem not_configuration : ¬ ∀ memoryLimit c,
    findMemoryLimitConfigurationForLRUCache sixTenths 12 0x7FFFFE memoryLimit 3 6 = .ok c →
      c.Fits 12 0x7FFFFE memoryLimit 3 6 := by
  intro h
  have hc : (findMemoryLimitConfigurationForLRUCache sixTenths 12 0x7FFFFE 91296 3 6).toOption.map
      (fun c => (c.table, c.bestFitGenerations)) = some (2029, 6) := by
    decide +kernel
  cases hfind : findMemoryLimitConfigurationForLRUCache sixTenths 12 0x7FFFFE 91296 3 6 with
  | error e =>
    rw [hfind] at hc
    cases hc
  | ok c =>
    rw [hfind] at hc
    obtain ⟨htable, hgenerations⟩ := Prod.mk.inj (Option.some.inj hc)
    have hmemory := (h 91296 c hfind).memory
    rw [htable, hgenerations] at hmemory
    exact absurd hmemory (by decide)

end MinimizationHash

end Keyvi.Fsa
