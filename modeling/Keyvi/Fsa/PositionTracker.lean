import Mathlib
import Keyvi.Library.Run
import Keyvi.Fsa.BitVectorSearch

/-!
# The position tracker

`sliding_window_bit_vector_position_tracker.h`: the taken positions of the current window of 2048
positions and of the one before it. The vectors that are put in and compared are those of the states, with
fewer than `MAX_TRANSITIONS_OF_A_STATE` = 261 positions.
-/

namespace Keyvi.Fsa

/-- `BitVector<MAX_TRANSITIONS_OF_A_STATE>` with bits up to its size. -/
structure RequestedPositions where
  vector : BitVector 261
  bounded : vector.Bounded

/-- A requested position. -/
def RequestedPositions.Has (r : RequestedPositions) (j : Nat) : Prop :=
  j < 261 ∧ r.vector.bit j = true

/-- `SlidingWindowBitArrayPositionTracker`. -/
structure PositionTracker where
  windowStartPosition : Nat
  currentVector : BitVector 2048
  previousVector : BitVector 2048

namespace PositionTracker

/-- The constructor. -/
def new : PositionTracker := ⟨0, .new 2048, .new 2048⟩

/-- `IsSet`. -/
def isSet (t : PositionTracker) (position : Nat) : Bool :=
  let blockerWindow := position / 2048
  let blockerOffset := position % 2048
  if blockerWindow = t.windowStartPosition then t.currentVector.get blockerOffset
  else if blockerWindow > t.windowStartPosition then false
  else t.previousVector.get blockerOffset

/-- `NextFreeSlot`; none if a search reads behind the array of a vector. -/
def nextFreeSlot (t : PositionTracker) (position : Nat) : Option Nat := do
  let blockerWindow := position / 2048
  let blockerOffset := position % 2048
  if blockerWindow > t.windowStartPosition then some position
  else if blockerWindow < t.windowStartPosition then
    let offset ← t.previousVector.getNextNonSetBit blockerOffset
    if offset < 2048 then some (offset + blockerWindow * 2048)
    else
      let offset ← t.currentVector.getNextNonSetBit 0
      some (offset + (blockerWindow + 1) * 2048)
  else
    let offset ← t.currentVector.getNextNonSetBit blockerOffset
    some (offset + blockerWindow * 2048)

/-- The swap of the vectors when the window moves. -/
def slide (t : PositionTracker) (window : Nat) : PositionTracker :=
  if window > t.windowStartPosition then ⟨window, t.previousVector.clear, t.currentVector⟩ else t

/-- `Set`. -/
def set (t : PositionTracker) (position : Nat) : PositionTracker :=
  let blockerWindow := position / 2048
  let blockerOffset := position % 2048
  let t := t.slide blockerWindow
  if blockerWindow = t.windowStartPosition then
    { t with currentVector := t.currentVector.set blockerOffset }
  else if t.windowStartPosition > 0 ∧ blockerWindow = t.windowStartPosition - 1 then
    { t with previousVector := t.previousVector.set blockerOffset }
  else t

/-- `SetVector`. -/
def setVector (t : PositionTracker) (r : RequestedPositions) (position : Nat) : PositionTracker :=
  let blockerWindow := position / 2048
  let blockerWindowEnd := (261 + position) / 2048
  let blockerOffset := position % 2048
  let t := t.slide blockerWindowEnd
  if blockerWindow = t.windowStartPosition then
    { t with currentVector := t.currentVector.setVector r.vector blockerOffset }
  else if t.windowStartPosition > 0 ∧ blockerWindow = t.windowStartPosition - 1 then
    let t := { t with previousVector := t.previousVector.setVector r.vector blockerOffset }
    if blockerWindowEnd = t.windowStartPosition then
      { t with currentVector :=
          t.currentVector.setVectorAndShiftOther r.vector (2048 - blockerOffset) }
    else t
  else t

/-- `IsAvailable`. -/
def isAvailable (t : PositionTracker) (r : RequestedPositions) (position : Nat) : Nat :=
  let blockerWindow := position / 2048
  let blockerOffset := position % 2048
  if blockerWindow = t.windowStartPosition then
    t.currentVector.disjointAndShiftThis r.vector blockerOffset
  else if blockerWindow > t.windowStartPosition then 0
  else
    let shift := t.previousVector.disjointAndShiftThis r.vector blockerOffset
    if shift = 0 ∧ 2048 - blockerOffset < 261 then
      r.vector.disjointAndShiftOther t.currentVector (2048 - blockerOffset)
    else shift

/-! ## Runs -/

/-- The calls that take positions. -/
inductive Call
  | set (position : Nat)
  | setVector (r : RequestedPositions) (position : Nat)

/-- The positions that a call takes. -/
def Call.positions : Call → Set Nat
  | .set position => {position}
  | .setVector r position => {q | position ≤ q ∧ r.Has (q - position)}

/-- The window that a call moves to. -/
def Call.window : Call → Nat
  | .set position => position / 2048
  | .setVector _ position => (261 + position) / 2048

/-- One call. -/
def apply (t : PositionTracker) : Call → PositionTracker
  | .set position => t.set position
  | .setVector r position => t.setVector r position

def step (t : PositionTracker) (c : Call) : Option PositionTracker := some (t.apply c)

/-- All positions ever taken. -/
def taken (calls : List Call) : Set Nat := {q | ∃ c ∈ calls, q ∈ c.positions}

/-- Where the previous window starts. -/
def start (t : PositionTracker) : Nat := (t.windowStartPosition - 1) * 2048

/-- The window advances by at most one. -/
def Advances (t : PositionTracker) (c : Call) : Prop := c.window ≤ t.windowStartPosition + 1

instance decidableAdvances (t : PositionTracker) (c : Call) : Decidable (t.Advances c) :=
  inferInstanceAs (Decidable (_ ≤ _))

/-- The condition on a call: a vector that starts before the previous window has no position in it. -/
def Ok (t : PositionTracker) : Call → Prop
  | .set _ => True
  | .setVector r position => position / 2048 + 1 < t.windowStartPosition →
    ∀ j, r.Has j → position + j < t.start

/-- The requested positions at a place. -/
def shifted (r : RequestedPositions) (position : Nat) : Set Nat :=
  {q | position ≤ q ∧ r.Has (q - position)}

/-- The searches of `NextFreeSlot` stop in the arrays: none of them starts at a word from which on all
bits of the array are set, the spare word included. -/
def SearchesInside (t : PositionTracker) (position : Nat) : Prop :=
  (position / 2048 = t.windowStartPosition → t.currentVector.StopsFrom (position % 2048)) ∧
    (position / 2048 < t.windowStartPosition → t.previousVector.StopsFrom (position % 2048) ∧
      ((∀ i, position % 2048 ≤ i → i < 2048 → t.previousVector.bit i = true) →
        t.currentVector.StopsFrom 0))

/-- The tracker answers as the set. -/
structure Plain (t : PositionTracker) (S : Set Nat) : Prop where
  isSet : ∀ p, t.start ≤ p → (t.isSet p = true ↔ p ∈ S)
  nextFreeSlot : ∀ p, t.start ≤ p → t.SearchesInside p →
    ∃ q, t.nextFreeSlot p = some q ∧ IsLeast {x | p ≤ x ∧ x ∉ S} q
  isAvailable : ∀ r p, t.start ≤ p → (t.isAvailable r p = 0 ↔ Disjoint (shifted r p) S)

/-- No position of the set is reported free. -/
structure Safe (t : PositionTracker) (S : Set Nat) : Prop where
  isSet : ∀ p, t.start ≤ p → p ∈ S → t.isSet p = true
  nextFreeSlot : ∀ p, t.start ≤ p → t.SearchesInside p →
    ∃ q, t.nextFreeSlot p = some q ∧ p ≤ q ∧ q ∉ S
  isAvailable : ∀ r p, t.start ≤ p → t.isAvailable r p = 0 → Disjoint (shifted r p) S

/-! ## The invariant -/

/-- Every position that was taken and lies in a window is in its vector. -/
structure Covers (t : PositionTracker) (S : Set Nat) : Prop where
  bound : ∀ q ∈ S, q / 2048 ≤ t.windowStartPosition
  current : ∀ i < 2048, t.windowStartPosition * 2048 + i ∈ S → t.currentVector.bit i = true
  previous : 0 < t.windowStartPosition →
    ∀ i < 2048, t.start + i ∈ S → t.previousVector.bit i = true

/-- The vectors, the spare words included, have no other bits. -/
structure Exact (t : PositionTracker) (S : Set Nat) : Prop where
  current : ∀ i < 33 * 64, t.currentVector.bit i = true → t.windowStartPosition * 2048 + i ∈ S
  previous : ∀ i < 33 * 64, t.previousVector.bit i = true →
    0 < t.windowStartPosition ∧ t.start + i ∈ S

variable {t : PositionTracker} {S : Set Nat}

theorem words_eq : BitVector.words 2048 = 33 := rfl

theorem words_requested : BitVector.words 261 = 5 := rfl

theorem has_iff (r : RequestedPositions) {j : Nat} (h : j < 5 * 64) :
    r.Has j ↔ r.vector.bit j = true := by
  refine ⟨fun hr => hr.2, fun hr => ⟨?_, hr⟩⟩
  by_contra hge
  rw [r.bounded j (not_lt.mp hge) h] at hr
  cases hr

/-- A requested vector is put into a window. -/
theorem bit_setVector (v : BitVector 2048) (r : RequestedPositions) (startBit : Nat) {i : Nat}
    (hi : i < 33 * 64) :
    (v.setVector r.vector startBit).bit i = true ↔
      v.bit i = true ∨ startBit ≤ i ∧ r.Has (i - startBit) := by
  have h := BitVector.bit_setVector v r.vector startBit
    (show i < BitVector.words 2048 * 64 by rw [words_eq]; exact hi)
  rw [h, Bool.or_eq_true, Bool.and_eq_true, decide_eq_true_eq, words_requested]
  refine or_congr_right ⟨fun ⟨hin, hr⟩ => ⟨hin.1, (has_iff r hin.2).mpr hr⟩, fun ⟨hle, hr⟩ => ?_⟩
  exact ⟨⟨hle, hr.1.trans (by decide)⟩, hr.2⟩

/-- The end of a requested vector is put into the next window. -/
theorem bit_setVectorAndShiftOther (v : BitVector 2048) (r : RequestedPositions) (startBit i : Nat) :
    (v.setVectorAndShiftOther r.vector startBit).bit i = true ↔
      v.bit i = true ∨ r.Has (startBit + i) := by
  have h := BitVector.bit_setVectorAndShiftOther v r.vector (by decide) startBit i
  rw [h, Bool.or_eq_true, Bool.and_eq_true, decide_eq_true_eq, words_requested]
  refine or_congr_right ⟨fun ⟨hin, hr⟩ => (has_iff r hin).mpr hr, fun hr => ?_⟩
  exact ⟨hr.1.trans (by decide), hr.2⟩

theorem bit_new (i : Nat) : (BitVector.new 2048).bit i = false := by
  rw [BitVector.bit, show (BitVector.new 2048).bits (i / 64) = 0#64 from rfl, BitVec.getLsbD_zero]

theorem covers_new : new.Covers ∅ where
  bound := fun _ h => h.elim
  current := fun _ _ h => h.elim
  previous := fun _ _ _ h => h.elim

theorem exact_new : new.Exact ∅ where
  current i hi h := by
    have h0 : new.currentVector.bit i = false := bit_new i
    rw [h0] at h
    cases h
  previous i hi h := by
    have h0 : new.previousVector.bit i = false := bit_new i
    rw [h0] at h
    cases h

theorem Covers.slide (h : t.Covers S) (window : Nat) : (t.slide window).Covers S := by
  rw [PositionTracker.slide]
  split
  · next hgt =>
    refine ⟨fun q hq => (h.bound q hq).trans hgt.le, fun i hi hin => ?_, fun _ i hi hin => ?_⟩
    · have := h.bound _ hin
      dsimp only at this
      omega
    · -- Only the window that was the current one has positions.
      have hb := h.bound _ hin
      unfold start at hin hb
      dsimp only at hin hb
      have hw : window - 1 = t.windowStartPosition := by omega
      rw [hw] at hin
      exact h.current i hi hin
  · exact h

theorem Exact.slide (h : t.Exact S) {window : Nat} (hw : window ≤ t.windowStartPosition + 1) :
    (t.slide window).Exact S := by
  rw [PositionTracker.slide]
  split
  · next hgt =>
    refine ⟨fun i hi hbit => ?_, fun i hi hbit => ⟨by dsimp only; omega, ?_⟩⟩
    · have h0 : t.previousVector.clear.bit i = false := BitVector.bit_clear _ (by rw [words_eq]; omega)
      dsimp only at hbit
      rw [h0] at hbit
      cases hbit
    · unfold start
      dsimp only
      rw [show window - 1 = t.windowStartPosition by omega]
      exact h.current i hi hbit
  · exact h

theorem windowStartPosition_slide (t : PositionTracker) (window : Nat) :
    (t.slide window).windowStartPosition = max t.windowStartPosition window := by
  rw [slide]
  split
  · next h => exact (Nat.max_eq_right h.le).symm
  · next h => exact (Nat.max_eq_left (not_lt.mp h)).symm

/-- What a call puts into the vectors of the windows. -/
structure Puts (t t' : PositionTracker) (T : Set Nat) : Prop where
  window : t'.windowStartPosition = t.windowStartPosition
  current : ∀ i < 33 * 64, t.currentVector.bit i = true → t'.currentVector.bit i = true
  previous : ∀ i < 33 * 64, t.previousVector.bit i = true → t'.previousVector.bit i = true
  bound : ∀ q ∈ T, q / 2048 ≤ t.windowStartPosition
  currentHas : ∀ i < 2048, t.windowStartPosition * 2048 + i ∈ T → t'.currentVector.bit i = true
  previousHas : 0 < t.windowStartPosition →
    ∀ i < 2048, t.start + i ∈ T → t'.previousVector.bit i = true
  currentOnly : ∀ i < 33 * 64, t'.currentVector.bit i = true →
    t.currentVector.bit i = true ∨ t.windowStartPosition * 2048 + i ∈ T
  previousOnly : ∀ i < 33 * 64, t'.previousVector.bit i = true →
    t.previousVector.bit i = true ∨ 0 < t.windowStartPosition ∧ t.start + i ∈ T

variable {t' : PositionTracker} {T : Set Nat}

theorem Puts.start (h : Puts t t' T) : t'.start = t.start := by
  rw [PositionTracker.start, h.window, PositionTracker.start]

theorem Covers.puts (h : t.Covers S) (hp : Puts t t' T) : t'.Covers (S ∪ T) where
  bound q hq := by
    rw [hp.window]
    exact hq.elim (h.bound q) (hp.bound q)
  current i hi hin := by
    rw [hp.window] at hin
    exact hin.elim (fun hS => hp.current i (by omega) (h.current i hi hS)) (hp.currentHas i hi)
  previous hpos i hi hin := by
    rw [hp.window] at hpos
    rw [hp.start] at hin
    exact hin.elim (fun hS => hp.previous i (by omega) (h.previous hpos i hi hS))
      (hp.previousHas hpos i hi)

theorem Exact.puts (h : t.Exact S) (hp : Puts t t' T) : t'.Exact (S ∪ T) where
  current i hi hbit := by
    rw [hp.window]
    exact (hp.currentOnly i hi hbit).imp (h.current i hi) id
  previous i hi hbit := by
    rw [hp.window, hp.start]
    rcases hp.previousOnly i hi hbit with hold | ⟨hpos, hnew⟩
    · exact ⟨(h.previous i hi hold).1, .inl (h.previous i hi hold).2⟩
    · exact ⟨hpos, .inr hnew⟩

/-- A call that puts nothing into the windows. -/
theorem puts_self (hbound : ∀ q ∈ T, q < t.start) : Puts t t T where
  window := rfl
  current _ _ h := h
  previous _ _ h := h
  bound q hq := by
    have := hbound q hq
    unfold PositionTracker.start at this
    omega
  currentHas i _ hin := by
    have := hbound _ hin
    unfold PositionTracker.start at this
    omega
  previousHas _ i _ hin := by
    have := hbound _ hin
    omega
  currentOnly _ _ h := .inl h
  previousOnly _ _ h := .inl h

theorem puts_set (t : PositionTracker) (p : Nat) : Puts (t.slide (p / 2048)) (t.set p) {p} := by
  have hw : p / 2048 ≤ (t.slide (p / 2048)).windowStartPosition := by
    rw [windowStartPosition_slide]
    exact le_max_right _ _
  rw [PositionTracker.set]
  generalize t.slide (p / 2048) = t at *
  have hmod : p % 2048 < 2048 := Nat.mod_lt _ (by decide)
  split
  · next heq =>
    constructor
    case window => rfl
    case current => exact fun i _ h => by rw [BitVector.bit_set, h, Bool.true_or]
    case previous => exact fun _ _ h => h
    case bound => exact fun q hq => by rw [Set.mem_singleton_iff.mp hq]; exact hw
    case currentHas =>
      intro i hi hin
      have hip : t.windowStartPosition * 2048 + i = p := hin
      rw [BitVector.bit_set, decide_eq_true (by omega), Bool.or_true]
    case previousHas =>
      intro hpos i hi hin
      have hip : t.start + i = p := hin
      unfold PositionTracker.start at hip
      omega
    case currentOnly =>
      intro i hi hbit
      rw [BitVector.bit_set, Bool.or_eq_true, decide_eq_true_eq] at hbit
      refine hbit.imp id fun hip => ?_
      show t.windowStartPosition * 2048 + i = p
      omega
    case previousOnly => exact fun _ _ h => .inl h
  · split
    · next hne heq =>
      constructor
      case window => rfl
      case current => exact fun _ _ h => h
      case previous => exact fun i _ h => by rw [BitVector.bit_set, h, Bool.true_or]
      case bound => exact fun q hq => by rw [Set.mem_singleton_iff.mp hq]; exact hw
      case currentHas =>
        intro i hi hin
        have hip : t.windowStartPosition * 2048 + i = p := hin
        omega
      case previousHas =>
        intro hpos i hi hin
        have hip : t.start + i = p := hin
        unfold PositionTracker.start at hip
        rw [BitVector.bit_set, decide_eq_true (by omega), Bool.or_true]
      case currentOnly => exact fun _ _ h => .inl h
      case previousOnly =>
        intro i hi hbit
        rw [BitVector.bit_set, Bool.or_eq_true, decide_eq_true_eq] at hbit
        refine hbit.imp id fun hip => ⟨heq.1, ?_⟩
        show t.start + i = p
        unfold PositionTracker.start
        omega
    · next hne hold =>
      refine puts_self fun q hq => ?_
      rw [Set.mem_singleton_iff.mp hq]
      unfold PositionTracker.start
      omega

/-- A vector that begins in the block before the current one: what that block has then. -/
theorem previous_setVector {t : PositionTracker} (r : RequestedPositions) {p : Nat}
    (hp : 0 < t.windowStartPosition ∧ p / 2048 = t.windowStartPosition - 1) :
    (∀ i < 33 * 64, (t.previousVector.setVector r.vector (p % 2048)).bit i = true →
      t.previousVector.bit i = true ∨
        0 < t.windowStartPosition ∧ t.start + i ∈ {q | p ≤ q ∧ r.Has (q - p)}) ∧
    (∀ i < 2048, t.start + i ∈ {q | p ≤ q ∧ r.Has (q - p)} →
      (t.previousVector.setVector r.vector (p % 2048)).bit i = true) ∧
    ∀ i < 33 * 64, t.previousVector.bit i = true →
      (t.previousVector.setVector r.vector (p % 2048)).bit i = true := by
  have hmod : p % 2048 < 2048 := Nat.mod_lt _ (by decide)
  refine ⟨fun i hi hbit => ?_, ?_, fun i hi h => (bit_setVector _ r _ hi).mpr (.inl h)⟩
  · rcases (bit_setVector _ r _ hi).mp hbit with hold | ⟨hin, hr⟩
    · exact .inl hold
    · refine .inr ⟨hp.1, ?_⟩
      unfold PositionTracker.start
      refine ⟨by omega, ?_⟩
      rwa [show (t.windowStartPosition - 1) * 2048 + i - p = i - p % 2048 by omega]
  · rintro i hi ⟨hle, hr⟩
    unfold PositionTracker.start at hle hr
    rw [show (t.windowStartPosition - 1) * 2048 + i - p = i - p % 2048 by omega] at hr
    exact (bit_setVector _ r _ (by omega)).mpr (.inr ⟨by omega, hr⟩)

theorem puts_setVector (t : PositionTracker) (r : RequestedPositions) (p : Nat)
    (hok : t.Ok (.setVector r p)) :
    Puts (t.slide ((261 + p) / 2048)) (t.setVector r p) {q | p ≤ q ∧ r.Has (q - p)} := by
  have hw : (261 + p) / 2048 ≤ (t.slide ((261 + p) / 2048)).windowStartPosition := by
    rw [windowStartPosition_slide]
    exact le_max_right _ _
  have hskip : p / 2048 + 1 < (t.slide ((261 + p) / 2048)).windowStartPosition →
      ∀ j, r.Has j → p + j < (t.slide ((261 + p) / 2048)).start := by
    intro hlt
    rw [windowStartPosition_slide] at hlt
    have hslide : t.slide ((261 + p) / 2048) = t := by
      rw [PositionTracker.slide, if_neg (by omega)]
    rw [hslide]
    exact hok (by omega)
  rw [PositionTracker.setVector]
  generalize t.slide ((261 + p) / 2048) = t at *
  have hmod : p % 2048 < 2048 := Nat.mod_lt _ (by decide)
  have hbound : ∀ q, p ≤ q ∧ r.Has (q - p) → q / 2048 ≤ t.windowStartPosition := by
    rintro q ⟨hle, hlt, -⟩
    omega
  split
  · next heq =>
    constructor
    case window => rfl
    case current => exact fun i hi h => (bit_setVector _ r _ hi).mpr (.inl h)
    case previous => exact fun _ _ h => h
    case bound => exact hbound
    case currentHas =>
      rintro i hi ⟨hle, hr⟩
      rw [show t.windowStartPosition * 2048 + i - p = i - p % 2048 by omega] at hr
      exact (bit_setVector _ r _ (by omega)).mpr (.inr ⟨by omega, hr⟩)
    case previousHas =>
      rintro hpos i hi ⟨hle, -⟩
      unfold PositionTracker.start at hle
      omega
    case currentOnly =>
      intro i hi hbit
      refine ((bit_setVector _ r _ hi).mp hbit).imp id fun ⟨hin, hr⟩ => ⟨by omega, ?_⟩
      rwa [show t.windowStartPosition * 2048 + i - p = i - p % 2048 by omega]
    case previousOnly => exact fun _ _ h => .inl h
  · split
    · next hne heq =>
      obtain ⟨hprevious, hpreviousHas, hmono⟩ := previous_setVector r heq
      dsimp only
      split
      · next hend =>
        constructor
        case window => rfl
        case current => exact fun i _ h => (bit_setVectorAndShiftOther _ r _ i).mpr (.inl h)
        case previous => exact hmono
        case bound => exact hbound
        case currentHas =>
          rintro i hi ⟨hle, hr⟩
          rw [show t.windowStartPosition * 2048 + i - p = 2048 - p % 2048 + i by omega] at hr
          exact (bit_setVectorAndShiftOther _ r _ i).mpr (.inr hr)
        case previousHas => exact fun _ => hpreviousHas
        case currentOnly =>
          intro i hi hbit
          refine ((bit_setVectorAndShiftOther _ r _ i).mp hbit).imp id fun hr => ⟨by omega, ?_⟩
          rwa [show t.windowStartPosition * 2048 + i - p = 2048 - p % 2048 + i by omega]
        case previousOnly => exact hprevious
      · next hend =>
        constructor
        case window => rfl
        case current => exact fun _ _ h => h
        case previous => exact hmono
        case bound => exact hbound
        case currentHas =>
          rintro i hi ⟨hle, hlt, -⟩
          omega
        case previousHas => exact fun _ => hpreviousHas
        case currentOnly => exact fun _ _ h => .inl h
        case previousOnly => exact hprevious
    · next hne hold =>
      refine puts_self fun q hq => ?_
      have := hskip (by omega) (q - p) hq.2
      have := hq.1
      omega

/-! ## The queries -/

/-- What lies behind the current window is free. -/
theorem Covers.free (h : t.Covers S) {q : Nat} (hq : t.windowStartPosition < q / 2048) : q ∉ S :=
  fun hin => absurd (h.bound q hin) (not_le.mpr hq)

theorem Covers.isSet (h : t.Covers S) {p : Nat} (hp : t.start ≤ p) (hin : p ∈ S) :
    t.isSet p = true := by
  have hbound := h.bound p hin
  unfold PositionTracker.start at hp
  rw [PositionTracker.isSet]
  split
  · next heq =>
    rw [BitVector.get_eq]
    exact h.current _ (Nat.mod_lt _ (by decide)) (by rwa [← heq, Nat.div_add_mod'])
  · next hne =>
    rw [if_neg (by omega), BitVector.get_eq]
    refine h.previous (by omega) _ (Nat.mod_lt _ (by decide)) ?_
    unfold PositionTracker.start
    rwa [show t.windowStartPosition - 1 = p / 2048 by omega, Nat.div_add_mod']

theorem Exact.isSet (h : t.Exact S) {p : Nat} (hp : t.start ≤ p) (hset : t.isSet p = true) :
    p ∈ S := by
  have hmod := Nat.mod_lt p (show 0 < 2048 by decide)
  unfold PositionTracker.start at hp
  rw [PositionTracker.isSet] at hset
  split at hset
  · next heq =>
    rw [BitVector.get_eq] at hset
    have := h.current _ (by omega) hset
    rwa [← heq, Nat.div_add_mod'] at this
  · next hne =>
    split at hset
    · cases hset
    · rw [BitVector.get_eq] at hset
      have := (h.previous _ (by omega) hset).2
      unfold PositionTracker.start at this
      rwa [show t.windowStartPosition - 1 = p / 2048 by omega, Nat.div_add_mod'] at this

/-- The search in the current vector. -/
theorem Covers.nextInCurrent (h : t.Covers S) {o : Nat} (ho : o ≤ 2048)
    (hstops : t.currentVector.StopsFrom o) :
    ∃ q, t.currentVector.getNextNonSetBit o = some q ∧ o ≤ q ∧
      t.windowStartPosition * 2048 + q ∉ S ∧
      (t.Exact S → ∀ i, o ≤ i → i < q → t.windowStartPosition * 2048 + i ∈ S) := by
  obtain ⟨q, hq, hge, hbefore, hfree⟩ := BitVector.getNextNonSetBit_spec t.currentVector
    (show o < BitVector.words 2048 * 64 by rw [words_eq]; omega) hstops
  rw [words_eq] at hbefore hfree
  refine ⟨q, hq, hge, fun hin => ?_, fun hex i hi hiq => ?_⟩
  · have hbound := h.bound _ hin
    have hset := h.current q (by omega) hin
    rw [hfree (by omega)] at hset
    cases hset
  · by_cases hlong : 2048 < q
    · -- The spare word has no bits.
      have hspare := hex.current 2048 (by omega) (hbefore 2048 ho hlong (by omega))
      have := h.bound _ hspare
      omega
    · exact hex.current i (by omega) (hbefore i hi hiq (by omega))

/-- **`NextFreeSlot`** finds a free position, and the least one if the vectors are exact. -/
theorem Covers.nextFreeSlot (h : t.Covers S) {p : Nat} (hp : t.start ≤ p)
    (hinside : t.SearchesInside p) :
    ∃ q, t.nextFreeSlot p = some q ∧ p ≤ q ∧ q ∉ S ∧
      (t.Exact S → ∀ x, p ≤ x → x < q → x ∈ S) := by
  have hmod := Nat.mod_lt p (show 0 < 2048 by decide)
  unfold PositionTracker.start at hp
  rw [PositionTracker.nextFreeSlot]
  rcases Nat.lt_trichotomy t.windowStartPosition (p / 2048) with hgt | heq | hlt
  · rw [if_pos hgt]
    exact ⟨p, rfl, le_rfl, h.free hgt, fun _ x hx hxp => absurd hx (not_le.mpr hxp)⟩
  · obtain ⟨q, hq, hge, hfree, hleast⟩ := h.nextInCurrent hmod.le (hinside.1 heq.symm)
    rw [if_neg (by omega), if_neg (by omega), hq]
    refine ⟨q + p / 2048 * 2048, rfl, by omega, ?_, fun hex x hx hxq => ?_⟩
    · rwa [Nat.add_comm, ← heq]
    · have := hleast hex (x - p / 2048 * 2048) (by omega) (by omega)
      rwa [heq, Nat.add_sub_cancel' ((Nat.div_mul_le_self p 2048).trans hx)] at this
  · obtain ⟨q, hq, hge, hbefore, hfree⟩ := BitVector.getNextNonSetBit_spec t.previousVector
      (show p % 2048 < BitVector.words 2048 * 64 by rw [words_eq]; omega) (hinside.2 hlt).1
    rw [words_eq] at hbefore hfree
    have hwindow : t.windowStartPosition - 1 = p / 2048 := by omega
    have hstart : t.start = p / 2048 * 2048 := by rw [PositionTracker.start, hwindow]
    have hset : t.Exact S → ∀ x, p ≤ x → x < q + p / 2048 * 2048 → x < t.windowStartPosition * 2048 →
        x ∈ S := by
      intro hex x hx hxq hxw
      have := (hex.previous (x - p / 2048 * 2048) (by omega)
        (hbefore _ (by omega) (by omega) (by omega))).2
      rwa [hstart, Nat.add_sub_cancel' ((Nat.div_mul_le_self p 2048).trans hx)] at this
    rw [if_neg (by omega), if_pos hlt, hq]
    simp only [Option.bind_eq_bind, Option.bind_some]
    by_cases hin : q < 2048
    · rw [if_pos hin]
      refine ⟨q + p / 2048 * 2048, rfl, by omega, fun hmem => ?_, fun hex x hx hxq =>
        hset hex x hx hxq (by omega)⟩
      have hbit := h.previous (by omega) q hin (by rwa [hstart, Nat.add_comm])
      rw [hfree (by omega)] at hbit
      cases hbit
    · -- The previous window is full behind the position.
      obtain ⟨q', hq', -, hfree', hleast⟩ := h.nextInCurrent (Nat.zero_le 2048)
        ((hinside.2 hlt).2 fun i hi hi' => hbefore i hi (by omega) (by omega))
      rw [if_neg hin, hq', Option.bind_some]
      have hnext : (p / 2048 + 1) * 2048 = t.windowStartPosition * 2048 := by omega
      refine ⟨q' + (p / 2048 + 1) * 2048, rfl, by omega, ?_, fun hex x hx hxq => ?_⟩
      · rwa [Nat.add_comm, hnext]
      · by_cases hxw : x < t.windowStartPosition * 2048
        · exact hset hex x hx (by omega) hxw
        · have := hleast hex (x - t.windowStartPosition * 2048) (Nat.zero_le _) (by omega)
          rwa [Nat.add_sub_cancel' (not_lt.mp hxw)] at this

theorem disjoint_shifted {r : RequestedPositions} {p : Nat} :
    Disjoint (shifted r p) S ↔ ∀ j, r.Has j → p + j ∉ S := by
  rw [Set.disjoint_left]
  refine ⟨fun h j hj => h ⟨Nat.le_add_right p j, by rwa [Nat.add_sub_cancel_left]⟩, ?_⟩
  rintro h q ⟨hle, hr⟩ hq
  exact h _ hr (by rwa [Nat.add_sub_cancel' hle])

/-- The comparison with a window that starts at a position. -/
theorem disjoint_iff (v : BitVector 2048) (r : RequestedPositions) {o : Nat} (ho : o < 2048) :
    v.disjointAndShiftThis r.vector o = 0 ↔
      ∀ j, r.Has j → o + j < 33 * 64 → v.bit (o + j) = false := by
  rw [BitVector.disjointAndShiftThis_eq_zero_iff v r.vector (by rw [words_eq]; omega), words_eq,
    words_requested]
  constructor
  · intro h j hj hin
    rw [← Bool.not_eq_true]
    exact fun hv => h j (hj.1.trans (by decide)) hin ⟨hv, hj.2⟩
  · rintro h j hj hin ⟨hv, hr⟩
    rw [h j ((has_iff r hj).mpr hr) hin] at hv
    cases hv

theorem disjointOther_iff (v : BitVector 2048) (r : RequestedPositions) {o : Nat} (ho : o < 261) :
    r.vector.disjointAndShiftOther v o = 0 ↔
      ∀ i < 33 * 64, r.Has (o + i) → v.bit i = false := by
  rw [BitVector.disjointAndShiftOther_eq_zero_iff r.vector v (by rw [words_requested]; omega),
    words_eq, words_requested]
  constructor
  · intro h i hi hr
    rw [← Bool.not_eq_true]
    exact fun hv => h i hi (hr.1.trans (by decide)) ⟨hr.2, hv⟩
  · rintro h i hi hin ⟨hr, hv⟩
    rw [h i hi ((has_iff r hin).mpr hr)] at hv
    cases hv

/-- **`IsAvailable`** gives 0 for free positions only, and for all of them if the vectors are exact. -/
theorem Covers.isAvailable (h : t.Covers S) (r : RequestedPositions) {p : Nat} (hp : t.start ≤ p) :
    (t.isAvailable r p = 0 → Disjoint (shifted r p) S) ∧
      (t.Exact S → Disjoint (shifted r p) S → t.isAvailable r p = 0) := by
  have hmod := Nat.mod_lt p (show 0 < 2048 by decide)
  unfold PositionTracker.start at hp
  rw [PositionTracker.isAvailable, disjoint_shifted]
  dsimp only
  rcases Nat.lt_trichotomy t.windowStartPosition (p / 2048) with hgt | heq | hlt
  · rw [if_neg (by omega), if_pos hgt]
    exact ⟨fun _ j _ => h.free (by omega), fun _ _ => rfl⟩
  · rw [if_pos heq.symm, disjoint_iff _ r hmod]
    constructor
    · intro hdis j hj hin
      have hbound := h.bound _ hin
      have hbit := h.current (p % 2048 + j) (by omega) (by
        rwa [show t.windowStartPosition * 2048 + (p % 2048 + j) = p + j by omega])
      rw [hdis j hj (by omega)] at hbit
      cases hbit
    · intro hex hdis j hj hin
      rw [← Bool.not_eq_true]
      intro hbit
      have := hex.current _ hin hbit
      rw [show t.windowStartPosition * 2048 + (p % 2048 + j) = p + j by omega] at this
      exact hdis j hj this
  · have hstart : t.start = p / 2048 * 2048 := by
      rw [PositionTracker.start, show t.windowStartPosition - 1 = p / 2048 by omega]
    have hwindow : t.windowStartPosition = p / 2048 + 1 := by omega
    rw [if_neg (by omega), if_neg (by omega)]
    have hprevious : t.previousVector.disjointAndShiftThis r.vector (p % 2048) = 0 →
        ∀ j, r.Has j → p % 2048 + j < 2048 → p + j ∉ S := by
      intro hdis j hj hlt' hin
      have hbit := h.previous (by omega) (p % 2048 + j) hlt' (by
        rwa [hstart, ← Nat.add_assoc, Nat.div_add_mod'])
      rw [(disjoint_iff _ r hmod).mp hdis j hj (by omega)] at hbit
      cases hbit
    have hexact : t.Exact S → (∀ j, r.Has j → p + j ∉ S) →
        t.previousVector.disjointAndShiftThis r.vector (p % 2048) = 0 := by
      intro hex hdis
      refine (disjoint_iff _ r hmod).mpr fun j hj hin => ?_
      rw [← Bool.not_eq_true]
      intro hbit
      have := (hex.previous _ hin hbit).2
      rw [hstart, ← Nat.add_assoc, Nat.div_add_mod'] at this
      exact hdis j hj this
    constructor
    · intro hzero j hj hin
      by_cases hfirst : p % 2048 + j < 2048
      · refine hprevious ?_ j hj hfirst hin
        split at hzero
        · next hc => exact hc.1
        · exact hzero
      · -- The position lies in the current window.
        have hj261 := hj.1
        have hdis0 : t.previousVector.disjointAndShiftThis r.vector (p % 2048) = 0 := by
          split at hzero
          · next hc => exact hc.1
          · exact hzero
        rw [if_pos ⟨hdis0, by omega⟩, disjointOther_iff _ r (by omega)] at hzero
        have hbit := h.current (p % 2048 + j - 2048) (by omega) (by
          have heq : t.windowStartPosition * 2048 + (p % 2048 + j - 2048) = p + j := by omega
          rwa [heq])
        rw [hzero _ (by omega) (by rwa [show 2048 - p % 2048 + (p % 2048 + j - 2048) = j by omega])]
          at hbit
        cases hbit
    · intro hex hdis
      have hdis0 := hexact hex hdis
      by_cases hclose : 2048 - p % 2048 < 261
      · rw [if_pos ⟨hdis0, hclose⟩, disjointOther_iff _ r hclose]
        intro i hi hr
        rw [← Bool.not_eq_true]
        intro hbit
        have := hex.current i hi hbit
        have heq : t.windowStartPosition * 2048 + i = p + (2048 - p % 2048 + i) := by omega
        rw [heq] at this
        exact hdis _ hr this
      · rw [if_neg (fun hc => hclose hc.2)]
        exact hdis0

theorem Covers.safe (h : t.Covers S) : t.Safe S where
  isSet _ hp hin := h.isSet hp hin
  nextFreeSlot p hp hinside := by
    obtain ⟨q, hq, hle, hfree, -⟩ := h.nextFreeSlot hp hinside
    exact ⟨q, hq, hle, hfree⟩
  isAvailable r _ hp hzero := (h.isAvailable r hp).1 hzero

theorem Covers.plain (h : t.Covers S) (hex : t.Exact S) : t.Plain S where
  isSet _ hp := ⟨hex.isSet hp, h.isSet hp⟩
  nextFreeSlot p hp hinside := by
    obtain ⟨q, hq, hle, hfree, hleast⟩ := h.nextFreeSlot hp hinside
    refine ⟨q, hq, ⟨hle, hfree⟩, fun x hx => ?_⟩
    by_contra hlt
    exact hx.2 (hleast hex x hx.1 (not_le.mp hlt))
  isAvailable r _ hp := ⟨(h.isAvailable r hp).1, (h.isAvailable r hp).2 hex⟩

/-! ## All calls -/

theorem puts_apply (c : Call) (hok : t.Ok c) : Puts (t.slide c.window) (t.apply c) c.positions := by
  cases c with
  | set p => exact puts_set t p
  | setVector r p => exact puts_setVector t r p hok

theorem taken_append (calls : List Call) (c : Call) :
    taken (calls ++ [c]) = taken calls ∪ c.positions := by
  ext q
  simp [taken, or_and_right, exists_or]

theorem run_total : ∀ (calls : List Call) (t : PositionTracker), ∃ t', Run.run step t calls = some t'
  | [], t => ⟨t, rfl⟩
  | c :: calls, t => by
    obtain ⟨t', ht'⟩ := run_total calls (t.apply c)
    exact ⟨t', Run.run_cons.mpr ⟨t.apply c, rfl, ht'⟩⟩

theorem taken_nil : taken [] = ∅ := by
  ext q
  simp [taken]

/-- **The tracker answers as the plain set of all positions ever taken** while the window advances by at
most one, and never reports a taken position of its windows free in any case, when no vector that starts
before the previous window reaches into it. -/
theorem tracker_run {calls : List Call} (hok : Run.Along step Ok new calls) :
    ∃ t, Run.run step new calls = some t ∧ t.Safe (taken calls) ∧
      (Run.Along step Advances new calls → t.Plain (taken calls)) := by
  obtain ⟨t, ht⟩ := run_total calls new
  have hcovers : t.Covers (taken ([] ++ calls)) :=
    Run.invariant_history (fun calls t => t.Covers (taken calls)) (fun calls t c t' h hc hs => by
      rw [step, Option.some.injEq] at hs
      rw [← hs, taken_append]
      exact (h.slide c.window).puts (puts_apply c hc)) (by rw [taken_nil]; exact covers_new) hok ht
  rw [List.nil_append] at hcovers
  refine ⟨t, ht, hcovers.safe, fun hadvances => ?_⟩
  have hexact : t.Exact (taken ([] ++ calls)) :=
    Run.invariant_history (fun calls t => t.Exact (taken calls)) (fun calls t c t' h hc hs => by
      rw [step, Option.some.injEq] at hs
      rw [← hs, taken_append]
      exact (h.slide hc.2).puts (puts_apply c hc.1)) (by rw [taken_nil]; exact exact_new)
      (hok.and hadvances) ht
  rw [List.nil_append] at hexact
  exact hcovers.plain hexact

theorem tracker_run_border :
    ∃ t, Run.run step new [.set 2047, .set 2048] = some t ∧
      t.Safe (taken [.set 2047, .set 2048]) ∧
      (Run.Along step Advances new [.set 2047, .set 2048] → t.Plain (taken [.set 2047, .set 2048])) :=
  tracker_run ⟨trivial, fun _ _ => ⟨trivial, fun _ _ => trivial⟩⟩

theorem bounded_new : (BitVector.new 261).Bounded := by
  intro i h h'
  rw [BitVector.bit, show (BitVector.new 261).bits (i / 64) = 0#64 from rfl, BitVec.getLsbD_zero]

theorem bounded_two : ((BitVector.new 261).set 2).Bounded := by
  intro i h h'
  rw [BitVector.bit_set, bounded_new i h h', Bool.false_or, decide_eq_false]
  omega

/-- The vector with the position 2. -/
def two : RequestedPositions := ⟨(BitVector.new 261).set 2, bounded_two⟩

/-- A vector that starts in front of the previous window and ends in it is lost. -/
theorem not_plain : ¬ ∀ calls : List Call, Run.Along step Advances new calls →
    ∃ t, Run.run step new calls = some t ∧ t.Plain (taken calls) := by
  intro h
  obtain ⟨t, ht, hplain⟩ := h [.set 2048, .set 4096, .setVector two 2047]
    ⟨by decide, fun t ht => by
      rw [step, Option.some.injEq] at ht
      subst ht
      refine ⟨by decide, fun t ht => ?_⟩
      rw [step, Option.some.injEq] at ht
      subst ht
      exact ⟨by decide, fun _ _ => trivial⟩⟩
  have hrun : Run.run step new [.set 2048, .set 4096, .setVector two 2047] =
      some (((new.set 2048).set 4096).setVector two 2047) := rfl
  rw [hrun, Option.some.injEq] at ht
  subst ht
  have hset := (hplain.isSet 2049 (by decide)).mpr ⟨.setVector two 2047, by simp, by decide, by
    refine ⟨by decide, ?_⟩
    decide⟩
  revert hset
  decide

end PositionTracker

end Keyvi.Fsa
