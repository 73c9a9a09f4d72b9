import Mathlib
import Keyvi.Fsa.SparseArrayPersistence
import Keyvi.Fsa.Traversal
import Keyvi.Fsa.WeightedTraversal

/-!
# Finding the outgoing transitions

`GetOutGoingTransitions` of `automata.h` as it is built with and without `KEYVI_SSE42`: the labels
of a state are compared with `OUTGOING_TRANSITIONS_MASK` sixteen or eight at a time. Both are a fold
over the 256 labels, the one that `getOutGoingTransitions` is defined by.
-/

namespace Keyvi.Fsa

/-- `OUTGOING_TRANSITIONS_MASK`. -/
def OUTGOING_TRANSITIONS_MASK : List Byte := [
  0x00, 0x01, 0x02, 0x03, 0x04, 0x05, 0x06, 0x07, 0x08, 0x09, 0x0a, 0x0b, 0x0c, 0x0d, 0x0e, 0x0f,
  0x10, 0x11, 0x12, 0x13, 0x14, 0x15, 0x16, 0x17, 0x18, 0x19, 0x1a, 0x1b, 0x1c, 0x1d, 0x1e, 0x1f,
  0x20, 0x21, 0x22, 0x23, 0x24, 0x25, 0x26, 0x27, 0x28, 0x29, 0x2a, 0x2b, 0x2c, 0x2d, 0x2e, 0x2f,
  0x30, 0x31, 0x32, 0x33, 0x34, 0x35, 0x36, 0x37, 0x38, 0x39, 0x3a, 0x3b, 0x3c, 0x3d, 0x3e, 0x3f,
  0x40, 0x41, 0x42, 0x43, 0x44, 0x45, 0x46, 0x47, 0x48, 0x49, 0x4a, 0x4b, 0x4c, 0x4d, 0x4e, 0x4f,
  0x50, 0x51, 0x52, 0x53, 0x54, 0x55, 0x56, 0x57, 0x58, 0x59, 0x5a, 0x5b, 0x5c, 0x5d, 0x5e, 0x5f,
  0x60, 0x61, 0x62, 0x63, 0x64, 0x65, 0x66, 0x67, 0x68, 0x69, 0x6a, 0x6b, 0x6c, 0x6d, 0x6e, 0x6f,
  0x70, 0x71, 0x72, 0x73, 0x74, 0x75, 0x76, 0x77, 0x78, 0x79, 0x7a, 0x7b, 0x7c, 0x7d, 0x7e, 0x7f,
  0x80, 0x81, 0x82, 0x83, 0x84, 0x85, 0x86, 0x87, 0x88, 0x89, 0x8a, 0x8b, 0x8c, 0x8d, 0x8e, 0x8f,
  0x90, 0x91, 0x92, 0x93, 0x94, 0x95, 0x96, 0x97, 0x98, 0x99, 0x9a, 0x9b, 0x9c, 0x9d, 0x9e, 0x9f,
  0xa0, 0xa1, 0xa2, 0xa3, 0xa4, 0xa5, 0xa6, 0xa7, 0xa8, 0xa9, 0xaa, 0xab, 0xac, 0xad, 0xae, 0xaf,
  0xb0, 0xb1, 0xb2, 0xb3, 0xb4, 0xb5, 0xb6, 0xb7, 0xb8, 0xb9, 0xba, 0xbb, 0xbc, 0xbd, 0xbe, 0xbf,
  0xc0, 0xc1, 0xc2, 0xc3, 0xc4, 0xc5, 0xc6, 0xc7, 0xc8, 0xc9, 0xca, 0xcb, 0xcc, 0xcd, 0xce, 0xcf,
  0xd0, 0xd1, 0xd2, 0xd3, 0xd4, 0xd5, 0xd6, 0xd7, 0xd8, 0xd9, 0xda, 0xdb, 0xdc, 0xdd, 0xde, 0xdf,
  0xe0, 0xe1, 0xe2, 0xe3, 0xe4, 0xe5, 0xe6, 0xe7, 0xe8, 0xe9, 0xea, 0xeb, 0xec, 0xed, 0xee, 0xef,
  0xf0, 0xf1, 0xf2, 0xf3, 0xf4, 0xf5, 0xf6, 0xf7, 0xf8, 0xf9, 0xfa, 0xfb, 0xfc, 0xfd, 0xfe, 0xff]

/-- The mask as it is read from memory. -/
def maskAt (i : Nat) : Byte := OUTGOING_TRANSITIONS_MASK.getD i 0

theorem outgoingTransitionsMask_eq : OUTGOING_TRANSITIONS_MASK = List.finRange 256 := by
  decide +kernel

theorem maskAt_val (c : Byte) : maskAt c.val = c := by
  rw [maskAt, outgoingTransitionsMask_eq, List.getD_eq_getElem _ _ (by simp)]
  simp

/-! ## One block of labels -/

/-- The number of `n` bytes, the lowest first. -/
def digitsAt (bytes : Nat → Byte) : Nat → Nat → Nat
  | 0, _ => 0
  | n + 1, pos => (bytes pos).val + 256 * digitsAt bytes n (pos + 1)

/-- A load of a `uint64_t`. -/
def ByteOrder.load (bytes : Nat → Byte) (pos : Nat) : ByteOrder → Nat
  | littleEndian => digitsAt bytes 8 pos
  | bigEndian => digitsAt (fun i => bytes (pos + 7 - i)) 8 0

theorem digitsAt_div (bytes : Nat → Byte) : ∀ {n i : Nat} (pos : Nat), i < n →
    digitsAt bytes n pos / 256 ^ i % 256 = (bytes (pos + i)).val
  | n + 1, 0, pos, _ => by
    rw [digitsAt]
    have := (bytes pos).isLt
    simp only [pow_zero, Nat.div_one, Nat.add_zero]
    omega
  | n + 1, i + 1, pos, h => by
    have hrest : ((bytes pos).val + 256 * digitsAt bytes n (pos + 1)) / 256 =
        digitsAt bytes n (pos + 1) := by
      have := (bytes pos).isLt
      omega
    rw [digitsAt, pow_succ', ← Nat.div_div_eq_div_mul, hrest,
      digitsAt_div bytes (pos + 1) (Nat.lt_of_succ_lt_succ h), Nat.add_right_comm, Nat.add_assoc]

/-- A mask of eight bits compares one byte of two numbers. -/
theorem xor_and_mask (x y i : Nat) :
    (x ^^^ y) &&& (0xff <<< (8 * i)) = 0 ↔ x / 256 ^ i % 256 = y / 256 ^ i % 256 := by
  have hmask : ∀ z : Nat, z &&& (0xff <<< (8 * i)) = (z / 256 ^ i % 256) <<< (8 * i) := by
    intro z
    have hz : z / 256 ^ i % 256 = z >>> (8 * i) &&& 0xff := by
      rw [Nat.shiftRight_eq_div_pow, Nat.pow_mul, show (0xff : Nat) = 2 ^ 8 - 1 from rfl,
        Nat.and_two_pow_sub_one_eq_mod]
    rw [hz]
    refine Nat.eq_of_testBit_eq fun j => ?_
    simp only [Nat.testBit_and, Nat.testBit_shiftLeft, Nat.testBit_shiftRight]
    by_cases hj : 8 * i ≤ j
    · simp [hj, Nat.add_sub_cancel' hj]
    · simp [hj]
  rw [Nat.and_xor_distrib_right, hmask, hmask, Nat.xor_eq_zero_iff, Nat.shiftLeft_eq,
    Nat.shiftLeft_eq, Nat.mul_left_inj (by positivity)]

variable {σ : Type}

/-- The eight comparisons of one `xor_labels_with_mask`; `push` is what their branches do. -/
def checkWord (push : Byte → σ → σ) (x : Nat) (symbol : Byte) (st : σ) : σ :=
  let st := if x &&& 0x00000000000000ff = 0 then push symbol st else st
  let st := if x &&& 0x000000000000ff00 = 0 then push (symbol + 1) st else st
  let st := if x &&& 0x0000000000ff0000 = 0 then push (symbol + 2) st else st
  let st := if x &&& 0x00000000ff000000 = 0 then push (symbol + 3) st else st
  let st := if x &&& 0x000000ff00000000 = 0 then push (symbol + 4) st else st
  let st := if x &&& 0x0000ff0000000000 = 0 then push (symbol + 5) st else st
  let st := if x &&& 0x00ff000000000000 = 0 then push (symbol + 6) st else st
  if x &&& 0xff00000000000000 = 0 then push (symbol + 7) st else st

/-- `_mm_cmpestrm` on two blocks of sixteen bytes: one bit for every byte that is equal. -/
def cmpestrm (labels mask : Nat → Byte) (labelsAt maskAt : Nat) : Nat :=
  Nat.ofBits fun i : Fin 16 => decide (labels (labelsAt + i) = mask (maskAt + i))

/-- The loop over the bits of `mask_int`. -/
def pushBits (push : Byte → σ → σ) (symbol : Byte) : Nat → Nat → Nat → σ → σ
  | 0, _, _, st => st
  | n + 1, i, maskInt, st =>
    pushBits push symbol n (i + 1) (maskInt >>> 1)
      (if maskInt &&& 1 = 1 then push (symbol + Fin.ofNat 256 i) st else st)

/-- The comparison of sixteen labels. -/
def checkBlock (push : Byte → σ → σ) (maskInt : Nat) (symbol : Byte) (st : σ) : σ :=
  if maskInt ≠ 0 then pushBits push symbol 16 0 maskInt st else st

/-! ## Both loops are a fold over the labels -/

/-- What a label that is compared alone adds. -/
def pushIf (labels mask : Nat → Byte) (push : Byte → σ → σ) (labelsAt maskAt : Nat) (symbol : Byte)
    (st : σ) (i : Nat) : σ :=
  if labels (labelsAt + i) = mask (maskAt + i) then push (symbol + Fin.ofNat 256 i) st else st

/-- The hand-written comparisons are a loop over the eight bytes. -/
theorem checkWord_foldl (push : Byte → σ → σ) (x : Nat) (symbol : Byte) (st : σ) :
    checkWord push x symbol st = (List.range 8).foldl (fun st i =>
      if x &&& (0xff <<< (8 * i)) = 0 then push (symbol + Fin.ofNat 256 i) st else st) st := by
  have h0 : push symbol st = push (symbol + Fin.ofNat 256 0) st := by simp
  rw [checkWord, h0]
  rfl

theorem checkWord_eq (labels mask : Nat → Byte) (push : Byte → σ → σ) (labelsAt maskAt : Nat)
    (symbol : Byte) (st : σ) :
    checkWord push (ByteOrder.littleEndian.load labels labelsAt ^^^
        ByteOrder.littleEndian.load mask maskAt) symbol st =
      (List.range 8).foldl (pushIf labels mask push labelsAt maskAt symbol) st := by
  rw [checkWord_foldl]
  refine List.foldl_ext _ _ _ fun st i hi => ?_
  have hlt := List.mem_range.mp hi
  have hbyte := xor_and_mask (ByteOrder.littleEndian.load labels labelsAt)
    (ByteOrder.littleEndian.load mask maskAt) i
  rw [ByteOrder.load, ByteOrder.load, digitsAt_div labels labelsAt hlt,
    digitsAt_div mask maskAt hlt, Fin.val_inj] at hbyte
  simp only [pushIf, ByteOrder.load, hbyte]

theorem pushBits_eq (push : Byte → σ → σ) (symbol : Byte) : ∀ (n i maskInt : Nat) (st : σ),
    pushBits push symbol n i maskInt st = (List.range' i n).foldl (fun st k =>
      if maskInt.testBit (k - i) then push (symbol + Fin.ofNat 256 k) st else st) st
  | 0, i, maskInt, st => rfl
  | n + 1, i, maskInt, st => by
    have hfirst : (maskInt &&& 1 = 1) = (maskInt.testBit (i - i) = true) := by
      rw [Nat.sub_self, Nat.testBit_zero, Nat.and_one_is_mod, decide_eq_true_eq]
    rw [pushBits, pushBits_eq push symbol n, List.range'_succ, List.foldl_cons]
    simp only [hfirst]
    refine List.foldl_ext _ _ _ fun st k hk => ?_
    have hle := (List.mem_range'_1.mp hk).1
    rw [Nat.testBit_shiftRight, show 1 + (k - (i + 1)) = k - i by omega]

theorem checkBlock_eq (labels mask : Nat → Byte) (push : Byte → σ → σ) (labelsAt maskAt : Nat)
    (symbol : Byte) (st : σ) :
    checkBlock push (cmpestrm labels mask labelsAt maskAt) symbol st =
      (List.range 16).foldl (pushIf labels mask push labelsAt maskAt symbol) st := by
  have hbits : pushBits push symbol 16 0 (cmpestrm labels mask labelsAt maskAt) st =
      (List.range 16).foldl (pushIf labels mask push labelsAt maskAt symbol) st := by
    rw [pushBits_eq, List.range_eq_range']
    refine List.foldl_ext _ _ _ fun st k hk => ?_
    have hlt : k < 16 := by simpa using hk
    simp only [Nat.sub_zero, cmpestrm, Nat.testBit_ofBits_lt _ _ hlt, decide_eq_true_eq, pushIf]
  rw [← hbits, checkBlock]
  split
  · rfl
  · next h =>
    -- No label of the block is equal.
    rw [not_not] at h
    simp [h, pushBits_eq]

theorem symbol_add (m n : Nat) :
    (Fin.ofNat 256 m + Fin.ofNat 256 n : Byte) = Fin.ofNat 256 (m + n) := by
  simp only [Fin.ofNat, Fin.ext_iff, Fin.val_add]
  omega

/-- The loop over the blocks of a state: both pointers and the symbol go on by a block. -/
def blockLoop (width : Nat) (check : Nat → Nat → Byte → σ → σ) :
    Nat → Nat → Nat → Byte → σ → σ
  | 0, _, _, _, st => st
  | n + 1, labelsAt, maskAt, symbol, st =>
    blockLoop width check n (labelsAt + width) (maskAt + width) (symbol + Fin.ofNat 256 width)
      (check labelsAt maskAt symbol st)

/-- A loop that looks at every label of its blocks looks at the labels one by one. -/
theorem blockLoop_eq (labels : Nat → Byte) (push : Byte → σ → σ) (width s : Nat)
    {check : Nat → Nat → Byte → σ → σ}
    (hcheck : ∀ labelsAt start symbol st, check labelsAt start symbol st =
      (List.range width).foldl (pushIf labels maskAt push labelsAt start symbol) st) :
    ∀ (n k : Nat) (st : σ),
      blockLoop width check n (s + k) k (Fin.ofNat 256 k) st =
        (List.range' k (n * width)).foldl
          (fun st i => if labels (s + i) = maskAt i then push (Fin.ofNat 256 i) st else st) st
  | 0, k, st => by simp [blockLoop]
  | n + 1, k, st => by
    have hblock : (List.range width).foldl
        (pushIf labels maskAt push (s + k) k (Fin.ofNat 256 k)) st =
        (List.range' k width).foldl
          (fun st i => if labels (s + i) = maskAt i then push (Fin.ofNat 256 i) st else st) st := by
      rw [List.range'_eq_map_range, List.foldl_map]
      refine List.foldl_ext _ _ _ fun st i _ => ?_
      rw [pushIf, Nat.add_assoc, symbol_add]
    rw [blockLoop, symbol_add, Nat.add_assoc, blockLoop_eq labels push width s hcheck n, hcheck,
      hblock, ← List.foldl_append, Nat.succ_mul, Nat.add_comm (n * width), List.range'_append_1]

theorem foldl_labels (a : Automata) (s : Nat) (push : Byte → σ → σ) (st : σ) :
    (List.range' 0 256).foldl
        (fun st i => if a.labels (s + i) = maskAt i then push (Fin.ofNat 256 i) st else st) st =
      (a.outgoingLabels s).foldl (fun st c => push c st) st := by
  rw [Automata.outgoingLabels, List.foldl_filter, ← List.range_eq_range',
    ← List.map_coe_finRange_eq_range, List.foldl_map]
  refine List.foldl_ext _ _ _ fun st c _ => ?_
  simp [maskAt_val]

namespace Automata

variable {τ π : Type} [TransitionT τ π]

/-- What the branches of both loops do with a label. -/
def push (a : Automata) (startingState parentWeight depth : Nat) (payload : π) (c : Byte)
    (st : TraversalState τ) : TraversalState τ :=
  let childState := a.resolvePointer startingState c
  let weight := TransitionT.childWeight τ a parentWeight childState
  TransitionT.add childState weight c depth payload st

/-- `GetOutGoingTransitions`, eight labels at a time. -/
def getOutGoingTransitionsByWords (order : ByteOrder) (a : Automata)
    (startingState parentWeight depth : Nat) (payload : π) : TraversalState τ × π :=
  let check := fun labelsAt start =>
    checkWord (a.push startingState parentWeight depth payload)
      (order.load a.labels labelsAt ^^^ order.load maskAt start)
  TransitionT.postProcess depth (blockLoop 8 check 32 startingState 0 0 TransitionT.clear) payload

/-- `GetOutGoingTransitions` with `KEYVI_SSE42`, sixteen labels at a time. -/
def getOutGoingTransitionsBySse (a : Automata) (startingState parentWeight depth : Nat)
    (payload : π) : TraversalState τ × π :=
  let check := fun labelsAt start =>
    checkBlock (a.push startingState parentWeight depth payload)
      (cmpestrm a.labels maskAt labelsAt start)
  TransitionT.postProcess depth (blockLoop 16 check 16 startingState 0 0 TransitionT.clear) payload

theorem getOutGoingTransitionsByWords_eq (a : Automata) (s w d : Nat) (payload : π) :
    a.getOutGoingTransitionsByWords (τ := τ) .littleEndian s w d payload =
      a.getOutGoingTransitions s w d payload := by
  have h := blockLoop_eq a.labels (a.push (τ := τ) s w d payload) 8 s
    (fun labelsAt start symbol st => checkWord_eq a.labels maskAt _ labelsAt start symbol st)
    32 0 TransitionT.clear
  rw [foldl_labels] at h
  exact congrArg (TransitionT.postProcess d · payload) h

theorem getOutGoingTransitionsBySse_eq (a : Automata) (s w d : Nat) (payload : π) :
    a.getOutGoingTransitionsBySse (τ := τ) s w d payload =
      a.getOutGoingTransitions s w d payload := by
  have h := blockLoop_eq a.labels (a.push (τ := τ) s w d payload) 16 s
    (fun labelsAt start symbol st => checkBlock_eq a.labels maskAt _ labelsAt start symbol st)
    16 0 TransitionT.clear
  rw [foldl_labels] at h
  exact congrArg (TransitionT.postProcess d · payload) h

end Automata

/-! ## What the enumerations list -/

namespace Automata

/-- The pairs of label and target. -/
def pairsOf (st : TraversalState Transition) : List (Byte × Nat) :=
  st.transitions.map fun t => (t.label, t.state)

/-- One call of `TryWalkTransition` for every label; 0 is no target. -/
def tryWalkTransitions (a : Automata) (s : Nat) : List (Byte × Nat) :=
  ((List.finRange 256).map fun c => (c, a.tryWalkTransition s c)).filter fun x => x.2 ≠ 0

/-- The weight of a child, that of the parent where the child has none. -/
def weightBelow (a : Automata) (parentWeight target : Nat) : Nat :=
  if a.getInnerWeight target ≠ 0 then a.getInnerWeight target else parentWeight

/-- The weighted transitions for a list of pairs. -/
def weightedTransitions (a : Automata) (parentWeight : Nat) (pairs : List (Byte × Nat)) :
    List WeightedTransition :=
  pairs.map fun x => ⟨x.2, a.weightBelow parentWeight x.2, x.1⟩

/-- The pairs that all enumerations are about. -/
def outgoingPairs (a : Automata) (s : Nat) : List (Byte × Nat) :=
  (a.outgoingLabels s).map fun c => (c, a.resolvePointer s c)

theorem tryWalkTransitions_eq (a : Automata) (s : Nat) :
    a.tryWalkTransitions s = (a.outgoingPairs s).filter fun x => x.2 ≠ 0 := by
  rw [tryWalkTransitions, outgoingPairs, outgoingLabels, List.filter_map, List.filter_map,
    List.filter_filter]
  -- A label without a transition gives 0, which the filter leaves out.
  have hfilter : (List.finRange 256).filter ((fun x : Byte × Nat => decide (x.2 ≠ 0)) ∘
      fun c => (c, a.tryWalkTransition s c)) =
      (List.finRange 256).filter fun c => ((fun x : Byte × Nat => decide (x.2 ≠ 0)) ∘
        fun c => (c, a.resolvePointer s c)) c && decide (a.labels (s + c.val) = c) := by
    refine List.filter_congr fun c _ => ?_
    by_cases h : a.labels (s + c.val) = c <;> simp [tryWalkTransition, h]
  rw [hfilter]
  refine List.map_congr_left fun c hc => ?_
  have hl : a.labels (s + c.val) = c := by
    simpa using (Bool.and_eq_true_iff.mp (List.mem_filter.mp hc).2).2
  rw [tryWalkTransition, if_pos hl]

theorem pairsOf_getOutGoingTransitions (a : Automata) (s w d : Nat) :
    pairsOf (a.getOutGoingTransitions (τ := Transition) s w d ()).1 = a.outgoingPairs s := by
  rw [Transition.getOutGoingTransitions_eq, pairsOf, outgoingPairs, List.map_map]
  rfl

theorem foldl_addWeighted (a : Automata) (s w d : Nat) (payload : WeightedPayload) :
    ∀ (l : List Byte) (st : TraversalState WeightedTransition),
      l.foldl (fun st c => a.push s w d payload c st) st =
        ⟨st.transitions ++
          (a.weightedTransitions w (l.map fun c => (c, a.resolvePointer s c))).filter
            (payload.minWeight ≤ ·.weight), st.position⟩
  | [], st => by simp [weightedTransitions]
  | c :: l, st => by
    rw [List.foldl_cons, foldl_addWeighted a s w d payload l]
    have hpush : a.push s w d payload c st =
        if payload.minWeight ≤ a.weightBelow w (a.resolvePointer s c) then
          { st with transitions := st.transitions ++
              [⟨a.resolvePointer s c, a.weightBelow w (a.resolvePointer s c), c⟩] }
        else st := rfl
    rw [hpush]
    by_cases hmin : payload.minWeight ≤ a.weightBelow w (a.resolvePointer s c) <;>
      simp [weightedTransitions, hmin]

theorem getOutGoingTransitions_weighted (a : Automata) (s w d : Nat) (payload : WeightedPayload) :
    a.getOutGoingTransitions (τ := WeightedTransition) s w d payload =
      (⟨StableSort.sort WeightedTransition.weight
        ((a.weightedTransitions w (a.outgoingPairs s)).filter (payload.minWeight ≤ ·.weight)),
          0⟩, payload) := by
  have h := foldl_addWeighted a s w d payload (a.outgoingLabels s) TransitionT.clear
  exact congrArg (TransitionT.postProcess d · payload) h

/-- All enumerations at a state list these pairs; the weighted ones keep what is not below the
minimum weight of the payload. -/
structure Enumerates (a : Automata) (s : Nat) (pairs : List (Byte × Nat)) : Prop where
  ascending : pairs.Pairwise fun x y => x.1 < y.1
  words : ∀ w d,
    pairsOf (a.getOutGoingTransitionsByWords (τ := Transition) .littleEndian s w d ()).1 = pairs
  sse : ∀ w d, pairsOf (a.getOutGoingTransitionsBySse (τ := Transition) s w d ()).1 = pairs
  single : a.tryWalkTransitions s = pairs.filter fun x => x.2 ≠ 0
  weightedWords : ∀ w d (payload : WeightedPayload),
    (a.getOutGoingTransitionsByWords (τ := WeightedTransition) .littleEndian s w d
        payload).1.transitions =
      StableSort.sort WeightedTransition.weight
        ((a.weightedTransitions w pairs).filter (payload.minWeight ≤ ·.weight))
  weightedSse : ∀ w d (payload : WeightedPayload),
    (a.getOutGoingTransitionsBySse (τ := WeightedTransition) s w d payload).1.transitions =
      StableSort.sort WeightedTransition.weight
        ((a.weightedTransitions w pairs).filter (payload.minWeight ≤ ·.weight))

/-- **The enumerations of the outgoing transitions agree.** Single calls cannot tell a target 0 from
no transition. -/
theorem enumerates (a : Automata) (s : Nat) : Enumerates a s (a.outgoingPairs s) where
  ascending := List.pairwise_map.mpr (pairwise_outgoingLabels a s)
  words w d := by
    rw [getOutGoingTransitionsByWords_eq, pairsOf_getOutGoingTransitions]
  sse w d := by
    rw [getOutGoingTransitionsBySse_eq, pairsOf_getOutGoingTransitions]
  single := tryWalkTransitions_eq a s
  weightedWords w d payload := by
    rw [getOutGoingTransitionsByWords_eq, getOutGoingTransitions_weighted]
  weightedSse w d payload := by
    rw [getOutGoingTransitionsBySse_eq, getOutGoingTransitions_weighted]

/-- An automaton with one transition, for the label `c` at offset 0. -/
def oneTransition (c : Byte) (cell : Nat) : Automata where
  numberOfKeys := 1
  startState := 0
  labels x := if x = c.val then c else Fin.ofNat 256 (x + 1)
  transitionsCompact x := if x = c.val then cell else 0

/-- The cell holds the absolute address 0: the loops list the transition, a call gives 0. A machine
with the high byte first finds the transition for label 7 at label 0. -/
theorem not_enumerates :
    pairsOf ((oneTransition 1 0xC000).getOutGoingTransitionsBySse (τ := Transition) 0 0 0 ()).1 ≠
        (oneTransition 1 0xC000).tryWalkTransitions 0 ∧
      pairsOf ((oneTransition 7 0xC200).getOutGoingTransitionsByWords (τ := Transition) .bigEndian 0 0 0
          ()).1 ≠
        (oneTransition 7 0xC200).tryWalkTransitions 0 := by
  decide +kernel

end Automata

end Keyvi.Fsa
