import Mathlib
import Keyvi.Fsa.Automata
import Keyvi.Fsa.TransitionCodec
import Keyvi.Library.Run

/-!
# Writing a state

`WriteState` of `sparse_array_builder.h`: the automaton reads the transitions and the final value of
every state that was written, whatever is written behind it.
-/

namespace Keyvi.Fsa

open SparseArrayPersistence (Mirrors mirrors_new)

/-! ## Taken positions -/

namespace PositionTracker

variable {t : PositionTracker} {S : Set Nat}

theorem start_le_slide (t : PositionTracker) (window : Nat) : t.start ≤ (t.slide window).start := by
  unfold PositionTracker.start
  rw [windowStartPosition_slide]
  exact Nat.mul_le_mul_right _ (Nat.sub_le_sub_right (le_max_left _ _) _)

theorem start_le_set (t : PositionTracker) (p : Nat) : t.start ≤ (t.set p).start := by
  rw [(puts_set t p).start]
  exact start_le_slide t _

theorem start_le_setVector (t : PositionTracker) (r : RequestedPositions) (p : Nat) :
    t.start ≤ (t.setVector r p).start := by
  have hwindow : (t.setVector r p).windowStartPosition =
      (t.slide ((261 + p) / 2048)).windowStartPosition := by
    rw [PositionTracker.setVector]
    dsimp only
    split_ifs <;> rfl
  have hle := start_le_slide t ((261 + p) / 2048)
  unfold PositionTracker.start at hle ⊢
  rwa [hwindow]

theorem start_le_foldl_set : ∀ (l : List Nat) (t : PositionTracker),
    t.start ≤ (l.foldl PositionTracker.set t).start
  | [], _ => le_rfl
  | p :: l, t => (start_le_set t p).trans (start_le_foldl_set l (t.set p))

theorem Covers.foldl_set : ∀ (l : List Nat) {t : PositionTracker} {S : Set Nat}, t.Covers S →
    (l.foldl PositionTracker.set t).Covers (S ∪ {i | i ∈ l})
  | [], t, S, h => by simpa using h
  | p :: l, t, S, h => by
    have hset := Covers.foldl_set l ((h.slide (p / 2048)).puts (puts_set t p))
    rwa [show S ∪ {i | i ∈ p :: l} = S ∪ {p} ∪ {i | i ∈ l} by
      ext i
      simp only [Set.mem_union, Set.mem_ofPred_eq, List.mem_cons, Set.mem_singleton_iff, or_assoc]]

end PositionTracker

/-! ## A transition -/

/-- The cells of a transition or of a final value. -/
def UnpackedTransition.cells (t : UnpackedTransition) (offset : Nat) : List Nat :=
  if t.label < 256 then [offset + t.label]
  else List.range' (offset + 256) (Vint.shorts t.value.toNat).length

theorem UnpackedTransition.cells_disjoint {t t' : UnpackedTransition} {offset i : Nat}
    (ht : t.label ≤ 256) (ht' : t'.label ≤ 256) (hne : t.label ≠ t'.label) (hi : i ∈ t.cells offset) :
    i ∉ t'.cells offset := by
  rw [cells] at hi ⊢
  split at hi <;> split <;> simp only [List.mem_singleton, List.mem_range'_1] at hi ⊢ <;> omega

/-- A transition or a final value as it is read from the array, with a way to read numbers. -/
def FlatArray.ReadsTransition (f : FlatArray) (readBucket : Nat → Option Nat) (offset : Nat)
    (t : UnpackedTransition) : Prop :=
  if t.label < 256 then
    f.labels (offset + t.label) = Fin.ofNat 256 t.label ∧
      resolve readBucket (offset + t.label) (f.transitions (offset + t.label)) = some t.value.toNat
  else f.labels (offset + 256) = 1 ∧ readBucket (offset + 256) = some t.value.toNat

/-! ## The automaton of an array -/

/-- The automaton has the cells of the array. -/
structure Loads (a : Automata) (f : FlatArray) : Prop where
  labels : ∀ i, a.labels i = f.labels i
  transitions : ∀ i, a.transitionsCompact i = (f.transitions i).val

variable {a : Automata} {f : FlatArray} {offset : Nat}

theorem Loads.decodes (h : Loads a f) : f.Decodes fun start => some (a.decodeVarShort start) := by
  intro start value hvalue hheld
  have hlength : (Vint.shorts value).length = (Varlen.encode (2 ^ 15) value).length :=
    List.length_map _
  have hholds : Varlen.Holds a.transitionsCompact start (Varlen.encode (2 ^ 15) value) := by
    refine Varlen.holds_iff.mpr fun i hi => ?_
    rw [h.transitions, hheld i (hlength ▸ hi), ← List.getElem_of_eq (Vint.map_val_shorts value)
      (by rwa [List.length_map, hlength]), List.getElem_map]
  show some (a.decodeVarShort start) = some value
  have hdecode : Varlen.decode 32768 a.transitionsCompact 5 start = value :=
    Varlen.decode_encode (by decide) _ value 5 start hholds
      (Varlen.length_encode_le (by decide) 4 value (hvalue.trans (by decide)))
  rw [Automata.decodeVarShort, hdecode, Nat.mod_eq_of_lt hvalue]

/-- `ResolvePointer` of the automaton is `ResolveTransitionValue` of the persistence. -/
theorem Loads.resolvePointer (h : Loads a f) {state v : Nat} {c : Byte}
    (hread : resolve (fun start => some (a.decodeVarShort start)) (state + c.val)
      (f.transitions (state + c.val)) = some v) : a.resolvePointer state c = v := by
  rw [Automata.resolvePointer, h.transitions]
  dsimp only
  rw [resolve] at hread
  by_cases habsolute : (f.transitions (state + c.val)).val &&& 0xC000 = 0xC000
  · rw [if_pos habsolute] at hread ⊢
    exact Option.some.inj hread
  rw [if_neg habsolute] at hread ⊢
  by_cases hoverflow : (f.transitions (state + c.val)).val &&& 0x8000 ≠ 0
  · rw [if_pos hoverflow] at hread ⊢
    exact Option.some.inj hread
  · rw [if_neg hoverflow] at hread ⊢
    exact Option.some.inj hread

/-- The automaton reads the transitions and the final value of a state. -/
def Automata.ReadsState (a : Automata) (offset : Nat) (u : UnpackedState) : Prop :=
  ∀ t ∈ u.outgoing,
    (t.label < 256 → a.tryWalkTransition offset (Fin.ofNat 256 t.label) = t.value.toNat) ∧
    (t.label = 256 → a.isFinalState offset = true ∧ a.getStateValue offset = t.value.toNat)

theorem Loads.readsState (h : Loads a f) {u : UnpackedState} (hreads : ∀ t ∈ u.outgoing,
    f.ReadsTransition (fun start => some (a.decodeVarShort start)) offset t) :
    a.ReadsState offset u := by
  intro t hm
  have ht := hreads t hm
  rw [FlatArray.ReadsTransition] at ht
  constructor
  · intro hlabel
    have hval : (Fin.ofNat 256 t.label).val = t.label := Nat.mod_eq_of_lt hlabel
    rw [if_pos hlabel] at ht
    rw [Automata.tryWalkTransition, hval, h.labels, if_pos ht.1]
    exact h.resolvePointer (by rw [hval]; exact ht.2)
  · intro hlabel
    rw [if_neg (by omega)] at ht
    refine ⟨decide_eq_true ((h.labels _).trans ht.1), Option.some.inj ht.2⟩

namespace SparseArrayBuilder

variable {o : ByteOrder} {b b' : SparseArrayBuilder} {f : FlatArray} {offset : Nat} {S : Set Nat}
  {t : UnpackedTransition} {u : UnpackedState}

/-- A round of the second pass of `WriteState`. -/
def writeOne (o : ByteOrder) (offset : Nat) (b : SparseArrayBuilder) (t : UnpackedTransition) :
    Option SparseArrayBuilder :=
  if t.label < 256 then
    b.writeTransition o (offset + t.label) (Fin.ofNat 256 t.label) t.value.toNat
  else b.writeFinalTransition o offset t.value.toNat

theorem writeOutgoing_cons (ts : List UnpackedTransition) :
    writeOutgoing o offset b (t :: ts) =
      (writeOne o offset b t).bind fun b => writeOutgoing o offset b ts := rfl

theorem start_le_writeOne (hb : writeOne o offset b t = some b') :
    b.takenPositions.start ≤ b'.takenPositions.start := by
  rw [writeOne] at hb
  split at hb
  · rw [writeTransition_takenPositions hb]
    exact PositionTracker.start_le_foldl_set _ _
  · rw [writeFinalTransition] at hb
    rw [writeCells_takenPositions hb]

theorem start_le_writeOutgoing : ∀ {ts : List UnpackedTransition} {b : SparseArrayBuilder},
    writeOutgoing o offset b ts = some b' → b.takenPositions.start ≤ b'.takenPositions.start
  | [], b, h => by rw [Option.some.inj h]
  | t :: ts, b, h => by
    rw [writeOutgoing_cons] at h
    obtain ⟨b₁, hone, h⟩ := Option.bind_eq_some_iff.mp h
    exact (start_le_writeOne hone).trans (start_le_writeOutgoing h)

theorem InWindow.le {transitionPointer i : Nat} (h : b.InWindow offset transitionPointer)
    (hi : i ∈ b.overflowCells offset transitionPointer) : offset ≤ i + 512 := by
  by_cases hover : Overflows offset transitionPointer
  · cases hfound : b.overflowPlace offset transitionPointer with
    | none => simp [overflowCells, hfound] at hi
    | some place =>
      rw [overflowCells_of_overflows hover hfound, List.mem_range'_1] at hi
      have := (h place hover hfound).1
      omega
  · rw [overflowCells, if_neg hover] at hi
    cases hi

/-- One transition: apart from its cells, only cells that were free change. -/
theorem writeOne_spec (hm : Mirrors o b.persistence f) (hS : b.takenPositions.Covers S)
    (hoffset : offset + 256 < 2 ^ 63) (hcells : ∀ i ∈ t.cells offset, i ∈ S)
    (hstart : b.takenPositions.start ≤ offset - 512)
    (hwindow : t.label < 256 → b.InWindow (offset + t.label) t.value.toNat)
    (hb : writeOne o offset b t = some b') :
    ∃ f' T, Mirrors o b'.persistence f' ∧ b'.takenPositions.Covers (S ∪ T) ∧ (∀ i ∈ T, i ∉ S) ∧
      (∀ i ∈ S, i ∉ t.cells offset → f.SameAt f' i) ∧
      ∀ (f'' : FlatArray) (readBucket : Nat → Option Nat), f''.Decodes readBucket →
        (∀ i, i ∈ t.cells offset ∨ i ∈ T → f'.SameAt f'' i) →
          f''.ReadsTransition readBucket offset t := by
  rw [writeOne] at hb
  by_cases hlabel : t.label < 256
  · rw [if_pos hlabel] at hb
    have hcell : t.cells offset = [offset + t.label] := if_pos hlabel
    have hown : offset + t.label ∈ t.cells offset := by
      rw [hcell]
      exact List.mem_singleton.mpr rfl
    obtain ⟨f', hm', hlabels, hrest, hresolves, -⟩ :=
      writeTransition_spec hm (by omega) t.value.isLt hb
    have hfree : ∀ i ∈ b.overflowCells (offset + t.label) t.value.toNat, i ∉ S := by
      intro i hi hin
      have := (hwindow hlabel).le hi
      exact Bool.false_ne_true ((overflowCells_free hi).symm.trans (hS.isSet (by omega) hin))
    refine ⟨f', {i | i ∈ b.overflowCells (offset + t.label) t.value.toNat}, hm', ?_, hfree,
      fun i hi hne => hrest i (fun hin => hfree i hin hi) ?_,
      fun f'' readBucket hdecodes hsame => ?_⟩
    · rw [writeTransition_takenPositions hb]
      exact PositionTracker.Covers.foldl_set _ hS
    · rintro rfl
      exact hne hown
    · rw [FlatArray.ReadsTransition, if_pos hlabel]
      refine ⟨(hsame _ (.inl hown)).1.trans hlabels, hresolves f'' readBucket hdecodes
        (fun i hi => hsame i ?_) (fun hin => hfree _ hin (hcells _ hown)) (hwindow hlabel)⟩
      rcases hi with rfl | hi
      · exact .inl hown
      · exact .inr hi
  · rw [if_neg hlabel, writeFinalTransition] at hb
    have hcell : t.cells offset = List.range' (offset + 256) (Vint.shorts t.value.toNat).length :=
      if_neg hlabel
    have hown : ∀ j < (Vint.shorts t.value.toNat).length, offset + 256 + j ∈ t.cells offset := by
      intro j hj
      rw [hcell, List.mem_range'_1]
      omega
    have hpos : 0 < (Vint.shorts t.value.toNat).length := by
      rw [Vint.shorts, List.length_map]
      exact Varlen.length_encode_pos _ _
    obtain ⟨f', hm', hhead, hheld, hrest⟩ := writeCells_mirrors hm hb
    refine ⟨f', ∅, hm', ?_, fun i hi => absurd hi (Set.notMem_empty i), fun i _ hne => hrest i ?_,
      fun f'' readBucket hdecodes hsame => ?_⟩
    · rw [writeCells_takenPositions hb, Set.union_empty]
      exact hS
    · rw [hcell, List.mem_range'_1] at hne
      omega
    · rw [FlatArray.ReadsTransition, if_neg hlabel]
      refine ⟨(hsame _ (.inl (hown 0 hpos))).1.trans (hhead (List.length_pos_iff.mp hpos)), ?_⟩
      exact hdecodes _ _ t.value.isLt fun j hj =>
        (hsame _ (.inl (hown j hj))).2.trans (hheld j hj)

/-! ## All transitions of a state -/

/-- Every overflow bucket can be reached from the transition that needs it. -/
def AllInWindow (o : ByteOrder) (offset : Nat) (b : SparseArrayBuilder)
    (ts : List UnpackedTransition) : Prop :=
  Run.Along (writeOne o offset)
    (fun b t => t.label < 256 → b.InWindow (offset + t.label) t.value.toNat) b ts

/-- The transitions of a state are read back as long as their cells and their overflow buckets stay. -/
theorem writeOutgoing_spec (hoffset : offset + 256 < 2 ^ 63) :
    ∀ {ts : List UnpackedTransition} {b : SparseArrayBuilder} {f : FlatArray} {S : Set Nat},
      Mirrors o b.persistence f → b.takenPositions.Covers S →
      (ts.map UnpackedTransition.label).Nodup → (∀ t ∈ ts, t.label ≤ 256) →
      (∀ t ∈ ts, ∀ i ∈ t.cells offset, i ∈ S) → AllInWindow o offset b ts →
      writeOutgoing o offset b ts = some b' → b'.takenPositions.start ≤ offset - 512 →
        ∃ f' T, Mirrors o b'.persistence f' ∧ b'.takenPositions.Covers (S ∪ T) ∧ (∀ i ∈ T, i ∉ S) ∧
          (∀ i ∈ S, (∀ t ∈ ts, i ∉ t.cells offset) → f.SameAt f' i) ∧
          ∀ (f'' : FlatArray) (readBucket : Nat → Option Nat), f''.Decodes readBucket →
            (∀ i, ((∃ t ∈ ts, i ∈ t.cells offset) ∨ i ∈ T) → f'.SameAt f'' i) →
              ∀ t ∈ ts, f''.ReadsTransition readBucket offset t
  | [], b, f, S, hm, hS, _, _, _, _, h, _ => by
    obtain rfl := Option.some.inj h
    refine ⟨f, ∅, hm, ?_, fun i hi => absurd hi (Set.notMem_empty i), fun _ _ _ => ⟨rfl, rfl⟩,
      fun _ _ _ _ t ht => absurd ht List.not_mem_nil⟩
    rw [Set.union_empty]
    exact hS
  | t :: ts, b, f, S, hm, hS, hnodup, hbound, hcells, hwindow, h, hstart => by
    rw [writeOutgoing_cons] at h
    obtain ⟨b₁, hone, h⟩ := Option.bind_eq_some_iff.mp h
    have hle := (start_le_writeOne hone).trans (start_le_writeOutgoing h)
    obtain ⟨f₁, T₁, hm₁, hS₁, hfree₁, hkept₁, hreads₁⟩ := writeOne_spec hm hS hoffset
      (hcells t List.mem_cons_self) (by omega) hwindow.1 hone
    rw [List.map_cons, List.nodup_cons] at hnodup
    obtain ⟨f', T₂, hm', hS', hfree₂, hkept₂, hreads₂⟩ := writeOutgoing_spec hoffset hm₁ hS₁ hnodup.2
      (fun t' ht' => hbound t' (List.mem_cons_of_mem _ ht'))
      (fun t' ht' i hi => .inl (hcells t' (List.mem_cons_of_mem _ ht') i hi)) (hwindow.2 b₁ hone) h
      hstart
    -- The other transitions keep out of the cells of this one and of its overflow bucket.
    have hothers : ∀ i, i ∈ t.cells offset ∨ i ∈ T₁ → ∀ t' ∈ ts, i ∉ t'.cells offset := by
      rintro i (hi | hi) t' ht'
      · refine UnpackedTransition.cells_disjoint (hbound t List.mem_cons_self)
          (hbound t' (List.mem_cons_of_mem _ ht')) (fun heq => hnodup.1 ?_) hi
        rw [heq]
        exact List.mem_map_of_mem ht'
      · exact fun hin => hfree₁ i hi (hcells t' (List.mem_cons_of_mem _ ht') i hin)
    refine ⟨f', T₁ ∪ T₂, hm', ?_, ?_, fun i hi hnot => ?_,
      fun f'' readBucket hdecodes hsame t' ht' => ?_⟩
    · rwa [← Set.union_assoc]
    · rintro i (hi | hi)
      · exact hfree₁ i hi
      · exact fun hin => hfree₂ i hi (.inl hin)
    · exact (hkept₁ i hi (hnot t List.mem_cons_self)).trans
        (hkept₂ i (.inl hi) fun t' ht' => hnot t' (List.mem_cons_of_mem _ ht'))
    · rcases List.mem_cons.mp ht' with rfl | ht'
      · refine hreads₁ f'' readBucket hdecodes fun i hi =>
          (hkept₂ i ?_ (hothers i hi)).trans (hsame i ?_)
        · exact hi.imp (hcells t' List.mem_cons_self i) id
        · exact hi.imp (fun hin => ⟨t', List.mem_cons_self, hin⟩) .inl
      · refine hreads₂ f'' readBucket hdecodes (fun i hi => hsame i ?_) t' ht'
        rcases hi with ⟨t'', ht'', hi⟩ | hi
        · exact .inl ⟨t'', List.mem_cons_of_mem _ ht'', hi⟩
        · exact .inr (.inr hi)

/-! ## A state -/

/-- The cells of the transitions are requested. -/
def Requested (u : UnpackedState) : Prop :=
  ∀ t ∈ u.outgoing, ∀ i ∈ t.cells 0, u.bitVector.Has i

theorem Requested.mem_shifted (h : Requested u) {i : Nat} (ht : t ∈ u.outgoing)
    (hi : i ∈ t.cells offset) : i ∈ PositionTracker.shifted u.bitVector offset := by
  have hzero : offset ≤ i ∧ i - offset ∈ t.cells 0 := by
    rw [UnpackedTransition.cells] at hi ⊢
    split at hi <;> simp only [List.mem_singleton, List.mem_range'_1, *, if_true, if_false] at hi ⊢ <;>
      omega
  exact ⟨hzero.1, h t ht _ hzero.2⟩

theorem has_foldl_set_of_mem {α : Type} (g : α → Fin 261) : ∀ (l : List α) {r : RequestedPositions}
    {x : α}, x ∈ l → (l.foldl (fun r i => r.set (g i)) r).Has (g x)
  | y :: l, r, x, hx => by
    rcases List.mem_cons.mp hx with rfl | hx
    · exact RequestedPositions.has_foldl_set g l ((r.has_set _ _).mpr (.inr rfl))
    · exact has_foldl_set_of_mem g l hx

theorem requested_new : Requested .new := fun _ ht => absurd ht List.not_mem_nil

theorem Requested.add (h : Requested u) (label : Byte) (value : BitVec 64) :
    Requested (u.add label value) := by
  intro t ht i hi
  refine (RequestedPositions.has_set _ _ _).mpr ?_
  rcases List.mem_append.mp ht with ht | ht
  · exact .inl (h t ht i hi)
  · obtain rfl := List.mem_singleton.mp ht
    rw [UnpackedTransition.cells, if_pos label.isLt, List.mem_singleton, Nat.zero_add] at hi
    exact .inr hi

theorem Requested.addFinalState (h : Requested u) (value : BitVec 64) :
    Requested (u.addFinalState value) := by
  intro t ht i hi
  rcases List.mem_append.mp ht with ht | ht
  · exact RequestedPositions.has_foldl_set _ _ (h t ht i hi)
  · obtain rfl := List.mem_singleton.mp ht
    have hlength : (Vint.shorts value.toNat).length ≤ 5 := by
      rw [Vint.shorts, List.length_map]
      exact Varlen.length_encode_le (by decide) 4 value.toNat (value.isLt.trans (by decide))
    rw [show UnpackedTransition.cells ⟨256, value⟩ 0 = List.range' 256 (Vint.shorts value.toNat).length
      from if_neg (lt_irrefl 256), List.mem_range'_1] at hi
    have hmem := has_foldl_set_of_mem (fun i => Fin.ofNat 261 (256 + i))
      (List.range (Vint.getVarShortLength value.toNat)) (r := u.bitVector) (x := i - 256)
      (by rw [List.mem_range, Vint.getVarShortLength_eq]; omega)
    have hval : (Fin.ofNat 261 (256 + (i - 256))).val = i := by
      rw [Fin.val_ofNat]
      exact (Nat.mod_eq_of_lt (by omega)).trans (by omega)
    rwa [hval] at hmem

theorem blockBefore_persistence (b : SparseArrayBuilder) (offset : Nat) (u : UnpackedState) :
    (b.blockBefore offset u).persistence = b.persistence ∧
      (b.blockBefore offset u).takenPositions = b.takenPositions := by
  rw [blockBefore]
  split <;> exact ⟨rfl, rfl⟩

theorem overflowCells_zero (b : SparseArrayBuilder) (offset : Nat) : b.overflowCells offset 0 = [] :=
  if_neg fun hover => absurd hover.2 (by decide)

theorem writeZerobyte_takenPositions (hb : b.writeZerobyte o offset u = some b') :
    b'.takenPositions = b.takenPositions := by
  rw [writeZerobyte] at hb
  split at hb
  · rw [writeTransition_takenPositions hb, overflowCells_zero, List.foldl_nil]
    split <;> rfl
  · rw [Option.some.inj hb]

/-- The zero byte of a state without one goes into a cell that is not taken. -/
theorem writeZerobyte_spec (hm : Mirrors o b.persistence f) (hoffset : offset < 2 ^ 63)
    (hb : b.writeZerobyte o offset u = some b') :
    ∃ f', Mirrors o b'.persistence f' ∧
      ∀ i, (i = offset → b.takenPositions.isSet i = true) → f.SameAt f' i := by
  rw [writeZerobyte] at hb
  split at hb
  · next hfree =>
    have hwrite : ∀ b₀ : SparseArrayBuilder, b₀.persistence = b.persistence →
        b₀.writeTransition o offset u.zerobyteLabel 0 = some b' →
          ∃ f', Mirrors o b'.persistence f' ∧
            ∀ i, (i = offset → b.takenPositions.isSet i = true) → f.SameAt f' i := by
      intro b₀ hpersistence h
      obtain ⟨f', hm', -, hrest, -⟩ := writeTransition_spec (hpersistence ▸ hm) hoffset (by decide) h
      refine ⟨f', hm', fun i hi => hrest i ?_ ?_⟩
      · rw [overflowCells_zero]
        exact List.not_mem_nil
      · rintro rfl
        exact Bool.false_ne_true (hfree.2.symm.trans (hi rfl))
    refine hwrite _ ?_ hb
    split <;> rfl
  · obtain rfl := Option.some.inj hb
    exact ⟨f, hm, fun _ _ => ⟨rfl, rfl⟩⟩

theorem start_le_updateWeightIfNeeded {weight : Nat}
    (hb : b.updateWeightIfNeeded o offset weight = some b') :
    b.takenPositions.start ≤ b'.takenPositions.start := by
  rw [updateWeightIfNeeded] at hb
  obtain ⟨current, -, hb⟩ := Option.bind_eq_some_iff.mp hb
  split at hb
  · obtain ⟨b₁, hcell, rfl⟩ := Option.map_eq_some_iff.mp hb
    rw [← writeCell_takenPositions hcell]
    exact PositionTracker.start_le_set _ _
  · rw [Option.some.inj hb]

/-- The weight goes into one cell. -/
theorem updateWeightIfNeeded_spec (hm : Mirrors o b.persistence f) (hS : b.takenPositions.Covers S)
    {weight : Nat} (hb : b.updateWeightIfNeeded o offset weight = some b') :
    ∃ f' S', Mirrors o b'.persistence f' ∧ b'.takenPositions.Covers S' ∧ S ⊆ S' ∧
      ∀ i ≠ offset + 260, f.SameAt f' i := by
  rw [updateWeightIfNeeded] at hb
  obtain ⟨current, -, hb⟩ := Option.bind_eq_some_iff.mp hb
  split at hb
  · obtain ⟨b₁, hcell, rfl⟩ := Option.map_eq_some_iff.mp hb
    have hm' := writeCell_mirrors hm hcell
    refine ⟨_, S ∪ {i | i ∈ [offset + 260]}, hm', ?_, Set.subset_union_left,
      fun i hne => ⟨if_neg hne, if_neg hne⟩⟩
    dsimp only
    rw [writeCell_takenPositions hcell]
    exact PositionTracker.Covers.foldl_set [offset + 260] hS
  · obtain rfl := Option.some.inj hb
    exact ⟨f, S, hm, hS, subset_rfl, fun _ _ => ⟨rfl, rfl⟩⟩

/-- What is asked of a state and of the place where it is written. -/
structure Writable (o : ByteOrder) (b : SparseArrayBuilder) (w : Nat × UnpackedState) : Prop where
  wellFormed : w.2.WellFormed
  requested : Requested w.2
  weight : 0 < w.2.weight → ∀ t ∈ w.2.outgoing, w.1 + 260 ∉ t.cells w.1
  bound : w.1 + 256 < 2 ^ 63
  available : b.takenPositions.isAvailable w.2.bitVector w.1 = 0
  inWindow : ∀ b₁, ((b.beginNewState o w.1).blockBefore w.1 w.2).writeZerobyte o w.1 w.2 = some b₁ →
    AllInWindow o w.1 (b₁.reserve w.1 w.2) w.2.outgoing
  start : ∀ b', b.writeState o w.1 w.2 = some b' → b'.takenPositions.start ≤ w.1 - 512

/-- **A state** is read back by the automaton as long as the cells stay that are taken behind it, and
all cells that were taken stay as they are. -/
theorem writeState_spec (hm : Mirrors o b.persistence f) (hS : b.takenPositions.Covers S)
    (hw : Writable o b (offset, u)) (hb : b.writeState o offset u = some b') :
    ∃ f' S', Mirrors o b'.persistence f' ∧ b'.takenPositions.Covers S' ∧ S ⊆ S' ∧
      (∀ i ∈ S, f.SameAt f' i) ∧
      ∀ f'' : FlatArray, (∀ i ∈ S', f'.SameAt f'' i) → ∀ a : Automata, Loads a f'' →
        a.ReadsState offset u := by
  have hstart : b'.takenPositions.start ≤ offset - 512 := hw.start b' hb
  have hoffset : offset + 256 < 2 ^ 63 := hw.bound
  rw [writeState] at hb
  obtain ⟨b₁, hzero, hb⟩ := Option.bind_eq_some_iff.mp hb
  obtain ⟨b₂, houtgoing, hb⟩ := Option.bind_eq_some_iff.mp hb
  obtain ⟨hpersistence, htaken⟩ := blockBefore_persistence (b.beginNewState o offset) offset u
  have hm₀ : Mirrors o ((b.beginNewState o offset).blockBefore offset u).persistence
      (f.call (.beginNewState offset)) := hpersistence ▸ hm.beginNewState offset
  obtain ⟨f₁, hm₁, hkept₁⟩ := writeZerobyte_spec hm₀ (by omega) hzero
  have htaken₁ : b₁.takenPositions = b.takenPositions :=
    (writeZerobyte_takenPositions hzero).trans htaken
  rw [htaken] at hkept₁
  -- The window moves in one direction only.
  have hle₁ : b₁.takenPositions.start ≤ (b₁.reserve offset u).takenPositions.start :=
    PositionTracker.start_le_setVector b₁.takenPositions u.bitVector offset
  have hle₂ : (b₁.reserve offset u).takenPositions.start ≤ b₂.takenPositions.start :=
    start_le_writeOutgoing houtgoing
  have hle₃ : b₂.takenPositions.start ≤ b'.takenPositions.start := by
    split at hb
    · exact start_le_updateWeightIfNeeded hb
    · rw [Option.some.inj hb]
  have hok : b₁.takenPositions.Ok (.setVector u.bitVector offset) := by
    intro hold
    unfold PositionTracker.start at hle₁ hle₂ hle₃ hstart
    omega
  rw [htaken₁] at hle₁
  have hfree : Disjoint (PositionTracker.shifted u.bitVector offset) S :=
    (hS.isAvailable u.bitVector (by omega)).1 hw.available
  have hS₂ : (b₁.reserve offset u).takenPositions.Covers
      (S ∪ PositionTracker.shifted u.bitVector offset) :=
    ((htaken₁ ▸ hS : b₁.takenPositions.Covers S).slide _).puts
      (PositionTracker.puts_setVector _ _ _ hok)
  obtain ⟨f₂, T, hm₂, hS₃, hT, hkept₂, hreads⟩ := writeOutgoing_spec hoffset (b := b₁.reserve offset u)
    (by exact hm₁) hS₂ hw.wellFormed.labels hw.wellFormed.bounded
    (fun t ht i hi => .inr (hw.requested.mem_shifted ht hi)) (hw.inWindow b₁ hzero) houtgoing
    (by omega)
  -- The weight has a cell of its own.
  obtain ⟨f', S', hm', hS', hsub, hkept₃⟩ : ∃ f' S', Mirrors o b'.persistence f' ∧
      b'.takenPositions.Covers S' ∧ S ∪ PositionTracker.shifted u.bitVector offset ∪ T ⊆ S' ∧
        ∀ i, (0 < u.weight → i ≠ offset + 260) → f₂.SameAt f' i := by
    split at hb
    · next hpos =>
      obtain ⟨f', S', hm', hS', hsub, hkept₃⟩ := updateWeightIfNeeded_spec hm₂ hS₃ hb
      exact ⟨f', S', hm', hS', hsub, fun i hne => hkept₃ i (hne hpos)⟩
    · obtain rfl := Option.some.inj hb
      exact ⟨f₂, _, hm₂, hS₃, subset_rfl, fun _ _ => ⟨rfl, rfl⟩⟩
  have hshifted : 0 < u.weight → offset + 260 ∈ PositionTracker.shifted u.bitVector offset :=
    fun hpos => ⟨Nat.le_add_right _ _, by rw [Nat.add_sub_cancel_left]; exact hw.wellFormed.weight hpos⟩
  have hout : ∀ i ∈ S, i ∉ PositionTracker.shifted u.bitVector offset :=
    fun i hi hin => Set.disjoint_left.mp hfree hin hi
  refine ⟨f', S', hm', hS', fun i hi => hsub (.inl (.inl hi)), fun i hi => ?_, fun f'' hsame a ha =>
    ha.readsState (hreads f'' _ ha.decodes fun i hi => ?_)⟩
  · have hsame₁ : f.SameAt f₁ i := hkept₁ i fun heq => hS.isSet (by omega) hi
    exact (hsame₁.trans (hkept₂ i (.inl hi) fun t ht hin =>
      hout i hi (hw.requested.mem_shifted ht hin))).trans
        (hkept₃ i fun hpos heq => hout i hi (heq ▸ hshifted hpos))
  · refine (hkept₃ i fun hpos heq => ?_).trans (hsame i (hsub ?_))
    · rcases hi with ⟨t, ht, hin⟩ | hin
      · exact hw.weight hpos t ht (heq ▸ hin)
      · exact hT i hin (.inr (heq ▸ hshifted hpos))
    · rcases hi with ⟨t, ht, hin⟩ | hin
      · exact .inl (.inr (hw.requested.mem_shifted ht hin))
      · exact .inr hin

/-! ## All states -/

/-- A state at its offset. -/
def writeAt (o : ByteOrder) (b : SparseArrayBuilder) (w : Nat × UnpackedState) :
    Option SparseArrayBuilder := b.writeState o w.1 w.2

/-- **The invariant.** Every state that was written can be read as long as the taken cells stay. -/
def Readable (o : ByteOrder) (written : List (Nat × UnpackedState)) (b : SparseArrayBuilder) : Prop :=
  ∃ f S, Mirrors o b.persistence f ∧ b.takenPositions.Covers S ∧
    ∀ f' : FlatArray, (∀ i ∈ S, f.SameAt f' i) → ∀ a : Automata, Loads a f' →
      ∀ w ∈ written, a.ReadsState w.1 w.2

theorem Readable.writeAt {written : List (Nat × UnpackedState)} {w : Nat × UnpackedState}
    (h : Readable o written b) (hw : Writable o b w) (hb : writeAt o b w = some b') :
    Readable o (written ++ [w]) b' := by
  obtain ⟨f, S, hm, hS, hreads⟩ := h
  obtain ⟨f', S', hm', hS', hsub, hkept, hnew⟩ := writeState_spec hm hS hw hb
  refine ⟨f', S', hm', hS', fun f'' hsame a ha w' hw' => ?_⟩
  rcases List.mem_append.mp hw' with hold | hlast
  · exact hreads f'' (fun i hi => (hkept i hi).trans (hsame i (hsub hi))) a ha w' hold
  · rw [List.mem_singleton.mp hlast]
    exact hnew f'' hsame a ha

/-- **All states that are written stay readable**: the automaton that has the cells of the builder reads
their transitions and final values. -/
theorem writeStates_read {memoryLimit : Nat} {innerWeight minimize : Bool}
    {ws : List (Nat × UnpackedState)}
    (hok : Run.Along (writeAt o) (Writable o)
      (.new (.new (persistenceMemoryLimit memoryLimit)) innerWeight minimize) ws)
    (hrun : Run.run (writeAt o)
      (.new (.new (persistenceMemoryLimit memoryLimit)) innerWeight minimize) ws = some b') :
    ∃ f, Mirrors o b'.persistence f ∧ ∀ a : Automata, Loads a f → ∀ w ∈ ws, a.ReadsState w.1 w.2 := by
  have hstart : Readable o []
      (.new (.new (persistenceMemoryLimit memoryLimit)) innerWeight minimize) :=
    ⟨_, ∅, mirrors_new o memoryLimit, PositionTracker.covers_new,
      fun _ _ _ _ w hw => absurd hw List.not_mem_nil⟩
  obtain ⟨f, S, hm, -, hreads⟩ := Run.invariant_history (Readable o)
    (fun _ _ _ _ h hw hb => h.writeAt hw hb) hstart hok hrun
  exact ⟨f, hm, hreads f fun _ _ => ⟨rfl, rfl⟩⟩

/-- A builder without states. -/
def emptyBuilder : SparseArrayBuilder := .new (.new (persistenceMemoryLimit 10000000)) false true

/-- The transition to 100000 needs an overflow bucket. -/
def farState : UnpackedState := (UnpackedState.new.add 97 100000#64).addFinalState 3#64

theorem wellFormed_farState : farState.WellFormed :=
  (UnpackedState.wellFormed_new.add _ (by simp [UnpackedState.new])).addFinalState _ rfl

theorem requested_farState : Requested farState := (requested_new.add _ _).addFinalState _

/-- The transition leads to the state at 1. -/
def nearState : UnpackedState := UnpackedState.new.add 98 1#64

theorem writable_farState : Writable .littleEndian emptyBuilder (1, farState) where
  wellFormed := wellFormed_farState
  requested := requested_farState
  weight h := absurd h (by decide)
  bound := by decide
  available := by decide +kernel
  inWindow b₁ h := by
    have hplace : (((emptyBuilder.beginNewState .littleEndian 1).blockBefore 1
        farState).writeZerobyte .littleEndian 1 farState).map (fun b₁ =>
          ((b₁.reserve 1 farState).overflowPlace 98 100000).map OverflowPlace.startPosition) =
            some (some 0) := by
      decide +kernel
    rw [h, Option.map_some] at hplace
    refine ⟨fun _ place _ hfound => ?_,
      fun b₂ _ => ⟨fun hlt => absurd hlt (by decide), fun _ _ => trivial⟩⟩
    have hs : place.startPosition = 0 := Option.some.inj
      ((congrArg (Option.map OverflowPlace.startPosition) hfound).symm.trans (Option.some.inj hplace))
    rw [hs]
    decide
  start b' h := by
    have hall : (emptyBuilder.writeState .littleEndian 1 farState).all (fun b' =>
        b'.takenPositions.start ≤ 1 - 512) = true := by
      decide +kernel
    rw [h, Option.all_some] at hall
    exact of_decide_eq_true hall

theorem writable_nearState (hb : writeAt .littleEndian emptyBuilder (1, farState) = some b) :
    Writable .littleEndian b (700, nearState) where
  wellFormed := UnpackedState.wellFormed_new.add _ (by simp [UnpackedState.new])
  requested := requested_new.add _ _
  weight h := absurd h (by decide)
  bound := by decide
  available := by
    have hall : (emptyBuilder.writeState .littleEndian 1 farState).all (fun b =>
        b.takenPositions.isAvailable nearState.bitVector 700 = 0) = true := by
      decide +kernel
    rw [show emptyBuilder.writeState .littleEndian 1 farState = some b from hb,
      Option.all_some] at hall
    exact of_decide_eq_true hall
  inWindow _ _ := ⟨fun _ _ hover => absurd hover (by decide), fun _ _ => trivial⟩
  start b' h := by
    have hall : ((emptyBuilder.writeState .littleEndian 1 farState).bind fun b =>
        b.writeState .littleEndian 700 nearState).all (fun b' =>
          b'.takenPositions.start ≤ 700 - 512) = true := by
      decide +kernel
    rw [show emptyBuilder.writeState .littleEndian 1 farState = some b from hb, Option.bind_some,
      h, Option.all_some] at hall
    exact of_decide_eq_true hall

theorem writeStates_read_two : ∃ b' f,
    Run.run (writeAt .littleEndian) emptyBuilder [(1, farState), (700, nearState)] = some b' ∧
      Mirrors .littleEndian b'.persistence f ∧
      ∀ a : Automata, Loads a f → a.tryWalkTransition 700 98 = 1 ∧
        a.tryWalkTransition 1 97 = 100000 ∧ a.getStateValue 1 = 3 := by
  obtain ⟨b', hrun⟩ := Option.isSome_iff_exists.mp
    (show (Run.run (writeAt .littleEndian) emptyBuilder
      [(1, farState), (700, nearState)]).isSome = true by decide +kernel)
  have hok : Run.Along (writeAt .littleEndian) (Writable .littleEndian) emptyBuilder
      [(1, farState), (700, nearState)] :=
    ⟨writable_farState, fun b hb => ⟨writable_nearState hb, fun _ _ => trivial⟩⟩
  obtain ⟨f, hm, hreads⟩ := writeStates_read hok hrun
  refine ⟨b', f, hrun, hm, fun a ha => ⟨?_, ?_, ?_⟩⟩
  · exact (hreads a ha (700, nearState) (by simp) ⟨98, 1#64⟩ List.mem_cons_self).1 (by decide)
  · exact (hreads a ha (1, farState) (by simp) ⟨97, 100000#64⟩ List.mem_cons_self).1 (by decide)
  · exact ((hreads a ha (1, farState) (by simp) ⟨256, 3#64⟩
      (List.mem_cons_of_mem _ List.mem_cons_self)).2 rfl).2

end SparseArrayBuilder

end Keyvi.Fsa
