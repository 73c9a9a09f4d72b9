import Mathlib
import Keyvi.Library.Run
import Keyvi.Util.VintFunctions
import Keyvi.Fsa.ValueStoreMinimization

/-!
# The JSON value store

`json_value_store.h`: `AddValue` of a value that is encoded already, `AddValueMerge` from the payload of
another store, and the reader. What C++ leaves undefined in a shift is a parameter, as in `vint.h`.
-/

namespace Keyvi.Fsa.JsonValueStore

open MinimizationBase

variable (undefined : Nat → Nat → BitVec 32) (minimize : Bool)

/-- `push_back` of a unit. -/
def pushUnit (m : MemoryMapManager Byte) (_ : Nat) (unit : Nat) : MemoryMapManager Byte :=
  m.pushBack (Fin.ofNat 256 unit)

/-- `CreateNewValue`. -/
def createNewValue (s : MinimizationBase) (stringBuffer : List Byte) : MinimizationBase × Nat :=
  let pt := s.valuesBufferSize
  let (valuesExtern, length) := Vint.encodeLoop 7 pushUnit stringBuffer.length s.valuesExtern 0
  let valuesBufferSize := s.valuesBufferSize + length
  let valuesExtern := valuesExtern.append (fun i => stringBuffer.getD i 0) stringBuffer.length
  (⟨valuesExtern, s.hash, valuesBufferSize + stringBuffer.length⟩, pt)

/-- `hash_.Add`. -/
def addToHash (s : MinimizationBase) (pt : Nat) (value : List Byte) : MinimizationBase :=
  { s with hash := s.hash ++ [RawPointer.new pt (hashcode value) value.length] }

/-- `AddValue` behind `EncodeJsonValue`: the store, the offset, and whether the minimization is switched
off. -/
def addValue (s : MinimizationBase) (stringBuffer : List Byte) (answer : Option RawPointer) :
    MinimizationBase × Nat × Bool :=
  if minimize then
    match s.get .json stringBuffer answer with
    | some p => (s, p.offset, false)
    | none =>
      let (s, pt) := createNewValue s stringBuffer
      (addToHash s pt stringBuffer, pt, true)
  else
    let (s, pt) := createNewValue s stringBuffer
    (s, pt, true)

/-- `AddValueMerge`; none when it reads behind the payload. -/
def addValueMerge (s : MinimizationBase) (payload : List Byte) (fsaValue : Nat)
    (answer : Option RawPointer) : Option (MinimizationBase × Nat × Bool) := do
  let fullBuf := payload.drop fsaValue
  let (bufferSize, bufPtr) ← Vint.decodeVarIntStringPtr undefined fullBuf
  if bufferSize ≤ bufPtr.length then
    let value := bufPtr.take bufferSize
    match s.get .json value answer with
    | some p => some (s, p.offset, false)
    | none =>
      let pt := s.valuesBufferSize
      let fullBufSize := fullBuf.length - bufPtr.length + bufferSize
      let valuesExtern := s.valuesExtern.append (fun i => fullBuf.getD i 0) fullBufSize
      let s : MinimizationBase := ⟨valuesExtern, s.hash, s.valuesBufferSize + fullBufSize⟩
      some (addToHash s pt value, pt, true)
  else none

/-! ## Runs -/

/-- A call, with what the tables of the cache answer. -/
inductive Call
  | addValue (stringBuffer : List Byte) (answer : Option RawPointer)
  | addValueMerge (payload : List Byte) (fsaValue : Nat) (answer : Option RawPointer)

/-- The buffer that a call stores. -/
def Call.Stores : Call → List Byte → Prop
  | .addValue stringBuffer _, w => stringBuffer = w
  | .addValueMerge payload fsaValue _, w =>
    ∃ after, payload.drop fsaValue = encodeVarInt w.length ++ (w ++ after)

/-- The store and the offsets it returned. -/
structure State where
  store : MinimizationBase
  offsets : List Nat

/-- The constructor. -/
def start (memoryLimit : Nat) : State := ⟨MinimizationBase.new memoryLimit, []⟩

/-- One call. -/
def step (s : State) : Call → Option State
  | .addValue stringBuffer answer =>
    let (store, offset, _) := addValue minimize s.store stringBuffer answer
    some ⟨store, s.offsets ++ [offset]⟩
  | .addValueMerge payload fsaValue answer =>
    (addValueMerge undefined s.store payload fsaValue answer).map fun (store, offset, _) =>
      ⟨store, s.offsets ++ [offset]⟩

/-- The condition on a call: the length fits into 31 bits, and every comparison with a stored value ends at
most in the second chunk. -/
def Ok (s : State) (c : Call) : Prop :=
  ∀ w, c.Stores w → w.length < 2 ^ 31 ∧
    ∀ p ∈ s.store.hash, Compared w s.store.valuesExtern p → Fits w s.store.valuesExtern p

/-- What the reader finds at an offset: `GetRawValueAsString` and `GetMsgPackedValueAsString`. -/
structure Reads (strings : List Byte) (fsaValue : Nat) (w : List Byte) : Prop where
  string : Vint.decodeVarIntString undefined (strings.drop fsaValue) = some w
  pointer : ∃ after, Vint.decodeVarIntStringPtr undefined (strings.drop fsaValue) =
    some (w.length, w ++ after)

/-! ## One call -/

variable {undefined minimize} {memoryLimit : Nat} {s : MinimizationBase} {stored : List (List Byte)}
  {w : List Byte}

theorem contains_pushUnits {m : MemoryMapManager Byte} {content : List Byte}
    (h : m.Contains content) (units : List Nat) (i : Nat) :
    (Vint.writeUnits pushUnit units m i).Contains (content ++ units.map (Fin.ofNat 256)) ∧
      (Vint.writeUnits pushUnit units m i).chunkSize = m.chunkSize := by
  induction units generalizing m content i with
  | nil => exact ⟨by rwa [List.map_nil, List.append_nil], rfl⟩
  | cons unit units ih =>
    obtain ⟨hcontains, hchunk⟩ := ih (h.pushBack (Fin.ofNat 256 unit)) (i + 1)
    rw [List.append_assoc] at hcontains
    exact ⟨hcontains, hchunk⟩

/-- **`CreateNewValue`** writes the length and the buffer at the end. -/
theorem createNewValue_spec (content : List Byte) (h : s.valuesExtern.Contains content)
    (hchunk : s.valuesExtern.chunkSize = memoryLimit) (w : List Byte) :
    ∃ m : MemoryMapManager Byte, m.Contains (content ++ BytesStore.json.record w) ∧
      m.chunkSize = memoryLimit ∧ createNewValue s w =
        (⟨m, s.hash, s.valuesBufferSize + (BytesStore.json.record w).length⟩, s.valuesBufferSize) := by
  obtain ⟨hunits, hsize⟩ := contains_pushUnits h (Varlen.encode (2 ^ 7) w.length) 0
  have hcopy := hunits.append (fun i => w.getD i 0) w.length
  rw [map_getD_range w _ le_rfl, List.take_length, List.append_assoc] at hcopy
  refine ⟨(Vint.writeUnits pushUnit (Varlen.encode (2 ^ 7) w.length) s.valuesExtern 0).append
    (fun i => w.getD i 0) w.length, ?_, ?_, ?_⟩
  · unfold BytesStore.record
    dsimp only
    rw [encodeVarInt_eq_map]
    exact hcopy
  · unfold MemoryMapManager.append
    rw [StringValueStore.chunkSize_appendLoop, hsize, hchunk]
  · rw [createNewValue, Vint.encodeLoop_eq (by decide)]
    unfold BytesStore.record
    dsimp only
    rw [List.length_append, encodeVarInt_eq_map, List.length_map, Nat.zero_add, Nat.add_assoc]
    rfl

/-- A pointer from the cache leads to the buffer. -/
theorem found (h : Holds .json memoryLimit s stored)
    (hlimit : StringValueStore.minMemoryLimit ≤ memoryLimit)
    (hfit : ∀ p ∈ s.hash, Compared w s.valuesExtern p → Fits w s.valuesExtern p)
    {answer : Option RawPointer} {p : RawPointer} (hg : s.get .json w answer = some p) :
    StoredAt .json stored p.offset w := by
  unfold MinimizationBase.get at hg
  obtain ⟨-, hp⟩ := Option.filter_eq_some_iff.mp hg
  obtain ⟨hmem, -, hequal⟩ := of_decide_eq_true hp
  obtain ⟨before, v, after, hstored, rfl⟩ := h.hash p hmem
  have hmax : RawPointer.maxLength ≤ memoryLimit :=
    (show RawPointer.maxLength ≤ StringValueStore.minMemoryLimit by decide).trans hlimit
  obtain rfl : v = w := h.eq_of_equal_json hmax hstored (hfit _ hmem) hequal
  exact ⟨before, after, hstored, rfl⟩

theorem addValue_spec (h : Holds .json memoryLimit s stored)
    (hlimit : StringValueStore.minMemoryLimit ≤ memoryLimit) (hw : w.length < 2 ^ 31)
    (hfit : ∀ p ∈ s.hash, Compared w s.valuesExtern p → Fits w s.valuesExtern p)
    (answer : Option RawPointer) :
    ∃ more, Holds .json memoryLimit (addValue minimize s w answer).1 (stored ++ more) ∧
      StoredAt .json (stored ++ more) (addValue minimize s w answer).2.1 w := by
  obtain ⟨m, hcontains, hchunk, hnew⟩ := createNewValue_spec _ h.contains h.chunkSize w
  rw [addValue]
  split
  · split
    · next p hg =>
      refine ⟨[], ?_, ?_⟩
      · rw [List.append_nil]
        exact h
      · rw [List.append_nil]
        exact found h hlimit hfit hg
    · rw [hnew]
      exact ⟨[w], h.added hw hcontains hchunk fun p hp =>
        (List.mem_append.mp hp).imp_right List.mem_singleton.mp⟩
  · rw [hnew]
    exact ⟨[w], h.added hw hcontains hchunk fun p hp => .inl hp⟩

theorem addValueMerge_spec (h : Holds .json memoryLimit s stored)
    (hlimit : StringValueStore.minMemoryLimit ≤ memoryLimit) (hw : w.length < 2 ^ 31)
    (hfit : ∀ p ∈ s.hash, Compared w s.valuesExtern p → Fits w s.valuesExtern p)
    {payload after : List Byte} {fsaValue : Nat}
    (hdrop : payload.drop fsaValue = encodeVarInt w.length ++ (w ++ after))
    (answer : Option RawPointer) :
    ∃ s' offset noMinimization more,
      addValueMerge undefined s payload fsaValue answer = some (s', offset, noMinimization) ∧
      Holds .json memoryLimit s' (stored ++ more) ∧ StoredAt .json (stored ++ more) offset w := by
  rw [addValueMerge]
  simp only [hdrop, Vint.decodeVarIntStringPtr_units undefined hw, Option.bind_eq_bind,
    Option.bind_some, List.take_left]
  rw [if_pos (by simp)]
  split
  · next p hg =>
    refine ⟨s, p.offset, false, [], rfl, ?_, ?_⟩
    · rw [List.append_nil]
      exact h
    · rw [List.append_nil]
      exact found h hlimit hfit hg
  · have hsize : (encodeVarInt w.length ++ (w ++ after)).length - (w ++ after).length + w.length =
        (BytesStore.json.record w).length := by
      unfold BytesStore.record
      simp only [List.length_append]
      omega
    have hcopy := h.contains.append (fun i => (encodeVarInt w.length ++ (w ++ after)).getD i 0)
      (BytesStore.json.record w).length
    have htake : (encodeVarInt w.length ++ (w ++ after)).take (BytesStore.json.record w).length =
        BytesStore.json.record w := by
      rw [← List.append_assoc]
      exact List.take_left
    rw [map_getD_range _ _ (by rw [← hsize]; simp only [List.length_append]; omega), htake] at hcopy
    obtain ⟨hnext, hstored⟩ := h.added hw hcopy (by
      unfold MemoryMapManager.append
      rw [StringValueStore.chunkSize_appendLoop]
      exact h.chunkSize) fun p hp => (List.mem_append.mp hp).imp_right List.mem_singleton.mp
    rw [hsize]
    exact ⟨_, _, _, [w], rfl, hnext, hstored⟩

theorem step_spec {s : State} {stored : List (List Byte)} {done : List (List Byte)} {c : Call}
    (h : Holds .json memoryLimit s.store stored)
    (hoffsets : List.Forall₂ (StoredAt .json stored) s.offsets done)
    (hlimit : StringValueStore.minMemoryLimit ≤ memoryLimit) (hw : c.Stores w) (hok : Ok s c) :
    ∃ s' stored', step undefined minimize s c = some s' ∧ Holds .json memoryLimit s'.store stored' ∧
      List.Forall₂ (StoredAt .json stored') s'.offsets (done ++ [w]) := by
  obtain ⟨hlen, hfit⟩ := hok w hw
  have hgrow : ∀ more, List.Forall₂ (StoredAt .json (stored ++ more)) s.offsets done := fun more =>
    hoffsets.imp fun _ _ ho => ho.append more
  cases c with
  | addValue stringBuffer answer =>
    obtain rfl : stringBuffer = w := hw
    obtain ⟨more, hholds, hstored⟩ := addValue_spec h hlimit hlen hfit answer
    exact ⟨_, stored ++ more, rfl, hholds, List.rel_append (hgrow more) (.cons hstored .nil)⟩
  | addValueMerge payload fsaValue answer =>
    obtain ⟨after, hdrop⟩ := hw
    obtain ⟨s', offset, noMinimization, more, heq, hholds, hstored⟩ :=
      addValueMerge_spec h hlimit hlen hfit hdrop answer
    refine ⟨_, stored ++ more, by rw [step, heq, Option.map_some], hholds, ?_⟩
    exact List.rel_append (hgrow more) (.cons hstored .nil)

/-! ## All calls -/

theorem run_spec (hlimit : StringValueStore.minMemoryLimit ≤ memoryLimit) :
    ∀ {calls : List Call} {buffers done : List (List Byte)} {s : State} {stored : List (List Byte)},
    Holds .json memoryLimit s.store stored →
    List.Forall₂ (StoredAt .json stored) s.offsets done →
    List.Forall₂ Call.Stores calls buffers → Run.Along (step undefined minimize) Ok s calls →
    ∃ s' stored', Run.run (step undefined minimize) s calls = some s' ∧
      Holds .json memoryLimit s'.store stored' ∧
      List.Forall₂ (StoredAt .json stored') s'.offsets (done ++ buffers)
  | [], _, done, s, stored, h, hoffsets, .nil, _ =>
    ⟨s, stored, rfl, h, by rwa [List.append_nil]⟩
  | c :: calls, w :: buffers, done, s, stored, h, hoffsets, .cons hw hbuffers, hok => by
    obtain ⟨s₁, stored₁, hstep, h₁, hoffsets₁⟩ := step_spec h hoffsets hlimit hw hok.1
    obtain ⟨s₂, stored₂, hrun, h₂, hoffsets₂⟩ :=
      run_spec hlimit h₁ hoffsets₁ hbuffers (hok.2 s₁ hstep)
    refine ⟨s₂, stored₂, Run.run_cons.mpr ⟨s₁, hstep, hrun⟩, h₂, ?_⟩
    rwa [List.append_assoc] at hoffsets₂

/-- A stored buffer is read back. -/
theorem reads_of_storedAt (h : Holds .json memoryLimit s stored) {offset : Nat}
    (hstored : StoredAt .json stored offset w) : Reads undefined s.write offset w := by
  have hwrite := h.contains.writePersisted_eq
  obtain ⟨before, after, rfl, rfl⟩ := hstored
  have hw : w.length < 2 ^ 31 := h.valid w (by simp)
  have hdrop : s.write.drop (bytesOf .json before).length =
      encodeVarInt w.length ++ (w ++ bytesOf .json after) := by
    unfold MinimizationBase.write
    rw [hwrite, bytesOf_split, List.drop_left]
    exact List.append_assoc _ _ _
  refine ⟨?_, bytesOf .json after, ?_⟩
  · rw [hdrop]
    exact (Vint.recovered hw).string undefined w _ rfl
  · rw [hdrop]
    exact (Vint.recovered hw).pointer undefined _

/-- **Every stored buffer is read back at its offset**, in every run whose calls meet the condition, and
one offset never stands for two buffers. -/
theorem stored_run (hlimit : StringValueStore.minMemoryLimit ≤ memoryLimit) {calls : List Call}
    {buffers : List (List Byte)} (hbuffers : List.Forall₂ Call.Stores calls buffers)
    (hok : Run.Along (step undefined minimize) Ok (start memoryLimit) calls) :
    ∃ s, Run.run (step undefined minimize) (start memoryLimit) calls = some s ∧
      List.Forall₂ (Reads undefined s.store.write) s.offsets buffers ∧
      ∀ i j : Nat, i < buffers.length → s.offsets[i]? = s.offsets[j]? → buffers[i]? = buffers[j]? := by
  have h₀ : Holds .json memoryLimit (start memoryLimit).store [] := holds_new .json hlimit
  have hnone : List.Forall₂ (StoredAt .json []) (start memoryLimit).offsets [] := .nil
  obtain ⟨s, stored, hrun, h, hoffsets⟩ := run_spec hlimit h₀ hnone hbuffers hok
  have hreads : List.Forall₂ (Reads undefined s.store.write) s.offsets buffers :=
    hoffsets.imp fun _ _ ho => reads_of_storedAt h ho
  refine ⟨s, hrun, hreads, fun i j hi hij => ?_⟩
  have hlen := hreads.length_eq
  have hi' : i < s.offsets.length := by omega
  rw [List.getElem?_eq_getElem hi'] at hij
  obtain ⟨hj', hsame⟩ := List.getElem?_eq_some_iff.mp hij.symm
  have hj : j < buffers.length := by omega
  have hread := (hreads.get hj' hj).string
  rw [List.get_eq_getElem, hsame] at hread
  rw [List.getElem?_eq_getElem hi, List.getElem?_eq_getElem hj]
  exact (hreads.get hi' hi).string.symm.trans hread

theorem stored_run_twice :
    ∃ s, Run.run (step Vint.zeroShift true) (start 122000)
        [.addValue [65] none, .addValue [65] (some ⟨0, hashcode [65], 1⟩)] = some s ∧
      List.Forall₂ (Reads Vint.zeroShift s.store.write) s.offsets [[65], [65]] ∧
      ∀ i j : Nat, i < [[65], [65]].length → s.offsets[i]? = s.offsets[j]? →
        ([[65], [65]] : List (List Byte))[i]? = [[65], [65]][j]? := by
  have hok : Run.Along (step Vint.zeroShift true) Ok (start 122000)
      [.addValue [65] none, .addValue [65] (some ⟨0, hashcode [65], 1⟩)] := by
    refine ⟨fun w hw => ?_, fun s hs => ⟨fun w hw => ?_, fun _ _ => trivial⟩⟩
    · obtain rfl : [65] = w := hw
      exact ⟨by decide, fun p hp => absurd hp List.not_mem_nil⟩
    · obtain rfl : [65] = w := hw
      rw [step, Option.some.injEq] at hs
      subst hs
      obtain ⟨more, hholds, -⟩ : ∃ more, Holds .json 122000
          (addValue true (MinimizationBase.new 122000) [65] none).1 ([] ++ more) ∧ _ :=
        addValue_spec (holds_new .json (by decide)) (by decide) (by decide)
          (fun p hp => absurd hp List.not_mem_nil) none
      refine ⟨by decide, fun p _ _ => ?_⟩
      have hmod := Nat.mod_lt (p.offset + getVarIntLength 1) (show 0 < 122000 by decide)
      show (p.offset + getVarIntLength 1) % (addValue true (MinimizationBase.new 122000) [65]
        none).1.valuesExtern.chunkSize + 1 ≤ 2 * (addValue true (MinimizationBase.new 122000) [65]
        none).1.valuesExtern.chunkSize
      rw [hholds.chunkSize]
      omega
  exact stored_run (by decide) (.cons rfl (.cons rfl .nil)) hok

/-- A buffer of 2^31 bytes is not read back. -/
theorem not_stored_2147483648 : ¬ ∀ (undefined : Nat → Nat → BitVec 32) (buffer : List Byte),
    ∃ s, Run.run (step undefined true) (start StringValueStore.minMemoryLimit)
        [.addValue buffer none] = some s ∧
      List.Forall₂ (Reads undefined s.store.write) s.offsets [buffer] := by
  intro h
  obtain ⟨buffer, hlen⟩ : ∃ buffer : List Byte, buffer.length = 2147483648 :=
    ⟨List.replicate 2147483648 0, List.length_replicate⟩
  obtain ⟨s, hrun, hreads⟩ := h Vint.zeroShift buffer
  obtain ⟨m, hcontains, -, hnew⟩ := createNewValue_spec
    (s := MinimizationBase.new StringValueStore.minMemoryLimit) []
    (MemoryMapManager.contains_new (show 0 < StringValueStore.minMemoryLimit by decide)) rfl buffer
  have hstep : step Vint.zeroShift true (start StringValueStore.minMemoryLimit)
      (.addValue buffer none) = some ⟨addToHash (createNewValue
        (MinimizationBase.new StringValueStore.minMemoryLimit) buffer).1 0 buffer, [0]⟩ := rfl
  rw [Run.run_cons] at hrun
  obtain ⟨t, ht, hrun⟩ := hrun
  rw [hstep, Option.some.injEq] at ht
  rw [Run.run_nil, Option.some.injEq] at hrun
  subst ht hrun
  have hread := (List.forall₂_cons.mp hreads).1.pointer
  have hwrite := hcontains.writePersisted_eq
  unfold BytesStore.record at hwrite
  dsimp only at hwrite
  rw [List.nil_append, hlen] at hwrite
  obtain ⟨after, hread⟩ := hread
  have hcreated : (createNewValue (MinimizationBase.new StringValueStore.minMemoryLimit)
      buffer).1.valuesExtern = m := congrArg (fun p => p.1.valuesExtern) hnew
  have hlost := Vint.decodeVarIntStringPtr_sign Vint.zeroShift buffer
  rw [← hwrite, ← hcreated] at hlost
  rw [List.drop_zero] at hread
  have hboth := hlost.symm.trans hread
  rw [Option.some.injEq, Prod.mk.injEq, hlen] at hboth
  exact absurd hboth.1 (by decide)

end Keyvi.Fsa.JsonValueStore
