import Mathlib
import Keyvi.Fsa.Automata

/-!
# Predictive compression

`predictive_compression.h` and `fsa_predictive_compression.h`. The last two bytes predict what
follows. Eight steps make a chunk: a byte whose bits say which predictions were right, then the bytes
that were not predicted. The reader stops at the end of its input, so right predictions behind the
last byte that was copied are lost.
-/

namespace Keyvi.Compression

/-- `LookupBigram`; no prediction is the empty string. -/
abbrev Predictor := Byte → Byte → List Byte

/-- `PredictiveCompression::LookupBigram` over `predictor_table_`. -/
def lookupTable (predictorTable : Nat → List Byte) : Predictor := fun b0 b1 =>
  if b0 = 0 ∨ b1 = 0 then [] else predictorTable (b0.val <<< 8 + b1.val)

/-- `FsaPredictiveCompression::LookupBigram`. -/
def lookupFsa (fsa : Fsa.Automata) (getValueAsString : Nat → List Byte) : Predictor := fun b0 b1 =>
  if b0 = 0 ∨ b1 = 0 then []
  else
    let state := fsa.tryWalkTransition fsa.getStartState b0
    if state = 0 then []
    else
      let state := fsa.tryWalkTransition state b1
      if state = 0 then [] else getValueAsString (fsa.getStateValue state)

/-- The last two bytes after a prediction. -/
def nextBigram (bigram : Byte × Byte) (prediction : List Byte) : Byte × Byte :=
  let first := if 1 < prediction.length then prediction.getD (prediction.length - 2) 0 else bigram.2
  (first, prediction.getD (prediction.length - 1) 0)

/-! ## `Compress` -/

/-- The variables of `Compress`. -/
structure Compressor where
  outputBuffer : List Byte
  currentBitset : Nat
  bitsetPosition : Nat
  uncompressedBuf : List Byte
  bigram : Byte × Byte

namespace Compressor

/-- `static_cast<unsigned char>(current_bitset.to_ulong())`. -/
def bitsetByte (n : Nat) : Byte := ⟨n % 256, Nat.mod_lt _ (by decide)⟩

/-- What a chunk looks like. -/
def chunk (c : Compressor) : List Byte :=
  c.outputBuffer ++ bitsetByte c.currentBitset :: c.uncompressedBuf

/-- The check for flush. -/
def flush (c : Compressor) : Compressor :=
  if c.bitsetPosition = 8 then ⟨c.chunk, 0, 0, [], c.bigram⟩ else c

/-- The prediction succeeded. -/
def predicted (c : Compressor) (prediction : List Byte) : Compressor :=
  { c with
    currentBitset := c.currentBitset ||| 2 ^ c.bitsetPosition
    bitsetPosition := c.bitsetPosition + 1
    bigram := nextBigram c.bigram prediction }

/-- The prediction failed. -/
def copied (c : Compressor) (x : Byte) : Compressor :=
  { c with
    bitsetPosition := c.bitsetPosition + 1
    uncompressedBuf := c.uncompressedBuf ++ [x]
    bigram := (c.bigram.2, x) }

/-- The loop over the rest of the input; every round takes a byte. -/
def loop (lookup : Predictor) : Nat → List Byte → Compressor → Compressor
  | 0, _, c => c
  | _, [], c => c
  | fuel + 1, x :: rest, c =>
    let prediction := lookup c.bigram.1 c.bigram.2
    if prediction ≠ [] ∧ prediction <+: x :: rest then
      loop lookup fuel ((x :: rest).drop prediction.length) (c.predicted prediction).flush
    else loop lookup fuel rest (c.copied x).flush

end Compressor

/-- `Compress`. -/
def compress (lookup : Predictor) (input : List Byte) : List Byte :=
  match input with
  | a :: b :: rest =>
    let c := Compressor.loop lookup rest.length rest ⟨[], 0, 2, [a, b], (a, b)⟩
    if c.bitsetPosition ≠ 0 then c.chunk else c.outputBuffer
  | _ => input

/-! ## `Uncompress` -/

/-- The variables of `Uncompress`. -/
structure Uncompressor where
  outputBuffer : List Byte
  currentBitset : Byte
  bitsetPosition : Nat
  bigram : Byte × Byte

namespace Uncompressor

/-- A prediction is written. -/
def predicted (u : Uncompressor) (prediction : List Byte) : Uncompressor :=
  { u with
    outputBuffer := u.outputBuffer ++ prediction
    bitsetPosition := u.bitsetPosition + 1
    bigram := nextBigram u.bigram prediction }

/-- A byte is copied. -/
def copied (u : Uncompressor) (x : Byte) : Uncompressor :=
  { u with
    outputBuffer := u.outputBuffer ++ [x]
    bitsetPosition := u.bitsetPosition + 1
    bigram := (u.bigram.2, x) }

/-- The next chunk is read; behind the end of the string there is a 0. -/
def nextChunk (u : Uncompressor) (rest : List Byte) : List Byte × Uncompressor :=
  if u.bitsetPosition = 8 then
    (rest.tail, { u with currentBitset := rest.headD 0, bitsetPosition := 0 })
  else (rest, u)

/-- The loop over the rest of the input; eight rounds take a byte. -/
def loop (lookup : Predictor) : Nat → List Byte → Uncompressor → Uncompressor
  | 0, _, u => u
  | _, [], u => u
  | fuel + 1, x :: rest, u =>
    if u.currentBitset.val.testBit u.bitsetPosition then
      let (rest, u) := (u.predicted (lookup u.bigram.1 u.bigram.2)).nextChunk (x :: rest)
      loop lookup fuel rest u
    else
      let (rest, u) := (u.copied x).nextChunk rest
      loop lookup fuel rest u

end Uncompressor

/-- `Uncompress`. -/
def uncompress (lookup : Predictor) (input : List Byte) : List Byte :=
  match input with
  | x :: a :: rest =>
    let b := rest.headD 0
    (Uncompressor.loop lookup (8 * input.length) rest.tail ⟨[a, b], x, 2, (a, b)⟩).outputBuffer
  | _ => input

/-! ## Steps

What a compressor does with an input is a list of steps; both sides are described by it.
-/

/-- A step of the compressor. -/
inductive Step
  | predicted
  | copied (x : Byte)
deriving DecidableEq, Repr

namespace Step

/-- The steps for an input behind two bytes. -/
def ofInput (lookup : Predictor) : Nat → Byte × Byte → List Byte → List Step
  | 0, _, _ => []
  | _, _, [] => []
  | fuel + 1, bigram, x :: rest =>
    let prediction := lookup bigram.1 bigram.2
    if prediction ≠ [] ∧ prediction <+: x :: rest then
      predicted :: ofInput lookup fuel (nextBigram bigram prediction)
        ((x :: rest).drop prediction.length)
    else copied x :: ofInput lookup fuel (bigram.2, x) rest

/-- What steps write. -/
def expand (lookup : Predictor) : Byte × Byte → List Step → List Byte
  | _, [] => []
  | bigram, predicted :: ts =>
    lookup bigram.1 bigram.2 ++
      expand lookup (nextBigram bigram (lookup bigram.1 bigram.2)) ts
  | bigram, copied x :: ts => x :: expand lookup (bigram.2, x) ts

/-- The predictions of the steps are not empty. -/
def Productive (lookup : Predictor) : Byte × Byte → List Step → Prop
  | _, [] => True
  | bigram, predicted :: ts => lookup bigram.1 bigram.2 ≠ [] ∧
      Productive lookup (nextBigram bigram (lookup bigram.1 bigram.2)) ts
  | bigram, copied x :: ts => Productive lookup (bigram.2, x) ts

/-- The bytes that are copied. -/
def raws : List Step → List Byte
  | [] => []
  | predicted :: ts => raws ts
  | copied x :: ts => x :: raws ts

/-- The bits of a chunk. -/
def bits : List Step → Nat
  | [] => 0
  | predicted :: ts => 2 * bits ts + 1
  | copied _ :: ts => 2 * bits ts

/-- Steps without the predictions at the end. -/
def trim : List Step → List Step
  | [] => []
  | t :: ts => if raws (t :: ts) = [] then [] else t :: trim ts

/-- The chunks of steps. -/
def encode : Nat → List Step → List Byte
  | 0, _ => []
  | _, [] => []
  | fuel + 1, t :: ts =>
    Compressor.bitsetByte (bits ((t :: ts).take 8)) :: raws ((t :: ts).take 8) ++
      encode fuel ((t :: ts).drop 8)

theorem raws_append (ts us : List Step) : raws (ts ++ us) = raws ts ++ raws us := by
  induction ts with
  | nil => rfl
  | cons t ts ih => cases t <;> simp [raws, ih]

theorem testBit_bits (ts : List Step) (i : Nat) :
    (bits ts).testBit i = decide (ts[i]? = some predicted) := by
  induction ts generalizing i with
  | nil => simp [bits]
  | cons t ts ih =>
    cases i with
    | zero => cases t <;> simp [bits, Nat.testBit_zero]
    | succ i =>
      rw [List.getElem?_cons_succ, ← ih i]
      cases t with
      | predicted =>
        show (2 * bits ts + 1).testBit (i + 1) = _
        rw [Nat.testBit_succ, show (2 * bits ts + 1) / 2 = bits ts by omega]
      | copied x =>
        show (2 * bits ts).testBit (i + 1) = _
        rw [Nat.testBit_succ, show 2 * bits ts / 2 = bits ts by omega]

theorem bits_lt (ts : List Step) : bits ts < 2 ^ ts.length := by
  induction ts with
  | nil => simp [bits]
  | cons t ts ih =>
    rw [List.length_cons, Nat.pow_succ]
    cases t <;> simp only [bits] <;> omega

theorem bits_append_predicted (ts : List Step) :
    bits (ts ++ [predicted]) = bits ts ||| 2 ^ ts.length := by
  refine Nat.eq_of_testBit_eq fun i => ?_
  rw [Nat.testBit_or, testBit_bits, testBit_bits, Nat.testBit_two_pow]
  rcases lt_trichotomy i ts.length with h | rfl | h
  · rw [List.getElem?_append_left h]
    simp [h.ne']
  · simp
  · rw [List.getElem?_eq_none (by simp; omega), List.getElem?_eq_none (by omega)]
    simp [h.ne]

theorem bits_append_copied (ts : List Step) (x : Byte) : bits (ts ++ [copied x]) = bits ts := by
  refine Nat.eq_of_testBit_eq fun i => ?_
  rw [testBit_bits, testBit_bits]
  rcases lt_trichotomy i ts.length with h | rfl | h
  · rw [List.getElem?_append_left h]
  · simp
  · rw [List.getElem?_eq_none (by simp; omega), List.getElem?_eq_none (by omega)]

/-- The bit of a step in the byte of its chunk. -/
theorem testBit_bitsetByte {ts : List Step} (h : ts.length ≤ 8) (i : Nat) :
    (Compressor.bitsetByte (bits ts)).val.testBit i = decide (ts[i]? = some predicted) := by
  have hlt : bits ts < 256 :=
    lt_of_lt_of_le (bits_lt ts) (Nat.pow_le_pow_right (by decide) h)
  rw [Compressor.bitsetByte, ← testBit_bits]
  show (bits ts % 256).testBit i = _
  rw [Nat.mod_eq_of_lt hlt]

theorem encode_cons {fuel : Nat} {ts : List Step} (h : ts ≠ []) :
    encode (fuel + 1) ts =
      Compressor.bitsetByte (bits (ts.take 8)) :: raws (ts.take 8) ++ encode fuel (ts.drop 8) := by
  obtain ⟨t, ts, rfl⟩ := List.exists_cons_of_ne_nil h
  rfl

/-- More fuel than steps changes nothing. -/
theorem encode_fuel : ∀ (fuel fuel' : Nat) {ts : List Step}, ts.length ≤ fuel →
    ts.length ≤ fuel' → encode fuel ts = encode fuel' ts
  | fuel, fuel', [], _, _ => by cases fuel <;> cases fuel' <;> rfl
  | fuel + 1, fuel' + 1, t :: ts, h, h' => by
    have hlen : ((t :: ts).drop 8).length ≤ ts.length := by
      rw [List.length_drop, List.length_cons]
      omega
    simp only [List.length_cons] at h h'
    rw [encode, encode, encode_fuel fuel fuel' (by omega) (by omega)]

/-- The chunks of all steps. -/
def encoded (ts : List Step) : List Byte := encode ts.length ts

theorem encoded_eq {ts : List Step} (h : ts ≠ []) :
    encoded ts = Compressor.bitsetByte (bits (ts.take 8)) :: raws (ts.take 8) ++
      encoded (ts.drop 8) := by
  obtain ⟨n, hn⟩ : ∃ n, ts.length = n + 1 :=
    ⟨ts.length - 1, by have := List.length_pos_of_ne_nil h; omega⟩
  have hlen : (ts.drop 8).length ≤ n := by
    rw [List.length_drop]
    omega
  rw [encoded, hn, encode_cons h, encoded, encode_fuel n _ hlen le_rfl]

theorem tail_encoded (ts : List Step) :
    (encoded ts).tail = raws (ts.take 8) ++ encoded (ts.drop 8) := by
  by_cases h : ts = []
  · subst h
    rfl
  · rw [encoded_eq h]
    rfl

theorem encoded_eq_nil {ts : List Step} : encoded ts = [] ↔ ts = [] := by
  refine ⟨fun h => ?_, fun h => by rw [h]; rfl⟩
  by_contra hne
  rw [encoded_eq hne] at h
  cases h

/-- Eight steps need a byte. -/
theorem length_le_encoded (n : Nat) : ∀ ts : List Step, ts.length ≤ n →
    ts.length ≤ 8 * (encoded ts).length := by
  induction n with
  | zero =>
    intro ts h
    omega
  | succ n ih =>
    intro ts h
    by_cases hne : ts = []
    · simp [hne]
    · have := List.length_pos_of_ne_nil hne
      have hdrop := ih (ts.drop 8) (by rw [List.length_drop]; omega)
      rw [encoded_eq hne, List.length_append, List.length_cons]
      rw [List.length_drop] at hdrop
      omega

/-! ## Steps of an input -/

theorem ofInput_nil (lookup : Predictor) (fuel : Nat) (bigram : Byte × Byte) :
    ofInput lookup fuel bigram [] = [] := by
  cases fuel <;> rfl

/-- The steps write the input, and every prediction among them is not empty. -/
theorem expand_ofInput (lookup : Predictor) : ∀ (fuel : Nat) (bigram : Byte × Byte)
    (rest : List Byte), rest.length ≤ fuel →
    expand lookup bigram (ofInput lookup fuel bigram rest) = rest ∧
      Productive lookup bigram (ofInput lookup fuel bigram rest)
  | fuel, bigram, [], _ => by
    rw [ofInput_nil]
    exact ⟨rfl, trivial⟩
  | fuel + 1, bigram, x :: rest, h => by
    simp only [List.length_cons] at h
    rw [ofInput]
    by_cases hp : lookup bigram.1 bigram.2 ≠ [] ∧ lookup bigram.1 bigram.2 <+: x :: rest
    · have hpos := List.length_pos_of_ne_nil hp.1
      have hlen : ((x :: rest).drop (lookup bigram.1 bigram.2).length).length ≤ fuel := by
        rw [List.length_drop, List.length_cons]
        omega
      obtain ⟨he, hprod⟩ := expand_ofInput lookup fuel
        (nextBigram bigram (lookup bigram.1 bigram.2)) _ hlen
      rw [if_pos hp]
      refine ⟨?_, hp.1, hprod⟩
      rw [expand, he]
      exact List.prefix_append_drop hp.2 |>.symm
    · obtain ⟨he, hprod⟩ := expand_ofInput lookup fuel (bigram.2, x) rest (by omega)
      rw [if_neg hp]
      exact ⟨by rw [expand, he], hprod⟩

/-- Fewer steps write less. -/
theorem expand_eq_iff {lookup : Predictor} : ∀ {ts ts' : List Step} {bigram : Byte × Byte},
    Productive lookup bigram ts → ts' <+: ts →
      (expand lookup bigram ts' = expand lookup bigram ts ↔ ts' = ts)
  | [], ts', bigram, _, hpre => by
    simp [List.prefix_nil.mp hpre]
  | t :: ts, [], bigram, hprod, _ => by
    constructor
    · intro h
      cases t with
      | predicted =>
        rw [expand, expand] at h
        exact absurd (List.append_eq_nil_iff.mp h.symm).1 hprod.1
      | copied x =>
        rw [expand, expand] at h
        cases h
    · intro h
      cases h
  | t :: ts, t' :: ts', bigram, hprod, hpre => by
    obtain ⟨rfl, htail⟩ := List.cons_prefix_cons.mp hpre
    rw [List.cons.injEq, and_iff_right rfl]
    cases t' with
    | predicted =>
      rw [expand, expand, List.append_cancel_left_eq]
      exact expand_eq_iff hprod.2 htail
    | copied x =>
      rw [expand, expand, List.cons.injEq, and_iff_right rfl]
      exact expand_eq_iff hprod htail

end Step

/-! ## `Compress` encodes the steps -/

namespace Compressor

/-- The steps of the chunk that is not full. -/
structure Pending (c : Compressor) (ts : List Step) : Prop where
  bits : c.currentBitset = Step.bits ts
  position : c.bitsetPosition = ts.length
  raws : c.uncompressedBuf = Step.raws ts

/-- What is left at the end. -/
def finish (c : Compressor) : List Byte := if c.bitsetPosition ≠ 0 then c.chunk else c.outputBuffer

variable {lookup : Predictor} {c : Compressor} {ts : List Step}

theorem Pending.predicted (h : c.Pending ts) (prediction : List Byte) :
    (c.predicted prediction).Pending (ts ++ [.predicted]) where
  bits := by
    show c.currentBitset ||| 2 ^ c.bitsetPosition = _
    rw [Step.bits_append_predicted, h.bits, h.position]
  position := by
    show c.bitsetPosition + 1 = _
    rw [h.position, List.length_append, List.length_singleton]
  raws := by
    rw [Step.raws_append]
    exact h.raws.trans (List.append_nil _).symm

theorem Pending.copied (h : c.Pending ts) (x : Byte) :
    (c.copied x).Pending (ts ++ [.copied x]) where
  bits := by
    rw [Step.bits_append_copied]
    exact h.bits
  position := by
    show c.bitsetPosition + 1 = _
    rw [h.position, List.length_append, List.length_singleton]
  raws := by
    show c.uncompressedBuf ++ [x] = _
    rw [Step.raws_append, h.raws]
    rfl

/-- A full chunk is written, and the steps of the chunk start again. -/
theorem Pending.flush (h : c.Pending ts) (hlen : ts.length ≤ 8) (more : List Step) :
    ∃ ts', c.flush.Pending ts' ∧ ts'.length < 8 ∧ c.flush.bigram = c.bigram ∧
      c.flush.outputBuffer ++ Step.encoded (ts' ++ more) =
        c.outputBuffer ++ Step.encoded (ts ++ more) := by
  unfold Compressor.flush
  by_cases h8 : c.bitsetPosition = 8
  · have hts : ts.length = 8 := h.position.symm.trans h8
    rw [if_pos h8]
    refine ⟨[], ⟨rfl, rfl, rfl⟩, by simp, rfl, ?_⟩
    have hne : ts ++ more ≠ [] := by
      intro he
      rw [(List.append_eq_nil_iff.mp he).1] at hts
      cases hts
    rw [Step.encoded_eq hne, List.take_left' hts, List.drop_left' hts]
    show (c.outputBuffer ++ bitsetByte c.currentBitset :: c.uncompressedBuf) ++ _ = _
    rw [h.bits, h.raws, List.append_assoc, List.nil_append]
  · rw [if_neg h8]
    exact ⟨ts, h, by have := h.position; omega, rfl, rfl⟩

theorem Pending.finish (h : c.Pending ts) (hlen : ts.length < 8) :
    c.finish = c.outputBuffer ++ Step.encoded ts := by
  unfold Compressor.finish
  by_cases hne : ts = []
  · have hpos : c.bitsetPosition = 0 := by rw [h.position, hne]; rfl
    rw [if_neg (not_not_intro hpos), hne]
    exact (List.append_nil _).symm
  · have hpos : c.bitsetPosition ≠ 0 := by
      rw [h.position]
      exact (List.length_pos_of_ne_nil hne).ne'
    rw [if_pos hpos, Step.encoded_eq hne, List.take_of_length_le hlen.le,
      List.drop_eq_nil_of_le hlen.le, chunk, h.bits, h.raws]
    show _ = c.outputBuffer ++ (_ :: Step.raws ts ++ [])
    rw [List.append_nil]

/-- **The loop encodes the steps of the rest of the input.** -/
theorem finish_loop : ∀ (fuel : Nat) {rest : List Byte} {c : Compressor} {ts : List Step},
    rest.length ≤ fuel → c.Pending ts → ts.length < 8 →
    (loop lookup fuel rest c).finish =
      c.outputBuffer ++ Step.encoded (ts ++ Step.ofInput lookup fuel c.bigram rest)
  | fuel, [], c, ts, _, hc, hlen => by
    have hloop : loop lookup fuel [] c = c := by cases fuel <;> rfl
    rw [hloop, hc.finish hlen, Step.ofInput_nil, List.append_nil]
  | fuel + 1, x :: rest, c, ts, h, hc, hlen => by
    simp only [List.length_cons] at h
    rw [loop, Step.ofInput]
    by_cases hp : lookup c.bigram.1 c.bigram.2 ≠ [] ∧ lookup c.bigram.1 c.bigram.2 <+: x :: rest
    · have hpos := List.length_pos_of_ne_nil hp.1
      simp only [if_pos hp]
      obtain ⟨ts', hc', hlen', hb, ho⟩ := (hc.predicted (lookup c.bigram.1 c.bigram.2)).flush
        (by rw [List.length_append, List.length_singleton]; omega)
        (Step.ofInput lookup fuel (nextBigram c.bigram (lookup c.bigram.1 c.bigram.2))
          ((x :: rest).drop (lookup c.bigram.1 c.bigram.2).length))
      rw [finish_loop fuel (by rw [List.length_drop, List.length_cons]; omega) hc' hlen', hb]
      refine ho.trans ?_
      rw [List.append_assoc, List.singleton_append]
      rfl
    · simp only [if_neg hp]
      obtain ⟨ts', hc', hlen', hb, ho⟩ := (hc.copied x).flush
        (by rw [List.length_append, List.length_singleton]; omega)
        (Step.ofInput lookup fuel (c.bigram.2, x) rest)
      rw [finish_loop fuel (by omega) hc' hlen', hb]
      refine ho.trans ?_
      rw [List.append_assoc, List.singleton_append]
      rfl

end Compressor

/-- The steps of an input behind its first two bytes. -/
def stepsBehind (lookup : Predictor) (a b : Byte) (rest : List Byte) : List Step :=
  Step.ofInput lookup rest.length (a, b) rest

theorem compress_eq (lookup : Predictor) (a b : Byte) (rest : List Byte) :
    compress lookup (a :: b :: rest) =
      Step.encoded (.copied a :: .copied b :: stepsBehind lookup a b rest) := by
  have hpending : (⟨[], 0, 2, [a, b], (a, b)⟩ : Compressor).Pending [.copied a, .copied b] :=
    ⟨rfl, rfl, rfl⟩
  exact Compressor.finish_loop rest.length le_rfl hpending (by simp)

/-! ## `Uncompress` reads the steps -/

namespace Uncompressor

/-- The last step was a prediction. -/
def EndsPredicted (ts : List Step) : Prop := ts.getLast? = some .predicted

/-- In the middle of a chunk: its steps `ts` that are left, and those of the chunks behind it. -/
structure Inside (u : Uncompressor) (ts more : List Step) : Prop where
  position : u.bitsetPosition < 8
  fits : u.bitsetPosition + ts.length ≤ 8
  full : more ≠ [] → u.bitsetPosition + ts.length = 8
  bits : ∀ i < ts.length,
    u.currentBitset.val.testBit (u.bitsetPosition + i) = decide (ts[i]? = some .predicted)

/-- After a step of the chunk. -/
theorem Inside.next {u : Uncompressor} {t : Step} {ts more : List Step}
    (h : u.Inside (t :: ts) more) (u' : Uncompressor) (hp : u'.bitsetPosition = u.bitsetPosition + 1)
    (hb : u'.currentBitset = u.currentBitset) :
    ∃ ts' more', (u'.nextChunk (Step.raws ts ++ Step.encoded more)).1 =
        Step.raws ts' ++ Step.encoded more' ∧
      (u'.nextChunk (Step.raws ts ++ Step.encoded more)).2.Inside ts' more' ∧
      ts' ++ more' = ts ++ more ∧
      (u'.nextChunk (Step.raws ts ++ Step.encoded more)).2.outputBuffer = u'.outputBuffer ∧
      (u'.nextChunk (Step.raws ts ++ Step.encoded more)).2.bigram = u'.bigram := by
  have hfits := h.fits
  simp only [List.length_cons] at hfits
  unfold nextChunk
  by_cases h8 : u'.bitsetPosition = 8
  · obtain rfl : ts = [] := List.eq_nil_of_length_eq_zero (by omega)
    rw [if_pos h8]
    refine ⟨more.take 8, more.drop 8, Step.tail_encoded more, ⟨by show 0 < 8; decide, ?_, ?_, ?_⟩,
      List.take_append_drop 8 more, rfl, rfl⟩
    · show 0 + (more.take 8).length ≤ 8
      rw [List.length_take]
      omega
    · intro hne
      show 0 + (more.take 8).length = 8
      have := List.length_pos_of_ne_nil hne
      rw [List.length_drop] at this
      rw [List.length_take]
      omega
    · intro i hi
      have hmore : more ≠ [] := by
        rintro rfl
        simp at hi
      show ((Step.raws [] ++ Step.encoded more).headD 0).val.testBit (0 + i) = _
      rw [Nat.zero_add, ← Step.testBit_bitsetByte (by rw [List.length_take]; omega)]
      rw [show Step.raws [] ++ Step.encoded more = Step.encoded more from rfl,
        Step.encoded_eq hmore]
      rfl
  · rw [if_neg h8]
    refine ⟨ts, more, rfl, ?_, rfl, rfl, rfl⟩
    show u'.Inside ts more
    refine ⟨by have := h.position; omega, by omega, fun hne => ?_, fun i hi => ?_⟩
    · have := h.full hne
      simp only [List.length_cons] at this
      omega
    · have := h.bits (i + 1) (by simpa using hi)
      rw [List.getElem?_cons_succ] at this
      show u'.currentBitset.val.testBit (u'.bitsetPosition + i) = _
      rw [hb, hp, ← this]
      congr 1
      omega

theorem raws_predicted {ts : List Step} (h : Step.raws ts = []) : ∀ t ∈ ts, t = .predicted := by
  induction ts with
  | nil => simp
  | cons t ts ih =>
    cases t with
    | predicted =>
      intro t ht
      rcases List.mem_cons.mp ht with rfl | ht
      · rfl
      · exact ih h t ht
    | copied x => cases h

/-- **The loop reads the steps up to those behind the last byte of the input.** -/
theorem loop_eq (lookup : Predictor) : ∀ (fuel : Nat) {ts more : List Step} {u : Uncompressor}, u.Inside ts more →
    (ts ++ more).length ≤ fuel →
    ∃ ts', ts' <+: ts ++ more ∧ (ts' = ts ++ more ↔ ¬ EndsPredicted (ts ++ more)) ∧
      (loop lookup fuel (Step.raws ts ++ Step.encoded more) u).outputBuffer =
        u.outputBuffer ++ Step.expand lookup u.bigram ts' := by
  intro fuel
  induction fuel with
  | zero =>
    intro ts more u _ hlen
    have hnil : ts ++ more = [] := List.eq_nil_of_length_eq_zero (by omega)
    refine ⟨[], List.nil_prefix, by simp [hnil, EndsPredicted], ?_⟩
    exact (List.append_nil _).symm
  | succ fuel ih =>
    intro ts more u hu hlen
    cases hrest : Step.raws ts ++ Step.encoded more with
    | nil =>
      -- No byte is left, so predictions that are left are lost.
      obtain ⟨hraws, hmore⟩ := List.append_eq_nil_iff.mp hrest
      rw [Step.encoded_eq_nil] at hmore
      subst hmore
      refine ⟨[], List.nil_prefix, ?_, (List.append_nil _).symm⟩
      rw [List.append_nil, EndsPredicted]
      by_cases hts : ts = []
      · simp [hts]
      · rw [List.getLast?_eq_some_getLast hts,
          raws_predicted hraws _ (List.getLast_mem hts)]
        simp [Ne.symm hts]
    | cons x rest =>
      obtain ⟨t, ts, rfl⟩ : ∃ t ts', ts = t :: ts' := by
        refine List.exists_cons_of_ne_nil ?_
        rintro rfl
        have hmore : more ≠ [] := by
          rintro rfl
          cases hrest
        have := hu.full hmore
        have := hu.position
        simp only [List.length_nil] at *
        omega
      have hbit := hu.bits 0 (by simp)
      rw [Nat.add_zero] at hbit
      -- The last step decides for a longer list as for its tail.
      have hends : ∀ {ts' : List Step}, (ts' = ts ++ more ↔ ¬ EndsPredicted (ts ++ more)) →
          (t = .predicted → ts ++ more ≠ []) →
          (t :: ts' = t :: ts ++ more ↔ ¬ EndsPredicted (t :: ts ++ more)) := by
        intro ts' h hne
        rw [List.cons_append, List.cons.injEq, and_iff_right rfl, h]
        unfold EndsPredicted
        by_cases hnil : ts ++ more = []
        · have ht : t ≠ .predicted := fun ht => hne ht hnil
          simp [hnil, ht]
        · rw [List.getLast?_cons_of_ne_nil hnil]
      cases t with
      | predicted =>
        have hraws : x :: rest = Step.raws ts ++ Step.encoded more := hrest.symm
        have hne : ts ++ more ≠ [] := by
          intro hnil
          obtain ⟨rfl, rfl⟩ := List.append_eq_nil_iff.mp hnil
          cases hraws
        obtain ⟨ts₁, more₁, h1, h2, h3, h4, h5⟩ := hu.next
          (u.predicted (lookup u.bigram.1 u.bigram.2)) rfl rfl
        have hlen₁ : (ts₁ ++ more₁).length ≤ fuel := by
          rw [h3]
          simp only [List.cons_append, List.length_cons] at hlen
          omega
        obtain ⟨ts', hpre, hiff, hout⟩ := ih h2 hlen₁
        rw [h3] at hpre hiff
        refine ⟨.predicted :: ts', List.cons_prefix_cons.mpr ⟨rfl, hpre⟩, hends hiff fun _ => hne,
          ?_⟩
        rw [loop, if_pos (by rw [hbit]; simp), hraws]
        simp only
        rw [h1, hout, h4, h5, Step.expand]
        show (u.outputBuffer ++ _) ++ _ = _
        rw [List.append_assoc]
        rfl
      | copied y =>
        have hxy : x :: rest = y :: (Step.raws ts ++ Step.encoded more) := hrest.symm
        obtain ⟨rfl, rfl⟩ := List.cons.inj hxy
        obtain ⟨ts₁, more₁, h1, h2, h3, h4, h5⟩ := hu.next (u.copied x) rfl rfl
        have hlen₁ : (ts₁ ++ more₁).length ≤ fuel := by
          rw [h3]
          simp only [List.cons_append, List.length_cons] at hlen
          omega
        obtain ⟨ts', hpre, hiff, hout⟩ := ih h2 hlen₁
        rw [h3] at hpre hiff
        have hcopied : Step.copied x = .predicted → ts ++ more ≠ [] := fun h => by cases h
        refine ⟨.copied x :: ts', List.cons_prefix_cons.mpr ⟨rfl, hpre⟩, hends hiff hcopied, ?_⟩
        rw [loop, if_neg (by rw [hbit]; simp)]
        simp only
        rw [h1, hout, h4, h5, Step.expand]
        show (u.outputBuffer ++ [x]) ++ _ = _
        rw [List.append_assoc]
        rfl

end Uncompressor

/-- The end of the input comes from a prediction. -/
def EndsPredicted (lookup : Predictor) : List Byte → Prop
  | a :: b :: rest => Uncompressor.EndsPredicted (stepsBehind lookup a b rest)
  | _ => False

/-- **The round trip**, for any way to predict. -/
theorem uncompress_compress_iff (lookup : Predictor) (input : List Byte) :
    uncompress lookup (compress lookup input) = input ↔ ¬ EndsPredicted lookup input := by
  match input with
  | [] => simp [compress, uncompress, EndsPredicted]
  | [a] => simp [compress, uncompress, EndsPredicted]
  | a :: b :: rest =>
    rw [compress_eq]
    set ts := stepsBehind lookup a b rest with hts
    obtain ⟨hexp, hprod⟩ := Step.expand_ofInput lookup rest.length (a, b) rest le_rfl
    have hcode : Step.encoded (.copied a :: .copied b :: ts) =
        Compressor.bitsetByte (Step.bits ((.copied a :: .copied b :: ts).take 8)) :: a :: b ::
          (Step.raws (ts.take 6) ++ Step.encoded (ts.drop 6)) := by
      rw [Step.encoded_eq (by simp)]
      rfl
    have hinside : (⟨[a, b], Compressor.bitsetByte
        (Step.bits ((.copied a :: .copied b :: ts).take 8)), 2, (a, b)⟩ : Uncompressor).Inside
          (ts.take 6) (ts.drop 6) := by
      refine ⟨show 2 < 8 by decide, ?_, fun hne => ?_, fun i hi => ?_⟩
      · show 2 + (ts.take 6).length ≤ 8
        rw [List.length_take]
        omega
      · have := List.length_pos_of_ne_nil hne
        rw [List.length_drop] at this
        show 2 + (ts.take 6).length = 8
        rw [List.length_take]
        omega
      · show (Compressor.bitsetByte (Step.bits ((.copied a :: .copied b :: ts).take 8))).val.testBit
          (2 + i) = _
        rw [Step.testBit_bitsetByte (by rw [List.length_take]; omega), Nat.add_comm]
        rfl
    have hfuel : (ts.take 6 ++ ts.drop 6).length ≤
        8 * (Step.encoded (.copied a :: .copied b :: ts)).length := by
      have := Step.length_le_encoded _ (.copied a :: .copied b :: ts) le_rfl
      simp only [List.length_cons] at this
      rw [List.take_append_drop]
      omega
    obtain ⟨ts', hpre, hiff, hout⟩ := Uncompressor.loop_eq lookup _ hinside hfuel
    rw [List.take_append_drop] at hpre hiff
    have hunc : uncompress lookup (Step.encoded (.copied a :: .copied b :: ts)) =
        a :: b :: Step.expand lookup (a, b) ts' := by
      rw [hcode] at hout ⊢
      exact hout
    rw [hunc, List.cons.injEq, List.cons.injEq, and_iff_right rfl, and_iff_right rfl]
    show _ ↔ ¬ Uncompressor.EndsPredicted ts
    rw [← hiff]
    have hall := Step.expand_eq_iff hprod hpre
    rwa [hexp] at hall

/-- **The table and the automaton.** -/
theorem roundTrip_iff (predictorTable : Nat → List Byte) (fsa : Fsa.Automata)
    (getValueAsString : Nat → List Byte) (input : List Byte) :
    (uncompress (lookupTable predictorTable) (compress (lookupTable predictorTable) input) = input ↔
      ¬ EndsPredicted (lookupTable predictorTable) input) ∧
    (uncompress (lookupFsa fsa getValueAsString)
        (compress (lookupFsa fsa getValueAsString) input) = input ↔
      ¬ EndsPredicted (lookupFsa fsa getValueAsString) input) :=
  ⟨uncompress_compress_iff _ input, uncompress_compress_iff _ input⟩

/-- `61 62` predicts `63`. -/
def tableABC (i : Nat) : List Byte := if i = 24930 then [99] else []

/-- The last byte of `61 62 63` is lost. -/
theorem roundTrip_losesEnd :
    ¬ ∀ (predictorTable : Nat → List Byte) (input : List Byte),
      uncompress (lookupTable predictorTable) (compress (lookupTable predictorTable) input) =
        input := by
  intro h
  exact absurd (h tableABC [97, 98, 99]) (by decide)

end Keyvi.Compression
