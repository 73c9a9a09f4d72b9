import Mathlib
import Keyvi.Library.Utf8
import Keyvi.Matching.TopCompletion

/-!
# The traverser of code points

`codepoint_state_traverser.h` with `utf8_utils.h`. An inner traverser goes from byte to byte; the
bytes from the root on are kept on a stack, each with the number of bytes that its character still
needs, and the traverser stops where a character ends.
-/

namespace Keyvi.Matching

open Fsa Automata Dictionary Utf8

/-- `Utf8Utils::IsLeadByte`. It throws for a byte that UTF-8 does not have. -/
def isLeadByte (utf8Byte : Byte) : Option Bool :=
  if 0xF8 ≤ utf8Byte.val then none
  else some (decide (utf8Byte.val < 0x80) || decide (0xC0 ≤ utf8Byte.val))

/-- `Utf8Utils::GetCharLength`. It throws for another byte. -/
def getCharLength (leadByte : Byte) : Option Nat :=
  if leadByte.val &&& 0x80 = 0 then some 1
  else if leadByte.val &&& 0xE0 = 0xC0 then some 2
  else if leadByte.val &&& 0xF0 = 0xE0 then some 3
  else if leadByte.val &&& 0xF8 = 0xF0 then some 4
  else none

/-- `CodePointStateTraverser`. The vectors have their last element first. -/
structure CodePointStateTraverser (T : Type) where
  wrappedStateTraverser : T
  transitionsStack : List Byte
  utf8LengthStack : List Nat
  codepoint : Nat
  currentDepth : Nat

namespace CodePointStateTraverser

/-- `PruneHistory` on both stacks and the depth. -/
def pruneHistory (newHistoryTop : Nat) :
    List Byte → List Nat → Nat → Option (List Byte × List Nat × Nat)
  | [], lengths, depth => some ([], lengths, depth)
  | entry :: transitions, lengths, depth =>
    if newHistoryTop < (entry :: transitions).length then
      (isLeadByte entry).bind fun lead =>
        pruneHistory newHistoryTop transitions lengths.tail (if lead then depth - 1 else depth)
    else some (entry :: transitions, lengths, depth)

/-- The loop of `ExtractCodePointFromStack`: the last lead byte, its entry on the other stack and the
bytes behind it. -/
def findLead : List Byte → List Nat → List Byte → Option (Byte × Nat × List Byte)
  | [], _, _ => none
  | b :: transitions, lengths, behind =>
    (isLeadByte b).bind fun lead =>
      if lead then some (b, lengths.headD 0, behind)
      else findLead transitions lengths.tail (b :: behind)

/-- The `switch` of `ExtractCodePointFromStack`. -/
def codepointOf (codepoint : Nat) (b : Byte) (behind : List Byte) : Nat → Nat
  | 0 => b.val
  | 1 => (b.val &&& 0x1f) <<< 6 ||| (behind.getD 0 0).val &&& 0x3f
  | 2 => (b.val &&& 0x0f) <<< 12 ||| ((behind.getD 0 0).val &&& 0x3f) <<< 6 |||
      (behind.getD 1 0).val &&& 0x3f
  | 3 => (b.val &&& 0x07) <<< 18 ||| ((behind.getD 0 0).val &&& 0x3f) <<< 12 |||
      ((behind.getD 1 0).val &&& 0x3f) <<< 6 ||| (behind.getD 2 0).val &&& 0x3f
  | _ => codepoint

variable {T : Type}

/-- `ExtractCodePointFromStack`. -/
def extractCodePointFromStack (t : CodePointStateTraverser T) : Option (CodePointStateTraverser T) :=
  (findLead t.transitionsStack t.utf8LengthStack []).map fun r =>
    { t with codepoint := codepointOf t.codepoint r.1 r.2.2 r.2.1 }

/-- The bytes that are still to come: the next byte is a lead byte or a follow byte. -/
def remaining (lead : Bool) (label : Byte) (lengths : List Nat) : Option Nat :=
  if lead then (getCharLength label).map (· - 1) else some (lengths.headD 0 - 1)

variable [InnerTraverser T]

/-- `operator++`, at most `fuel` rounds of its loop. -/
def advance : Nat → CodePointStateTraverser T → Option (CodePointStateTraverser T)
  | 0, _ => none
  | fuel + 1, t =>
    if InnerTraverser.canAdvance t.wrappedStateTraverser then
      let wrapped := InnerTraverser.advance t.wrappedStateTraverser
      let label := InnerTraverser.getStateLabel wrapped
      if InnerTraverser.alive wrapped then
        (pruneHistory (InnerTraverser.getDepth wrapped - 1) t.transitionsStack t.utf8LengthStack
          t.currentDepth).bind fun r =>
          let lead := r.1.isEmpty || r.2.1.headD 0 = 0
          (remaining lead label r.2.1).bind fun remainingBytes =>
            let next : CodePointStateTraverser T :=
              ⟨wrapped, label :: r.1, remainingBytes :: r.2.1, t.codepoint,
                if lead then r.2.2 + 1 else r.2.2⟩
            if 0 < remainingBytes then advance fuel next else next.extractCodePointFromStack
      else some ⟨wrapped, [], [], 0, 0⟩
    else none

/-- `Prune`. -/
def prune (t : CodePointStateTraverser T) : Option (CodePointStateTraverser T) :=
  if InnerTraverser.canPrune t.wrappedStateTraverser then
    let wrapped := InnerTraverser.prune t.wrappedStateTraverser
    (pruneHistory (InnerTraverser.getDepth wrapped) t.transitionsStack t.utf8LengthStack
      t.currentDepth).map fun r => ⟨wrapped, r.1, r.2.1, t.codepoint, r.2.2⟩
  else none

/-- `CodePointStateTraverser(traverser)`. -/
def ofTraverser (fuel : Nat) (traverser : T) : Option (CodePointStateTraverser T) :=
  advance fuel ⟨traverser, [], [], 0, 0⟩

/-- `operator bool`. -/
def alive (t : CodePointStateTraverser T) : Bool := InnerTraverser.alive t.wrappedStateTraverser

end CodePointStateTraverser

/-! ## Bytes on the stack -/

theorem isLeadByte_lead {b : Byte} (h : IsLead b) : isLeadByte b = some true := by
  rw [isLeadByte, if_neg (by unfold IsLead at h; omega)]
  rcases h with h | h
  · simp [h]
  · simp [h.1]

theorem isLeadByte_tail {b : Byte} (h : IsTail b) : isLeadByte b = some false := by
  obtain ⟨h1, h2⟩ := h
  rw [isLeadByte, if_neg (by omega)]
  simp [h1, h2]

theorem not_isLead_tail {b : Byte} (h : IsTail b) : ¬ IsLead b := by
  unfold IsLead IsTail at *
  omega

theorem getCharLength_lead : ∀ {b : Byte}, IsLead b → getCharLength b = some (width b) := by
  decide +kernel

/-- The bytes of a path, the last one first, begin a text. -/
def BeginsText (p : List Byte) : Prop := ∃ s, p.reverse <+: bytesOf s

/-- The stack of lengths beside the bytes. -/
def lengthsOf : List Byte → List Nat
  | [] => []
  | c :: p => owed (c :: p).reverse :: lengthsOf p

/-- A character ends here. -/
def complete (p : List Byte) : Bool := owed p.reverse = 0

theorem BeginsText.next {p : List Byte} {c : Byte} (h : BeginsText (c :: p)) :
    if owed p.reverse = 0 then IsLead c else IsTail c := by
  obtain ⟨s, hs⟩ := h
  rw [List.reverse_cons] at hs
  exact next_byte hs

theorem BeginsText.of_suffix {p q : List Byte} (h : BeginsText q) (hpq : p <:+ q) : BeginsText p := by
  obtain ⟨s, hs⟩ := h
  exact ⟨s, (List.reverse_prefix.mpr hpq).trans hs⟩

theorem BeginsText.isLeadByte {p : List Byte} {c : Byte} (h : BeginsText (c :: p)) :
    isLeadByte c = some (decide (IsLead c)) := by
  have hc := h.next
  split at hc
  · rw [isLeadByte_lead hc, decide_eq_true hc]
  · rw [isLeadByte_tail hc, decide_eq_false (not_isLead_tail hc)]

/-- The characters that were begun. -/
def depthOfPath (p : List Byte) : Nat := p.countP fun b => IsLead b

/-- Both stacks are cut back to a shorter path. -/
theorem pruneHistory_spec : ∀ {p q : List Byte}, BeginsText p → q <:+ p →
    CodePointStateTraverser.pruneHistory q.length p (lengthsOf p) (depthOfPath p) =
      some (q, lengthsOf q, depthOfPath q)
  | [], q, _, hq => by
    rw [List.suffix_nil.mp hq]
    rfl
  | c :: p, q, hp, hq => by
    rw [CodePointStateTraverser.pruneHistory]
    rcases List.suffix_cons_iff.mp hq with rfl | hq
    · rw [if_neg (lt_irrefl _)]
    · have hlen := hq.length_le
      have hdepth : (if decide (IsLead c) = true then depthOfPath (c :: p) - 1
          else depthOfPath (c :: p)) = depthOfPath p := by
        unfold depthOfPath
        by_cases h : IsLead c
        · simp [h]
        · simp [h]
      rw [if_pos (by rw [List.length_cons]; omega), hp.isLeadByte, Option.bind_some, hdepth]
      exact pruneHistory_spec (hp.of_suffix (List.suffix_cons c p)) hq

/-- The last lead byte lies below the follow bytes. -/
theorem findLead_spec {b : Byte} (hb : IsLead b) {p : List Byte} : ∀ {tail behind : List Byte},
    (∀ x ∈ tail, IsTail x) →
    CodePointStateTraverser.findLead (tail ++ b :: p) (lengthsOf (tail ++ b :: p)) behind =
      some (b, owed (b :: p).reverse, tail.reverse ++ behind)
  | [], behind, _ => by
    rw [List.nil_append, CodePointStateTraverser.findLead, isLeadByte_lead hb, Option.bind_some,
      if_pos rfl]
    rfl
  | x :: tail, behind, h => by
    rw [List.cons_append, CodePointStateTraverser.findLead, isLeadByte_tail (h x List.mem_cons_self),
      Option.bind_some, if_neg Bool.false_ne_true]
    show CodePointStateTraverser.findLead _ (lengthsOf (tail ++ b :: p)) _ = _
    rw [findLead_spec hb fun y hy => h y (List.mem_cons_of_mem _ hy)]
    simp

theorem shift_or {a b i : Nat} (h : b < 2 ^ i) : a <<< i ||| b = a * 2 ^ i + b := by
  rw [← Nat.shiftLeft_add_eq_or_of_lt h, Nat.shiftLeft_eq]

/-- Six more bits. -/
theorem shift_or_shift (a b i : Nat) : a <<< (6 + i) ||| b <<< i = (a <<< 6 ||| b) <<< i := by
  rw [Nat.shiftLeft_or_distrib, ← Nat.shiftLeft_add]

/-- The `switch` decodes a character. -/
theorem codepointOf_eq (old : Nat) (b : Byte) {bs : List Byte} (h : bs.length ≤ 3) :
    CodePointStateTraverser.codepointOf old b bs bs.length = decode b bs := by
  have hand : ∀ (x : Byte) (i : Nat), x.val &&& (2 ^ i - 1) = x.val % 2 ^ i :=
    fun x i => Nat.and_two_pow_sub_one_eq_mod _ _
  have h5 : b.val &&& 31 = b.val % 32 := hand b 5
  have h4 : b.val &&& 15 = b.val % 16 := hand b 4
  have h3 : b.val &&& 7 = b.val % 8 := hand b 3
  have h6 : ∀ x : Byte, x.val &&& 63 = x.val % 64 := fun x => hand x 6
  have hlt : ∀ x : Byte, x.val % 64 < 2 ^ 6 := fun x => Nat.mod_lt _ (by decide)
  match bs, h with
  | [], _ => rfl
  | [x], _ =>
    show (b.val &&& 31) <<< 6 ||| x.val &&& 63 = b.val % 32 * 64 + x.val % 64
    rw [h5, h6, shift_or (hlt x)]
    norm_num
  | [x, y], _ =>
    show (b.val &&& 15) <<< (6 + 6) ||| (x.val &&& 63) <<< 6 ||| y.val &&& 63 =
      b.val % 16 * 4096 + x.val % 64 * 64 + y.val % 64
    rw [h4, h6, h6, shift_or_shift, shift_or (hlt x), shift_or (hlt y)]
    omega
  | [x, y, z], _ =>
    show (b.val &&& 7) <<< (6 + 12) ||| (x.val &&& 63) <<< 12 ||| (y.val &&& 63) <<< 6 |||
      z.val &&& 63 = b.val % 8 * 262144 + x.val % 64 * 4096 + y.val % 64 * 64 + z.val % 64
    rw [h3, h6, h6, h6, shift_or_shift, show (12 : Nat) = 6 + 6 from rfl, shift_or_shift,
      shift_or (hlt x), shift_or (hlt y), shift_or (hlt z)]
    omega

/-- **The code point at the end of a text.** -/
theorem extract_spec {T : Type} {t : CodePointStateTraverser T} {p : List Byte} {s : List Char}
    {c : Char} (hp : p.reverse = bytesOf (s ++ [c])) (ht : t.transitionsStack = p)
    (hl : t.utf8LengthStack = lengthsOf p) :
    t.extractCodePointFromStack = some { t with codepoint := c.val.toNat } := by
  obtain ⟨b, bs, hb, hlead, hwidth, htail, hdecode⟩ := encode_spec c
  have hsplit : p = bs.reverse ++ b :: (bytesOf s).reverse := by
    rw [← List.reverse_reverse p, hp, bytesOf_append, bytesOf_cons, bytesOf_nil, List.append_nil, hb]
    simp
  have howed : owed (b :: (bytesOf s).reverse).reverse = bs.length := by
    rw [List.reverse_cons, List.reverse_reverse, owed_concat, owed_bytesOf, if_pos rfl]
    omega
  have hlen : bs.length ≤ 3 := by
    have : width b ≤ 4 := by
      unfold width
      split_ifs <;> omega
    omega
  have hfind : CodePointStateTraverser.findLead t.transitionsStack t.utf8LengthStack [] =
      some (b, bs.length, bs) := by
    rw [ht, hl, hsplit, findLead_spec hlead fun x hx => htail x (List.mem_reverse.mp hx), howed,
      List.reverse_reverse, List.append_nil]
  rw [CodePointStateTraverser.extractCodePointFromStack, hfind, Option.map_some]
  simp only
  rw [codepointOf_eq _ b hlen, hdecode]

/-! ## What an inner traverser shows -/

/-- A traverser shows the paths of a list one after the other; `Prune` leaves out what lies below the
first. Its depth after `Prune` is that of the path or of its parent. -/
structure Wraps {T : Type} [InnerTraverser T] (R : T → List (List Byte) → Prop) : Prop where
  exhausted : ∀ t, R t [] → InnerTraverser.alive t = false
  alive : ∀ t p L, R t (p :: L) → InnerTraverser.alive t = true
  nonempty : ∀ t p L, R t (p :: L) → p ≠ []
  depth : ∀ t p L, R t (p :: L) → InnerTraverser.getDepth t = p.length
  label : ∀ t p L, R t (p :: L) → ∀ c ∈ p.head?, InnerTraverser.getStateLabel t = c
  next : ∀ t p L, R t (p :: L) → R (InnerTraverser.advance t) L
  skip : ∀ t p L, R t (p :: L) →
    R (InnerTraverser.advance (InnerTraverser.prune t)) (Move.skip.agenda (p :: L))
  stays : ∀ t, R t [] → R (InnerTraverser.advance t) []
  advances : ∀ t L, R t L → InnerTraverser.canAdvance t = true
  prunes : ∀ t p L, R t (p :: L) → InnerTraverser.canPrune t = true
  advancesPruned : ∀ t p L, R t (p :: L) →
    InnerTraverser.canAdvance (InnerTraverser.prune t) = true
  pruned : ∀ t p L, R t (p :: L) → InnerTraverser.getDepth (InnerTraverser.prune t) = p.length ∨
    InnerTraverser.getDepth (InnerTraverser.prune t) = p.length - 1

section

variable {T : Type} [InnerTraverser T] {R : T → List (List Byte) → Prop}
  {t : CodePointStateTraverser T} {h p : List Byte} {L : List (List Byte)}

/-- Both stacks hold a path. -/
structure Stacked (t : CodePointStateTraverser T) (h : List Byte) : Prop where
  transitions : t.transitionsStack = h
  lengths : t.utf8LengthStack = lengthsOf h
  depth : t.currentDepth = depthOfPath h

/-- The next step of the inner traverser shows the first path of the list. -/
structure Ready (R : T → List (List Byte) → Prop) (t : CodePointStateTraverser T) (h : List Byte)
    (L : List (List Byte)) : Prop where
  next : R (InnerTraverser.advance t.wrappedStateTraverser) L
  advances : InnerTraverser.canAdvance t.wrappedStateTraverser = true
  stacked : Stacked t h
  continues : Preorder.Continues h L
  nodup : L.Nodup
  text : ∀ q ∈ h :: L, BeginsText q

/-- The traverser is at a path. -/
structure AtPath (R : T → List (List Byte) → Prop) (t : CodePointStateTraverser T) (p : List Byte)
    (L : List (List Byte)) : Prop where
  here : R t.wrappedStateTraverser (p :: L)
  stacked : Stacked t p
  continues : Preorder.Continues p L
  nodup : (p :: L).Nodup
  text : ∀ q ∈ p :: L, BeginsText q
  codepoint : ∀ s c, p.reverse = bytesOf (s ++ [c]) → t.codepoint = c.val.toNat

/-- The traverser is exhausted. -/
structure Ended (R : T → List (List Byte) → Prop) (t : CodePointStateTraverser T) : Prop where
  here : R t.wrappedStateTraverser []
  stacked : Stacked t []
  codepoint : t.codepoint = 0

theorem Ended.ready (hw : Wraps R) (ht : Ended R t) : Ready R t [] [] :=
  ⟨hw.stays _ ht.here, hw.advances _ _ ht.here, ht.stacked, trivial, List.nodup_nil, by simp [BeginsText]⟩

theorem AtPath.ready (hw : Wraps R) (ht : AtPath R t p L) : Ready R t p L :=
  ⟨hw.next _ _ _ ht.here, hw.advances _ _ ht.here, ht.stacked, ht.continues, ht.nodup.of_cons,
    ht.text⟩

/-- **The next code point.** By induction on the paths: those that end inside of a character are
passed. -/
theorem advance_spec (hw : Wraps R) : ∀ {L : List (List Byte)} {h : List Byte}
    {t : CodePointStateTraverser T} {fuel : Nat}, L.length < fuel → Ready R t h L →
    (L.filter complete = [] ∧ ∃ t', t.advance fuel = some t' ∧ Ended R t') ∨
      ∃ p L' t', L.filter complete = p :: L'.filter complete ∧ L'.length ≤ L.length ∧
        t.advance fuel = some t' ∧ AtPath R t' p L'
  | [], h, t, fuel + 1, _, ht => by
    refine .inl ⟨rfl, ⟨InnerTraverser.advance t.wrappedStateTraverser, [], [], 0, 0⟩, ?_,
      ⟨ht.next, ⟨rfl, rfl, rfl⟩, rfl⟩⟩
    rw [CodePointStateTraverser.advance, if_pos ht.advances]
    simp [hw.exhausted _ ht.next]
  | p :: L, h, t, fuel + 1, hfuel, ht => by
    obtain ⟨c, p, rfl⟩ := List.exists_cons_of_ne_nil (hw.nonempty _ _ _ ht.next)
    have hsuffix : p <:+ h := ht.continues.1
    have htext := ht.text (c :: p) (List.mem_cons_of_mem _ List.mem_cons_self)
    have hprune := pruneHistory_spec (ht.text h List.mem_cons_self) hsuffix
    have hdepth : InnerTraverser.getDepth (InnerTraverser.advance t.wrappedStateTraverser) - 1 =
        p.length := by
      rw [hw.depth _ _ _ ht.next]
      rfl
    have hlead : (p.isEmpty || decide ((lengthsOf p).headD 0 = 0)) = decide (owed p.reverse = 0) := by
      cases p with
      | nil => rfl
      | cons d p => rfl
    have hremaining : CodePointStateTraverser.remaining (decide (owed p.reverse = 0)) c
        (lengthsOf p) = some (owed (c :: p).reverse) := by
      have hnext := htext.next
      rw [List.reverse_cons, owed_concat, CodePointStateTraverser.remaining]
      by_cases h0 : owed p.reverse = 0
      · rw [if_pos h0] at hnext
        rw [if_pos (decide_eq_true h0), if_pos h0, getCharLength_lead hnext]
        rfl
      · rw [if_neg (by simpa using h0), if_neg h0]
        cases p with
        | nil => exact absurd rfl h0
        | cons d p => rfl
    have hcount : (if decide (owed p.reverse = 0) = true then depthOfPath p + 1 else depthOfPath p) =
        depthOfPath (c :: p) := by
      have hnext := htext.next
      unfold depthOfPath
      by_cases h0 : owed p.reverse = 0
      · rw [if_pos h0] at hnext
        simp [h0, hnext]
      · rw [if_neg h0] at hnext
        simp [h0, not_isLead_tail hnext]
    rw [CodePointStateTraverser.advance, if_pos ht.advances]
    simp only [hw.alive _ _ _ ht.next, if_true, hw.label _ _ _ ht.next c rfl, hdepth,
      ht.stacked.transitions, ht.stacked.lengths, ht.stacked.depth, hprune, Option.bind_some, hlead,
      hremaining, hcount]
    have hready : Ready R ⟨InnerTraverser.advance t.wrappedStateTraverser, c :: p,
        owed (c :: p).reverse :: lengthsOf p, t.codepoint, depthOfPath (c :: p)⟩ (c :: p) L :=
      ⟨hw.next _ _ _ ht.next, hw.advances _ _ ht.next, ⟨rfl, rfl, rfl⟩, ht.continues.2,
        ht.nodup.of_cons, fun q hq => ht.text q (List.mem_cons_of_mem _ hq)⟩
    by_cases hdone : owed (c :: p).reverse = 0
    · rw [if_neg (by omega), List.filter_cons_of_pos (by simpa [complete] using hdone)]
      obtain ⟨s, hs⟩ := htext
      obtain ⟨s, -, hs⟩ := exists_text hs hdone
      have hne : s ≠ [] := by
        rintro rfl
        simp at hs
      obtain ⟨s, d, rfl⟩ : ∃ s' d, s = s' ++ [d] :=
        ⟨_, _, (List.dropLast_append_getLast hne).symm⟩
      refine .inr ⟨c :: p, L, _, rfl, by simp, extract_spec hs rfl rfl, ht.next, ⟨rfl, rfl, rfl⟩,
        ht.continues.2, ht.nodup, fun q hq => ht.text q (List.mem_cons_of_mem _ hq),
        fun s' d' hs' => ?_⟩
      have heq := bytesOf_injective (hs.symm.trans hs')
      rw [List.append_inj_right' heq rfl |> List.singleton_inj.mp]
    · rw [if_pos (by omega), List.filter_cons_of_neg (by simpa [complete] using hdone)]
      have hlen : L.length < fuel := by simpa using hfuel
      rcases advance_spec hw hlen hready with hend | ⟨q, L', t', h1, h2, h3⟩
      · exact .inl hend
      · exact .inr ⟨q, L', t', h1, h2.trans (by simp), h3⟩

/-- **`Prune` leaves out what extends the path.** The stacks hold the path or that of the byte above
it; the next path goes on from either. -/
theorem prune_spec (hw : Wraps R) (ht : AtPath R t p L) :
    ∃ t' h, t.prune = some t' ∧ Ready R t' h (L.filter fun q => ¬ p <:+ q) := by
  have hnext := hw.skip _ _ _ ht.here
  rw [Move.agenda] at hnext
  have hp := ht.text p List.mem_cons_self
  have hout : p ∉ L := (List.nodup_cons.mp ht.nodup).1
  have hcut : ∀ q : List Byte, q <:+ p → p.tail <:+ q →
      InnerTraverser.getDepth (InnerTraverser.prune t.wrappedStateTraverser) = q.length →
      ∃ t' h, t.prune = some t' ∧ Ready R t' h (L.filter fun q => ¬ p <:+ q) := by
    intro q hq hpq hdepth
    refine ⟨⟨InnerTraverser.prune t.wrappedStateTraverser, q, lengthsOf q, t.codepoint,
      depthOfPath q⟩, q, ?_, hnext, hw.advancesPruned _ _ _ ht.here, ⟨rfl, rfl, rfl⟩,
      Preorder.Continues.filter hpq ht.continues List.suffix_rfl hout,
      (List.nodup_cons.mp ht.nodup).2.filter _, ?_⟩
    · rw [CodePointStateTraverser.prune, if_pos (hw.prunes _ _ _ ht.here)]
      dsimp only
      rw [hdepth, ht.stacked.transitions, ht.stacked.lengths,
        ht.stacked.depth, pruneHistory_spec hp hq]
      rfl
    · intro v hv
      rcases List.mem_cons.mp hv with rfl | hv
      · exact hp.of_suffix hq
      · exact ht.text v (List.mem_cons_of_mem _ (List.mem_of_mem_filter hv))
  rcases hw.pruned _ _ _ ht.here with hdepth | hdepth
  · exact hcut p List.suffix_rfl (List.tail_suffix p) hdepth
  · exact hcut p.tail (List.tail_suffix p) List.suffix_rfl (by rw [hdepth, List.length_tail])

end

/-! ## Sequences of calls -/

/-- What a caller does. -/
inductive Call where
  | advance
  | prune
deriving DecidableEq, Repr

namespace CodePointStateTraverser

variable {T : Type} [InnerTraverser T]

/-- One call. -/
def call (fuel : Nat) (t : CodePointStateTraverser T) : Call → Option (CodePointStateTraverser T)
  | .advance => t.advance fuel
  | .prune => t.prune

/-- One call after the other. -/
def run (fuel : Nat) : List Call → CodePointStateTraverser T → Option (CodePointStateTraverser T)
  | [], t => some t
  | c :: calls, t => (t.call fuel c).bind (run fuel calls)

end CodePointStateTraverser

namespace CodePointStateTraverser

variable {T : Type} [InnerTraverser T]

/-- More fuel changes nothing. -/
theorem advance_add {t t' : CodePointStateTraverser T} {fuel : Nat} (k : Nat)
    (h : t.advance fuel = some t') : t.advance (fuel + k) = some t' := by
  induction fuel generalizing t with
  | zero => cases h
  | succ fuel ih =>
    rw [show fuel + 1 + k = (fuel + k) + 1 by omega]
    rw [advance] at h ⊢
    split at h
    case isFalse => cases h
    rw [if_pos ‹_›]
    by_cases ha : InnerTraverser.alive (InnerTraverser.advance t.wrappedStateTraverser) = true
    · simp only [ha, if_true] at h ⊢
      obtain ⟨r, hr, h⟩ := Option.bind_eq_some_iff.mp h
      obtain ⟨n, hn, h⟩ := Option.bind_eq_some_iff.mp h
      rw [hr, Option.bind_some, hn, Option.bind_some]
      by_cases h0 : 0 < n
      · rw [if_pos h0] at h ⊢
        exact ih h
      · rwa [if_neg h0] at h ⊢
    · simpa only [ha, Bool.false_eq_true, if_false] using h

theorem run_add {fuel : Nat} (k : Nat) : ∀ {calls : List Call} {t t' : CodePointStateTraverser T},
    t.run fuel calls = some t' → t.run (fuel + k) calls = some t'
  | [], _, _, h => h
  | c :: calls, t, t', h => by
    rw [run] at h ⊢
    obtain ⟨t₁, hcall, hrun⟩ := Option.bind_eq_some_iff.mp h
    have hcall' : t.call (fuel + k) c = some t₁ := by
      cases c with
      | advance => exact advance_add k hcall
      | prune => exact hcall
    rw [hcall', Option.bind_some]
    exact run_add k hrun

end CodePointStateTraverser

/-- The texts that are left, from the current one on: `++` goes to the next, `Prune` leaves out those
that extend the current one. -/
def Call.cursor : List (List Char) → Call → List (List Char)
  | [], _ => []
  | _ :: M, .advance => M
  | s :: M, .prune => s :: M.filter fun u => ¬ s <+: u

/-- The traverser shows the current text: its last code point and the number of its code points. -/
def ShowsText {T : Type} [InnerTraverser T] (t : CodePointStateTraverser T) :
    List (List Char) → Prop
  | [] => t.alive = false ∧ t.codepoint = 0 ∧ t.currentDepth = 0
  | s :: _ => t.alive = true ∧ t.currentDepth = s.length ∧
      ∀ c ∈ s.getLast?, t.codepoint = c.val.toNat

/-- `Prune` is called at a text, and not again before the next `++`. -/
def Regular : Bool → List Call → List (List Char) → Prop
  | _, [], _ => True
  | _, .advance :: calls, M => Regular false calls (Call.cursor M .advance)
  | pruned, .prune :: calls, M =>
    pruned = false ∧ M ≠ [] ∧ Regular true calls (Call.cursor M .prune)

/-- The code-point tree of some keys: each prefix once, and before what extends it. -/
structure IsTree (isKey : List Char → Prop) (tree : List (List Char)) : Prop where
  nodup : tree.Nodup
  mem : ∀ s, s ∈ tree ↔ s ≠ [] ∧ ∃ u, isKey u ∧ s <+: u
  parents : tree.Pairwise fun s u => ¬ u <+: s

/-- After the calls the traverser shows where the tree was left. -/
def ShowsAfter {T : Type} [InnerTraverser T] (traverser : T) (tree : List (List Char))
    (calls : List Call) : Prop :=
  ∃ N, ∀ fuel, N ≤ fuel → ∃ t,
    (CodePointStateTraverser.ofTraverser fuel traverser).bind
        (CodePointStateTraverser.run fuel calls) = some t ∧
      (calls.getLast? ≠ some .prune → ShowsText t (calls.foldl Call.cursor tree))

/-- The traverser visits the code-point tree, whatever is called. -/
def VisitsTree {T : Type} [InnerTraverser T] (traverser : T) (isKey : List Char → Prop) : Prop :=
  ∃ tree, IsTree isKey tree ∧ ∀ calls, Regular false calls tree → ShowsAfter traverser tree calls

section

variable {T : Type} [InnerTraverser T] {R : T → List (List Byte) → Prop} {fuel : Nat}
  {t : CodePointStateTraverser T} {M : List (List Char)}

/-- The path of a text. -/
def pathOf (s : List Char) : List Byte := (bytesOf s).reverse

theorem pathOf_injective : Function.Injective pathOf :=
  List.reverse_injective.comp bytesOf_injective

theorem pathOf_suffix_iff {s u : List Char} : pathOf s <:+ pathOf u ↔ s <+: u := by
  rw [pathOf, pathOf, List.reverse_suffix, bytesOf_prefix_iff]

theorem complete_pathOf (s : List Char) : complete (pathOf s) = true := by
  rw [complete, pathOf, List.reverse_reverse, owed_bytesOf]
  rfl

/-- The traverser is where the texts say, after `Prune` or not. -/
inductive Sim (R : T → List (List Byte) → Prop) (fuel : Nat) :
    Bool → CodePointStateTraverser T → List (List Char) → Prop
  | ended {t : CodePointStateTraverser T} (ht : Ended R t) (hf : 0 < fuel) : Sim R fuel false t []
  | here {t : CodePointStateTraverser T} {s : List Char} {L : List (List Byte)}
    {M : List (List Char)} (ht : AtPath R t (pathOf s) L) (hf : L.length < fuel)
    (hM : L.filter complete = M.map pathOf) : Sim R fuel false t (s :: M)
  | pruned {t : CodePointStateTraverser T} {s : List Char} {h : List Byte} {L : List (List Byte)}
    {M : List (List Char)} (ht : Ready R t h L) (hf : L.length < fuel)
    (hM : L.filter complete = M.map pathOf) : Sim R fuel true t (s :: M)

theorem Ready.advance (hw : Wraps R) {h : List Byte} {L : List (List Byte)} (ht : Ready R t h L)
    (hf : L.length < fuel) (hM : L.filter complete = M.map pathOf) :
    ∃ t', t.advance fuel = some t' ∧ Sim R fuel false t' M := by
  rcases advance_spec hw hf ht with ⟨hnil, t', hadv, hend⟩ | ⟨p, L', t', hL, hlen, hadv, hat⟩
  · rw [hnil] at hM
    rw [List.map_eq_nil_iff.mp hM.symm]
    exact ⟨t', hadv, .ended hend (by omega)⟩
  · rw [hL] at hM
    obtain ⟨s, M', rfl, rfl, hM'⟩ := List.map_eq_cons_iff.mp hM.symm
    exact ⟨t', hadv, .here hat (by omega) hM'.symm⟩

/-- **One call.** -/
theorem Sim.call (hw : Wraps R) {pruned : Bool} (h : Sim R fuel pruned t M) {c : Call}
    (hc : c = .prune → pruned = false ∧ M ≠ []) :
    ∃ t', t.call fuel c = some t' ∧ Sim R fuel (decide (c = .prune)) t' (Call.cursor M c) := by
  cases c with
  | advance =>
    cases h with
    | ended ht hf => exact (ht.ready hw).advance hw hf rfl
    | here ht hf hM => exact (ht.ready hw).advance hw hf hM
    | pruned ht hf hM => exact ht.advance hw hf hM
  | prune =>
    obtain ⟨rfl, hne⟩ := hc rfl
    cases h with
    | ended ht hf => exact absurd rfl hne
    | @here _ s L M ht hf hM =>
      obtain ⟨t', h, hprune, hready⟩ := prune_spec hw ht
      refine ⟨t', hprune, .pruned hready (lt_of_le_of_lt (List.length_filter_le _ _) hf) ?_⟩
      rw [List.filter_filter, List.filter_congr (fun q _ => Bool.and_comm _ _),
        ← List.filter_filter, hM, List.filter_map]
      congr 1
      refine List.filter_congr fun u _ => ?_
      simp only [Function.comp_apply, pathOf_suffix_iff]

/-- **Every sequence of calls.** -/
theorem Sim.run (hw : Wraps R) : ∀ (calls : List Call) {pruned : Bool}
    {t : CodePointStateTraverser T} {M : List (List Char)}, Sim R fuel pruned t M →
    Regular pruned calls M →
    ∃ t', t.run fuel calls = some t' ∧
      Sim R fuel (calls.foldl (fun _ c => decide (c = .prune)) pruned) t'
        (calls.foldl Call.cursor M)
  | [], _, t, _, h, _ => ⟨t, rfl, h⟩
  | .advance :: calls, _, t, M, h, hr => by
    obtain ⟨t', hcall, h'⟩ := h.call hw (c := .advance) (by simp)
    obtain ⟨t'', hrun, h''⟩ := h'.run hw calls hr
    exact ⟨t'', by rw [CodePointStateTraverser.run, hcall, Option.bind_some, hrun], h''⟩
  | .prune :: calls, _, t, M, h, hr => by
    obtain ⟨t', hcall, h'⟩ := h.call hw (c := .prune) fun _ => ⟨hr.1, hr.2.1⟩
    obtain ⟨t'', hrun, h''⟩ := h'.run hw calls hr.2.2
    exact ⟨t'', by rw [CodePointStateTraverser.run, hcall, Option.bind_some, hrun], h''⟩

theorem Sim.shows (hw : Wraps R) (h : Sim R fuel false t M) : ShowsText t M := by
  cases h with
  | ended ht hf => exact ⟨hw.exhausted _ ht.here, ht.codepoint, ht.stacked.depth⟩
  | @here _ s L M ht hf hM =>
    refine ⟨hw.alive _ _ _ ht.here, ?_, fun c hc => ?_⟩
    · rw [ht.stacked.depth, depthOfPath, pathOf, List.countP_reverse, countP_isLead]
    · obtain ⟨s, rfl⟩ := List.getLast?_eq_some_iff.mp hc
      exact ht.codepoint s c (List.reverse_reverse _)

theorem foldl_pruned (calls : List Call) (h : calls.getLast? ≠ some .prune) :
    calls.foldl (fun _ c => decide (c = Call.prune)) false = false := by
  rcases List.eq_nil_or_concat calls with rfl | ⟨calls, c, rfl⟩
  · rfl
  · rw [List.concat_eq_append] at h ⊢
    rw [List.foldl_append]
    rw [List.getLast?_concat] at h
    simpa using h

/-- The paths that end with a character are those of a tree of texts. -/
theorem exists_tree {L : List (List Byte)} {isKey : Key → Prop}
    (htext : ∀ k, isKey k → ∃ s, k = bytesOf s) (hnd : L.Nodup)
    (hparents : L.Pairwise fun p q => ¬ q <:+ p)
    (hmem : ∀ q, q ∈ L ↔ q ≠ [] ∧ ∃ k, isKey k ∧ q.reverse <+: k) :
    ∃ tree, L.filter complete = tree.map pathOf ∧ IsTree (fun u => isKey (bytesOf u)) tree := by
  have hall : ∀ p ∈ L.filter complete, p ∈ Set.range pathOf := by
    intro p hp
    obtain ⟨hp, h0⟩ := List.mem_filter.mp hp
    obtain ⟨-, k, hk, hpre⟩ := (hmem p).mp hp
    obtain ⟨u, rfl⟩ := htext k hk
    obtain ⟨s, -, hs⟩ := exists_text hpre (of_decide_eq_true h0)
    exact ⟨s, by rw [pathOf, ← hs, List.reverse_reverse]⟩
  obtain ⟨tree, htree⟩ : ∃ tree : List (List Char), tree.map pathOf = L.filter complete := by
    have hrange : L.filter complete ∈ Set.range (List.map pathOf) := by
      rw [Set.range_list_map]
      exact hall
    exact hrange
  refine ⟨tree, htree.symm, ?_, fun s => ?_, ?_⟩
  · exact List.Nodup.of_map pathOf (htree ▸ hnd.filter _)
  · rw [← List.mem_map_of_injective pathOf_injective, htree, List.mem_filter, hmem]
    have hcomplete := complete_pathOf s
    rw [pathOf, List.reverse_reverse]
    constructor
    · rintro ⟨⟨hne, k, hk, hpre⟩, -⟩
      obtain ⟨u, rfl⟩ := htext k hk
      refine ⟨?_, u, hk, bytesOf_prefix_iff.mp hpre⟩
      rintro rfl
      exact hne rfl
    · rintro ⟨hne, u, hk, hpre⟩
      refine ⟨⟨?_, _, hk, bytesOf_prefix_iff.mpr hpre⟩, hcomplete⟩
      intro hnil
      exact hne (pathOf_injective hnil)
  · have hpw := hparents.filter complete
    rw [← htree, List.pairwise_map] at hpw
    exact hpw.imp fun h hpre => h (pathOf_suffix_iff.mpr hpre)

/-- **Over an inner traverser that shows the paths of keys.** -/
theorem visitsTree_of_wraps (hw : Wraps R) {L : List (List Byte)} {isKey : Key → Prop}
    (htext : ∀ k, isKey k → ∃ s, k = bytesOf s) (hnd : L.Nodup)
    (hparents : L.Pairwise fun p q => ¬ q <:+ p) (hcontinues : Preorder.Continues [] L)
    (hmem : ∀ q, q ∈ L ↔ q ≠ [] ∧ ∃ k, isKey k ∧ q.reverse <+: k) {traverser : T}
    (hnext : R (InnerTraverser.advance traverser) L)
    (hcan : InnerTraverser.canAdvance traverser = true) :
    VisitsTree traverser fun u => isKey (bytesOf u) := by
  obtain ⟨tree, hL, htree⟩ := exists_tree htext hnd hparents hmem
  refine ⟨tree, htree, fun calls hr => ⟨L.length + 1, fun fuel hf => ?_⟩⟩
  have hready : Ready R (⟨traverser, [], [], 0, 0⟩ : CodePointStateTraverser T) [] L := by
    refine ⟨hnext, hcan, ⟨rfl, rfl, rfl⟩, hcontinues, hnd, fun q hq => ?_⟩
    rcases List.mem_cons.mp hq with rfl | hq
    · exact ⟨[], List.nil_prefix⟩
    · obtain ⟨-, k, hk, hpre⟩ := (hmem q).mp hq
      obtain ⟨s, rfl⟩ := htext k hk
      exact ⟨s, hpre⟩
  have hfuel : L.length < fuel := by omega
  obtain ⟨t, hadv, hsim⟩ := hready.advance hw hfuel hL
  obtain ⟨t', hrun, hsim'⟩ := hsim.run hw calls hr
  refine ⟨t', ?_, fun hlast => ?_⟩
  · rw [CodePointStateTraverser.ofTraverser, hadv, Option.bind_some, hrun]
  · rw [foldl_pruned calls hlast] at hsim'
    exact hsim'.shows hw

end

/-! ## Plain and zipped inner traversers -/

section

variable {β : Type} [LinearOrder β] {step : List Byte → Byte → β} {L : List (List Byte)}

/-- A path stands before those that extend it. -/
theorem parents_of_pairwise
    (h : L.Pairwise fun p q => Preorder.key step p < Preorder.key step q) :
    L.Pairwise fun p q => ¬ q <:+ p := by
  refine h.imp fun {p q} hlt hqp => ?_
  rcases hqp.length_le.lt_or_eq with hlen | hlen
  · exact lt_asymm hlt (Preorder.key_lt_of_suffix step hqp hlen)
  · rw [hqp.eq_of_length hlen] at hlt
    exact lt_irrefl _ hlt

theorem nodup_of_pairwise
    (h : L.Pairwise fun p q => Preorder.key step p < Preorder.key step q) : L.Nodup := by
  refine h.imp fun {p q} hlt he => ?_
  rw [he] at hlt
  exact lt_irrefl _ hlt

end

section

variable {d : Dictionary} {ds : List Dictionary} {B : Nat}

/-- A traverser of one automaton is at the parent after `Prune`, and stays at its end. -/
theorem Follows.wraps {τ π : Type} [TransitionT τ π] [Inhabited π] {children : List Byte → List Byte}
    {transition : List Byte → Byte → τ} {ok : π → List Byte → List Byte → Prop} {a : Automata}
    {s₀ : Nat} {final : List Byte → Bool} {found : List Byte → Automata × Nat}
    (hf : Follows (fun (t : StateTraverser τ π) L => Arrives a s₀ B children transition ok t L)
      final found) :
    Wraps fun (t : StateTraverser τ π) L => Arrives a s₀ B children transition ok t L where
  exhausted := hf.exhausted
  alive := hf.alive
  nonempty := hf.nonempty
  depth := hf.depth
  label := hf.label
  next := hf.next
  skip := hf.skip
  stays t h := by
    have h0 : t.currentState = 0 := h
    show StateTraverser.currentState (StateTraverser.advance t) = 0
    rw [StateTraverser.advance, if_pos h0, h0]
  advances _ _ _ := rfl
  prunes t p L h := by
    have hdepth : t.getDepth = p.length := hf.depth t p L h
    exact decide_eq_true (hdepth ▸ List.length_pos_iff.mpr (hf.nonempty t p L h))
  advancesPruned _ _ _ _ := rfl
  pruned t p L h := by
    have hdepth : t.stack.currentDepth = p.length := hf.depth t p L h
    refine .inr ?_
    show t.stack.currentDepth - 1 = p.length - 1
    rw [hdepth]

/-- A path is below a key if there is a state for it. -/
theorem trailState_ne_zero_iff (h : Holds d.1 d.2) {q : List Byte} (hq : q ≠ []) :
    d.1.trailState d.1.getStartState q ≠ 0 ↔ ∃ k, k ∈ keysOf d.2 ∧ q.reverse <+: k := by
  rw [← walk_reverse, h.walk_ne_zero_iff (by simpa using hq)]

/-- Without a start state there is nothing to show. -/
theorem arrives_without_start {τ π : Type} [TransitionT τ π] [Inhabited π]
    {children : List Byte → List Byte} {transition : List Byte → Byte → τ}
    {ok : π → List Byte → List Byte → Prop} {L : List (List Byte)} (h : Holds d.1 d.2)
    (h0 : d.1.getStartState = 0)
    (hmem : ∀ q, q ∈ L ↔ q ≠ [] ∧ ∃ k, k ∈ keysOf d.2 ∧ q.reverse <+: k) (payload : π) :
    Arrives d.1 d.1.getStartState B children transition ok
      (StateTraverser.ofState d.1 d.1.getStartState payload false).advance L := by
  have hnil : L = [] := by
    refine List.eq_nil_iff_forall_not_mem.mpr fun q hq => ?_
    obtain ⟨-, k, hk, -⟩ := (hmem q).mp hq
    rw [h.eq_nil_of_start h0] at hk
    cases hk
  have hstate : (StateTraverser.ofState d.1 d.1.getStartState payload false :
      StateTraverser τ π).currentState = 0 := h0
  rw [hnil, StateTraverser.advance, if_pos hstate]
  exact hstate

/-- **Over a plain traverser.** -/
theorem visitsTree_plain (h : Holds d.1 d.2) (htext : ∀ k ∈ keysOf d.2, ∃ s, k = bytesOf s) :
    VisitsTree (StateTraverser.ofState d.1 d.1.getStartState () false : PlainTraverser)
      fun u => bytesOf u ∈ keysOf d.2 := by
  have hT := h.tree
  have hB := bounded_children hT
  have hpw : (Preorder.subtree (d.1.children d.1.getStartState) (depthOf d.2) []).Pairwise
      fun p q => Preorder.key (fun _ c => c) p < Preorder.key (fun _ c => c) q := by
    simp only [Preorder.key_label]
    exact Preorder.pairwise_subtree (pairwise_children d.1 _) hB []
  have hmem : ∀ q, q ∈ Preorder.subtree (d.1.children d.1.getStartState) (depthOf d.2) [] ↔
      q ≠ [] ∧ ∃ k, k ∈ keysOf d.2 ∧ q.reverse <+: k := by
    intro q
    rw [Preorder.mem_subtree hB, extends_children_iff hT]
    exact and_congr_right fun hq => trailState_ne_zero_iff h hq
  have hf : Follows (fun (t : PlainTraverser) L =>
      PlainTraverser.ArrivesAt d.1 (stateAt d []) (depthOf d.2) t L) (keyBehind d [])
      (foundSingle d []) :=
    follows_of_visits h hB (nodup_children d.1 _) (Transition.visits hT)
      fun _ _ _ _ _ _ _ => trivial
  refine visitsTree_of_wraps hf.wraps htext (nodup_of_pairwise hpw) (parents_of_pairwise hpw)
    (Preorder.continues_subtree hB) hmem ?_ rfl
  by_cases h0 : d.1.getStartState = 0
  · exact arrives_without_start h h0 hmem ()
  · exact PlainTraverser.advance hT (PlainTraverser.at_atState hT h0 _)

/-- Over a weighted traverser. -/
theorem visitsTree_weighted (h : Holds d.1 d.2) (htext : ∀ k ∈ keysOf d.2, ∃ s, k = bytesOf s) :
    VisitsTree (StateTraverser.ofState d.1 d.1.getStartState default false : WeightedStateTraverser)
      fun u => bytesOf u ∈ keysOf d.2 := by
  have hT := tree_behind h []
  have hpw := pairwise_sortedTrails (weightedStep_inj [behind d []])
    fun q hq => WeightedTraverser.length_le_of_hasPath hT hq
  have hmem : ∀ q, q ∈ heaviestBehind d [] ↔ q ≠ [] ∧ ∃ k, k ∈ keysOf d.2 ∧ q.reverse <+: k := by
    intro q
    rw [mem_heaviestBehind h]
    exact and_congr_right fun hq => trailState_ne_zero_iff h hq
  refine visitsTree_of_wraps (follows_weighted h []).wraps htext (nodup_of_pairwise hpw)
    (parents_of_pairwise hpw) (Preorder.continues_subtree (WeightedTraverser.bounded hT)) hmem ?_ rfl
  by_cases h0 : d.1.getStartState = 0
  · exact arrives_without_start h h0 hmem default
  · exact arrives_weighted hT h0

end

/-! ## A zipped traverser that was not advanced -/

section

open Source

variable {ds : List Dictionary} {sources : List Source} {B : Nat} {L : List (List Byte)}

/-- The zipped traverser keeps its depth when it is pruned. -/
theorem wraps_zip (hw : WellFormed sources B) :
    Wraps fun (z : ZipTraverser) L =>
      ZipTraverser.At sources B z L ∧ ZipTraverser.Agenda B sources L ∧ z.canPrune = true where
  exhausted z h := by
    have hq : z.traverserQueue = [] := h.1
    show ZipStateTraverser.alive z = false
    rw [ZipStateTraverser.alive, hq]
    rfl
  alive z p L h := h.1.2.1.alive
  nonempty z p L h := h.2.1.nonempty p List.mem_cons_self
  depth z p L h := h.1.2.1.depth
  label z p L h := h.1.2.1.label
  next z p L h := by
    have hat : ZipTraverser.At sources B z.advance L := h.1.move hw h.2.1 .next
    exact ⟨hat, h.2.1.sublist (List.sublist_cons_self p L), ZipTraverser.advance_canPrune h.2.2 hat⟩
  skip z p L h := by
    have hat : ZipTraverser.At sources B z.prune.advance (Move.skip.agenda (p :: L)) :=
      h.1.move hw h.2.1 .skip
    exact ⟨hat, h.2.1.sublist (ZipTraverser.agenda_sublist .skip _),
      ZipTraverser.advance_canPrune (ZipTraverser.prune_canPrune h.2.2) hat⟩
  stays z h := by
    have hat : ZipTraverser.At sources B z.advance [] := Discipline.At.advance_nil (fun _ _ => rfl) h.1
    exact ⟨hat, h.2.1, ZipTraverser.advance_canPrune h.2.2 hat⟩
  advances z L h := by
    show z.advance?.isSome = true
    rw [ZipTraverser.advance?_eq (of_decide_eq_true h.2.2)]
    rfl
  prunes z p L h := h.2.2
  advancesPruned z p L h := by
    show z.prune.advance?.isSome = true
    rw [ZipTraverser.advance?_eq (of_decide_eq_true (ZipTraverser.prune_canPrune h.2.2))]
    rfl
  pruned z p L h := .inl h.1.2.1.depth

/-- The inner traverser of a source, not advanced. -/
def atStart (s : Source) : ComparableTraverser :=
  ComparableStateTraverser.ofState s.fsa s.start () false s.order

/-- All inner traversers are in the queue, at the empty path. -/
theorem ofTraversers_atStart (hw : WellFormed sources B) (hstart : ∀ s ∈ sources, s.start ≠ 0)
    (hne : sources ≠ []) :
    ∃ queue : List ComparableTraverser, queue.Perm (sources.map atStart) ∧
      (ZipStateTraverser.ofTraversers (sources.map atStart)).traverserQueue = queue ∧
      (ZipStateTraverser.ofTraversers (sources.map atStart)).equalStates = queue.length := by
  have halive : ((sources.map atStart).filter fun c => c.alive) = sources.map atStart := by
    refine List.filter_eq_self.mpr fun c hc => ?_
    obtain ⟨s, hs, rfl⟩ := List.mem_map.mp hc
    exact decide_eq_true (hstart s hs)
  have hnd : (((sources.map atStart).filter fun c => c.alive).map
      ComparableStateTraverser.order).Nodup := Discipline.nodup_orders hw fun _ _ => rfl
  obtain ⟨hperm, -⟩ := SortedQueue.sorted_foldl_push (ZipTraverser.less_iff (B := B))
    (fun _ _ => trivial) List.Pairwise.nil (by simp)
    ((List.pairwise_map.mp hnd).imp fun hcd => (ZipTraverser.plain B).key_ne_of_order_ne hcd)
  rw [List.append_nil, halive] at hperm
  have hperm' := hperm.trans (List.reverse_perm _)
  have hlabels : ∀ c ∈ (sources.map atStart).foldl (fun q t => SortedQueue.push ZipT.less t q) [],
      c.labelStack = [] := by
    intro c hc
    obtain ⟨s, -, rfl⟩ := List.mem_map.mp (hperm'.mem_iff.mp hc)
    rfl
  refine ⟨_, hperm', ?_⟩
  rw [ZipStateTraverser.ofTraversers, halive]
  generalize (sources.map atStart).foldl (fun q t => SortedQueue.push ZipT.less t q) [] = queue
    at hperm' hlabels
  cases queue with
  | nil => exact absurd (List.map_eq_nil_iff.mp (List.nil_perm.mp hperm')) hne
  | cons t front =>
    obtain ⟨hq, -, -, -, hequal, -⟩ := ZipStateTraverser.fillInValues_spec
      (z := { (ZipStateTraverser.init : ZipTraverser) with traverserQueue := t :: front })
      (show _ = t :: front ++ [] by simp)
      (fun c hc => (ComparableStateTraverser.equals_iff t c).mpr
        ((hlabels t List.mem_cons_self).trans (hlabels c (List.mem_cons_of_mem _ hc)).symm))
      (by simp)
    exact ⟨hq, hequal⟩

/-- The whole queue is advanced: what is advanced comes after all that are not. -/
theorem requeue_atStart (hw : WellFormed sources B) (hL : ZipTraverser.Agenda B sources L)
    (harr : ∀ s ∈ sources, (ZipTraverser.plain B).Arrives s (ZipTraverser.inner s)
      (L.filter s.hasPath)) {queue : List ComparableTraverser}
    (hperm : queue.Perm (sources.map atStart)) :
    ∃ queue', SortedQueue.requeue ZipT.less ComparableStateTraverser.advance
        ComparableStateTraverser.alive queue.length queue = some queue' ∧
      (ZipTraverser.plain B).QueueAt sources queue' L := by
  have hqueue : ∀ c ∈ queue, ∃ s ∈ sources, c = atStart s := by
    intro c hc
    obtain ⟨s, hs, rfl⟩ := List.mem_map.mp (hperm.mem_iff.mp hc)
    exact ⟨s, hs, rfl⟩
  have hlabels : ∀ c ∈ queue, c.labelStack = [] := by
    intro c hc
    obtain ⟨s, -, rfl⟩ := hqueue c hc
    rfl
  have hnd : (queue.map ComparableStateTraverser.order).Nodup := by
    refine (hperm.map _).nodup_iff.mpr ?_
    have horders : (sources.map atStart).map ComparableStateTraverser.order =
        sources.map Source.order := by
      rw [List.map_map]
      rfl
    rw [horders]
    exact hw.nodup
  have hafter : ∀ c ∈ queue, ∀ c' ∈ queue, c'.advance.alive = true →
      (ZipTraverser.plain B).key c < (ZipTraverser.plain B).key c'.advance := by
    intro c hc c' hc' ha
    obtain ⟨s, hs, rfl⟩ := hqueue c' hc'
    have hs' : (ZipTraverser.plain B).Arrives s (atStart s).advance (L.filter s.hasPath) := harr s hs
    cases hf : L.filter s.hasPath with
    | nil =>
      rw [hf] at hs'
      exact absurd ha (by rw [show (atStart s).advance.alive = false from hs']; simp)
    | cons p rest =>
      rw [hf] at hs'
      have hp : p ∈ L.filter s.hasPath := hf ▸ List.mem_cons_self
      have hne := hL.nonempty p (List.mem_filter.mp hp).1
      rw [Discipline.key_lt_iff, hlabels c hc, (ZipTraverser.plain B).labels _ _ _ _ hs',
        List.reverse_reverse]
      exact .inl ((ZipTraverser.plain B).key_lt _ _ List.nil_suffix (List.length_pos_iff.mpr hne))
  have hkeys : queue.Pairwise fun c d =>
      (ZipTraverser.plain B).key c.advance ≠ (ZipTraverser.plain B).key d.advance :=
    (List.pairwise_map.mp hnd).imp fun hcd =>
      (ZipTraverser.plain B).key_ne_of_order_ne (by simpa using hcd)
  obtain ⟨queue', hrequeue, hperm', hsort'⟩ := SortedQueue.requeue_spec ZipTraverser.less_iff
    (fun _ _ => trivial) (fun _ _ _ => trivial) List.Pairwise.nil hafter (by simp) hkeys
  rw [List.append_nil] at hrequeue
  rw [List.nil_append] at hperm'
  refine ⟨queue', hrequeue, Discipline.queueAt_of_perm hw (fun s _ => ZipTraverser.order_inner s) harr
    (hperm'.trans (List.Perm.filter _ ?_)) hsort'⟩
  have hmap := hperm.map ComparableStateTraverser.advance
  rwa [List.map_map] at hmap

/-- **The first `operator++`** advances all inner traversers: they are all at the empty path. -/
theorem at_advance_atStart (hw : WellFormed sources B) (hL : ZipTraverser.Agenda B sources L)
    (hstart : ∀ s ∈ sources, s.start ≠ 0) (hne : sources ≠ [])
    (hsub : ∀ s ∈ sources, L.filter s.hasPath = Preorder.subtree (s.fsa.children s.start) B []) :
    (ZipStateTraverser.ofTraversers (sources.map atStart)).canPrune = true ∧
      ZipTraverser.At sources B (ZipStateTraverser.ofTraversers (sources.map atStart)).advance L := by
  have harr : ∀ s ∈ sources, (ZipTraverser.plain B).Arrives s (ZipTraverser.inner s)
      (L.filter s.hasPath) := by
    intro s hs
    rw [hsub s hs]
    exact ZipTraverser.arrives_of_arrives (ComparableTraverser.arrives_ofState (hw.tree s hs) s.order)
  obtain ⟨queue, hperm, hqueue, hequal⟩ := ofTraversers_atStart hw hstart hne
  obtain ⟨queue', hrequeue, hat⟩ := requeue_atStart hw hL harr hperm
  refine ⟨decide_eq_true (by rw [hqueue, hequal]), ?_⟩
  rw [← hequal, ← hqueue] at hrequeue
  rw [ZipStateTraverser.advance_of_requeue hrequeue]
  exact Discipline.at_fillInValues hw hL hat

/-- The traversers of all dictionaries with a state to start from. -/
theorem ofPairs_eq (ds : List Dictionary) :
    (ZipStateTraverser.ofPairs (ds.map fun d => (d.1, d.1.getStartState)) () false : ZipTraverser) =
      ZipStateTraverser.ofTraversers ((Dictionary.sources (onPath ds []) []).map atStart) := by
  have hpos : (ds.map fun d => (d.1, d.1.getStartState)).filter (fun f => 0 < f.2) =
      (onPath ds []).map fun d => (d.1, stateAt d []) := by
    rw [List.filter_map, onPath]
    congr 1
    refine List.filter_congr fun d _ => ?_
    exact decide_eq_decide.mpr Nat.pos_iff_ne_zero
  rw [ZipStateTraverser.ofPairs, hpos, List.zipIdx_map, List.map_map, Dictionary.sources,
    List.map_map]
  rfl

/-- The sources have the paths below the keys. -/
theorem hasPath_iff (hd : ∀ d ∈ ds, Holds d.1 d.2) {q : List Byte} (hq : q ≠ []) :
    (∃ s ∈ Dictionary.sources (onPath ds []) [], s.hasPath q = true) ↔
      ∃ k, (∃ d ∈ ds, k ∈ keysOf d.2) ∧ q.reverse <+: k := by
  constructor
  · rintro ⟨s, hs, hpath⟩
    obtain ⟨d, hi, hf, hst⟩ := mem_sources.mp hs
    have hd' := (mem_onPath.mp (List.mem_of_getElem? hi)).1
    have hne := of_decide_eq_true hpath
    rw [hf, hst] at hne
    obtain ⟨k, hk, hpre⟩ := (trailState_ne_zero_iff (hd d hd') hq).mp hne
    exact ⟨k, ⟨d, hd', hk⟩, hpre⟩
  · rintro ⟨k, ⟨d, hm, hk⟩, hpre⟩
    have hstart : stateAt d [] ≠ 0 := by
      refine (hd d hm).start_ne_zero fun hnil => ?_
      rw [hnil] at hk
      cases hk
    obtain ⟨s, hs, -, hf, hst⟩ := exists_source (j := []) (mem_onPath.mpr ⟨hm, hstart⟩)
    refine ⟨s, hs, ?_⟩
    rw [hasPath, hf, hst]
    exact decide_eq_true ((trailState_ne_zero_iff (hd d hm) hq).mpr ⟨k, hk, hpre⟩)

/-- The labels below a path are listed in their order. -/
theorem sortedLabels_hasPath {s : Source} (hT : s.fsa.Tree s.start B) :
    sortedLabels (fun _ c => c) s.hasPath = s.fsa.children s.start := by
  funext p
  refine (eq_sortedLabels (fun _ _ _ h => h) (fun c => ?_) (pairwise_children _ _ p)).symm
  rw [mem_children hT, hasPath, decide_eq_true_eq]

/-- **Over a zipped traverser**, when there is something to traverse. -/
theorem visitsTree_zip (hd : ∀ d ∈ ds, Holds d.1 d.2) (hkeys : ∃ d ∈ ds, keysOf d.2 ≠ [])
    (htext : ∀ k, (∃ d ∈ ds, k ∈ keysOf d.2) → ∃ s, k = bytesOf s) :
    VisitsTree (ZipStateTraverser.ofPairs (ds.map fun d => (d.1, d.1.getStartState)) () false :
      ZipTraverser) fun u => ∃ d ∈ ds, bytesOf u ∈ keysOf d.2 := by
  have hw := wellFormed_onPath [] hd (le_refl (bound ds))
  have hinj : ∀ (p : List Byte) (c d : Byte), (fun _ c => c) p c = (fun _ c => c) p d → c = d :=
    fun _ _ _ h => h
  have hbound := WeightedTraverser.any_bounded hw
  have hclosed := @WeightedTraverser.any_closed (Dictionary.sources (onPath ds []) [])
  have hpw := pairwise_sortedTrails hinj hbound
  have hpath : ∀ {q : List Byte}, q ≠ [] →
      ((∃ s ∈ Dictionary.sources (onPath ds []) [], s.hasPath q = true) ↔
        ∃ k, (∃ d ∈ ds, k ∈ keysOf d.2) ∧ q.reverse <+: k) := hasPath_iff hd
  have hmem : ∀ q, q ∈ sortedTrails (fun _ c => c)
      (fun q => (Dictionary.sources (onPath ds []) []).any fun s => s.hasPath q) (bound ds) ↔
      q ≠ [] ∧ ∃ k, (∃ d ∈ ds, k ∈ keysOf d.2) ∧ q.reverse <+: k := by
    intro q
    rw [mem_sortedTrails hbound hclosed, List.any_eq_true]
    exact and_congr_right fun hq => hpath hq
  have hL : ZipTraverser.Agenda (bound ds) (Dictionary.sources (onPath ds []) [])
      (sortedTrails (fun _ c => c)
        (fun q => (Dictionary.sources (onPath ds []) []).any fun s => s.hasPath q) (bound ds)) := by
    refine ⟨?_, fun q hq => ((hmem q).mp hq).1, fun q hq => ?_⟩
    · simp only [Preorder.key_label] at hpw
      exact hpw
    · obtain ⟨hne, hk⟩ := (hmem q).mp hq
      exact (hpath hne).mpr hk
  have hstart : ∀ s ∈ Dictionary.sources (onPath ds []) [], s.start ≠ 0 := by
    intro s hs
    obtain ⟨d, hi, -, hst⟩ := mem_sources.mp hs
    rw [hst]
    exact (mem_onPath.mp (List.mem_of_getElem? hi)).2
  have hne : Dictionary.sources (onPath ds []) [] ≠ [] := by
    obtain ⟨d, hm, hk⟩ := hkeys
    have h0 : stateAt d [] ≠ 0 := (hd d hm).start_ne_zero fun hnil => hk (by rw [hnil]; rfl)
    obtain ⟨s, hs, -⟩ := exists_source (j := []) (mem_onPath.mpr ⟨hm, h0⟩)
    exact List.ne_nil_of_mem hs
  obtain ⟨hcan, hat⟩ := at_advance_atStart hw hL hstart hne fun s hs => by
    rw [filter_sortedTrails hinj hbound hclosed
      (fun q hq => WeightedTraverser.length_le_of_hasPath (hw.tree s hs) hq)
      (fun p q hpq hq => hasPath_of_suffix hpq hq) fun q hq => List.any_eq_true.mpr ⟨s, hs, hq⟩,
      sortedTrails, sortedLabels_hasPath (hw.tree s hs)]
  rw [← ofPairs_eq] at hcan hat
  refine visitsTree_of_wraps (wraps_zip hw) htext (nodup_of_pairwise hpw)
    (parents_of_pairwise hpw) (Preorder.continues_subtree (bounded_sortedLabels hbound)) hmem ?_ ?_
  · refine ⟨hat, hL, ZipTraverser.advance_canPrune hcan hat⟩
  · show (ZipStateTraverser.advance? _).isSome = true
    rw [ZipTraverser.advance?_eq (of_decide_eq_true hcan)]
    rfl

end

/-! ## The result -/

/-- **The code-point tree of the keys is visited**, over a plain, a weighted and a zipped traverser, as
long as `Prune` is called at a text and not twice in a row. The zipped one needs something to
traverse. -/
theorem codePointStateTraverser_visits {ds : List Dictionary} (hd : ∀ d ∈ ds, Holds d.1 d.2)
    (htext : ∀ d ∈ ds, ∀ k ∈ keysOf d.2, ∃ s, k = bytesOf s) :
    (∀ d ∈ ds,
      VisitsTree (StateTraverser.ofState d.1 d.1.getStartState () false : PlainTraverser)
        (fun u => bytesOf u ∈ keysOf d.2) ∧
      VisitsTree
        (StateTraverser.ofState d.1 d.1.getStartState default false : WeightedStateTraverser)
        (fun u => bytesOf u ∈ keysOf d.2)) ∧
    ((∃ d ∈ ds, keysOf d.2 ≠ []) →
      VisitsTree (ZipStateTraverser.ofPairs (ds.map fun d => (d.1, d.1.getStartState)) () false :
        ZipTraverser) (fun u => ∃ d ∈ ds, bytesOf u ∈ keysOf d.2)) := by
  refine ⟨fun d hm => ⟨visitsTree_plain (hd d hm) (htext d hm),
    visitsTree_weighted (hd d hm) (htext d hm)⟩, fun hkeys => visitsTree_zip hd hkeys ?_⟩
  rintro k ⟨d, hm, hk⟩
  exact htext d hm k hk

/-- The keys `61 62` and `61 63` are texts. -/
theorem texts_keysABAC : ∀ d ∈ [keyAB, keysABAC], ∀ k ∈ keysOf d.2, ∃ s, k = bytesOf s := by
  have hab : [97, 98] = bytesOf ['a', 'b'] := by decide
  have hac : [97, 99] = bytesOf ['a', 'c'] := by decide
  intro d hd k hk
  simp only [List.mem_cons, List.not_mem_nil, or_false] at hd
  rcases hd with rfl | rfl
  · have hk' : k = [97, 98] := by simpa [keyAB, keysOf] using hk
    exact ⟨_, hk'.trans hab⟩
  · have hk' : k = [97, 98] ∨ k = [97, 99] := by simpa [keysABAC, keysOf] using hk
    rcases hk' with rfl | rfl
    · exact ⟨_, hab⟩
    · exact ⟨_, hac⟩

theorem codePointStateTraverser_visits_two :
    (∀ d ∈ [keyAB, keysABAC],
      VisitsTree (StateTraverser.ofState d.1 d.1.getStartState () false : PlainTraverser)
        (fun u => bytesOf u ∈ keysOf d.2) ∧
      VisitsTree
        (StateTraverser.ofState d.1 d.1.getStartState default false : WeightedStateTraverser)
        (fun u => bytesOf u ∈ keysOf d.2)) ∧
    VisitsTree (ZipStateTraverser.ofPairs ([keyAB, keysABAC].map fun d => (d.1, d.1.getStartState))
      () false : ZipTraverser) (fun u => ∃ d ∈ [keyAB, keysABAC], bytesOf u ∈ keysOf d.2) := by
  have h := codePointStateTraverser_visits (fun d hd => holds_of_mem d (by
    simp only [List.mem_cons, List.not_mem_nil, or_false] at hd ⊢
    rcases hd with rfl | rfl
    · exact .inl rfl
    · exact .inr (.inl rfl))) texts_keysABAC
  exact ⟨h.1, h.2 ⟨keyAB, List.mem_cons_self, by decide⟩⟩

/-- A tree of `61 62` and `61 63`. -/
theorem tree_keysABAC {tree : List (List Char)}
    (h : IsTree (fun u => bytesOf u ∈ keysOf keysABAC.2) tree) :
    tree = [['a'], ['a', 'b'], ['a', 'c']] ∨ tree = [['a'], ['a', 'c'], ['a', 'b']] := by
  have hkey : ∀ u, bytesOf u ∈ keysOf keysABAC.2 ↔ u = ['a', 'b'] ∨ u = ['a', 'c'] := by
    intro u
    rw [show keysOf keysABAC.2 = [bytesOf ['a', 'b'], bytesOf ['a', 'c']] by decide]
    simp only [List.mem_cons, List.not_mem_nil, or_false, bytesOf_injective.eq_iff]
  have hmem : ∀ s, s ∈ tree ↔ s ∈ [['a'], ['a', 'b'], ['a', 'c']] := by
    intro s
    rw [h.mem]
    constructor
    · rintro ⟨hne, u, hu, hpre⟩
      have hinit := (List.mem_inits s u).mpr hpre
      rcases (hkey u).mp hu with rfl | rfl <;>
        simp only [List.inits, List.map_cons, List.map_nil, List.mem_cons, List.not_mem_nil,
          or_false] at hinit <;>
        rcases hinit with rfl | rfl | rfl <;>
        first | exact absurd rfl hne | decide
    · intro hs
      simp only [List.mem_cons, List.not_mem_nil, or_false] at hs
      rcases hs with rfl | rfl | rfl
      · exact ⟨by decide, _, (hkey _).mpr (.inl rfl), by decide⟩
      · exact ⟨by decide, _, (hkey _).mpr (.inl rfl), by decide⟩
      · exact ⟨by decide, _, (hkey _).mpr (.inr rfl), by decide⟩
  have hperm : tree.Perm [['a'], ['a', 'b'], ['a', 'c']] :=
    (List.perm_ext_iff_of_nodup h.nodup (by decide)).mpr hmem
  obtain ⟨x, y, z, rfl⟩ := List.length_eq_three.mp hperm.length_eq
  have hx := (hmem x).mp (by simp)
  have hy := (hmem y).mp (by simp)
  have hz := (hmem z).mp (by simp)
  -- The prefix `61` stands first, the others are in either order.
  have hnd := h.nodup
  have hparents := h.parents
  simp only [List.mem_cons, List.not_mem_nil, or_false] at hx hy hz
  rcases hx with rfl | rfl | rfl <;> rcases hy with rfl | rfl | rfl <;>
    rcases hz with rfl | rfl | rfl <;>
    first | exact absurd hnd (by decide) | exact absurd hparents (by decide) | decide

/-- **A second `Prune` goes up once more.** With the keys `61 62` and `61 63` it leaves out `61 63`,
which does not extend `61 62`. -/
theorem not_visits_pruned_twice : ¬ ∃ tree, IsTree (fun u => bytesOf u ∈ keysOf keysABAC.2) tree ∧
    ∀ calls, ShowsAfter (StateTraverser.ofState keysABAC.1 keysABAC.1.getStartState () false :
      PlainTraverser) tree calls := by
  rintro ⟨tree, htree, hall⟩
  obtain ⟨N, hN⟩ := hall [.advance, .prune, .prune, .advance]
  obtain ⟨t, hrun, hshows⟩ := hN (8 + N) (by omega)
  -- The traverser is exhausted.
  have hend : ((CodePointStateTraverser.ofTraverser 8 (StateTraverser.ofState keysABAC.1
      keysABAC.1.getStartState () false : PlainTraverser)).bind
      (CodePointStateTraverser.run 8 [.advance, .prune, .prune, .advance])).map
      CodePointStateTraverser.alive = some false := by decide +kernel
  obtain ⟨t', hrun', hdead⟩ := Option.map_eq_some_iff.mp hend
  obtain ⟨t₀, hnew, hrun'⟩ := Option.bind_eq_some_iff.mp hrun'
  have hnew' := CodePointStateTraverser.advance_add N hnew
  rw [CodePointStateTraverser.ofTraverser, hnew', Option.bind_some,
    CodePointStateTraverser.run_add N hrun', Option.some.injEq] at hrun
  have halive := hshows (by decide)
  rcases tree_keysABAC htree with rfl | rfl
  · exact absurd (halive.1.symm.trans (hrun ▸ hdead)) (by decide)
  · exact absurd (halive.1.symm.trans (hrun ▸ hdead)) (by decide)

end Keyvi.Matching
