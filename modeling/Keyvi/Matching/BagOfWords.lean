import Mathlib
import Keyvi.Library.Utf8
import Keyvi.Matching.CompletionMatching

/-!
# Code points of a query

`utf8/unchecked.h` and `utf8/checked.h`, the conversions that the fuzzy matchers use, and what
`Transform::BagOfWordsPartial` makes of a text.
-/

namespace Keyvi.Matching

open Fsa Utf8

/-- `utf8::unchecked::next`: the code point and the bytes behind it. -/
def Unchecked.next (b : Byte) (rest : List Byte) : Nat × List Byte :=
  let octet (i : Nat) := (rest.getD i 0).val
  if b.val < 0x80 then (b.val, rest)
  else if b.val >>> 5 = 0x6 then (((b.val <<< 6) &&& 0x7ff) + (octet 0 &&& 0x3f), rest.drop 1)
  else if b.val >>> 4 = 0xe then
    (((b.val <<< 12) &&& 0xffff) + ((octet 0 <<< 6) &&& 0xfff) + (octet 1 &&& 0x3f), rest.drop 2)
  else if b.val >>> 3 = 0x1e then
    (((b.val <<< 18) &&& 0x1fffff) + ((octet 0 <<< 12) &&& 0x3ffff) + ((octet 1 <<< 6) &&& 0xfff) +
      (octet 2 &&& 0x3f), rest.drop 3)
  else (b.val, rest)

/-- `utf8::unchecked::utf8to32`, at most `fuel` code points. -/
def utf8to32From : Nat → List Byte → List Nat
  | 0, _ => []
  | _ + 1, [] => []
  | fuel + 1, b :: rest => (Unchecked.next b rest).1 :: utf8to32From fuel (Unchecked.next b rest).2

/-- A code point has at least one byte. -/
def utf8to32 (octets : List Byte) : List Nat := utf8to32From octets.length octets

/-- `utf8::utf32to8`. It throws for a code point that is not valid. -/
def utf32to8 (codepoints : List Nat) : Option (List Byte) :=
  (codepoints.mapM fun c : Nat => if c.isValidChar then some (encode (Char.ofNat c)) else none).map
    List.flatten

/-- The code points of a text. -/
def codepointsOf (s : List Char) : List Nat := s.map Char.toNat

@[simp] theorem length_codepointsOf (s : List Char) : (codepointsOf s).length = s.length :=
  List.length_map _

@[simp] theorem codepointsOf_append (s u : List Char) :
    codepointsOf (s ++ u) = codepointsOf s ++ codepointsOf u := List.map_append

theorem codepointsOf_take (s : List Char) (n : Nat) :
    codepointsOf (s.take n) = (codepointsOf s).take n := List.map_take

/-- A character is read back. -/
theorem next_encode (c : Char) (rest : List Byte) : ∃ b bs, encode c = b :: bs ∧
    Unchecked.next b (bs ++ rest) = (c.toNat, rest) := by
  obtain ⟨b, bs, hb, hlead, hwidth, -, hdecode⟩ := encode_spec c
  refine ⟨b, bs, hb, ?_⟩
  have hand : ∀ x i : Nat, x &&& (2 ^ i - 1) = x % 2 ^ i := fun x i => Nat.and_two_pow_sub_one_eq_mod _ _
  have h6 : ∀ x, x &&& 0x3f = x % 64 := fun x => hand x 6
  have h11 : ∀ x, x &&& 0x7ff = x % 2048 := fun x => hand x 11
  have h12 : ∀ x, x &&& 0xfff = x % 4096 := fun x => hand x 12
  have h16 : ∀ x, x &&& 0xffff = x % 65536 := fun x => hand x 16
  have h18 : ∀ x, x &&& 0x3ffff = x % 262144 := fun x => hand x 18
  have h21 : ∀ x, x &&& 0x1fffff = x % 2097152 := fun x => hand x 21
  have hvalue : c.toNat = decode b bs := hdecode.symm
  unfold Unchecked.next
  rw [hvalue]
  simp only [h6, h11, h12, h16, h18, h21, Nat.shiftLeft_eq, Nat.shiftRight_eq_div_pow]
  unfold IsLead at hlead
  unfold width at hwidth
  have hlt := b.isLt
  split_ifs at hwidth with h1 h2 h3
  · obtain rfl : bs = [] := List.length_eq_zero_iff.mp (by omega)
    rw [if_pos h1]
    rfl
  · obtain ⟨x, rfl⟩ := List.length_eq_one_iff.mp (show bs.length = 1 by omega)
    rw [if_neg h1, if_pos (by omega)]
    refine Prod.ext ?_ rfl
    show b.val * 2 ^ 6 % 2048 + x.val % 64 = b.val % 32 * 64 + x.val % 64
    omega
  · obtain ⟨x, y, rfl⟩ := List.length_eq_two.mp (show bs.length = 2 by omega)
    rw [if_neg h1, if_neg (by omega), if_pos (by omega)]
    refine Prod.ext ?_ rfl
    show b.val * 2 ^ 12 % 65536 + x.val * 2 ^ 6 % 4096 + y.val % 64 =
      b.val % 16 * 4096 + x.val % 64 * 64 + y.val % 64
    omega
  · obtain ⟨x, y, z, rfl⟩ := List.length_eq_three.mp (show bs.length = 3 by omega)
    rw [if_neg h1, if_neg (by omega), if_neg (by omega), if_pos (by omega)]
    refine Prod.ext ?_ rfl
    show b.val * 2 ^ 18 % 2097152 + x.val * 2 ^ 12 % 262144 + y.val * 2 ^ 6 % 4096 + z.val % 64 =
      b.val % 8 * 262144 + x.val % 64 * 4096 + y.val % 64 * 64 + z.val % 64
    omega

theorem utf8to32From_bytesOf : ∀ {s : List Char} {fuel : Nat}, s.length ≤ fuel →
    utf8to32From fuel (bytesOf s) = codepointsOf s
  | [], 0, _ => rfl
  | [], _ + 1, _ => rfl
  | c :: s, fuel + 1, h => by
    obtain ⟨b, bs, hb, hnext⟩ := next_encode c (bytesOf s)
    rw [bytesOf_cons, hb, List.cons_append, utf8to32From, hnext,
      utf8to32From_bytesOf (Nat.le_of_succ_le_succ h)]
    rfl

theorem length_le_bytesOf (s : List Char) : s.length ≤ (bytesOf s).length := by
  rw [← countP_isLead]
  exact List.countP_le_length

/-- **The code points of the bytes of a text.** -/
theorem utf8to32_bytesOf (s : List Char) : utf8to32 (bytesOf s) = codepointsOf s :=
  utf8to32From_bytesOf (length_le_bytesOf s)

/-- The code points of a text are its bytes again. -/
theorem utf32to8_codepointsOf : ∀ s : List Char, utf32to8 (codepointsOf s) = some (bytesOf s)
  | [] => rfl
  | c :: s => by
    have ih := utf32to8_codepointsOf s
    obtain ⟨l, hl, hflat⟩ := Option.map_eq_some_iff.mp ih
    have hvalid : c.toNat.isValidChar := c.valid
    unfold utf32to8 codepointsOf at *
    rw [List.map_cons, List.mapM_cons, hl, if_pos hvalid, Char.ofNat_toNat]
    simp [hflat]

/-! ## `BagOfWordsPartial` of a text -/

/-- A character that `BagOfWordsPartial` splits at. -/
def isBlank (c : Char) : Bool := c = '\t' || c = ' '

/-- Bytes that are no blanks stay together. -/
theorem splitOnP_append {p : Byte → Bool} {w : List Byte} : ∀ {v : List Byte}, (∀ b ∈ v, p b = false) →
    (v ++ w).splitOnP p = (w.splitOnP p).modifyHead (v ++ ·)
  | [], _ => by
    obtain ⟨u, l, h⟩ := List.exists_cons_of_ne_nil (List.splitOnP_ne_nil p w)
    rw [List.nil_append, h]
    rfl
  | b :: v, h => by
    have hb := h b List.mem_cons_self
    obtain ⟨u, l, hu⟩ := List.exists_cons_of_ne_nil (List.splitOnP_ne_nil p w)
    rw [List.cons_append, List.splitOnP_cons_eq_if_modifyHead, if_neg (by simp [hb]),
      splitOnP_append fun x hx => h x (List.mem_cons_of_mem _ hx), hu]
    rfl

/-- The bytes of a character are split where it is. -/
theorem splitOnP_encode (c : Char) (w : List Byte) :
    (encode c ++ w).splitOnP (fun b => b = 0x09 || b = 0x20) =
      if isBlank c then [] :: w.splitOnP (fun b => b = 0x09 || b = 0x20)
      else (w.splitOnP (fun b => b = 0x09 || b = 0x20)).modifyHead (encode c ++ ·) := by
  by_cases hc : isBlank c = true
  · rw [if_pos hc]
    have hone : ∀ b : Byte, (b = 0x09 || b = 0x20) = true → encode c = [b] →
        (encode c ++ w).splitOnP (fun b => b = 0x09 || b = 0x20) =
          [] :: w.splitOnP (fun b => b = 0x09 || b = 0x20) := by
      intro b hb henc
      rw [henc, List.singleton_append, List.splitOnP_cons_eq_if_modifyHead, if_pos hb]
    rcases (by simpa [isBlank] using hc : c = '\t' ∨ c = ' ') with rfl | rfl
    · exact hone 0x09 rfl (by decide +kernel)
    · exact hone 0x20 rfl (by decide +kernel)
  · rw [if_neg hc]
    refine splitOnP_append fun x hx => ?_
    obtain ⟨b, bs, hb, hlead, hwidth, htail, hdecode⟩ := encode_spec c
    have hbig : ∀ y : Byte, 0x80 ≤ y.val → (y = 0x09 || y = 0x20) = false := by
      intro y hy
      have h9 : y ≠ 0x09 := fun h => absurd (h ▸ hy) (by decide)
      have h32 : y ≠ 0x20 := fun h => absurd (h ▸ hy) (by decide)
      simp [h9, h32]
    rw [hb] at hx
    rcases List.mem_cons.mp hx with rfl | hx
    · rcases hlead with hlow | hhigh
      · -- One byte, the character itself.
        rw [width, if_pos hlow] at hwidth
        obtain rfl : bs = [] := List.length_eq_zero_iff.mp (by omega)
        have hval : x.val = c.toNat := hdecode
        have h9 : x ≠ 0x09 := fun h => hc (by
          rw [h] at hval
          rw [show c = '\t' from Char.ext (UInt32.toNat_inj.mp hval.symm)]
          rfl)
        have h32 : x ≠ 0x20 := fun h => hc (by
          rw [h] at hval
          rw [show c = ' ' from Char.ext (UInt32.toNat_inj.mp hval.symm)]
          rfl)
        simp [h9, h32]
      · exact hbig x (by omega)
    · exact hbig x (htail x hx).1

/-- The pieces of the bytes are the bytes of the pieces. -/
theorem splitOnP_bytesOf : ∀ s : List Char, (bytesOf s).splitOnP (fun b => b = 0x09 || b = 0x20) =
    (s.splitOnP isBlank).map bytesOf
  | [] => rfl
  | c :: s => by
    rw [bytesOf_cons, splitOnP_encode, splitOnP_bytesOf s, List.splitOnP_cons_eq_if_modifyHead]
    split
    · rfl
    · obtain ⟨v, l, h⟩ := List.exists_cons_of_ne_nil (List.splitOnP_ne_nil isBlank s)
      rw [h]
      simp

/-- The pieces have all characters but those between them. -/
theorem length_splitOnP : ∀ s : List Char,
    ((s.splitOnP isBlank).map List.length).sum + (s.splitOnP isBlank).length = s.length + 1
  | [] => rfl
  | c :: s => by
    have ih := length_splitOnP s
    rw [List.splitOnP_cons_eq_if_modifyHead]
    split
    · simp only [List.map_cons, List.sum_cons, List.length_cons, List.length_nil]
      omega
    · obtain ⟨v, l, h⟩ := List.exists_cons_of_ne_nil (List.splitOnP_ne_nil isBlank s)
      rw [h] at ih ⊢
      simp only [List.modifyHead_cons, List.map_cons, List.sum_cons, List.length_cons] at ih ⊢
      omega

/-- Joined texts are the joined bytes. -/
theorem bytesOf_intercalate : ∀ l : List (List Char),
    bytesOf (List.intercalate [' '] l) = List.intercalate [0x20] (l.map bytesOf)
  | [] => rfl
  | [s] => by simp
  | s :: u :: l => by
    have ih := bytesOf_intercalate (u :: l)
    have hblank : bytesOf [' '] = [0x20] := by decide +kernel
    rw [List.map_cons, List.map_cons, List.intercalate_cons_cons, List.intercalate_cons_cons,
      bytesOf_append, bytesOf_append, hblank, ih, List.map_cons]

theorem length_intercalate (last : List Char) : ∀ l : List (List Char),
    (List.intercalate [' '] (l ++ [last])).length =
      (l.map List.length).sum + l.length + last.length
  | [] => by simp
  | [s] => by
    simp [List.intercalate_cons_cons]
    omega
  | s :: u :: l => by
    have ih := length_intercalate last (u :: l)
    simp only [List.cons_append, List.intercalate_cons_cons, List.length_append, List.map_cons,
      List.sum_cons, List.length_cons, List.length_nil] at ih ⊢
    omega

/-- **The bag of words of a text** is a text with as many characters. -/
theorem exists_bagOfWords (q : List Char) :
    ∃ s, bagOfWordsPartial (bytesOf q) = bytesOf s ∧ s.length = q.length := by
  unfold bagOfWordsPartial
  dsimp only
  rw [splitOnP_bytesOf]
  have hlen := length_splitOnP q
  obtain ⟨strs, last, hstrs⟩ : ∃ strs last, q.splitOnP isBlank = strs ++ [last] :=
    ⟨_, _, (List.dropLast_append_getLast (List.splitOnP_ne_nil isBlank q)).symm⟩
  rw [hstrs] at hlen ⊢
  split
  · exact ⟨q, rfl, rfl⟩
  · have hperm := List.mergeSort_perm (strs.map bytesOf) fun v w => decide (v ≤ w)
    have hrange : (strs.map bytesOf).mergeSort (fun v w => decide (v ≤ w)) ∈
        Set.range (List.map bytesOf) := by
      rw [Set.range_list_map]
      intro v hv
      obtain ⟨s, -, hs⟩ := List.mem_map.mp (hperm.mem_iff.mp hv)
      exact ⟨s, hs⟩
    obtain ⟨sorted, hsorted⟩ := hrange
    have hperm' : sorted.Perm strs := (List.map_perm_map_iff bytesOf_injective).mp (hsorted ▸ hperm)
    refine ⟨List.intercalate [' '] (sorted ++ [last]), ?_, ?_⟩
    · rw [List.map_append, List.map_cons, List.map_nil, List.dropLast_concat, ← hsorted,
        List.getLast?_concat, bytesOf_intercalate]
      simp
    · have hsum : ((sorted.map List.length)).sum = (strs.map List.length).sum :=
        (hperm'.map _).sum_eq
      have := length_intercalate last sorted
      simp only [List.map_append, List.sum_append, List.length_append, List.map_cons, List.map_nil,
        List.sum_cons, List.sum_nil, List.length_cons, List.length_nil] at hlen
      rw [this, hsum, hperm'.length_eq]
      omega

end Keyvi.Matching
