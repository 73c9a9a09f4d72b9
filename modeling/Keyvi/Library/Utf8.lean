import Mathlib

/-!
# UTF-8

The bytes of a text, what the first byte of a character says about those behind it, and where a
prefix of the bytes ends.
-/

namespace Utf8

/-- The bytes of a character. -/
def encode (c : Char) : List (Fin 256) := (String.utf8EncodeChar c).map UInt8.toFin

/-- The bytes of a text. -/
def bytesOf (s : List Char) : List (Fin 256) := s.flatMap encode

/-- The first byte of a character. -/
def IsLead (b : Fin 256) : Prop := b.val < 0x80 ∨ 0xC0 ≤ b.val ∧ b.val < 0xF8

/-- Another byte of a character. -/
def IsTail (b : Fin 256) : Prop := 0x80 ≤ b.val ∧ b.val < 0xC0

instance : DecidablePred IsLead := fun _ => inferInstanceAs (Decidable (_ ∨ _))

/-- How many bytes a character has, by its first byte. -/
def width (b : Fin 256) : Nat :=
  if b.val < 0x80 then 1 else if b.val < 0xE0 then 2 else if b.val < 0xF0 then 3 else 4

/-- The code point of a first byte and the others. -/
def decode (b : Fin 256) : List (Fin 256) → Nat
  | [] => b.val
  | [x] => b.val % 32 * 64 + x.val % 64
  | [x, y] => b.val % 16 * 4096 + x.val % 64 * 64 + y.val % 64
  | x :: y :: z :: _ => b.val % 8 * 262144 + x.val % 64 * 4096 + y.val % 64 * 64 + z.val % 64

theorem toNat_lt (c : Char) : c.val.toNat < 0x110000 := by
  rcases c.valid with h | h
  · have : c.val.toNat < 0xD800 := h
    omega
  · exact h.2

theorem val_ofNat {n : Nat} (h : n < 256) : (UInt8.ofNat n).toFin.val = n := by
  have hn : (UInt8.ofNat n).toNat = n % 256 := UInt8.toNat_ofNat'
  rwa [Nat.mod_eq_of_lt h] at hn

/-- **What a character is written as.** -/
theorem encode_spec (c : Char) : ∃ b bs, encode c = b :: bs ∧ IsLead b ∧
    bs.length + 1 = width b ∧ (∀ x ∈ bs, IsTail x) ∧ decode b bs = c.val.toNat := by
  have hc := toNat_lt c
  unfold encode String.utf8EncodeChar
  simp only
  generalize c.val.toNat = v at hc
  split_ifs with h1 h2 h3
  · have hb := val_ofNat (n := v) (by omega)
    refine ⟨_, [], rfl, .inl (by omega), ?_, by simp, hb⟩
    rw [width, if_pos (by omega)]
    rfl
  · have hb := val_ofNat (n := v / 64 % 32 + 192) (by omega)
    have hx := val_ofNat (n := v % 64 + 128) (by omega)
    refine ⟨_, [_], rfl, .inr (by omega), ?_, ?_, ?_⟩
    · rw [width, if_neg (by omega), if_pos (by omega)]
      rfl
    · simp only [List.mem_singleton, forall_eq]
      exact ⟨by omega, by omega⟩
    · show _ % 32 * 64 + _ % 64 = v
      omega
  · have hb := val_ofNat (n := v / 4096 % 16 + 224) (by omega)
    have hx := val_ofNat (n := v / 64 % 64 + 128) (by omega)
    have hy := val_ofNat (n := v % 64 + 128) (by omega)
    refine ⟨_, [_, _], rfl, .inr (by omega), ?_, ?_, ?_⟩
    · rw [width, if_neg (by omega), if_neg (by omega), if_pos (by omega)]
      rfl
    · simp only [List.mem_cons, List.not_mem_nil, or_false, forall_eq_or_imp, forall_eq]
      exact ⟨⟨by omega, by omega⟩, by omega, by omega⟩
    · show _ % 16 * 4096 + _ % 64 * 64 + _ % 64 = v
      omega
  · have hb := val_ofNat (n := v / 262144 % 8 + 240) (by omega)
    have hx := val_ofNat (n := v / 4096 % 64 + 128) (by omega)
    have hy := val_ofNat (n := v / 64 % 64 + 128) (by omega)
    have hz := val_ofNat (n := v % 64 + 128) (by omega)
    refine ⟨_, [_, _, _], rfl, .inr (by omega), ?_, ?_, ?_⟩
    · rw [width, if_neg (by omega), if_neg (by omega), if_neg (by omega)]
      rfl
    · simp only [List.mem_cons, List.not_mem_nil, or_false, forall_eq_or_imp, forall_eq]
      exact ⟨⟨by omega, by omega⟩, ⟨by omega, by omega⟩, by omega, by omega⟩
    · show _ % 8 * 262144 + _ % 64 * 4096 + _ % 64 * 64 + _ % 64 = v
      omega

@[simp] theorem bytesOf_nil : bytesOf [] = [] := rfl

@[simp] theorem bytesOf_cons (c : Char) (s : List Char) : bytesOf (c :: s) = encode c ++ bytesOf s :=
  List.flatMap_cons

@[simp] theorem bytesOf_append (s t : List Char) : bytesOf (s ++ t) = bytesOf s ++ bytesOf t :=
  List.flatMap_append

theorem encode_ne_nil (c : Char) : encode c ≠ [] := by
  obtain ⟨b, bs, h, -⟩ := encode_spec c
  rw [h]
  exact List.cons_ne_nil b bs

/-- No character begins another one. -/
theorem eq_of_prefix {c d : Char} {w : List (Fin 256)} (hc : encode c <+: w) (hd : encode d <+: w) :
    c = d := by
  obtain ⟨b, bs, hb, -, hbl, -, hbd⟩ := encode_spec c
  obtain ⟨e, es, he, -, hel, -, hed⟩ := encode_spec d
  obtain ⟨v, rfl⟩ := hc
  obtain ⟨u, hu⟩ := hd
  rw [hb, he, List.cons_append, List.cons_append, List.cons.injEq] at hu
  obtain ⟨rfl, hu⟩ := hu
  obtain ⟨rfl, -⟩ := List.append_inj hu (by omega)
  rw [hbd] at hed
  exact Char.ext (UInt32.toNat_inj.mp hed)

/-- **The prefixes of a text are the prefixes of its bytes.** -/
theorem bytesOf_prefix_iff : ∀ {s t : List Char}, bytesOf s <+: bytesOf t ↔ s <+: t
  | [], t => by simp
  | c :: s, [] => by
    simp [encode_ne_nil]
  | c :: s, d :: t => by
    rw [bytesOf_cons, bytesOf_cons]
    constructor
    · intro h
      obtain rfl : c = d :=
        eq_of_prefix ((List.prefix_append _ _).trans h) (List.prefix_append _ _)
      rw [List.prefix_append_right_inj] at h
      exact List.cons_prefix_cons.mpr ⟨rfl, bytesOf_prefix_iff.mp h⟩
    · intro h
      obtain ⟨rfl, hst⟩ := List.cons_prefix_cons.mp h
      exact (List.prefix_append_right_inj _).mpr (bytesOf_prefix_iff.mpr hst)

theorem bytesOf_injective : Function.Injective bytesOf := by
  intro s t h
  have hst := bytesOf_prefix_iff.mp (h ▸ List.prefix_rfl : bytesOf s <+: bytesOf t)
  have hts := bytesOf_prefix_iff.mp (h ▸ List.prefix_rfl : bytesOf t <+: bytesOf s)
  exact hst.eq_of_length (le_antisymm hst.length_le hts.length_le)

/-! ## Where a prefix of the bytes ends -/

/-- The number of bytes that a prefix still needs. -/
def owed (p : List (Fin 256)) : Nat := p.foldl (fun o b => if o = 0 then width b - 1 else o - 1) 0

theorem owed_concat (p : List (Fin 256)) (b : Fin 256) :
    owed (p ++ [b]) = if owed p = 0 then width b - 1 else owed p - 1 := by
  rw [owed, List.foldl_append]
  rfl

theorem foldl_owed : ∀ (part : List (Fin 256)) (o : Nat), part.length ≤ o →
    part.foldl (fun o b => if o = 0 then width b - 1 else o - 1) o = o - part.length
  | [], o, _ => rfl
  | b :: part, o, h => by
    rw [List.length_cons] at h ⊢
    rw [List.foldl_cons, if_neg (by omega), foldl_owed part (o - 1) (by omega)]
    omega

/-- Inside of a character its other bytes are owed. -/
theorem owed_part {c : Char} {part rest : List (Fin 256)} (h : encode c = part ++ rest)
    (hp : part ≠ []) : owed part = rest.length := by
  obtain ⟨b, bs, hb, -, hw, -, -⟩ := encode_spec c
  obtain ⟨x, part, rfl⟩ := List.exists_cons_of_ne_nil hp
  rw [hb, List.cons_append, List.cons.injEq] at h
  obtain ⟨rfl, rfl⟩ := h
  rw [List.length_append] at hw
  rw [owed, List.foldl_cons, if_pos rfl, foldl_owed part _ (by omega)]
  omega

theorem owed_append {p : List (Fin 256)} (h : owed p = 0) (q : List (Fin 256)) :
    owed (p ++ q) = owed q := by
  rw [owed, List.foldl_append]
  exact congrArg (fun o => q.foldl _ o) h

@[simp] theorem owed_bytesOf (s : List Char) : owed (bytesOf s) = 0 := by
  induction s with
  | nil => rfl
  | cons c s ih =>
    have hc : owed (encode c) = 0 :=
      owed_part (List.append_nil _).symm (encode_ne_nil c)
    rw [bytesOf_cons, owed_append hc, ih]

/-- **A prefix of the bytes ends between two characters or inside of one.** -/
theorem exists_split {p : List (Fin 256)} : ∀ {t : List Char}, p <+: bytesOf t →
    ∃ s u part, t = s ++ u ∧ p = bytesOf s ++ part ∧ (part = [] ∨ part ≠ [] ∧
      ∃ c u' rest, u = c :: u' ∧ encode c = part ++ rest ∧ rest ≠ [])
  | [], h => ⟨[], [], [], rfl, List.prefix_nil.mp h, .inl rfl⟩
  | c :: t, h => by
    rw [bytesOf_cons] at h
    by_cases hpre : encode c <+: p
    · obtain ⟨q, rfl⟩ := hpre
      obtain ⟨s, u, part, rfl, rfl, hpart⟩ := exists_split ((List.prefix_append_right_inj _).mp h)
      exact ⟨c :: s, u, part, rfl, by rw [bytesOf_cons, List.append_assoc], hpart⟩
    · obtain ⟨rest, hrest⟩ :=
        (List.prefix_or_prefix_of_prefix h (List.prefix_append (encode c) _)).resolve_right hpre
      refine ⟨[], c :: t, p, rfl, rfl, ?_⟩
      by_cases hp : p = []
      · exact .inl hp
      · refine .inr ⟨hp, c, t, rest, rfl, hrest.symm, ?_⟩
        rintro rfl
        rw [List.append_nil] at hrest
        exact hpre (hrest ▸ List.prefix_rfl)

/-- A prefix that owes nothing is a text. -/
theorem exists_text {p : List (Fin 256)} {t : List Char} (h : p <+: bytesOf t) (h0 : owed p = 0) :
    ∃ s, s <+: t ∧ p = bytesOf s := by
  obtain ⟨s, u, part, rfl, rfl, rfl | ⟨hp, c, u', rest, -, hc, hr⟩⟩ := exists_split h
  · exact ⟨s, List.prefix_append s u, List.append_nil _⟩
  · rw [owed_append (owed_bytesOf s), owed_part hc hp] at h0
    exact absurd (List.eq_nil_of_length_eq_zero h0) hr

/-- **What the next byte is.** -/
theorem next_byte {p : List (Fin 256)} {b : Fin 256} {t : List Char} (h : p ++ [b] <+: bytesOf t) :
    if owed p = 0 then IsLead b else IsTail b := by
  obtain ⟨s, u, part, rfl, rfl, hpart⟩ := exists_split ((List.prefix_append p [b]).trans h)
  rw [bytesOf_append, List.append_assoc, List.prefix_append_right_inj] at h
  rcases hpart with rfl | ⟨hp, c, u, rest, rfl, hc, hr⟩
  · rw [List.append_nil, owed_bytesOf, if_pos rfl]
    rw [List.nil_append] at h
    cases u with
    | nil => simp at h
    | cons c u =>
      obtain ⟨e, es, he, hlead, -⟩ := encode_spec c
      rw [bytesOf_cons, he, List.cons_append, List.cons_prefix_cons] at h
      rw [h.1]
      exact hlead
  · have howed : owed (bytesOf s ++ part) ≠ 0 := by
      rw [owed_append (owed_bytesOf s), owed_part hc hp]
      exact fun h0 => hr (List.eq_nil_of_length_eq_zero h0)
    rw [if_neg howed]
    obtain ⟨e, es, he, -, -, htail, -⟩ := encode_spec c
    obtain ⟨x, part, rfl⟩ := List.exists_cons_of_ne_nil hp
    obtain ⟨y, rest, rfl⟩ := List.exists_cons_of_ne_nil hr
    rw [bytesOf_cons, hc, List.append_assoc, List.prefix_append_right_inj, List.cons_append,
      List.cons_prefix_cons] at h
    rw [he, List.cons_append, List.cons.injEq] at hc
    refine htail b ?_
    rw [hc.2, h.1]
    exact List.mem_append_right _ List.mem_cons_self

/-- The first bytes are as many as the characters. -/
theorem countP_isLead (s : List Char) : (bytesOf s).countP (fun b => IsLead b) = s.length := by
  induction s with
  | nil => rfl
  | cons c s ih =>
    obtain ⟨b, bs, hb, hlead, -, htail, -⟩ := encode_spec c
    have hbs : bs.countP (fun b => IsLead b) = 0 := by
      rw [List.countP_eq_zero]
      intro x hx
      have htx := htail x hx
      rw [decide_eq_true_eq]
      rintro (h | h) <;> unfold IsTail at htx <;> omega
    rw [bytesOf_cons, List.countP_append, ih, hb, List.countP_cons_of_pos (by simpa using hlead),
      hbs, List.length_cons]
    omega

end Utf8
