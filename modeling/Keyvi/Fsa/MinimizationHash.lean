import Mathlib
import Keyvi.Library.Run
import Keyvi.Fsa.StringValueStore

/-!
# The minimization hash

`minimization_hash.h`. Entries that share a bucket are chained through their cookies into an overflow
area, whose cells are handed out one after the other; a chain takes a limited number of them.
Re-hashing inserts all entries into larger arrays.

The arrays are functions with their sizes. An access behind the end of an array gives `none`.
-/

namespace Keyvi.Fsa

/-- What the hash asks of its entries, the cookie apart: the bits of `GetHashcode`, `IsEmpty`, the
entry `T()`, and how far cookies go. -/
class HashEntry (K : Type) where
  getHashcode : K → Nat
  isEmpty : K → Bool
  empty : K
  maxCookieSize : Nat
  cookieRange : Nat
  isEmpty_empty : isEmpty empty = true
  maxCookieSize_pos : 0 < maxCookieSize
  maxCookieSize_le : maxCookieSize ≤ cookieRange
  /-- The area of the largest table has as many cells as cookies go. -/
  maxCookieSize_le_largest : maxCookieSize ≤ 4294967291 / 4

/-- `PackedState`, without its cookie of 23 bits; the hash code is given by its bits. -/
structure PackedState where
  offset : Nat
  hashcode : Nat
  numOutgoing : Nat
deriving DecidableEq, Repr

instance : HashEntry PackedState where
  getHashcode := PackedState.hashcode
  isEmpty e := e.offset = 0 && e.hashcode = 0
  empty := ⟨0, 0, 0⟩
  maxCookieSize := 0x7FFFFE
  cookieRange := 2 ^ 23
  isEmpty_empty := rfl
  maxCookieSize_pos := by decide
  maxCookieSize_le := by decide
  maxCookieSize_le_largest := by decide

/-- Its cookie has 16 bits. -/
instance : HashEntry RawPointer where
  getHashcode p := p.hashcode.toNat
  isEmpty := RawPointer.isEmpty
  empty := ⟨0, 0, 0⟩
  maxCookieSize := 0xFFFF
  cookieRange := 2 ^ 16
  isEmpty_empty := rfl
  maxCookieSize_pos := by decide
  maxCookieSize_le := by decide
  maxCookieSize_le_largest := by decide

/-- An element of the arrays. -/
structure HashCell (K : Type) where
  key : K
  cookie : Nat

/-- `SetCookie`. -/
def HashCell.setCookie {K : Type} [HashEntry K] (c : HashCell K) (value : Nat) : HashCell K :=
  { c with cookie := value % HashEntry.cookieRange K }

/-- `MinimizationHash`. -/
structure MinimizationHash (K : Type) where
  originalHashSizeStep : Nat
  hashSizeStep : Nat
  hashSize : Nat
  rehashLimit : Nat
  entries : Nat → HashCell K
  overflowEntries : Nat → HashCell K
  count : Nat
  overflowCount : Nat
  overflowEntriesSize : Nat
  overflowLimit : Nat

namespace MinimizationHash

/-! ## Chains -/

section Links

variable {K : Type} {cells cells' : Nat → HashCell K} {n : Nat}

/-- The entries behind a cookie. Cookies ascend along a chain. -/
def Links (cells : Nat → HashCell K) (n : Nat) : Nat → List K → Prop
  | c, [] => c = 0
  | c, k :: ks => 0 < c ∧ c < n ∧ (cells c).key = k ∧
      ((cells c).cookie = 0 ∨ c < (cells c).cookie) ∧ Links cells n (cells c).cookie ks

/-- A chain stays where its cells stay. -/
theorem Links.congr {n' : Nat} (hn : n ≤ n') : ∀ {ks : List K} {c : Nat}, Links cells n c ks →
    (∀ i, 0 < i → i < n → (cells i).key ∈ ks → cells' i = cells i) → Links cells' n' c ks
  | [], _, h, _ => h
  | k :: ks, c, ⟨h0, hc, hk, hlt, h⟩, hsame => by
    have he : cells' c = cells c := hsame c h0 hc (hk ▸ List.mem_cons_self)
    refine ⟨h0, hc.trans_le hn, he ▸ hk, he ▸ hlt, ?_⟩
    rw [he]
    exact h.congr hn fun i hi hi' hm => hsame i hi hi' (List.mem_cons_of_mem k hm)

theorem Links.ne_zero {c : Nat} {ks : List K} (h : Links cells n c ks) (hks : ks ≠ []) : c ≠ 0 := by
  cases ks with
  | nil => exact absurd rfl hks
  | cons k ks => exact h.1.ne'

/-- The cells that get a new entry behind the link `z`. -/
def linked (cells : Nat → HashCell K) (z n : Nat) (k : K) : Nat → HashCell K :=
  Function.update (Function.update cells z { cells z with cookie := n }) n ⟨k, 0⟩

theorem linked_of_ne {z i : Nat} {k : K} (hz : i ≠ z) (hn : i ≠ n) :
    linked cells z n k i = cells i := by
  rw [linked, Function.update_of_ne hn, Function.update_of_ne hz]

end Links

open HashEntry

/-! ## The arrays -/

/-- `hash_size_step_table_`. -/
def hashSizeStepTable : List Nat :=
  [997, 2029, 4079, 8171, 16363, 32749, 65519, 131041, 262127, 524269, 1048559, 2097133, 4194287,
    8388587, 16777199, 33554393, 67108837, 134217689, 268435399, 536870879, 1073741789, 2147483629,
    4294967291]

/-- `hash_max_size_step_`. -/
def hashMaxSizeStep : Nat := 22

/-- The size of a step. -/
def sizeOfStep (step : Nat) : Nat := hashSizeStepTable.getD step 0

variable {K : Type} [HashEntry K]

/-- The cell of `T()`. -/
def emptyCell : HashCell K := ⟨empty, 0⟩

/-- The size of the overflow area for a table. -/
def overflowSizeOf (K : Type) [HashEntry K] (hashSize : Nat) : Nat :=
  min (hashSize / 4) (maxCookieSize K)

/-- Arrays of a step without entries. The product with the load factor, a `float`, is `loadLimit`. -/
def ofStep (loadLimit : Nat → Nat) (originalStep step overflowLimit : Nat) : MinimizationHash K where
  originalHashSizeStep := originalStep
  hashSizeStep := step
  hashSize := sizeOfStep step
  rehashLimit := loadLimit (sizeOfStep step)
  entries _ := emptyCell
  overflowEntries _ := emptyCell
  count := 0
  overflowCount := 1
  overflowEntriesSize := overflowSizeOf K (sizeOfStep step)
  overflowLimit := overflowLimit

/-- `MinimizationHash(step_size, overflow_limit)`. -/
def new (loadLimit : Nat → Nat) (stepSize overflowLimit : Nat) : MinimizationHash K :=
  ofStep loadLimit (min stepSize hashMaxSizeStep) (min stepSize hashMaxSizeStep) overflowLimit

/-- `Clear`. -/
def clear (loadLimit : Nat → Nat) (t : MinimizationHash K) : MinimizationHash K :=
  ofStep loadLimit t.originalHashSizeStep t.originalHashSizeStep t.overflowLimit

/-- `Reset`. The overflow area keeps what is in it. -/
def reset (t : MinimizationHash K) : MinimizationHash K :=
  { t with
    entries := fun _ => emptyCell
    count := 0
    overflowCount := 1 }

/-- The bucket of a hash code. -/
def bucketOf (t : MinimizationHash K) (hashcode : Nat) : Nat := hashcode % 2 ^ 31 % t.hashSize

/-- The bucket of an entry. -/
def bucket (t : MinimizationHash K) (k : K) : Nat := t.bucketOf (getHashcode k)

/-- `overflow_entries_[i]`. -/
def readOverflow (t : MinimizationHash K) (i : Nat) : Option (HashCell K) :=
  if i < t.overflowEntriesSize then some (t.overflowEntries i) else none

/-! ## Inserting -/

/-- The loop to the end of a chain, with the number of links that are left until the limit. Behind the
limit there is no place. -/
def lastLink (t : MinimizationHash K) : Nat → Nat → Option (Option Nat)
  | 0, b => (t.readOverflow b).map fun _ => none
  | left + 1, b => (t.readOverflow b).bind fun c =>
      if c.cookie = 0 then some (some b) else lastLink t left c.cookie

/-- `overflow_entries_[overflow_count_++] = key`. -/
def pushOverflow (t : MinimizationHash K) (k : K) : Option (MinimizationHash K) :=
  if t.overflowCount < t.overflowEntriesSize then
    some { t with
      overflowEntries := Function.update t.overflowEntries t.overflowCount ⟨k, 0⟩
      overflowCount := t.overflowCount + 1 }
  else none

/-- The place of the cookie behind which an entry is linked. -/
inductive Place
  | free
  | head
  | link (i : Nat)
  | dropped
deriving DecidableEq

/-- Where `Insert` puts an entry. -/
def place (t : MinimizationHash K) (k : K) : Option Place :=
  let head := t.entries (t.bucket k)
  if isEmpty head.key then some .free
  else if t.overflowCount = maxCookieSize K then some .dropped
  else if head.cookie = 0 then some .head
  else (t.lastLink t.overflowLimit head.cookie).map fun z => z.elim .dropped .link

/-- `Insert`, and whether the entry was dropped. -/
def insert (t : MinimizationHash K) (k : K) : Option (MinimizationHash K × Bool) :=
  let b := t.bucket k
  (t.place k).bind fun
    | .free => some ({ t with entries := Function.update t.entries b ⟨k, 0⟩ }, false)
    | .dropped => some (t, true)
    | .head =>
      let cell := (t.entries b).setCookie t.overflowCount
      (pushOverflow { t with entries := Function.update t.entries b cell } k).map fun t => (t, false)
    | .link z =>
      let cell := (t.overflowEntries z).setCookie t.overflowCount
      (pushOverflow { t with overflowEntries := Function.update t.overflowEntries z cell } k).map
        fun t => (t, false)

/-- `Insert` of one entry after the other, and those that were dropped. -/
def insertAll : MinimizationHash K → List K → Option (MinimizationHash K × List K)
  | t, [] => some (t, [])
  | t, k :: ks => (t.insert k).bind fun r =>
      (insertAll r.1 ks).map fun r' => (r'.1, if r.2 then k :: r'.2 else r'.2)

/-- The entries in the order in which they are inserted again: the table, then the overflow area. -/
def oldKeys (t : MinimizationHash K) : List K :=
  (((List.range t.hashSize).map fun i => (t.entries i).key).filter fun k => !isEmpty k) ++
    (List.range' 1 (t.overflowCount - 1)).map fun i => (t.overflowEntries i).key

/-- The arrays of the next step. -/
def grown (loadLimit : Nat → Nat) (t : MinimizationHash K) : MinimizationHash K :=
  { ofStep loadLimit t.originalHashSizeStep (t.hashSizeStep + 1) t.overflowLimit with
    count := t.count }

/-- `GrowAndRehash`, and the entries that were dropped. -/
def growAndRehash (loadLimit : Nat → Nat) (t : MinimizationHash K) :
    Option (MinimizationHash K × List K) :=
  if t.overflowCount ≤ t.overflowEntriesSize then insertAll (t.grown loadLimit) t.oldKeys else none

/-- The count reaches its limit. -/
def outgrown (t : MinimizationHash K) : Bool :=
  t.rehashLimit < t.count && t.hashSizeStep < hashMaxSizeStep

/-- The overflow area is full. -/
def crowded (t : MinimizationHash K) : Bool :=
  t.overflowCount = t.overflowEntriesSize && t.overflowEntriesSize < maxCookieSize K &&
    t.hashSizeStep < hashMaxSizeStep

/-- `GrowAndRehash` under a condition. -/
def growIf (loadLimit : Nat → Nat) (p : Bool) (t : MinimizationHash K) :
    Option (MinimizationHash K × List K) :=
  if p then t.growAndRehash loadLimit else some (t, [])

/-- An `Add` before it looks at the limits. -/
def addFirst (t : MinimizationHash K) (k : K) : Option (MinimizationHash K × Bool) :=
  (t.insert k).map fun r => ({ r.1 with count := r.1.count + 1 }, r.2)

/-- `Add`: the table, whether the entry was dropped, and the entries that re-hashing dropped. -/
def add (loadLimit : Nat → Nat) (t : MinimizationHash K) (k : K) :
    Option (MinimizationHash K × Bool × List K) :=
  (t.addFirst k).bind fun r =>
    (growIf loadLimit r.1.outgrown r.1).bind fun r' =>
      (growIf loadLimit r'.1.crowded r'.1).map fun r'' => (r''.1, r.2, r'.2 ++ r''.2)

/-! ## Looking up -/

/-- A key of a lookup: its hash code and what it is equal to. -/
structure Query (K : Type) where
  hashcode : Nat
  equals : K → Bool

/-- The loop of `Get`, at most `fuel` rounds. -/
def getLoop (t : MinimizationHash K) (q : Query K) : Nat → HashCell K → Option (Option K)
  | 0, _ => none
  | fuel + 1, entry =>
    if isEmpty entry.key then some none
    else if q.equals entry.key then some (some entry.key)
    else if entry.cookie ≠ 0 then (t.readOverflow entry.cookie).bind (getLoop t q fuel)
    else some none

/-- `Get`. -/
def get (t : MinimizationHash K) (q : Query K) : Option (Option K) :=
  t.getLoop q (t.overflowCount + 1) (t.entries (t.bucketOf q.hashcode))

/-- The last loop of `GetAndMove`, at most `fuel` rounds. The cell that is found gets its own cookie,
so no array changes. -/
def moveLoop (t : MinimizationHash K) (q : Query K) : Nat → Nat → Option (Option K)
  | 0, _ => none
  | fuel + 1, i => (t.readOverflow i).bind fun entry =>
      if isEmpty entry.key then some none
      else if q.equals entry.key then some (some entry.key)
      else moveLoop t q fuel entry.cookie

/-- `GetAndMove`: the entry that is added to the other hash, and what is left. -/
def getAndMove (t : MinimizationHash K) (q : Query K) : Option (Option K × MinimizationHash K) :=
  let b := t.bucketOf q.hashcode
  let entry := t.entries b
  if isEmpty entry.key then some (none, t)
  else if q.equals entry.key then
    if entry.cookie ≠ 0 then
      (t.readOverflow entry.cookie).map fun c =>
        (some entry.key, { t with entries := Function.update t.entries b c })
    else some (some entry.key, t)
  else if entry.cookie ≠ 0 then
    (t.readOverflow entry.cookie).bind fun c =>
      if q.equals c.key then
        some (some c.key, { t with
          entries := Function.update t.entries b { entry with cookie := c.cookie } })
      else (t.moveLoop q (t.overflowCount + 1) c.cookie).map fun found => (found, t)
  else some (none, t)

/-! ## Buckets -/

/-- The entries of the buckets, in the order in which they are looked at. -/
structure Chained (t : MinimizationHash K) (bs : Nat → List K) : Prop where
  step : t.hashSizeStep ≤ hashMaxSizeStep
  original : t.originalHashSizeStep ≤ hashMaxSizeStep
  size : t.hashSize = sizeOfStep t.hashSizeStep
  overflowSize : t.overflowEntriesSize = overflowSizeOf K t.hashSize
  count : 0 < t.overflowCount ∧ t.overflowCount ≤ t.overflowEntriesSize
  zero : isEmpty (t.overflowEntries 0).key = true
  cells : ∀ i, 0 < i → i < t.overflowCount → isEmpty (t.overflowEntries i).key = false
  free : ∀ b, bs b = [] → isEmpty (t.entries b).key = true
  chain : ∀ b k ks, bs b = k :: ks → (t.entries b).key = k ∧
    Links t.overflowEntries t.overflowCount (t.entries b).cookie ks
  keys : ∀ b, ∀ k ∈ bs b, isEmpty k = false ∧ t.bucket k = b

variable {t : MinimizationHash K} {bs : Nat → List K} {k : K}

theorem sizeOfStep_pos {step : Nat} (h : step ≤ hashMaxSizeStep) : 997 ≤ sizeOfStep step := by
  have hall : ∀ s ≤ 22, 997 ≤ sizeOfStep s := by decide
  exact hall step h

theorem overflowSizeOf_pos {step : Nat} (h : step ≤ hashMaxSizeStep) :
    0 < overflowSizeOf K (sizeOfStep step) := by
  have := sizeOfStep_pos h
  have := maxCookieSize_pos (K := K)
  rw [overflowSizeOf]
  omega

omit [HashEntry K] in
/-- The loop finds the end of a chain that is short enough, and an entry may be linked there. -/
theorem Links.lastLink (hn : t.overflowCount ≤ t.overflowEntriesSize) (k : K) :
    ∀ {ks : List K} (left : Nat) {c : Nat}, ks ≠ [] →
    Links t.overflowEntries t.overflowCount c ks →
    (left < ks.length ∧ t.lastLink left c = some none) ∨
      ∃ z, ks.length ≤ left ∧ t.lastLink left c = some (some z) ∧ c ≤ z ∧ 0 < z ∧
        z < t.overflowCount ∧ (t.overflowEntries z).key ∈ ks ∧
        Links (linked t.overflowEntries z t.overflowCount k) (t.overflowCount + 1) c (ks ++ [k])
  | k₀ :: ks, 0, c, _, ⟨h0, hc, hk, hlt, h⟩ => by
    refine .inl ⟨by simp, ?_⟩
    rw [MinimizationHash.lastLink, readOverflow, if_pos (hc.trans_le hn)]
    rfl
  | k₀ :: ks, left + 1, c, _, ⟨h0, hc, hk, hlt, h⟩ => by
    rw [MinimizationHash.lastLink, readOverflow, if_pos (hc.trans_le hn), Option.bind_some]
    cases ks with
    | nil =>
      have h' : (t.overflowEntries c).cookie = 0 := h
      rw [if_pos h']
      refine .inr ⟨c, by simp, rfl, le_rfl, h0, hc, hk ▸ List.mem_cons_self, ?_⟩
      have hcell : linked t.overflowEntries c t.overflowCount k c =
          { t.overflowEntries c with cookie := t.overflowCount } := by
        rw [linked, Function.update_of_ne (by omega), Function.update_self]
      have hnew : linked t.overflowEntries c t.overflowCount k t.overflowCount = ⟨k, 0⟩ :=
        Function.update_self _ _ _
      refine ⟨h0, by omega, ?_, ?_, ?_⟩
      · rw [hcell]
        exact hk
      · rw [hcell]
        exact .inr hc
      · rw [hcell]
        refine ⟨by simp only; omega, by simp only; omega, ?_, ?_, ?_⟩
        · simp only [hnew]
        · exact .inl (by simp only [hnew])
        · simp only [hnew]
          rfl
    | cons k₁ ks =>
      have h' : (t.overflowEntries c).cookie ≠ 0 := h.1.ne'
      rw [if_neg h']
      rcases Links.lastLink hn k left (by simp) h with
        ⟨hlen, hl⟩ | ⟨z, hlen, hl, hcz, hz0, hz, hm, hlinks⟩
      · exact .inl ⟨by simpa using hlen, hl⟩
      · have hcc := hlt.resolve_left h'
        have hcell : linked t.overflowEntries z t.overflowCount k c = t.overflowEntries c :=
          linked_of_ne (by omega) (by omega)
        refine .inr ⟨z, by simpa using hlen, hl, by omega, hz0, hz, List.mem_cons_of_mem _ hm,
          h0, by omega, hcell ▸ hk, hcell ▸ hlt, ?_⟩
        rw [hcell]
        exact hlinks

/-- Only the arrays and the number of overflow cells differ. -/
def Frame (t t' : MinimizationHash K) : Prop :=
  ∃ e o n, t' = { t with entries := e, overflowEntries := o, overflowCount := n }

omit [HashEntry K] in
theorem Frame.refl (t : MinimizationHash K) : Frame t t := ⟨_, _, _, rfl⟩

omit [HashEntry K] in
theorem Frame.trans {t u v : MinimizationHash K} (h : Frame t u) (h' : Frame u v) : Frame t v := by
  obtain ⟨e, o, n, rfl⟩ := h
  obtain ⟨e', o', n', rfl⟩ := h'
  exact ⟨e', o', n', rfl⟩

theorem Chained.bucket_lt (h : Chained t bs) (hashcode : Nat) : t.bucketOf hashcode < t.hashSize := by
  have := sizeOfStep_pos h.step
  rw [← h.size] at this
  exact Nat.mod_lt _ (by omega)

/-- An entry is linked behind the last one of its bucket. -/
theorem Chained.link (h : Chained t bs) (hk : isEmpty k = false) (hb : bs (t.bucket k) ≠ [])
    (hroom : t.overflowCount < t.overflowEntriesSize) {e o : Nat → HashCell K}
    (he : ∀ i, (e i).key = (t.entries i).key)
    (hother : ∀ i, i ≠ t.bucket k → e i = t.entries i)
    (ho : ∀ i, i < t.overflowCount → (o i).key = (t.overflowEntries i).key)
    (hnew : (o t.overflowCount).key = k)
    (hsame : ∀ i, 0 < i → i < t.overflowCount → t.bucket (t.overflowEntries i).key ≠ t.bucket k →
      o i = t.overflowEntries i)
    (hchain : ∀ k₀ ks, bs (t.bucket k) = k₀ :: ks →
      Links o (t.overflowCount + 1) (e (t.bucket k)).cookie (ks ++ [k])) :
    Chained { t with entries := e, overflowEntries := o, overflowCount := t.overflowCount + 1 }
      (Function.update bs (t.bucket k) (bs (t.bucket k) ++ [k])) where
  step := h.step
  original := h.original
  size := h.size
  overflowSize := h.overflowSize
  count := ⟨Nat.succ_pos _, hroom⟩
  zero := by
    show isEmpty (o 0).key = true
    rw [ho 0 h.count.1]
    exact h.zero
  cells i hi hi' := by
    show isEmpty (o i).key = false
    have hi' : i < t.overflowCount + 1 := hi'
    rcases Nat.lt_succ_iff_lt_or_eq.mp hi' with hlt | rfl
    · rw [ho i hlt]
      exact h.cells i hi hlt
    · rw [hnew]
      exact hk
  free b hbs := by
    show isEmpty (e b).key = true
    rcases eq_or_ne b (t.bucket k) with rfl | hne
    · rw [Function.update_self] at hbs
      exact absurd hbs (by simp)
    · rw [Function.update_of_ne hne] at hbs
      rw [he b]
      exact h.free b hbs
  chain b k₀ ks hbs := by
    show (e b).key = k₀ ∧ Links o (t.overflowCount + 1) (e b).cookie ks
    rcases eq_or_ne b (t.bucket k) with rfl | hne
    · rw [Function.update_self] at hbs
      obtain ⟨k₁, ks₁, hbs₁⟩ := List.exists_cons_of_ne_nil hb
      rw [hbs₁, List.cons_append, List.cons.injEq] at hbs
      obtain ⟨rfl, rfl⟩ := hbs
      exact ⟨(he _).trans (h.chain _ _ _ hbs₁).1, hchain _ _ hbs₁⟩
    · rw [Function.update_of_ne hne] at hbs
      obtain ⟨hkey, hlinks⟩ := h.chain b k₀ ks hbs
      rw [hother b hne]
      refine ⟨hkey, hlinks.congr (Nat.le_succ _) fun i hi hi' hm => hsame i hi hi' fun heq => hne ?_⟩
      rw [← heq]
      exact (h.keys b _ (hbs ▸ List.mem_cons_of_mem k₀ hm)).2.symm
  keys b k' hk' := by
    show isEmpty k' = false ∧ t.bucket k' = b
    rcases eq_or_ne b (t.bucket k) with rfl | hne
    · rw [Function.update_self, List.mem_append, List.mem_singleton] at hk'
      rcases hk' with hk' | rfl
      · exact h.keys _ k' hk'
      · exact ⟨hk, rfl⟩
    · rw [Function.update_of_ne hne] at hk'
      exact h.keys b k' hk'

/-- Where an entry is put. -/
inductive Placed (t : MinimizationHash K) (k : K) (xs : List K) : Place → Prop
  | free : xs = [] → Placed t k xs .free
  | dropped : xs ≠ [] → t.overflowCount = maxCookieSize K ∨ t.overflowLimit + 2 ≤ xs.length →
      Placed t k xs .dropped
  | head (k₀ : K) : xs = [k₀] → t.overflowCount ≠ maxCookieSize K → Placed t k xs .head
  | link (k₀ : K) (ks : List K) (z : Nat) : xs = k₀ :: ks → t.overflowCount ≠ maxCookieSize K →
      ks.length ≤ t.overflowLimit → 0 < z → z < t.overflowCount →
      (t.overflowEntries z).key ∈ ks →
      Links (linked t.overflowEntries z t.overflowCount k) (t.overflowCount + 1)
        (t.entries (t.bucket k)).cookie (ks ++ [k]) → Placed t k xs (.link z)

theorem Chained.place (h : Chained t bs) (k : K) :
    ∃ p, t.place k = some p ∧ Placed t k (bs (t.bucket k)) p := by
  rw [MinimizationHash.place]
  cases hbs : bs (t.bucket k) with
  | nil =>
    rw [if_pos (h.free _ hbs)]
    exact ⟨_, rfl, .free rfl⟩
  | cons k₀ ks =>
    obtain ⟨hkey, hlinks⟩ := h.chain _ _ _ hbs
    have hhead : isEmpty (t.entries (t.bucket k)).key = false := by
      rw [hkey]
      exact (h.keys _ k₀ (hbs ▸ List.mem_cons_self)).1
    rw [if_neg (by simp [hhead])]
    by_cases hmax : t.overflowCount = maxCookieSize K
    · rw [if_pos hmax]
      exact ⟨_, rfl, .dropped (by simp) (.inl hmax)⟩
    rw [if_neg hmax]
    cases ks with
    | nil =>
      rw [if_pos (show (t.entries (t.bucket k)).cookie = 0 from hlinks)]
      exact ⟨_, rfl, .head k₀ rfl hmax⟩
    | cons k₁ ks =>
      rw [if_neg (hlinks.ne_zero (by simp))]
      rcases Links.lastLink h.count.2 k t.overflowLimit (by simp) hlinks with
        ⟨hlen, hl⟩ | ⟨z, hlen, hl, -, hz0, hz, hm, hlinks'⟩
      · rw [hl]
        refine ⟨_, rfl, .dropped (by simp) (.inr ?_)⟩
        simp only [List.length_cons] at hlen ⊢
        omega
      · rw [hl]
        exact ⟨_, rfl, .link k₀ _ z rfl hmax hlen hz0 hz hm hlinks'⟩

/-- There is a cell for an entry that is linked. -/
def Room (t : MinimizationHash K) (k : K) : Prop :=
  t.overflowCount < t.overflowEntriesSize ∨ t.place k = some .free ∨ t.place k = some .dropped

theorem Chained.cookie_fits (h : Chained t bs) (hroom : t.overflowCount < t.overflowEntriesSize) :
    t.overflowCount % cookieRange K = t.overflowCount := by
  have hsize : t.overflowEntriesSize ≤ maxCookieSize K := by
    rw [h.overflowSize]
    exact min_le_right _ _
  exact Nat.mod_eq_of_lt (hroom.trans_le (hsize.trans maxCookieSize_le))

/-- Another cell in the table. -/
theorem Chained.setEntry (h : Chained t bs) (b : Nat) {c : HashCell K} (xs : List K)
    (hfree : xs = [] → isEmpty c.key = true)
    (hchain : ∀ k ks, xs = k :: ks → c.key = k ∧
      Links t.overflowEntries t.overflowCount c.cookie ks)
    (hkeys : ∀ k ∈ xs, isEmpty k = false ∧ t.bucket k = b) :
    Chained { t with entries := Function.update t.entries b c } (Function.update bs b xs) where
  step := h.step
  original := h.original
  size := h.size
  overflowSize := h.overflowSize
  count := h.count
  zero := h.zero
  cells := h.cells
  free b' hbs := by
    rcases eq_or_ne b' b with rfl | hne
    · rw [Function.update_self] at hbs
      simp only [Function.update_self]
      exact hfree hbs
    · rw [Function.update_of_ne hne] at hbs
      simp only [Function.update_of_ne hne]
      exact h.free b' hbs
  chain b' k ks hbs := by
    rcases eq_or_ne b' b with rfl | hne
    · rw [Function.update_self] at hbs
      simp only [Function.update_self]
      exact hchain k ks hbs
    · rw [Function.update_of_ne hne] at hbs
      simp only [Function.update_of_ne hne]
      exact h.chain b' k ks hbs
  keys b' k hk := by
    show isEmpty k = false ∧ t.bucket k = b'
    rcases eq_or_ne b' b with rfl | hne
    · rw [Function.update_self] at hk
      exact hkeys k hk
    · rw [Function.update_of_ne hne] at hk
      exact h.keys b' k hk

/-- What `Insert` does to the entries of the buckets. -/
structure Inserted (t : MinimizationHash K) (bs : Nat → List K) (k : K) (t' : MinimizationHash K)
    (dropped : Bool) : Prop where
  frame : Frame t t'
  chained : Chained t' (if dropped then bs else
    Function.update bs (t.bucket k) (bs (t.bucket k) ++ [k]))
  dropped_iff : dropped = true ↔ bs (t.bucket k) ≠ [] ∧
    (t.overflowCount = maxCookieSize K ∨ t.overflowLimit + 2 ≤ (bs (t.bucket k)).length)
  count : t'.overflowCount =
    t.overflowCount + if bs (t.bucket k) ≠ [] ∧ dropped = false then 1 else 0

/-- **Where there is room, `Insert` puts an entry at the end of its bucket or drops it.** -/
theorem Chained.insert (h : Chained t bs) (hk : isEmpty k = false) (hroom : t.Room k) :
    ∃ t' d, t.insert k = some (t', d) ∧ Inserted t bs k t' d := by
  obtain ⟨p, hp, hplaced⟩ := h.place k
  rw [MinimizationHash.insert]
  simp only [hp, Option.bind_some]
  cases hplaced with
  | free hb =>
    refine ⟨_, false, rfl, ⟨_, _, _, rfl⟩, ?_, by simp [hb], by simp [hb]⟩
    rw [if_neg (by simp), hb]
    refine h.setEntry _ _ (fun hnil => absurd hnil (by simp)) (fun k₀ ks hks => ?_) fun k₀ hk₀ => ?_
    · obtain ⟨rfl, rfl⟩ := List.cons.inj hks
      exact ⟨rfl, rfl⟩
    · rw [List.mem_singleton.mp hk₀]
      exact ⟨hk, rfl⟩
  | dropped hb hfull =>
    exact ⟨t, true, rfl, Frame.refl t, h, by simp [hb, hfull], by simp⟩
  | head k₀ hb hmax =>
    have hlt : t.overflowCount < t.overflowEntriesSize := by
      rcases hroom with hlt | hp' | hp'
      · exact hlt
      · rw [hp] at hp'
        cases hp'
      · rw [hp] at hp'
        cases hp'
    simp only [pushOverflow, if_pos hlt, Option.map_some]
    have hne : bs (t.bucket k) ≠ [] := by simp [hb]
    refine ⟨_, false, rfl, ⟨_, _, _, rfl⟩, ?_, by simp [hb, hmax], by simp [hb]⟩
    rw [if_neg (by simp)]
    refine h.link hk hne hlt (fun i => ?_) (fun i hi => Function.update_of_ne hi _ _)
      (fun i hi => by rw [Function.update_of_ne hi.ne]) (by rw [Function.update_self])
      (fun i _ hi _ => Function.update_of_ne hi.ne _ _) fun k₁ ks hbs => ?_
    · rcases eq_or_ne i (t.bucket k) with rfl | hi
      · rw [Function.update_self]
        rfl
      · rw [Function.update_of_ne hi]
    · rw [hb, List.cons.injEq] at hbs
      obtain ⟨-, rfl⟩ := hbs
      rw [Function.update_self, HashCell.setCookie, h.cookie_fits hlt]
      refine ⟨h.count.1, Nat.lt_succ_self _, ?_, .inl ?_, ?_⟩
      · simp only [Function.update_self]
      · simp only [Function.update_self]
      · simp only [Function.update_self]
        rfl
  | link k₀ ks z hb hmax hlen hz0 hz hm hlinks =>
    have hlt : t.overflowCount < t.overflowEntriesSize := by
      rcases hroom with hlt | hp' | hp'
      · exact hlt
      · rw [hp] at hp'
        cases hp'
      · rw [hp] at hp'
        cases hp'
    simp only [pushOverflow, if_pos hlt, Option.map_some]
    have hne : bs (t.bucket k) ≠ [] := by simp [hb]
    have hcell : (t.overflowEntries z).setCookie t.overflowCount =
        { t.overflowEntries z with cookie := t.overflowCount } := by
      rw [HashCell.setCookie, h.cookie_fits hlt]
    have hlong : ¬ t.overflowLimit + 2 ≤ (bs (t.bucket k)).length := by
      rw [hb, List.length_cons]
      omega
    refine ⟨_, false, rfl, ⟨_, _, _, rfl⟩, ?_, by simp [hlong, hmax], by simp [hne]⟩
    rw [if_neg (by simp), hcell]
    refine h.link hk hne hlt (fun i => rfl) (fun i hi => rfl) (fun i hi => ?_)
      (by rw [Function.update_self]) (fun i _ hi hbucket => ?_) fun k₁ ks₁ hbs => ?_
    · rw [Function.update_of_ne hi.ne]
      rcases eq_or_ne i z with rfl | hiz
      · rw [Function.update_self]
      · rw [Function.update_of_ne hiz]
    · refine linked_of_ne (fun hiz => hbucket ?_) hi.ne
      rw [hiz]
      exact (h.keys _ _ (hb ▸ List.mem_cons_of_mem k₀ hm)).2
    · rw [hb, List.cons.injEq] at hbs
      obtain ⟨-, rfl⟩ := hbs
      exact hlinks

/-! ## Re-hashing -/

/-- How many of the entries are linked when they are inserted one after the other into these buckets:
in each bucket all but the first one, up to the limit. -/
def takenCells (limit : Nat) : List Nat → List Nat → Nat
  | _, [] => 0
  | seen, b :: rest =>
    (if 1 ≤ seen.count b ∧ seen.count b ≤ limit + 1 then 1 else 0) +
      takenCells limit (b :: seen) rest

/-- There is room where the area has a cell, and where none is needed. -/
theorem Chained.room (h : Chained t bs) (hc : t.overflowCount < t.overflowEntriesSize ∨
    bs (t.bucket k) = [] ∨ t.overflowCount = maxCookieSize K ∨
      t.overflowLimit + 2 ≤ (bs (t.bucket k)).length) : t.Room k := by
  obtain ⟨p, hp, hplaced⟩ := h.place k
  rcases hc with hlt | hc
  · exact .inl hlt
  cases hplaced with
  | free => exact .inr (.inl hp)
  | dropped => exact .inr (.inr hp)
  | head k₀ hb hmax =>
    rw [hb, List.length_singleton] at hc
    simp [hmax] at hc
  | link k₀ ks z hb hmax hlen =>
    rw [hb, List.length_cons] at hc
    simp [hmax] at hc
    omega

/-- There is a cell left, or the area is as large as cookies go. -/
def Roomy (t : MinimizationHash K) : Prop :=
  t.overflowCount < t.overflowEntriesSize ∨ t.overflowEntriesSize = maxCookieSize K

/-- Where there are no more cells than cookies, an entry without a cell is dropped. -/
theorem Chained.room_of_roomy (h : Chained t bs) (hr : t.Roomy) : t.Room k := by
  have hcount := h.count
  unfold Roomy at hr
  exact h.room (by omega)

/-- The area has a cell for each entry that is linked when the others are inserted, and the buckets
have what was inserted, up to the limit. -/
def Tight (t : MinimizationHash K) (bs : Nat → List K) (seen rest : List Nat) : Prop :=
  t.overflowCount + takenCells t.overflowLimit seen rest ≤ t.overflowEntriesSize ∧
    ∀ b, (bs b).length = min (seen.count b) (t.overflowLimit + 2)

/-- The arrays have room for the entries that are inserted: the area is as large as cookies go, or it
has a cell for each entry that is linked. -/
def Spacious (t : MinimizationHash K) (bs : Nat → List K) (seen rest : List Nat) : Prop :=
  t.overflowEntriesSize = maxCookieSize K ∨ Tight t bs seen rest

theorem Chained.size_le (h : Chained t bs) : t.overflowEntriesSize ≤ maxCookieSize K := by
  rw [h.overflowSize]
  exact min_le_right _ _

theorem Chained.room_of_spacious (h : Chained t bs) {seen rest : List Nat}
    (hs : Spacious t bs seen (t.bucket k :: rest)) : t.Room k := by
  have hcount := h.count
  refine h.room ?_
  rcases hs with hmax | ⟨hle, hlen⟩
  · omega
  · rw [takenCells] at hle
    have hlen := hlen (t.bucket k)
    by_cases hlinked : 1 ≤ seen.count (t.bucket k) ∧ seen.count (t.bucket k) ≤ t.overflowLimit + 1
    · rw [if_pos hlinked] at hle
      omega
    · have hcases : seen.count (t.bucket k) = 0 ∨ t.overflowLimit + 2 ≤ seen.count (t.bucket k) := by
        omega
      rcases hcases with h0 | hfull
      · exact .inr (.inl (List.length_eq_zero_iff.mp (by omega)))
      · exact .inr (.inr (.inr (by omega)))

/-- With as many entries as were inserted, up to the limit, an entry is linked if it is counted. -/
theorem Inserted.linked_iff {seen : List Nat} {t' : MinimizationHash K} {d : Bool}
    (hi : Inserted t bs k t' d)
    (hmax : 1 ≤ seen.count (t.bucket k) → seen.count (t.bucket k) ≤ t.overflowLimit + 1 →
      t.overflowCount ≠ maxCookieSize K)
    (hlen : (bs (t.bucket k)).length = min (seen.count (t.bucket k)) (t.overflowLimit + 2)) :
    (d = true ↔ t.overflowLimit + 2 ≤ seen.count (t.bucket k)) ∧
      ((bs (t.bucket k) ≠ [] ∧ d = false) ↔
        1 ≤ seen.count (t.bucket k) ∧ seen.count (t.bucket k) ≤ t.overflowLimit + 1) := by
  have hd := hi.dropped_iff
  have hne : bs (t.bucket k) ≠ [] ↔ 0 < (bs (t.bucket k)).length := List.length_pos_iff.symm
  rw [hne] at hd ⊢
  cases d with
  | true =>
    have hd := hd.mp rfl
    simp only [true_iff, reduceCtorEq, and_false, false_iff]
    omega
  | false =>
    have hd := mt hd.mpr (by simp)
    simp only [reduceCtorEq, false_iff, and_true]
    omega

/-- Where an entry is counted, cookies have not run out. -/
theorem Chained.count_ne_of_tight (h : Chained t bs) {seen rest : List Nat}
    (hs : Tight t bs seen (t.bucket k :: rest)) (h1 : 1 ≤ seen.count (t.bucket k))
    (h2 : seen.count (t.bucket k) ≤ t.overflowLimit + 1) : t.overflowCount ≠ maxCookieSize K := by
  have hle := hs.1
  have hsize := h.size_le
  rw [takenCells, if_pos ⟨h1, h2⟩] at hle
  omega

/-- An insertion takes the cell that is counted for it. -/
theorem Inserted.cells (h : Chained t bs) {seen rest : List Nat} {t' : MinimizationHash K}
    {d : Bool} (hi : Inserted t bs k t' d) (hs : Tight t bs seen (t.bucket k :: rest)) :
    t'.overflowCount + takenCells t.overflowLimit (t.bucket k :: seen) rest =
      t.overflowCount + takenCells t.overflowLimit seen (t.bucket k :: rest) := by
  obtain ⟨-, hlinked⟩ := hi.linked_iff (h.count_ne_of_tight hs) (hs.2 (t.bucket k))
  have hcount := hi.count
  rw [if_congr hlinked rfl rfl] at hcount
  rw [takenCells]
  omega

/-- One insertion leaves the cells for the others. -/
theorem Inserted.tight (h : Chained t bs) {seen rest : List Nat} {t' : MinimizationHash K}
    {d : Bool} (hi : Inserted t bs k t' d) (hs : Tight t bs seen (t.bucket k :: rest)) :
    Tight t' (if d then bs else Function.update bs (t.bucket k) (bs (t.bucket k) ++ [k]))
      (t.bucket k :: seen) rest := by
  obtain ⟨hdropped, -⟩ := hi.linked_iff (h.count_ne_of_tight hs) (hs.2 (t.bucket k))
  have hcells : t'.overflowCount + takenCells t.overflowLimit (t.bucket k :: seen) rest ≤
      t.overflowEntriesSize := (hi.cells h hs).trans_le hs.1
  obtain ⟨hle, hlen⟩ := hs
  obtain ⟨e, o, n, rfl⟩ := hi.frame
  refine ⟨hcells, fun b => ?_⟩
  show _ = min ((t.bucket k :: seen).count b) (t.overflowLimit + 2)
  have hb := hlen b
  rcases eq_or_ne b (t.bucket k) with rfl | hne
  · rw [List.count_cons_self]
    cases d with
    | true =>
      have hfull := hdropped.mp rfl
      rw [if_pos rfl]
      omega
    | false =>
      have hfree := mt hdropped.mpr (by simp)
      rw [if_neg (by simp), Function.update_self, List.length_append, List.length_singleton]
      omega
  · rw [List.count_cons_of_ne hne.symm]
    split
    · exact hb
    · rw [Function.update_of_ne hne]
      exact hb

/-- One insertion leaves room for the others. -/
theorem Inserted.spacious (h : Chained t bs) {seen rest : List Nat} {t' : MinimizationHash K}
    {d : Bool} (hi : Inserted t bs k t' d) (hs : Spacious t bs seen (t.bucket k :: rest)) :
    Spacious t' (if d then bs else Function.update bs (t.bucket k) (bs (t.bucket k) ++ [k]))
      (t.bucket k :: seen) rest := by
  rcases hs with hmax | hs
  · obtain ⟨e, o, n, rfl⟩ := hi.frame
    exact .inl hmax
  · exact .inr (hi.tight h hs)

/-- **Inserting one entry after the other.** With room for all of them no insertion leaves the arrays,
and every entry is in its bucket or was dropped. -/
theorem Chained.insertAll : ∀ {ks : List K} {t : MinimizationHash K} {bs : Nat → List K}
    {seen : List Nat}, Chained t bs → (∀ k ∈ ks, isEmpty k = false) →
    Spacious t bs seen (ks.map t.bucket) →
    ∃ t' lost bs', t.insertAll ks = some (t', lost) ∧ Frame t t' ∧ Chained t' bs' ∧
      (∀ b, bs b ⊆ bs' b) ∧ ∀ k ∈ ks, k ∈ bs' (t.bucket k) ∨ k ∈ lost
  | [], t, bs, _, h, _, _ => ⟨t, [], bs, rfl, Frame.refl t, h, fun _ _ hk => hk, by simp⟩
  | k :: ks, t, bs, seen, h, hks, hs => by
    obtain ⟨t₁, d, ht₁, hi⟩ := h.insert (hks k List.mem_cons_self) (h.room_of_spacious hs)
    have hbucket : t₁.bucket = t.bucket := by
      obtain ⟨e, o, n, rfl⟩ := hi.frame
      rfl
    have hs₁ := hi.spacious h hs
    have hmap : ks.map t₁.bucket = ks.map t.bucket := by rw [hbucket]
    rw [← hmap] at hs₁
    obtain ⟨t', lost, bs', ht', hframe, h', hsub, hin⟩ :=
      hi.chained.insertAll (fun k' hk' => hks k' (List.mem_cons_of_mem k hk')) hs₁
    rw [hbucket] at hin
    refine ⟨t', if d then k :: lost else lost, bs', ?_, hi.frame.trans hframe, h', fun b => ?_,
      fun k' hk' => ?_⟩
    · rw [MinimizationHash.insertAll, ht₁, Option.bind_some, ht']
      rfl
    · refine List.Subset.trans ?_ (hsub b)
      split
      · exact fun _ hx => hx
      · rcases eq_or_ne b (t.bucket k) with rfl | hne
        · rw [Function.update_self]
          exact List.subset_append_left _ _
        · rw [Function.update_of_ne hne]
          exact fun _ hx => hx
    · rcases List.mem_cons.mp hk' with rfl | hk'
      · cases d with
        | true => exact .inr List.mem_cons_self
        | false =>
          refine .inl (hsub _ ?_)
          rw [if_neg (by simp), Function.update_self]
          simp
      · refine (hin k' hk').imp_right fun hl => ?_
        split
        · exact List.mem_cons_of_mem k hl
        · exact hl

/-- The cells that are taken, by induction on the entries. -/
theorem Chained.overflowCount_insertAll : ∀ {ks : List K} {t t' : MinimizationHash K}
    {bs : Nat → List K} {seen : List Nat} {lost : List K}, Chained t bs →
    (∀ k ∈ ks, isEmpty k = false) → Tight t bs seen (ks.map t.bucket) →
    t.insertAll ks = some (t', lost) →
    t'.overflowCount = t.overflowCount + takenCells t.overflowLimit seen (ks.map t.bucket)
  | [], t, t', bs, seen, lost, _, _, _, ht' => by
    obtain ⟨rfl, -⟩ := Prod.mk.inj (Option.some.inj ht')
    rfl
  | k :: ks, t, t', bs, seen, lost, h, hks, hs, ht' => by
    obtain ⟨t₁, d, ht₁, hi⟩ := h.insert (hks k List.mem_cons_self) (h.room_of_spacious (.inr hs))
    have hcells := hi.cells h hs
    have hs₁ := hi.tight h hs
    rw [MinimizationHash.insertAll, ht₁, Option.bind_some] at ht'
    obtain ⟨r, hr, hlost⟩ := Option.map_eq_some_iff.mp ht'
    obtain ⟨rfl, -⟩ := Prod.mk.inj hlost
    obtain ⟨e, o, n, rfl⟩ := hi.frame
    rw [hi.chained.overflowCount_insertAll (fun k' hk' => hks k' (List.mem_cons_of_mem k hk')) hs₁ hr]
    exact hcells

omit [HashEntry K] in
theorem Links.exists_cell {cells : Nat → HashCell K} {n : Nat} : ∀ {ks : List K} {c : Nat},
    Links cells n c ks → ∀ k ∈ ks, ∃ i, 0 < i ∧ i < n ∧ (cells i).key = k
  | k₀ :: ks, c, ⟨h0, hc, hk, _, h⟩, k, hm => by
    rcases List.mem_cons.mp hm with rfl | hm
    · exact ⟨c, h0, hc, hk⟩
    · exact h.exists_cell k hm

theorem Chained.mem_oldKeys (h : Chained t bs) {b : Nat} (hk : k ∈ bs b) : k ∈ t.oldKeys := by
  obtain ⟨hempty, hb⟩ := h.keys b k hk
  obtain ⟨k₀, ks, hbs⟩ := List.exists_cons_of_ne_nil (List.ne_nil_of_mem hk)
  obtain ⟨hkey, hlinks⟩ := h.chain b k₀ ks hbs
  rw [oldKeys, List.mem_append]
  rw [hbs] at hk
  rcases List.mem_cons.mp hk with rfl | hk
  · refine .inl (List.mem_filter.mpr ⟨List.mem_map.mpr ⟨b, ?_, hkey⟩, by simp [hempty]⟩)
    rw [List.mem_range, ← hb]
    exact h.bucket_lt _
  · obtain ⟨i, hi, hi', hik⟩ := hlinks.exists_cell k hk
    exact .inr (List.mem_map.mpr ⟨i, List.mem_range'_1.mpr ⟨hi, by omega⟩, hik⟩)

theorem Chained.oldKeys_nonempty (h : Chained t bs) : ∀ k ∈ t.oldKeys, isEmpty k = false := by
  intro k hk
  rcases List.mem_append.mp hk with hk | hk
  · simpa using (List.mem_filter.mp hk).2
  · obtain ⟨i, hi, rfl⟩ := List.mem_map.mp hk
    rw [List.mem_range'_1] at hi
    exact h.cells i hi.1 (by omega)

/-- Arrays without entries. -/
theorem chained_empty (hstep : t.hashSizeStep ≤ hashMaxSizeStep)
    (horiginal : t.originalHashSizeStep ≤ hashMaxSizeStep)
    (hsize : t.hashSize = sizeOfStep t.hashSizeStep)
    (hoverflow : t.overflowEntriesSize = overflowSizeOf K t.hashSize) (hcount : t.overflowCount = 1)
    (hentries : ∀ i, isEmpty (t.entries i).key = true)
    (hzero : isEmpty (t.overflowEntries 0).key = true) : Chained t fun _ => [] where
  step := hstep
  original := horiginal
  size := hsize
  overflowSize := hoverflow
  count := by
    rw [hcount, hoverflow, hsize]
    exact ⟨Nat.one_pos, overflowSizeOf_pos hstep⟩
  zero := hzero
  cells i hi hi' := by omega
  free b _ := hentries b
  chain b k ks hbs := by cases hbs
  keys b k hk := by cases hk

/-- The larger overflow area is as large as cookies go, or it has a cell for each entry that is linked
when all are inserted again. -/
def RehashRoom (loadLimit : Nat → Nat) (t : MinimizationHash K) : Prop :=
  (t.grown loadLimit).overflowEntriesSize = maxCookieSize K ∨
    1 + takenCells t.overflowLimit [] (t.oldKeys.map (t.grown loadLimit).bucket) ≤
      (t.grown loadLimit).overflowEntriesSize

/-- **Where there is room, re-hashing keeps every entry that it does not drop.** -/
theorem Chained.growAndRehash {loadLimit : Nat → Nat} (h : Chained t bs)
    (hstep : t.hashSizeStep < hashMaxSizeStep) (hroom : t.RehashRoom loadLimit) :
    ∃ t' lost bs', t.growAndRehash loadLimit = some (t', lost) ∧ Chained t' bs' ∧
      ∀ b, ∀ k ∈ bs b, k ∈ bs' (t'.bucket k) ∨ k ∈ lost := by
  have hgrown : Chained (t.grown loadLimit) fun _ => [] :=
    chained_empty hstep h.original rfl rfl rfl (fun _ => isEmpty_empty) isEmpty_empty
  have hspacious : Spacious (t.grown loadLimit) (fun _ => []) []
      (t.oldKeys.map (t.grown loadLimit).bucket) := hroom.imp_right fun hle => ⟨hle, by simp⟩
  obtain ⟨t', lost, bs', ht', hframe, h', -, hin⟩ :=
    hgrown.insertAll h.oldKeys_nonempty hspacious
  refine ⟨t', lost, bs', ?_, h', fun b k hk => ?_⟩
  · rw [MinimizationHash.growAndRehash, if_pos h.count.2, ht']
  · have := hin k (h.mem_oldKeys hk)
    obtain ⟨e, o, n, rfl⟩ := hframe
    exact this

/-- How many of these entries share their bucket of a table with another one: in each bucket all but the
first, up to the limit. -/
def sharing (limit size : Nat) (ks : List K) : Nat :=
  let bs := ks.map fun k => getHashcode k % 2 ^ 31 % size
  ∑ b ∈ bs.toFinset, min (bs.count b - 1) (limit + 1)

theorem sharing_perm {limit size : Nat} {ks ks' : List K} (h : ks.Perm ks') :
    sharing limit size ks = sharing limit size ks' := by
  have hbs := h.map fun k => getHashcode k % 2 ^ 31 % size
  unfold sharing
  dsimp only
  rw [List.toFinset_eq_of_perm _ _ hbs]
  exact Finset.sum_congr rfl fun b _ => by rw [hbs.count_eq]

omit [HashEntry K] in
/-- One more entry. -/
theorem sum_count_cons (limit b : Nat) (bs : List Nat) :
    ∑ x ∈ (b :: bs).toFinset, min ((b :: bs).count x - 1) (limit + 1) =
      ∑ x ∈ bs.toFinset, min (bs.count x - 1) (limit + 1) +
        if 1 ≤ bs.count b ∧ bs.count b ≤ limit + 1 then 1 else 0 := by
  have hother : ∀ x ∈ bs.toFinset.erase b, min ((b :: bs).count x - 1) (limit + 1) =
      min (bs.count x - 1) (limit + 1) := fun x hx => by
    rw [List.count_cons_of_ne (Finset.ne_of_mem_erase hx).symm]
  by_cases hb : b ∈ bs
  · have hpos := List.count_pos_iff.mpr hb
    have hmem : b ∈ bs.toFinset := List.mem_toFinset.mpr hb
    rw [List.toFinset_cons, Finset.insert_eq_of_mem hmem, ← Finset.add_sum_erase _ _ hmem,
      ← Finset.add_sum_erase bs.toFinset (fun x => min (bs.count x - 1) (limit + 1)) hmem,
      Finset.sum_congr rfl hother, List.count_cons_self]
    split <;> omega
  · have hzero := List.count_eq_zero.mpr hb
    have hmem : b ∉ bs.toFinset := mt List.mem_toFinset.mp hb
    rw [List.toFinset_cons, Finset.sum_insert hmem, List.count_cons_self, hzero,
      ← Finset.erase_eq_of_notMem hmem, Finset.sum_congr rfl hother]
    simp

omit [HashEntry K] in
theorem takenCells_add (limit : Nat) : ∀ (bs seen : List Nat),
    takenCells limit seen bs + ∑ x ∈ seen.toFinset, min (seen.count x - 1) (limit + 1) =
      ∑ x ∈ (bs.reverse ++ seen).toFinset, min ((bs.reverse ++ seen).count x - 1) (limit + 1)
  | [], seen => by rw [takenCells, Nat.zero_add, List.reverse_nil, List.nil_append]
  | b :: bs, seen => by
    rw [takenCells, List.reverse_cons, List.append_assoc, List.singleton_append,
      ← takenCells_add limit bs (b :: seen), sum_count_cons]
    omega

/-- **The cells that are taken** when entries are inserted one after the other, in whatever order. -/
theorem takenCells_eq_sharing (limit size : Nat) (ks : List K) :
    takenCells limit [] (ks.map fun k => getHashcode k % 2 ^ 31 % size) = sharing limit size ks := by
  have h := takenCells_add limit (ks.map fun k => getHashcode k % 2 ^ 31 % size) []
  rw [List.append_nil, ← List.map_reverse] at h
  rw [← sharing_perm ks.reverse_perm]
  exact h

/-- An entry in a new cell of the overflow area. -/
theorem oldKeys_concat {t' : MinimizationHash K} (hsize : t'.hashSize = t.hashSize)
    (hkeys : ∀ i, (t'.entries i).key = (t.entries i).key) (hpos : 0 < t.overflowCount)
    (hcount : t'.overflowCount = t.overflowCount + 1)
    (hold : ∀ i < t.overflowCount, (t'.overflowEntries i).key = (t.overflowEntries i).key)
    (hnew : (t'.overflowEntries t.overflowCount).key = k) : t'.oldKeys = t.oldKeys ++ [k] := by
  have hlast : List.range' 1 (t.overflowCount + 1 - 1) =
      List.range' 1 (t.overflowCount - 1) ++ [t.overflowCount] := by
    rw [show t.overflowCount + 1 - 1 = (t.overflowCount - 1) + 1 by omega, List.range'_concat]
    congr 2
    omega
  have hcells : (List.range' 1 (t.overflowCount - 1)).map (fun i => (t'.overflowEntries i).key) =
      (List.range' 1 (t.overflowCount - 1)).map fun i => (t.overflowEntries i).key := by
    refine List.map_congr_left fun i hi => hold i ?_
    have := List.mem_range'_1.mp hi
    omega
  unfold oldKeys
  rw [hsize, funext hkeys, hcount, hlast, List.map_append, hcells, List.map_singleton, hnew,
    List.append_assoc]

/-- The entries after an insertion are those before and the new one. -/
theorem Chained.oldKeys_insert (h : Chained t bs) (hk : isEmpty k = false)
    {t' : MinimizationHash K} {d : Bool} (ht' : t.insert k = some (t', d)) :
    (d = true ↔ t.place k = some .dropped) ∧
      t'.oldKeys.Perm (if t.place k = some .dropped then t.oldKeys else k :: t.oldKeys) := by
  obtain ⟨p, hp, hplaced⟩ := h.place k
  rw [MinimizationHash.insert] at ht'
  simp only [hp, Option.bind_some] at ht'
  rw [hp]
  cases hplaced with
  | free hb =>
    obtain ⟨rfl, rfl⟩ := Prod.mk.inj (Option.some.inj ht')
    refine ⟨by simp, ?_⟩
    rw [if_neg (by simp)]
    -- The table before and behind the bucket is as it was.
    obtain ⟨front, back, hsplit⟩ := List.append_of_mem (List.mem_range.mpr (h.bucket_lt (getHashcode k)))
    have hnodup : (front ++ t.bucket k :: back).Nodup := hsplit ▸ List.nodup_range
    rw [List.nodup_middle, List.nodup_cons, List.mem_append, not_or] at hnodup
    have hsame : ∀ is : List Nat, t.bucket k ∉ is →
        is.map (fun i => (Function.update t.entries (t.bucket k) ⟨k, 0⟩ i).key) =
          is.map fun i => (t.entries i).key := fun is his =>
      List.map_congr_left fun i hi => by
        rw [Function.update_of_ne]
        rintro rfl
        exact his hi
    unfold oldKeys
    dsimp only
    rw [show List.range t.hashSize = front ++ t.bucket k :: back from hsplit, List.map_append,
      List.map_append, List.map_cons, List.map_cons, hsame front hnodup.1.1, hsame back hnodup.1.2,
      Function.update_self, List.filter_append, List.filter_append, List.filter_cons_of_pos (by simp [hk]),
      List.filter_cons_of_neg (by simp [h.free _ hb])]
    rw [List.append_assoc, List.cons_append]
    exact (List.perm_middle).trans (by rw [List.append_assoc])
  | dropped hb hfull =>
    obtain ⟨rfl, rfl⟩ := Prod.mk.inj (Option.some.inj ht')
    exact ⟨by simp, by rw [if_pos rfl]⟩
  | head k₀ hb hmax =>
    unfold pushOverflow at ht'
    dsimp only at ht'
    split at ht'
    · obtain ⟨rfl, rfl⟩ := Prod.mk.inj (Option.some.inj ht')
      refine ⟨by simp, ?_⟩
      rw [if_neg (by simp)]
      refine (List.Perm.of_eq ?_).trans (List.perm_append_singleton k t.oldKeys)
      refine oldKeys_concat rfl (fun i => ?_) h.count.1 rfl (fun i hi => ?_) ?_
      · rcases eq_or_ne i (t.bucket k) with rfl | hne
        · dsimp only
          rw [Function.update_self]
          rfl
        · dsimp only
          rw [Function.update_of_ne hne]
      · dsimp only
        rw [Function.update_of_ne hi.ne]
      · dsimp only
        rw [Function.update_self]
    · cases ht'
  | link k₀ ks z hb hmax hlen hz0 hz hm hlinks =>
    unfold pushOverflow at ht'
    dsimp only at ht'
    split at ht'
    · obtain ⟨rfl, rfl⟩ := Prod.mk.inj (Option.some.inj ht')
      refine ⟨by simp, ?_⟩
      rw [if_neg (by simp)]
      refine (List.Perm.of_eq ?_).trans (List.perm_append_singleton k t.oldKeys)
      refine oldKeys_concat rfl (fun i => rfl) h.count.1 rfl (fun i hi => ?_) ?_
      · dsimp only
        rw [Function.update_of_ne hi.ne]
        rcases eq_or_ne i z with rfl | hne
        · rw [Function.update_self]
          rfl
        · rw [Function.update_of_ne hne]
      · dsimp only
        rw [Function.update_self]
    · cases ht'

/-! ## What is found -/

omit [HashEntry K] in
theorem Links.length_lt {cells : Nat → HashCell K} {n : Nat} (hn : 0 < n) :
    ∀ {ks : List K} {c : Nat}, Links cells n c ks → c + ks.length ≤ n ∧ ks.length < n
  | [], c, h => by
    rw [show c = 0 from h]
    exact ⟨Nat.zero_le _, hn⟩
  | k :: ks, c, ⟨h0, hc, _, hlt, h⟩ => by
    have ih := Links.length_lt hn h
    simp only [List.length_cons]
    rcases hlt with h' | hlt
    · rw [h'] at h
      cases ks with
      | nil =>
        simp only [List.length_nil]
        omega
      | cons k₁ ks => exact absurd h.1 (lt_irrefl 0)
    · omega

/-- The loop of `Get` looks at the entries of a chain one after the other. -/
theorem Links.getLoop (hn : t.overflowCount ≤ t.overflowEntriesSize) (q : Query K) :
    ∀ {ks : List K} {fuel : Nat} {c : HashCell K}, ks.length < fuel →
    (∀ k ∈ c.key :: ks, isEmpty k = false) →
    Links t.overflowEntries t.overflowCount c.cookie ks →
    t.getLoop q fuel c = some ((c.key :: ks).find? q.equals)
  | ks, fuel + 1, c, hlen, hne, h => by
    rw [MinimizationHash.getLoop, if_neg (by simp [hne c.key List.mem_cons_self]), List.find?_cons]
    by_cases hq : q.equals c.key = true
    · rw [if_pos hq, hq]
    rw [if_neg hq, Bool.eq_false_of_not_eq_true hq]
    simp only
    cases ks with
    | nil =>
      rw [if_neg (by simp [show c.cookie = 0 from h])]
      rfl
    | cons k ks =>
      obtain ⟨h0, hc, hk, -, h⟩ := h
      rw [if_pos h0.ne', readOverflow, if_pos (hc.trans_le hn), Option.bind_some,
        h.getLoop hn q (by simpa using hlen) (by
          rw [hk]
          exact fun k' hk' => hne k' (List.mem_cons_of_mem _ hk')), hk]

/-- **`Get` ends, and finds the first entry of its bucket that is equal to the key.** -/
theorem Chained.get (h : Chained t bs) (q : Query K) :
    t.get q = some ((bs (t.bucketOf q.hashcode)).find? q.equals) := by
  rw [MinimizationHash.get]
  cases hbs : bs (t.bucketOf q.hashcode) with
  | nil =>
    rw [MinimizationHash.getLoop, if_pos (h.free _ hbs)]
    rfl
  | cons k ks =>
    obtain ⟨hkey, hlinks⟩ := h.chain _ _ _ hbs
    have hlen := (hlinks.length_lt h.count.1).2
    have hne : ∀ k' ∈ (t.entries (t.bucketOf q.hashcode)).key :: ks, isEmpty k' = false := by
      rw [hkey, ← hbs]
      exact fun k' hk' => (h.keys _ k' hk').1
    rw [hlinks.getLoop h.count.2 q (by omega) hne, hkey]

/-- The last loop of `GetAndMove` does the same, and ends at the cell 0. -/
theorem Links.moveLoop (hn : t.overflowCount ≤ t.overflowEntriesSize) (hpos : 0 < t.overflowCount)
    (hzero : isEmpty (t.overflowEntries 0).key = true) (q : Query K) :
    ∀ {ks : List K} {fuel i : Nat}, ks.length < fuel → (∀ k ∈ ks, isEmpty k = false) →
    Links t.overflowEntries t.overflowCount i ks → t.moveLoop q fuel i = some (ks.find? q.equals)
  | [], fuel + 1, i, _, _, h => by
    rw [show i = 0 from h, MinimizationHash.moveLoop, readOverflow, if_pos (by omega),
      Option.bind_some, if_pos hzero]
    rfl
  | k :: ks, fuel + 1, i, hlen, hne, ⟨h0, hi, hk, _, h⟩ => by
    rw [MinimizationHash.moveLoop, readOverflow, if_pos (hi.trans_le hn), Option.bind_some, hk,
      if_neg (by simp [hne k List.mem_cons_self]), List.find?_cons]
    by_cases hq : q.equals k = true
    · rw [if_pos hq, hq]
    · rw [if_neg hq, Bool.eq_false_of_not_eq_true hq]
      exact h.moveLoop hn hpos hzero q (by simpa using hlen)
        fun k' hk' => hne k' (List.mem_cons_of_mem k hk')

omit [HashEntry K] in
/-- An entry stays in its bucket if the bucket that is changed keeps it. -/
theorem mem_update_of_mem {b b' : Nat} {xs ys : List K} (hbs : bs b = xs) (hk : k ∈ bs b')
    (hkeep : k ∈ xs → k ∈ ys) : k ∈ Function.update bs b ys b' := by
  rcases eq_or_ne b' b with rfl | hne
  · rw [Function.update_self]
    exact hkeep (hbs ▸ hk)
  · rw [Function.update_of_ne hne]
    exact hk

/-- **`GetAndMove` ends, finds what `Get` finds, and leaves all other entries where they are found.** -/
theorem Chained.getAndMove (h : Chained t bs) (q : Query K) :
    ∃ t' bs', t.getAndMove q = some ((bs (t.bucketOf q.hashcode)).find? q.equals, t') ∧
      Frame t t' ∧ Chained t' bs' ∧
      ∀ b, ∀ k ∈ bs b, (bs (t.bucketOf q.hashcode)).find? q.equals ≠ some k → k ∈ bs' b := by
  have hread : ∀ c, c < t.overflowCount → t.readOverflow c = some (t.overflowEntries c) :=
    fun c hc => if_pos (hc.trans_le h.count.2)
  rw [MinimizationHash.getAndMove]
  generalize t.bucketOf q.hashcode = b
  have hkeys := h.keys b
  cases hbs : bs b with
  | nil =>
    rw [if_pos (h.free _ hbs)]
    exact ⟨t, bs, rfl, Frame.refl t, h, fun _ _ hk _ => hk⟩
  | cons k₀ ks =>
    obtain ⟨hkey, hlinks⟩ := h.chain _ _ _ hbs
    rw [hbs] at hkeys
    rw [if_neg (by simp [hkey, (hkeys k₀ List.mem_cons_self).1]), hkey, List.find?_cons]
    cases ks with
    | nil =>
      -- Without links nothing changes, also where the entry is found.
      have hcookie : ¬ (t.entries b).cookie ≠ 0 := not_not.mpr hlinks
      rw [if_neg hcookie, if_neg hcookie]
      refine ⟨t, bs, ?_, Frame.refl t, h, fun _ _ hk _ => hk⟩
      by_cases hq : q.equals k₀ = true
      · rw [if_pos hq, hq]
      · rw [if_neg hq, Bool.eq_false_of_not_eq_true hq]
        rfl
    | cons k₁ ks =>
      obtain ⟨h0, hc, hk₁, -, hrest⟩ := hlinks
      rw [if_pos h0.ne', if_pos h0.ne', hread _ hc, Option.map_some, Option.bind_some, hk₁]
      by_cases hq : q.equals k₀ = true
      · -- The first link comes into the table.
        rw [if_pos hq, hq]
        refine ⟨_, _, rfl, ⟨_, _, _, rfl⟩, h.setEntry b (k₁ :: ks) (by simp) ?_ ?_, ?_⟩
        · intro k ks' hks
          obtain ⟨rfl, rfl⟩ := List.cons.inj hks
          exact ⟨hk₁, hrest⟩
        · exact fun k hk => hkeys k (List.mem_cons_of_mem k₀ hk)
        · exact fun b' k hk hne => mem_update_of_mem hbs hk fun hm =>
            (List.mem_cons.mp hm).resolve_left fun he => hne (he ▸ rfl)
      · rw [if_neg hq, Bool.eq_false_of_not_eq_true hq]
        simp only [List.find?_cons]
        by_cases hq₁ : q.equals k₁ = true
        · -- The first link is left out.
          rw [if_pos hq₁, hq₁]
          refine ⟨_, _, rfl, ⟨_, _, _, rfl⟩, h.setEntry b (k₀ :: ks) (by simp) ?_ ?_, ?_⟩
          · intro k ks' hks
            obtain ⟨rfl, rfl⟩ := List.cons.inj hks
            exact ⟨rfl, hrest⟩
          · intro k hk
            refine hkeys k (List.mem_cons.mpr ((List.mem_cons.mp hk).imp_right fun hk => ?_))
            exact List.mem_cons_of_mem k₁ hk
          · intro b' k hk hne
            refine mem_update_of_mem hbs hk fun hm => ?_
            simp only [List.mem_cons] at hm ⊢
            rcases hm with he | he | hm
            · exact .inl he
            · exact absurd (he ▸ rfl) hne
            · exact .inr hm
        · rw [if_neg hq₁, Bool.eq_false_of_not_eq_true hq₁,
            hrest.moveLoop h.count.2 h.count.1 h.zero q
              (by have := (hrest.length_lt h.count.1).2; omega)
              fun k hk => (hkeys k (List.mem_cons_of_mem _ (List.mem_cons_of_mem _ hk))).1]
          exact ⟨t, bs, rfl, Frame.refl t, h, fun _ _ hk _ => hk⟩

/-! ## Runs -/

/-- The calls of a user. -/
inductive Call (K : Type)
  | add (k : K)
  | get (q : Query K)
  | getAndMove (q : Query K)
  | reset
  | clear

/-- A hash, with the entries that were added since it was empty, not moved away and not dropped. -/
structure Used (K : Type) where
  table : MinimizationHash K
  live : List K

section Runs

variable [DecidableEq K] (loadLimit : Nat → Nat)

/-- One call. -/
def step (s : Used K) : Call K → Option (Used K)
  | .add k => (s.table.add loadLimit k).map fun r =>
      ⟨r.1, (if r.2.1 then s.live else k :: s.live).filter fun k => k ∉ r.2.2⟩
  | .get q => (s.table.get q).map fun _ => s
  | .getAndMove q => (s.table.getAndMove q).map fun r =>
      ⟨r.2, s.live.filter fun k => r.1 ≠ some k⟩
  | .reset => some ⟨s.table.reset, []⟩
  | .clear => some ⟨s.table.clear loadLimit, []⟩

/-- Re-hashing under a condition has room. -/
def GrowRoom (p : Bool) (t : MinimizationHash K) : Prop := p = true → t.RehashRoom loadLimit

/-- The condition on an `Add`: the entry does not count as empty, an overflow cell is there if it is
linked, and each re-hash has room. -/
def AddRoom (t : MinimizationHash K) (k : K) : Prop :=
  isEmpty k = false ∧ t.Room k ∧ ∀ r ∈ t.addFirst k, GrowRoom loadLimit r.1.outgrown r.1 ∧
    ∀ r' ∈ growIf loadLimit r.1.outgrown r.1, GrowRoom loadLimit r'.1.crowded r'.1

/-- Whether an `Add` re-hashes: the count goes over its limit, or the entry takes the last cell. -/
def Grows (t : MinimizationHash K) (k : K) : Prop :=
  t.hashSizeStep < hashMaxSizeStep ∧ (t.rehashLimit < t.count + 1 ∨
    t.overflowCount + 1 = t.overflowEntriesSize ∧ t.overflowEntriesSize < maxCookieSize K ∧
      t.place k ≠ some .free ∧ t.place k ≠ some .dropped)

/-- The entries that a re-hash in an `Add` inserts again. -/
def addedKeys (t : MinimizationHash K) (k : K) : List K :=
  if t.place k = some .dropped then t.oldKeys else k :: t.oldKeys

/-- The condition on an `Add`: the entry does not count as empty, and when the table grows, the hash codes
are spread over the buckets of the next table: fewer share a bucket than its overflow area has cells to
give, or the area is as large as cookies go. -/
def AddSpread (t : MinimizationHash K) (k : K) : Prop :=
  isEmpty k = false ∧ (t.Grows k →
    overflowSizeOf K (sizeOfStep (t.hashSizeStep + 1)) = maxCookieSize K ∨
    sharing t.overflowLimit (sizeOfStep (t.hashSizeStep + 1)) (t.addedKeys k) + 1 <
      overflowSizeOf K (sizeOfStep (t.hashSizeStep + 1)))

/-- The condition on a call. -/
def CallSpread (s : Used K) : Call K → Prop
  | .add k => AddSpread s.table k
  | _ => True

instance decidableAddSpread (t : MinimizationHash K) (k : K) : Decidable (AddSpread t k) :=
  inferInstanceAs (Decidable (_ ∧ (_ ∧ (_ ∨ _ ∧ _ ∧ _ ≠ _ ∧ _ ≠ _) → _ ∨ _)))

instance decidableCallSpread (s : Used K) : ∀ c, Decidable (CallSpread s c)
  | .add k => decidableAddSpread s.table k
  | .get _ | .getAndMove _ | .reset | .clear => isTrue trivial

instance decidableRoom (t : MinimizationHash K) (k : K) : Decidable (t.Room k) :=
  inferInstanceAs (Decidable (_ ∨ _ ∨ _))

instance decidableGrowRoom (p : Bool) (t : MinimizationHash K) :
    Decidable (GrowRoom loadLimit p t) :=
  inferInstanceAs (Decidable (p = true → _ ∨ _))

instance decidableAddRoom (t : MinimizationHash K) (k : K) : Decidable (AddRoom loadLimit t k) :=
  inferInstanceAs (Decidable (_ ∧ _ ∧ ∀ r ∈ t.addFirst k, _ ∧ ∀ r' ∈ growIf _ _ _, _))

variable {loadLimit}

omit [DecidableEq K] in
theorem Chained.growIf (h : Chained t bs) {p : Bool}
    (hstep : p = true → t.hashSizeStep < hashMaxSizeStep) (hroom : GrowRoom loadLimit p t) :
    ∃ r bs', growIf loadLimit p t = some r ∧ Chained r.1 bs' ∧
      ∀ b, ∀ k ∈ bs b, k ∈ bs' (r.1.bucket k) ∨ k ∈ r.2 := by
  cases p with
  | true =>
    obtain ⟨t', lost, bs', ht', h', hin⟩ := h.growAndRehash (hstep rfl) (hroom rfl)
    exact ⟨(t', lost), bs', ht', h', hin⟩
  | false =>
    refine ⟨(t, []), bs, rfl, h, fun b k hk => .inl ?_⟩
    rw [(h.keys b k hk).2]
    exact hk

omit [DecidableEq K] in
/-- **Where there is room, `Add` keeps every entry that it does not drop.** -/
theorem Chained.add (h : Chained t bs) (hroom : AddRoom loadLimit t k) :
    ∃ r bs', t.add loadLimit k = some r ∧ Chained r.1 bs' ∧
      (∀ b, ∀ k' ∈ bs b, k' ∈ bs' (r.1.bucket k') ∨ k' ∈ r.2.2) ∧
      (r.2.1 = false → k ∈ bs' (r.1.bucket k) ∨ k ∈ r.2.2) := by
  obtain ⟨hk, hplace, hgrow⟩ := hroom
  obtain ⟨t₁, d, ht₁, hi⟩ := h.insert hk hplace
  have hfirst : t.addFirst k = some ({ t₁ with count := t₁.count + 1 }, d) := by
    rw [addFirst, ht₁]
    rfl
  have hc := hi.chained
  obtain ⟨bs₁, h₁, hsub, hin⟩ : ∃ bs₁, Chained { t₁ with count := t₁.count + 1 } bs₁ ∧
      (∀ b, bs b ⊆ bs₁ b) ∧ (d = false → k ∈ bs₁ (t.bucket k)) := by
    refine ⟨_, ⟨hc.step, hc.original, hc.size, hc.overflowSize, hc.count, hc.zero, hc.cells, hc.free,
      hc.chain, hc.keys⟩, fun b => ?_, fun hd => ?_⟩
    · split
      · exact fun _ hx => hx
      · exact fun x hx => mem_update_of_mem rfl hx fun hm => List.mem_append_left _ hm
    · rw [hd, if_neg (by simp), Function.update_self]
      simp
  obtain ⟨hroom₁, hroom₂⟩ := hgrow _ hfirst
  obtain ⟨r₂, bs₂, hr₂, h₂, hin₂⟩ := h₁.growIf (fun hp => by
    rw [outgrown, Bool.and_eq_true] at hp
    exact of_decide_eq_true hp.2) hroom₁
  obtain ⟨r₃, bs₃, hr₃, h₃, hin₃⟩ := h₂.growIf (fun hp => by
    rw [crowded, Bool.and_eq_true] at hp
    exact of_decide_eq_true hp.2) (hroom₂ _ hr₂)
  have hboth : ∀ b, ∀ k' ∈ bs₁ b, k' ∈ bs₃ (r₃.1.bucket k') ∨ k' ∈ r₂.2 ++ r₃.2 := by
    intro b k' hk'
    rcases hin₂ b k' hk' with hm | hl
    · exact (hin₃ _ k' hm).imp_right fun hl => List.mem_append_right _ hl
    · exact .inr (List.mem_append_left _ hl)
  refine ⟨(r₃.1, d, r₂.2 ++ r₃.2), bs₃, ?_, h₃, fun b k' hk' => hboth b k' (hsub b hk'),
    fun hd => hboth _ k (hin hd)⟩
  rw [MinimizationHash.add, hfirst, Option.bind_some, hr₂, Option.bind_some, hr₃]
  rfl

omit [DecidableEq K] in
/-- When the area of the next table is spread, re-hashing has room, and leaves a cell. -/
theorem Chained.growAndRehash_spread (h : Chained t bs) (hstep : t.hashSizeStep < hashMaxSizeStep)
    (hspread : overflowSizeOf K (sizeOfStep (t.hashSizeStep + 1)) = maxCookieSize K ∨
      sharing t.overflowLimit (sizeOfStep (t.hashSizeStep + 1)) t.oldKeys + 1 <
        overflowSizeOf K (sizeOfStep (t.hashSizeStep + 1))) :
    t.RehashRoom loadLimit ∧ ∀ r ∈ t.growAndRehash loadLimit, Roomy r.1 ∧ r.1.crowded = false := by
  have htaken : takenCells t.overflowLimit [] (t.oldKeys.map (t.grown loadLimit).bucket) =
      sharing t.overflowLimit (sizeOfStep (t.hashSizeStep + 1)) t.oldKeys :=
    takenCells_eq_sharing _ _ _
  have hroom : t.RehashRoom loadLimit := hspread.imp id fun hlt => by
    rw [htaken]
    exact (Nat.add_comm 1 _).trans_le hlt.le
  refine ⟨hroom, fun r hr => ?_⟩
  obtain ⟨t', lost, bs', ht', h', -⟩ := h.growAndRehash hstep hroom
  obtain rfl := Option.some.inj (ht'.symm.trans hr)
  rw [MinimizationHash.growAndRehash, if_pos h.count.2] at ht'
  have hgrown : Chained (t.grown loadLimit) fun _ => [] :=
    chained_empty hstep h.original rfl rfl rfl (fun _ => isEmpty_empty) isEmpty_empty
  have hframe : Frame (t.grown loadLimit) t' := by
    have hspacious : Spacious (t.grown loadLimit) (fun _ => []) []
        (t.oldKeys.map (t.grown loadLimit).bucket) := hroom.imp_right fun hle => ⟨hle, by simp⟩
    obtain ⟨u, lost', bs'', hu, hframe, -⟩ := hgrown.insertAll h.oldKeys_nonempty hspacious
    obtain ⟨rfl, -⟩ := Prod.mk.inj (Option.some.inj (hu.symm.trans ht'))
    exact hframe
  have hsize : t'.overflowEntriesSize = overflowSizeOf K (sizeOfStep (t.hashSizeStep + 1)) := by
    obtain ⟨e, o, n, rfl⟩ := hframe
    rfl
  unfold Roomy crowded
  dsimp only
  rcases hspread with hmax | hlt
  · rw [hsize, hmax]
    simp
  · have htight : Tight (t.grown loadLimit) (fun _ => []) []
        (t.oldKeys.map (t.grown loadLimit).bucket) := by
      refine ⟨?_, by simp⟩
      show 1 + takenCells t.overflowLimit [] _ ≤ overflowSizeOf K (sizeOfStep (t.hashSizeStep + 1))
      rw [htaken]
      omega
    have hcount := hgrown.overflowCount_insertAll h.oldKeys_nonempty htight ht'
    have hcells : t'.overflowCount = 1 + takenCells t.overflowLimit []
      (t.oldKeys.map (t.grown loadLimit).bucket) := hcount
    rw [htaken] at hcells
    rw [hsize]
    refine ⟨.inl (by omega), ?_⟩
    rw [decide_eq_false (by omega), Bool.false_and, Bool.false_and]

omit [DecidableEq K] in
/-- An area that is not crowded has a cell left, or it is as large as cookies go. -/
theorem Chained.roomy_of_not_crowded (h : Chained t bs) (hc : t.crowded = false) : t.Roomy := by
  have hcount := h.count
  have hle := h.size_le
  unfold crowded at hc
  simp only [Bool.and_eq_false_iff, decide_eq_false_iff_not] at hc
  unfold Roomy
  rcases hc with (hc | hc) | hc
  · omega
  · omega
  · -- The largest table.
    have hlast : t.hashSizeStep = hashMaxSizeStep := le_antisymm h.step (not_lt.mp hc)
    have hsmall : maxCookieSize K ≤ 4294967291 / 4 := maxCookieSize_le_largest
    have hsize := h.overflowSize
    rw [h.size, hlast] at hsize
    right
    rw [hsize]
    exact min_eq_right hsmall

omit [DecidableEq K] in
/-- An entry that is linked has neither a free bucket nor was it dropped. -/
theorem Chained.place_of_linked (h : Chained t bs) {d : Bool}
    (hdropped : d = true ↔ t.place k = some .dropped) (hlinked : bs (t.bucket k) ≠ [] ∧ d = false) :
    t.place k ≠ some .free ∧ t.place k ≠ some .dropped := by
  obtain ⟨hne, rfl⟩ := hlinked
  refine ⟨fun hfree => ?_, mt hdropped.mpr (by simp)⟩
  obtain ⟨p, hp, hplaced⟩ := h.place k
  obtain rfl := Option.some.inj (hp.symm.trans hfree)
  cases hplaced with
  | free hb => exact hne hb

omit [DecidableEq K] in
/-- The area is crowded behind an insertion that took its last cell. -/
theorem Inserted.grows_of_crowded (h : Chained t bs) (hr : t.Roomy) {t₁ : MinimizationHash K} {d : Bool}
    (hi : Inserted t bs k t₁ d) (hdropped : d = true ↔ t.place k = some .dropped)
    (hc : t₁.crowded = true) : t.Grows k := by
  have hcells := hi.count
  obtain ⟨e, o, n, rfl⟩ := hi.frame
  unfold crowded at hc
  simp only [Bool.and_eq_true, decide_eq_true_eq] at hc
  obtain ⟨⟨hfull, hmax⟩, hstep⟩ := hc
  dsimp only at hcells
  have hlt : t.overflowCount < t.overflowEntriesSize := hr.resolve_right hmax.ne
  by_cases hlinked : bs (t.bucket k) ≠ [] ∧ d = false
  · rw [if_pos hlinked] at hcells
    exact ⟨hstep, .inr ⟨by omega, hmax, h.place_of_linked hdropped hlinked⟩⟩
  · rw [if_neg hlinked] at hcells
    omega

omit [DecidableEq K] in
/-- **`Add` needs no more room than the hash codes leave.** -/
theorem Chained.addRoom (h : Chained t bs) (hr : t.Roomy) (hspread : AddSpread t k) :
    AddRoom loadLimit t k ∧ ∀ r ∈ t.add loadLimit k, Roomy r.1 := by
  obtain ⟨hk, hgrow⟩ := hspread
  have hroom := h.room_of_roomy (k := k) hr
  obtain ⟨t₁, d, ht₁, hi⟩ := h.insert hk hroom
  obtain ⟨hdropped, hkeys⟩ := h.oldKeys_insert hk ht₁
  have hfirst : t.addFirst k = some ({ t₁ with count := t₁.count + 1 }, d) := by
    rw [addFirst, ht₁]
    rfl
  obtain ⟨bs₁, h₁⟩ : ∃ bs₁, Chained { t₁ with count := t₁.count + 1 } bs₁ := by
    have hc := hi.chained
    exact ⟨_, ⟨hc.step, hc.original, hc.size, hc.overflowSize, hc.count, hc.zero, hc.cells, hc.free,
      hc.chain, hc.keys⟩⟩
  have hfull := fun hc => hi.grows_of_crowded h hr hdropped hc
  obtain ⟨e, o, n, rfl⟩ := hi.frame
  let u : MinimizationHash K :=
    { t with entries := e, overflowEntries := o, overflowCount := n, count := t.count + 1 }
  -- Where the table grows, its entries are spread over the next one.
  have hnext (hg : t.Grows k) : u.RehashRoom loadLimit ∧
      ∀ r ∈ u.growAndRehash loadLimit, Roomy r.1 ∧ r.1.crowded = false :=
    h₁.growAndRehash_spread hg.1 ((hgrow hg).imp_right fun hlt => by
      rw [addedKeys, ← sharing_perm hkeys] at hlt
      exact hlt)
  have hcrowded (hc : u.crowded = true) : t.Grows k := hfull hc
  have houtgrown (ho : u.outgrown = true) : t.Grows k := by
    unfold outgrown at ho
    rw [Bool.and_eq_true] at ho
    exact ⟨of_decide_eq_true ho.2, .inl (of_decide_eq_true ho.1)⟩
  refine ⟨⟨hk, hroom, fun r hr' => ?_⟩, fun r hr' => ?_⟩
  · obtain rfl := Option.some.inj (hfirst.symm.trans hr')
    refine ⟨fun ho => (hnext (houtgrown ho)).1, fun r' hr' hc => ?_⟩
    cases ho : u.outgrown with
    | true =>
      have hr' : r' ∈ MinimizationHash.growIf loadLimit u.outgrown u := hr'
      rw [ho] at hr'
      have hnot := ((hnext (houtgrown ho)).2 r' hr').2
      rw [hnot] at hc
      cases hc
    | false =>
      have hr' : r' ∈ MinimizationHash.growIf loadLimit u.outgrown u := hr'
      rw [ho] at hr'
      obtain rfl := Option.some.inj hr'
      exact (hnext (hcrowded hc)).1
  · rw [Option.mem_def, MinimizationHash.add, hfirst, Option.bind_some] at hr'
    obtain ⟨r₁, hr₁, hr'⟩ := Option.bind_eq_some_iff.mp hr'
    obtain ⟨r₂, hr₂, rfl⟩ := Option.map_eq_some_iff.mp hr'
    have hr₁ : MinimizationHash.growIf loadLimit u.outgrown u = some r₁ := hr₁
    cases ho : u.outgrown with
    | true =>
      rw [ho] at hr₁
      obtain ⟨hroomy, hnot⟩ := (hnext (houtgrown ho)).2 r₁ hr₁
      rw [hnot] at hr₂
      obtain rfl := Option.some.inj hr₂
      exact hroomy
    | false =>
      rw [ho] at hr₁
      obtain rfl := Option.some.inj hr₁
      cases hc : u.crowded with
      | true =>
        have hr₂ : MinimizationHash.growIf loadLimit u.crowded u = some r₂ := hr₂
        rw [hc] at hr₂
        exact ((hnext (hcrowded hc)).2 r₂ hr₂).1
      | false =>
        have hr₂ : MinimizationHash.growIf loadLimit u.crowded u = some r₂ := hr₂
        rw [hc] at hr₂
        obtain rfl := Option.some.inj hr₂
        exact h₁.roomy_of_not_crowded hc

omit [DecidableEq K] in
/-- An entry that is moved away leaves its cell. -/
theorem overflowCount_getAndMove {q : Query K} {r : Option K × MinimizationHash K}
    (hr : t.getAndMove q = some r) : r.2.overflowCount = t.overflowCount ∧
      r.2.overflowEntriesSize = t.overflowEntriesSize := by
  rw [MinimizationHash.getAndMove] at hr
  split at hr
  · rw [← Option.some.inj hr]
    exact ⟨rfl, rfl⟩
  · split at hr
    · split at hr
      · obtain ⟨c, -, rfl⟩ := Option.map_eq_some_iff.mp hr
        exact ⟨rfl, rfl⟩
      · rw [← Option.some.inj hr]
        exact ⟨rfl, rfl⟩
    · split at hr
      · obtain ⟨c, -, hr⟩ := Option.bind_eq_some_iff.mp hr
        split at hr
        · rw [← Option.some.inj hr]
          exact ⟨rfl, rfl⟩
        · obtain ⟨found, -, rfl⟩ := Option.map_eq_some_iff.mp hr
          exact ⟨rfl, rfl⟩
      · rw [← Option.some.inj hr]
        exact ⟨rfl, rfl⟩

/-- The buckets are in the table, overflow cells are taken from 1 on, no lookup leaves the arrays or
goes on for ever, and every live entry is found. -/
structure Sound (s : Used K) : Prop where
  bucket_lt : ∀ hashcode, s.table.bucketOf hashcode < s.table.hashSize
  overflow : 0 < s.table.overflowCount ∧ s.table.overflowCount ≤ s.table.overflowEntriesSize
  ends : ∀ q, s.table.get q ≠ none ∧ s.table.getAndMove q ≠ none
  found : ∀ k ∈ s.live, ∀ q : Query K, q.hashcode = getHashcode k → q.equals k = true →
    ∃ k', s.table.get q = some (some k') ∧ q.equals k' = true

/-- The live entries are in their buckets, and the area has a cell left. -/
def Keeps (s : Used K) : Prop :=
  s.table.Roomy ∧ ∃ bs, Chained s.table bs ∧ ∀ k ∈ s.live, k ∈ bs (s.table.bucket k)

omit [DecidableEq K] in
theorem Keeps.sound {s : Used K} (h : Keeps s) : Sound s := by
  obtain ⟨-, bs, hc, hlive⟩ := h
  refine ⟨hc.bucket_lt, hc.count, fun q => ⟨by rw [hc.get q]; simp, ?_⟩, fun k hk q hq he => ?_⟩
  · obtain ⟨t', bs', ht', -⟩ := hc.getAndMove q
    rw [ht']
    simp
  · have hm : k ∈ bs (s.table.bucketOf q.hashcode) := hq ▸ hlive k hk
    have hsome : ((bs (s.table.bucketOf q.hashcode)).find? q.equals).isSome := by
      rw [List.find?_isSome]
      exact ⟨k, hm, he⟩
    obtain ⟨k', hk'⟩ := Option.isSome_iff_exists.mp hsome
    exact ⟨k', by rw [hc.get q, hk'], List.find?_some hk'⟩

omit [DecidableEq K] in
theorem roomy_ofStep (originalStep overflowLimit : Nat) {step : Nat} (h : step ≤ hashMaxSizeStep) :
    Roomy (ofStep loadLimit originalStep step overflowLimit : MinimizationHash K) := by
  have hsize := sizeOfStep_pos h
  show 1 < overflowSizeOf K (sizeOfStep step) ∨ overflowSizeOf K (sizeOfStep step) = maxCookieSize K
  unfold overflowSizeOf
  omega

omit [DecidableEq K] in
theorem keeps_new (stepSize overflowLimit : Nat) :
    Keeps (⟨new loadLimit stepSize overflowLimit, []⟩ : Used K) :=
  ⟨roomy_ofStep _ _ (min_le_right _ _), fun _ => [], chained_empty (min_le_right _ _) (min_le_right _ _) rfl rfl rfl
    (fun _ => isEmpty_empty) isEmpty_empty, by simp⟩

/-- **One call.** -/
theorem Keeps.step {s : Used K} {c : Call K} (h : Keeps s) (hspread : CallSpread s c) :
    ∃ s', step loadLimit s c = some s' ∧ Keeps s' := by
  obtain ⟨hroomy, bs, hc, hlive⟩ := h
  cases c with
  | add k =>
    have hadd : AddRoom loadLimit s.table k ∧ ∀ r ∈ s.table.add loadLimit k, Roomy r.1 :=
      hc.addRoom hroomy hspread
    obtain ⟨hroom, hleft⟩ := hadd
    obtain ⟨r, bs', hr, hc', hin, hnew⟩ := hc.add hroom
    refine ⟨_, by rw [MinimizationHash.step, hr, Option.map_some], hleft r hr, bs', hc',
      fun k' hk' => ?_⟩
    obtain ⟨hm, hl⟩ := List.mem_filter.mp hk'
    have hl : k' ∉ r.2.2 := of_decide_eq_true hl
    split at hm
    · exact (hin _ k' (hlive k' hm)).resolve_right hl
    · next hd =>
      rcases List.mem_cons.mp hm with rfl | hm
      · exact (hnew (Bool.eq_false_of_not_eq_true hd)).resolve_right hl
      · exact (hin _ k' (hlive k' hm)).resolve_right hl
  | get q => exact ⟨s, by rw [MinimizationHash.step, hc.get q, Option.map_some], hroomy, bs, hc, hlive⟩
  | getAndMove q =>
    obtain ⟨t', bs', ht', hframe, hc', hin⟩ := hc.getAndMove q
    obtain ⟨hcount, hsize⟩ := overflowCount_getAndMove ht'
    refine ⟨_, by rw [MinimizationHash.step, ht', Option.map_some], ?_, bs', hc', fun k hk => ?_⟩
    · unfold Roomy
      rw [hcount, hsize]
      exact hroomy
    obtain ⟨hm, hl⟩ := List.mem_filter.mp hk
    have := hin _ k (hlive k hm) (of_decide_eq_true hl)
    obtain ⟨e, o, n, rfl⟩ := hframe
    exact this
  | reset =>
    have hfirst : Roomy s.table.reset := by
      have hcount := hc.count
      unfold Roomy at hroomy ⊢
      exact hroomy.imp_left fun hlt => (show 1 < s.table.overflowEntriesSize by omega)
    exact ⟨_, rfl, hfirst, fun _ => [], chained_empty hc.step hc.original hc.size hc.overflowSize rfl
      (fun _ => isEmpty_empty) hc.zero, by simp⟩
  | clear =>
    exact ⟨_, rfl, roomy_ofStep _ _ hc.original, fun _ => [], chained_empty hc.original hc.original rfl rfl rfl
      (fun _ => isEmpty_empty) isEmpty_empty, by simp⟩

/-- **Where the hash codes are spread, no call leaves the arrays and every live entry is found.** -/
theorem used_run (loadLimit : Nat → Nat) (stepSize overflowLimit : Nat) (calls : List (Call K))
    (hspread : Run.Along (step loadLimit) CallSpread
      ⟨new loadLimit stepSize overflowLimit, []⟩ calls) :
    ∃ s, Run.run (step loadLimit) ⟨new loadLimit stepSize overflowLimit, []⟩ calls = some s ∧
      Sound s := by
  suffices hrun : ∀ (calls : List (Call K)) (s : Used K), Keeps s →
      Run.Along (step loadLimit) CallSpread s calls →
      ∃ s', Run.run (step loadLimit) s calls = some s' ∧ Keeps s' by
    obtain ⟨s, hs, hk⟩ := hrun calls _ (keeps_new stepSize overflowLimit) hspread
    exact ⟨s, hs, hk.sound⟩
  intro calls
  induction calls with
  | nil => exact fun s h _ => ⟨s, rfl, h⟩
  | cons c calls ih =>
    intro s h hspread
    obtain ⟨s₁, hs₁, h₁⟩ := h.step hspread.1
    obtain ⟨s', hs', h'⟩ := ih s₁ h₁ (hspread.2 s₁ hs₁)
    exact ⟨s', Run.run_cons.mpr ⟨s₁, hs₁, hs'⟩, h'⟩

end Runs

/-- The limit for a load factor of 0.6. -/
def sixTenths (n : Nat) : Nat := n * 6 / 10

/-- Two entries in one bucket, of which the first is moved away. -/
theorem used_run_linked :
    ∃ s, Run.run (step sixTenths) (⟨new sixTenths 0 8, []⟩ : Used PackedState)
      [.add ⟨5, 7, 1⟩, .add ⟨6, 7 + 997, 1⟩, .getAndMove ⟨7, fun k => k.offset = 5⟩] = some s ∧
      Sound s :=
  used_run (K := PackedState) sixTenths 0 8 [.add ⟨5, 7, 1⟩, .add ⟨6, 7 + 997, 1⟩,
    .getAndMove ⟨7, fun k => k.offset = 5⟩] (by decide +kernel)

/-- Hash codes of bucket `i` in a table of 997 buckets, ten in each bucket of one of 2029. -/
def crowding (i : Nat) : PackedState := ⟨1, i / 10 + 2029 * ((9 * (i / 10) + i % 10) * 57 % 997), 0⟩

/-- The first `n` of them, in the order of their buckets. -/
def filled (n : Nat) : MinimizationHash PackedState :=
  { new sixTenths 0 8 with
    entries := fun i => if i < n then ⟨crowding i, 0⟩ else emptyCell
    count := n }

theorem bucket_crowding : ∀ i < 599, (crowding i).hashcode % 2 ^ 31 % 997 = i := by
  decide +kernel

theorem addFirst_filled {n : Nat} (hn : n < 599) :
    (filled n).addFirst (crowding n) = some (filled (n + 1), false) := by
  have hb : (filled n).bucket (crowding n) = n := bucket_crowding n hn
  have hp : (filled n).place (crowding n) = some .free := by
    rw [place, hb]
    simp [filled, emptyCell, isEmpty_empty]
  have he : Function.update (filled n).entries n ⟨crowding n, 0⟩ = (filled (n + 1)).entries := by
    funext i
    by_cases hi : i = n
    · subst hi
      simp [filled]
    · rw [Function.update_of_ne hi]
      simp only [filled, Nat.lt_succ_iff_lt_or_eq, hi, or_false]
  rw [addFirst, insert, hb, hp]
  simp only [Option.bind_some, Option.map_some, he]
  rfl

theorem add_filled {n : Nat} (hn : n < 598) :
    (filled n).add sixTenths (crowding n) = some (filled (n + 1), false, []) := by
  have ho : (filled (n + 1)).outgrown = false := by
    simp only [outgrown, Bool.and_eq_false_iff, decide_eq_false_iff_not]
    exact .inl (Nat.not_lt.mpr hn)
  have hc : (filled (n + 1)).crowded = false := rfl
  rw [add, addFirst_filled (hn.trans (by decide)), Option.bind_some, ho]
  simp only [growIf, Bool.false_eq_true, if_false, Option.bind_some, hc, Option.map_some,
    List.append_nil]

theorem growAndRehash_filled : ((filled 599).growAndRehash sixTenths).isNone = true := by
  decide +kernel

theorem add_filled_last : (filled 598).add sixTenths (crowding 598) = none := by
  have ho : (filled 599).outgrown = true := rfl
  rw [add, addFirst_filled (by decide), Option.bind_some, ho, growIf, if_pos rfl,
    Option.isNone_iff_eq_none.mp growAndRehash_filled, Option.bind_none]

theorem run_filled (n : Nat) (hn : n ≤ 598) :
    ∃ live, Run.run (step sixTenths) (⟨new sixTenths 0 8, []⟩ : Used PackedState)
      ((List.range n).map fun i => .add (crowding i)) = some ⟨filled n, live⟩ := by
  induction n with
  | zero => exact ⟨[], rfl⟩
  | succ n ih =>
    obtain ⟨live, h⟩ := ih (by omega)
    have hs : ∃ live', step sixTenths ⟨filled n, live⟩ (.add (crowding n)) =
        some ⟨filled (n + 1), live'⟩ := by
      rw [step, add_filled (by omega)]
      exact ⟨_, rfl⟩
    obtain ⟨live', hs⟩ := hs
    rw [List.range_succ, List.map_append]
    exact ⟨live', Run.run_append.mpr ⟨_, h, Run.run_cons.mpr ⟨_, hs, rfl⟩⟩⟩

/-- The first re-hash puts too many entries into the overflow area. -/
theorem not_used_run : ¬ ∀ calls : List (Call PackedState),
    ∃ s, Run.run (step sixTenths) ⟨new sixTenths 0 8, []⟩ calls = some s ∧ Sound s := by
  intro h
  obtain ⟨s, hs, -⟩ := h ((List.range 599).map fun i => .add (crowding i))
  obtain ⟨live, hfilled⟩ := run_filled 598 le_rfl
  rw [List.range_succ, List.map_append, Run.run_append] at hs
  obtain ⟨s₁, h₁, hs⟩ := hs
  obtain rfl := Option.some.inj (hfilled.symm.trans h₁)
  obtain ⟨s₂, h₂, -⟩ := Run.run_cons.mp hs
  rw [step, add_filled_last] at h₂
  cases h₂

end MinimizationHash

end Keyvi.Fsa
