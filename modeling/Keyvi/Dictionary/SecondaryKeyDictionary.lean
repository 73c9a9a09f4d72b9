import Mathlib
import Keyvi.Util.Vint
import Keyvi.Fsa.Traversal

/-!
# The secondary key dictionary

`secondary_key_dictionary_compiler.h` and `secondary_key_dictionary.h`. The value of every secondary key is
replaced by a number, the numbers are written as variable length bytes in front of the key. The number 1 is
the empty value, the others are given in the order in which the values come, from 2 on. A second dictionary
has the replacements.
-/

namespace Keyvi.Dictionary

open Keyvi.Fsa Automata

/-! ## The compiler -/

/-- The values of the fields; a field may be missing. -/
abbrev Metadata := Key → Option Key

/-- `secondary_key_replacements_` and `current_index_`. -/
structure Replacements where
  secondaryKeyReplacements : List (Key × Key)
  currentIndex : Nat

/-- `SecondaryKeyDictionaryCompiler`; `dictionaryCompiler` are the keys and values that were added to the
dictionary compiler. -/
structure SecondaryKeyDictionaryCompiler (V : Type) where
  secondaryKeys : List Key
  dictionaryCompiler : List (Key × V)
  replacements : Replacements

namespace Replacements

/-- What is written for a value, and the replacements with it. -/
def replace (r : Replacements) (value : Key) : Key × Replacements :=
  if value.length = 0 then ([1], r)
  else
    match r.secondaryKeyReplacements.lookup value with
    | some replacement => (replacement, r)
    | none =>
      let replacement := encodeVarInt r.currentIndex
      (replacement, ⟨(value, replacement) :: r.secondaryKeyReplacements, r.currentIndex + 1⟩)

/-- The loop over the secondary keys; a field that is missing ends it with an exception. -/
def keyBuffer (metadata : Metadata) : List Key → Replacements → Option Key × Replacements
  | [], r => (some [], r)
  | key :: keys, r =>
    match metadata key with
    | none => (none, r)
    | some value =>
      let (replacement, r) := r.replace value
      let (buffer, r) := keyBuffer metadata keys r
      (buffer.map (replacement ++ ·), r)

end Replacements

namespace SecondaryKeyDictionaryCompiler

variable {V : Type}

def new (secondaryKeys : List Key) : SecondaryKeyDictionaryCompiler V :=
  ⟨secondaryKeys, [], ⟨[], 2⟩⟩

/-- `Add`. -/
def add (c : SecondaryKeyDictionaryCompiler V) (inputKey : Key) (metadata : Metadata) (value : V) :
    SecondaryKeyDictionaryCompiler V :=
  match Replacements.keyBuffer metadata c.secondaryKeys c.replacements with
  | (some buffer, r) => { c with
      dictionaryCompiler := c.dictionaryCompiler ++ [(buffer ++ inputKey, value)]
      replacements := r }
  | (none, r) => { c with replacements := r }

/-- A sequence of `Add` calls. -/
def addAll (c : SecondaryKeyDictionaryCompiler V) (adds : List (Key × Metadata × V)) :
    SecondaryKeyDictionaryCompiler V :=
  adds.foldl (fun c a => c.add a.1 a.2.1 a.2.2) c

end SecondaryKeyDictionaryCompiler

/-! ## The dictionary -/

/-- `Dictionary::GetSubscript`: the handle of the value. -/
def getSubscript (fsa : Automata) (startState : Nat) (key : Key) : Option Nat :=
  if startState = 0 then none
  else
    let state := fsa.walk startState key
    if fsa.isFinalState state then some (fsa.getStateValue state) else none

/-- `Dictionary::Contains`. -/
def contains (fsa : Automata) (startState : Nat) (key : Key) : Bool :=
  if startState = 0 then false
  else
    let state := fsa.walk startState key
    if state = 0 then false else fsa.isFinalState state

/-- `SecondaryKeyDictionary`; `getValueAsString` reads the value store of the replacements. -/
structure SecondaryKeyDictionary where
  dictionary : Automata
  secondaryKeyReplacementDict : Automata
  getValueAsString : Nat → Key
  secondaryKeys : List Key

namespace SecondaryKeyDictionary

/-- The loop over the bytes of a replacement; none if it returns. -/
def walkReplacement (fsa : Automata) : Nat → Key → Option Nat
  | state, [] => some state
  | state, c :: cs =>
    let state := fsa.tryWalkTransition state c
    if state = 0 then none else walkReplacement fsa state cs

/-- The loop over the secondary keys. -/
def startStateFrom (d : SecondaryKeyDictionary) (metadata : Metadata) : List Key → Nat → Nat
  | [], state => state
  | key :: keys, state =>
    match metadata key with
    | none => 0
    | some value =>
      if value.length = 0 then
        -- The state is not looked at here.
        startStateFrom d metadata keys (d.dictionary.tryWalkTransition state 1)
      else
        match getSubscript d.secondaryKeyReplacementDict
            d.secondaryKeyReplacementDict.getStartState value with
        | none => 0
        | some handle =>
          match walkReplacement d.dictionary state (d.getValueAsString handle) with
          | none => 0
          | some state => startStateFrom d metadata keys state

/-- `GetStartState`. -/
def getStartState (d : SecondaryKeyDictionary) (metadata : Metadata) : Nat :=
  d.startStateFrom metadata d.secondaryKeys d.dictionary.getStartState

/-- `GetFirst`: the handle of the value. -/
def getFirst (d : SecondaryKeyDictionary) (key : Key) (metadata : Metadata) : Option Nat :=
  getSubscript d.dictionary (d.getStartState metadata) key

/-- `Contains`. -/
def contains (d : SecondaryKeyDictionary) (key : Key) (metadata : Metadata) : Bool :=
  Dictionary.contains d.dictionary (d.getStartState metadata) key

end SecondaryKeyDictionary

/-- A name that is read back with `GetString` ends at its first zero byte. -/
def getString (name : Key) : Key := name.takeWhile (· ≠ 0)

/-- The file that was written holds the keys that were added, each with a value it was added with; the empty
key is left out. The other dictionary in it holds the replacements. -/
structure Written {V : Type} (c : SecondaryKeyDictionaryCompiler V) (readValue : Nat → V)
    (d : SecondaryKeyDictionary) (entries replacementEntries : List (Key × Nat)) : Prop where
  holds : d.dictionary.Holds entries
  keys : ∀ k, k ∈ keysOf entries ↔ k ≠ [] ∧ ∃ v, (k, v) ∈ c.dictionaryCompiler
  values : ∀ e ∈ entries, (e.1, readValue e.2) ∈ c.dictionaryCompiler
  holdsReplacements : d.secondaryKeyReplacementDict.Holds replacementEntries
  replacements : ∀ value replacement,
    (∃ handle, (value, handle) ∈ replacementEntries ∧ d.getValueAsString handle = replacement) ↔
      (value, replacement) ∈ c.replacements.secondaryKeyReplacements
  secondaryKeys : d.secondaryKeys = c.secondaryKeys.map getString

/-- The key was added with these values of the fields. -/
def AddedPair {V : Type} (secondaryKeys : List Key) (adds : List (Key × Metadata × V)) (key : Key)
    (metadata : Metadata) (value : V) : Prop :=
  ∃ a ∈ adds, a.1 = key ∧ (∀ f ∈ secondaryKeys, (metadata f).isSome ∧ a.2.1 f = metadata f) ∧
    a.2.2 = value

/-- No two calls have the same key and the same values of the fields. -/
def DistinctPairs {V : Type} (secondaryKeys : List Key) (adds : List (Key × Metadata × V)) : Prop :=
  adds.Pairwise fun a b => ¬ (a.1 = b.1 ∧ ∀ f ∈ secondaryKeys, a.2.1 f = b.2.1 f)

theorem DistinctPairs.eq_of_same {V : Type} {secondaryKeys : List Key}
    {adds : List (Key × Metadata × V)} (h : DistinctPairs secondaryKeys adds) {a b : Key × Metadata × V}
    (ha : a ∈ adds) (hb : b ∈ adds) (hkey : a.1 = b.1)
    (hsame : ∀ f ∈ secondaryKeys, a.2.1 f = b.2.1 f) : a = b := by
  obtain ⟨i, hi, rfl⟩ := List.getElem_of_mem ha
  obtain ⟨j, hj, rfl⟩ := List.getElem_of_mem hb
  have hpair := List.pairwise_iff_getElem.mp h
  rcases lt_trichotomy i j with hij | rfl | hij
  · exact absurd ⟨hkey, hsame⟩ (hpair i j hi hj hij)
  · rfl
  · exact absurd ⟨hkey.symm, fun f hf => (hsame f hf).symm⟩ (hpair j i hj hi hij)

/-- Two values that were added with one key and the same values of the fields are one. -/
theorem DistinctPairs.value_eq {V : Type} {secondaryKeys : List Key}
    {adds : List (Key × Metadata × V)} (h : DistinctPairs secondaryKeys adds) {key : Key}
    {metadata : Metadata} {v v' : V} (hv : AddedPair secondaryKeys adds key metadata v)
    (hv' : AddedPair secondaryKeys adds key metadata v') : v = v' := by
  obtain ⟨a, ha, rfl, hall, rfl⟩ := hv
  obtain ⟨b, hb, hkey, hall', rfl⟩ := hv'
  have hsame : ∀ f ∈ secondaryKeys, a.2.1 f = b.2.1 f := by
    intro f hf
    rw [(hall f hf).2, (hall' f hf).2]
  rw [h.eq_of_same ha hb hkey.symm hsame]

/-- A lookup finds what was added, and no two pairs share a stored key. -/
structure LooksUp {V : Type} (secondaryKeys : List Key) (adds : List (Key × Metadata × V))
    (readValue : Nat → V) (d : SecondaryKeyDictionary) : Prop where
  getFirst : ∀ key metadata value, (d.getFirst key metadata).map readValue = some value ↔
    AddedPair secondaryKeys adds key metadata value
  contains : ∀ key metadata, d.contains key metadata = true ↔
    ∃ value, AddedPair secondaryKeys adds key metadata value
  stored : (((SecondaryKeyDictionaryCompiler.new secondaryKeys).addAll adds).dictionaryCompiler.map
    Prod.fst).Nodup

/-! ## The replacements -/

namespace Replacements

/-- What stands for a value. -/
def code (r : Replacements) (value : Key) : Option Key :=
  if value.length = 0 then some [1] else r.secondaryKeyReplacements.lookup value

/-- What stands for the values of all fields. -/
def prefixOf (r : Replacements) (metadata : Metadata) : List Key → Option Key
  | [] => some []
  | key :: keys =>
    (metadata key).bind fun value => (r.code value).bind fun replacement =>
      (prefixOf r metadata keys).map (replacement ++ ·)

/-- Every replacement is the code of a number from 2 on, and no two are the same. -/
structure WellFormed (r : Replacements) : Prop where
  codes : ∀ e ∈ r.secondaryKeyReplacements, ∃ i, 2 ≤ i ∧ i < r.currentIndex ∧ e.2 = encodeVarInt i
  distinct : (r.secondaryKeyReplacements.map Prod.snd).Nodup
  index : 2 ≤ r.currentIndex

/-- Replacements are never changed. -/
def Extends (r r' : Replacements) : Prop :=
  ∀ value replacement, r.code value = some replacement → r'.code value = some replacement

variable {r r' : Replacements}

theorem mem_of_lookup {l : List (Key × Key)} {value replacement : Key}
    (h : l.lookup value = some replacement) : (value, replacement) ∈ l := by
  induction l with
  | nil => cases h
  | cons e l ih =>
    rw [List.lookup_cons] at h
    by_cases hv : value = e.1
    · rw [beq_iff_eq.mpr hv] at h
      obtain rfl := Option.some.inj h
      rw [hv]
      exact List.mem_cons_self
    · rw [beq_eq_false_iff_ne.mpr hv] at h
      exact List.mem_cons_of_mem _ (ih h)

/-- The number of a value. -/
theorem WellFormed.code_eq (h : r.WellFormed) {value replacement : Key}
    (hc : r.code value = some replacement) :
    ∃ i, 1 ≤ i ∧ replacement = encodeVarInt i ∧ (value.length = 0 ↔ i = 1) := by
  unfold code at hc
  split at hc
  · next hempty =>
    obtain rfl := Option.some.inj hc
    exact ⟨1, le_rfl, (encodeVarInt_of_le (by decide)).symm, ⟨fun _ => rfl, fun _ => hempty⟩⟩
  · next hempty =>
    obtain ⟨i, hi, -, hcode⟩ := h.codes _ (mem_of_lookup hc)
    exact ⟨i, by omega, hcode, ⟨fun h0 => absurd h0 hempty, fun h1 => by omega⟩⟩

/-- **What stands for a value** tells the value and where it ends. -/
theorem WellFormed.code_append_inj (h : r.WellFormed) {u v s t x y : Key}
    (hu : r.code u = some s) (hv : r.code v = some t) (heq : s ++ x = t ++ y) : u = v ∧ x = y := by
  obtain ⟨i, -, rfl, hi⟩ := h.code_eq hu
  obtain ⟨j, -, rfl, hj⟩ := h.code_eq hv
  obtain ⟨rfl, hxy⟩ := encodeVarInt_append_inj heq
  refine ⟨?_, hxy⟩
  by_cases hi1 : i = 1
  · rw [List.length_eq_zero_iff.mp (hi.mpr hi1), List.length_eq_zero_iff.mp (hj.mpr hi1)]
  · unfold code at hu hv
    rw [if_neg fun h0 => hi1 (hi.mp h0)] at hu
    rw [if_neg fun h0 => hi1 (hj.mp h0)] at hv
    have hsame := List.inj_on_of_nodup_map h.distinct (mem_of_lookup hu) (mem_of_lookup hv) rfl
    exact congrArg Prod.fst hsame

/-- **One value**: it gets a replacement, and the others keep theirs. -/
theorem WellFormed.replace (h : r.WellFormed) (value : Key) :
    (r.replace value).2.WellFormed ∧ r.Extends (r.replace value).2 ∧
      (r.replace value).2.code value = some (r.replace value).1 := by
  unfold Replacements.replace
  split
  · next hempty => exact ⟨h, fun _ _ hc => hc, if_pos hempty⟩
  · next hempty =>
    cases hl : r.secondaryKeyReplacements.lookup value with
    | some replacement => exact ⟨h, fun _ _ hc => hc, (if_neg hempty).trans hl⟩
    | none =>
      refine ⟨⟨fun e he => ?_, ?_, ?_⟩, fun other replacement hc => ?_, ?_⟩
      · rcases List.mem_cons.mp he with rfl | he
        · exact ⟨r.currentIndex, h.index, Nat.lt_succ_self _, rfl⟩
        · obtain ⟨i, hi, hlt, hcode⟩ := h.codes e he
          exact ⟨i, hi, hlt.trans (Nat.lt_succ_self _), hcode⟩
      · -- The new number is larger than the others.
        refine List.nodup_cons.mpr ⟨fun hmem => ?_, h.distinct⟩
        obtain ⟨e, he, hcode⟩ := List.mem_map.mp hmem
        obtain ⟨i, -, hlt, hi⟩ := h.codes e he
        have heq : encodeVarInt i ++ [] = encodeVarInt r.currentIndex ++ [] := by
          rw [← hi, hcode]
        exact absurd (encodeVarInt_append_inj heq).1 hlt.ne
      · exact h.index.trans (Nat.le_succ _)
      · unfold code at hc ⊢
        split
        · next h0 => rwa [if_pos h0] at hc
        · next h0 =>
          rw [if_neg h0] at hc
          rw [List.lookup_cons]
          by_cases hv : other = value
          · rw [hv, hl] at hc
            cases hc
          · rw [beq_eq_false_iff_ne.mpr hv]
            exact hc
      · unfold code
        rw [if_neg hempty, List.lookup_cons, beq_self_eq_true]

theorem Extends.prefixOf (h : r.Extends r') {metadata : Metadata} : ∀ {keys : List Key} {p : Key},
    r.prefixOf metadata keys = some p → r'.prefixOf metadata keys = some p
  | [], _, hp => hp
  | key :: keys, p, hp => by
    unfold Replacements.prefixOf at hp ⊢
    obtain ⟨value, hvalue, hp⟩ := Option.bind_eq_some_iff.mp hp
    obtain ⟨replacement, hcode, hp⟩ := Option.bind_eq_some_iff.mp hp
    obtain ⟨q, hq, rfl⟩ := Option.map_eq_some_iff.mp hp
    rw [hvalue, Option.bind_some, h _ _ hcode, Option.bind_some, h.prefixOf hq, Option.map_some]

/-- **All fields of a key**, by induction on them. -/
theorem WellFormed.keyBuffer (metadata : Metadata) : ∀ (keys : List Key) {r : Replacements},
    r.WellFormed → (Replacements.keyBuffer metadata keys r).2.WellFormed ∧
      r.Extends (Replacements.keyBuffer metadata keys r).2 ∧
      match (Replacements.keyBuffer metadata keys r).1 with
      | some buffer => (Replacements.keyBuffer metadata keys r).2.prefixOf metadata keys = some buffer
      | none => ∃ f ∈ keys, metadata f = none
  | [], _, h => ⟨h, fun _ _ hc => hc, rfl⟩
  | key :: keys, r, h => by
    cases hm : metadata key with
    | none =>
      simp only [Replacements.keyBuffer, hm]
      exact ⟨h, fun _ _ hc => hc, key, List.mem_cons_self, hm⟩
    | some value =>
      obtain ⟨hw, hext, hcode⟩ := h.replace value
      obtain ⟨hw', hext', hrest⟩ := WellFormed.keyBuffer metadata keys hw
      simp only [Replacements.keyBuffer, hm]
      refine ⟨hw', fun v s hc => hext' _ _ (hext _ _ hc), ?_⟩
      cases hb : (Replacements.keyBuffer metadata keys (r.replace value).2).1 with
      | none =>
        rw [hb] at hrest
        obtain ⟨f, hf, hnone⟩ := hrest
        exact ⟨f, List.mem_cons_of_mem _ hf, hnone⟩
      | some buffer =>
        rw [hb] at hrest
        simp only [Option.map_some, Replacements.prefixOf, hm, Option.bind_some, hext' _ _ hcode, hrest]

/-- **The stored key** tells the values of the fields and the key. -/
theorem WellFormed.prefixOf_append_inj (h : r.WellFormed) {metadata metadata' : Metadata} :
    ∀ {keys : List Key} {p q x y : Key}, r.prefixOf metadata keys = some p →
      r.prefixOf metadata' keys = some q → p ++ x = q ++ y →
      (∀ f ∈ keys, metadata f = metadata' f) ∧ x = y
  | [], _, _, _, _, hp, hq, heq => by
    obtain rfl := Option.some.inj hp
    obtain rfl := Option.some.inj hq
    exact ⟨fun f hf => (List.not_mem_nil hf).elim, heq⟩
  | key :: keys, p, q, x, y, hp, hq, heq => by
    unfold Replacements.prefixOf at hp hq
    obtain ⟨u, hu, hp⟩ := Option.bind_eq_some_iff.mp hp
    obtain ⟨s, hs, hp⟩ := Option.bind_eq_some_iff.mp hp
    obtain ⟨p', hp', rfl⟩ := Option.map_eq_some_iff.mp hp
    obtain ⟨v, hv, hq⟩ := Option.bind_eq_some_iff.mp hq
    obtain ⟨t, ht, hq⟩ := Option.bind_eq_some_iff.mp hq
    obtain ⟨q', hq', rfl⟩ := Option.map_eq_some_iff.mp hq
    rw [List.append_assoc, List.append_assoc] at heq
    obtain ⟨rfl, hrest⟩ := h.code_append_inj hs ht heq
    obtain ⟨hall, hxy⟩ := h.prefixOf_append_inj hp' hq' hrest
    refine ⟨fun f hf => ?_, hxy⟩
    rcases List.mem_cons.mp hf with rfl | hf
    · rw [hu, hv]
    · exact hall f hf

theorem prefixOf_congr (r : Replacements) {metadata metadata' : Metadata} : ∀ {keys : List Key},
    (∀ f ∈ keys, metadata f = metadata' f) → r.prefixOf metadata keys = r.prefixOf metadata' keys
  | [], _ => rfl
  | key :: keys, h => by
    unfold Replacements.prefixOf
    rw [h key List.mem_cons_self, prefixOf_congr r fun f hf => h f (List.mem_cons_of_mem _ hf)]

/-- Every field has a value. -/
theorem isSome_of_prefixOf {metadata : Metadata} : ∀ {keys : List Key} {p : Key},
    r.prefixOf metadata keys = some p → ∀ f ∈ keys, (metadata f).isSome
  | [], _, _, _, hf => (List.not_mem_nil hf).elim
  | key :: keys, p, hp, f, hf => by
    unfold Replacements.prefixOf at hp
    obtain ⟨value, hvalue, hp⟩ := Option.bind_eq_some_iff.mp hp
    obtain ⟨replacement, -, hp⟩ := Option.bind_eq_some_iff.mp hp
    obtain ⟨q, hq, -⟩ := Option.map_eq_some_iff.mp hp
    rcases List.mem_cons.mp hf with rfl | hf
    · rw [hvalue]
      rfl
    · exact isSome_of_prefixOf hq f hf

theorem WellFormed.prefixOf_ne_nil (h : r.WellFormed) {metadata : Metadata} {keys : List Key} {p : Key}
    (hkeys : keys ≠ []) (hp : r.prefixOf metadata keys = some p) : p ≠ [] := by
  obtain ⟨key, keys, rfl⟩ := List.exists_cons_of_ne_nil hkeys
  unfold Replacements.prefixOf at hp
  obtain ⟨value, -, hp⟩ := Option.bind_eq_some_iff.mp hp
  obtain ⟨replacement, hcode, hp⟩ := Option.bind_eq_some_iff.mp hp
  obtain ⟨q, -, rfl⟩ := Option.map_eq_some_iff.mp hp
  obtain ⟨i, -, rfl, -⟩ := h.code_eq hcode
  exact fun hnil => encodeVarInt_ne_nil i (List.append_eq_nil_iff.mp hnil).1

end Replacements

/-! ## The keys that are stored -/

namespace SecondaryKeyDictionaryCompiler

variable {V : Type}

/-- What is handed to the dictionary compiler for a pair. -/
def stored (c : SecondaryKeyDictionaryCompiler V) (a : Key × Metadata × V) : Option (Key × V) :=
  (c.replacements.prefixOf a.2.1 c.secondaryKeys).map fun p => (p ++ a.1, a.2.2)

/-- What holds after the keys were added. -/
structure Holds (c : SecondaryKeyDictionaryCompiler V) (adds : List (Key × Metadata × V)) : Prop where
  wellFormed : c.replacements.WellFormed
  missing : ∀ a ∈ adds, c.replacements.prefixOf a.2.1 c.secondaryKeys = none →
    ∃ f ∈ c.secondaryKeys, a.2.1 f = none
  dictionaryCompiler : c.dictionaryCompiler = adds.filterMap c.stored

theorem holds_new (secondaryKeys : List Key) :
    Holds (new secondaryKeys : SecondaryKeyDictionaryCompiler V) [] :=
  ⟨⟨fun _ he => (List.not_mem_nil he).elim, List.nodup_nil, le_rfl⟩,
    fun _ ha => (List.not_mem_nil ha).elim, rfl⟩

/-- **One `Add`.** -/
theorem Holds.add {c : SecondaryKeyDictionaryCompiler V} {adds : List (Key × Metadata × V)}
    (h : c.Holds adds) (a : Key × Metadata × V) :
    (c.add a.1 a.2.1 a.2.2).Holds (adds ++ [a]) ∧
      (c.add a.1 a.2.1 a.2.2).secondaryKeys = c.secondaryKeys := by
  obtain ⟨hw, hext, hbuffer⟩ := h.wellFormed.keyBuffer a.2.1 c.secondaryKeys
  unfold SecondaryKeyDictionaryCompiler.add
  generalize hk : Replacements.keyBuffer a.2.1 c.secondaryKeys c.replacements = k at hw hext hbuffer
  obtain ⟨b, r⟩ := k
  -- What was written for the earlier pairs is what would be written now.
  have hnone : ∀ {x : Key × Metadata × V}, (∃ f ∈ c.secondaryKeys, x.2.1 f = none) →
      r.prefixOf x.2.1 c.secondaryKeys = none := by
    rintro x ⟨f, hf, hmissing⟩
    cases hp : r.prefixOf x.2.1 c.secondaryKeys with
    | none => rfl
    | some p =>
      have := Replacements.isSome_of_prefixOf hp f hf
      rw [hmissing] at this
      cases this
  have hsame : ∀ x ∈ adds, r.prefixOf x.2.1 c.secondaryKeys =
      c.replacements.prefixOf x.2.1 c.secondaryKeys := by
    intro x hx
    cases hp : c.replacements.prefixOf x.2.1 c.secondaryKeys with
    | none => exact hnone (h.missing x hx hp)
    | some p => exact hext.prefixOf hp
  have hold : adds.filterMap c.stored = adds.filterMap fun x =>
      (r.prefixOf x.2.1 c.secondaryKeys).map fun p => (p ++ x.1, x.2.2) := by
    refine List.filterMap_congr fun x hx => ?_
    rw [hsame x hx]
    rfl
  have hmissing : ∀ x ∈ adds, r.prefixOf x.2.1 c.secondaryKeys = none →
      ∃ f ∈ c.secondaryKeys, x.2.1 f = none := by
    intro x hx hp
    rw [hsame x hx] at hp
    exact h.missing x hx hp
  cases b with
  | none =>
    have hlast : r.prefixOf a.2.1 c.secondaryKeys = none := hnone hbuffer
    refine ⟨⟨hw, fun x hx hp => ?_, ?_⟩, rfl⟩
    · rcases List.mem_append.mp hx with hx | hx
      · exact hmissing x hx hp
      · rw [List.mem_singleton.mp hx]
        exact hbuffer
    · show c.dictionaryCompiler = (adds ++ [a]).filterMap fun x =>
        (r.prefixOf x.2.1 c.secondaryKeys).map fun p => (p ++ x.1, x.2.2)
      rw [List.filterMap_append, ← hold, h.dictionaryCompiler, List.filterMap_cons, hlast]
      exact (List.append_nil _).symm
  | some buffer =>
    have hlast : r.prefixOf a.2.1 c.secondaryKeys = some buffer := hbuffer
    refine ⟨⟨hw, fun x hx hp => ?_, ?_⟩, rfl⟩
    · rcases List.mem_append.mp hx with hx | hx
      · exact hmissing x hx hp
      · rw [List.mem_singleton.mp hx] at hp
        rw [hlast] at hp
        cases hp
    · show c.dictionaryCompiler ++ [(buffer ++ a.1, a.2.2)] = (adds ++ [a]).filterMap fun x =>
        (r.prefixOf x.2.1 c.secondaryKeys).map fun p => (p ++ x.1, x.2.2)
      rw [List.filterMap_append, ← hold, h.dictionaryCompiler, List.filterMap_cons, hlast]
      rfl

/-- **A sequence of `Add` calls**, by induction on it. -/
theorem Holds.addAll : ∀ (later : List (Key × Metadata × V)) {c : SecondaryKeyDictionaryCompiler V}
    {adds : List (Key × Metadata × V)}, c.Holds adds →
      (c.addAll later).Holds (adds ++ later) ∧ (c.addAll later).secondaryKeys = c.secondaryKeys
  | [], _, _, h => by
    rw [List.append_nil]
    exact ⟨h, rfl⟩
  | a :: later, c, adds, h => by
    obtain ⟨h1, hkeys⟩ := h.add a
    obtain ⟨h2, hkeys'⟩ := Holds.addAll later h1
    rw [List.append_assoc] at h2
    exact ⟨h2, hkeys'.trans hkeys⟩

/-- A stored key is the key of one pair. -/
theorem Holds.stored_iff {c : SecondaryKeyDictionaryCompiler V} {adds : List (Key × Metadata × V)}
    (h : c.Holds adds) {metadata : Metadata} {p : Key}
    (hp : c.replacements.prefixOf metadata c.secondaryKeys = some p) (key : Key) (value : V) :
    (p ++ key, value) ∈ c.dictionaryCompiler ↔
      AddedPair c.secondaryKeys adds key metadata value := by
  rw [h.dictionaryCompiler, List.mem_filterMap]
  refine exists_congr fun a => and_congr_right fun _ => ?_
  unfold stored
  constructor
  · intro hstored
    obtain ⟨q, hq, heq⟩ := Option.map_eq_some_iff.mp hstored
    obtain ⟨hkey, hvalue⟩ := Prod.mk.inj heq
    obtain ⟨hall, hkey'⟩ := h.wellFormed.prefixOf_append_inj hq hp hkey
    exact ⟨hkey', fun f hf => ⟨Replacements.isSome_of_prefixOf hp f hf, hall f hf⟩, hvalue⟩
  · rintro ⟨rfl, hall, rfl⟩
    rw [Replacements.prefixOf_congr _ fun f hf => (hall f hf).2, hp]
    rfl

/-- Values that were never seen belong to no pair. -/
theorem Holds.not_addedPair {c : SecondaryKeyDictionaryCompiler V}
    {adds : List (Key × Metadata × V)} (h : c.Holds adds) {metadata : Metadata}
    (hp : c.replacements.prefixOf metadata c.secondaryKeys = none) (key : Key) (value : V) :
    ¬ AddedPair c.secondaryKeys adds key metadata value := by
  rintro ⟨a, ha, -, hall, -⟩
  rw [← Replacements.prefixOf_congr _ fun f hf => (hall f hf).2] at hp
  obtain ⟨f, hf, hmissing⟩ := h.missing a ha hp
  obtain ⟨hsome, hsame⟩ := hall f hf
  rw [← hsame, hmissing] at hsome
  cases hsome

theorem Holds.stored_ne_nil {c : SecondaryKeyDictionaryCompiler V} {adds : List (Key × Metadata × V)}
    (h : c.Holds adds) (hkeys : c.secondaryKeys ≠ [] ∨ ∀ a ∈ adds, a.1 ≠ []) {metadata : Metadata}
    {p key : Key} {value : V} (hp : c.replacements.prefixOf metadata c.secondaryKeys = some p)
    (hadded : AddedPair c.secondaryKeys adds key metadata value) : p ++ key ≠ [] := by
  obtain ⟨a, ha, rfl, -, -⟩ := hadded
  intro hnil
  obtain ⟨hpnil, hkeynil⟩ := List.append_eq_nil_iff.mp hnil
  rcases hkeys with hkeys | hkeys
  · exact h.wellFormed.prefixOf_ne_nil hkeys hp hpnil
  · exact hkeys a ha hkeynil

/-- **Two pairs never share a stored key.** -/
theorem Holds.nodup {c : SecondaryKeyDictionaryCompiler V} {adds : List (Key × Metadata × V)}
    (h : c.Holds adds) (hdistinct : DistinctPairs c.secondaryKeys adds) :
    (c.dictionaryCompiler.map Prod.fst).Nodup := by
  rw [h.dictionaryCompiler]
  refine List.pairwise_map.mpr (List.pairwise_filterMap.mpr (hdistinct.imp ?_))
  intro a b hab x hx y hy hkey
  obtain ⟨p, hp, rfl⟩ := Option.map_eq_some_iff.mp hx
  obtain ⟨q, hq, rfl⟩ := Option.map_eq_some_iff.mp hy
  obtain ⟨hall, hsame⟩ := h.wellFormed.prefixOf_append_inj hp hq hkey
  exact hab ⟨hsame, hall⟩

end SecondaryKeyDictionaryCompiler

/-! ## Looking up -/

/-- No transition leads from offset 0 by a byte other than 0, and offset 0 is not final. -/
structure NoStateAtZero (fsa : Automata) : Prop where
  transitions : ∀ c : Byte, c ≠ 0 → fsa.tryWalkTransition 0 c = 0
  final : fsa.isFinalState 0 = false

variable {fsa : Automata} {entries : List (Key × Nat)}

/-- **The lookup below a state** finds the key with what leads to the state in front. -/
theorem getSubscript_eq_some_iff (h : fsa.Holds entries) (h0 : fsa.isFinalState 0 = false)
    (p key : Key) (handle : Nat) :
    getSubscript fsa (fsa.walk fsa.getStartState p) key = some handle ↔ (p ++ key, handle) ∈ entries := by
  unfold getSubscript
  dsimp only
  rw [← walk_append]
  constructor
  · intro hs
    split at hs
    · cases hs
    · split at hs
      · next hfinal =>
        have hne : fsa.walk fsa.getStartState (p ++ key) ≠ 0 := by
          intro hzero
          rw [hzero, h0] at hfinal
          cases hfinal
        obtain ⟨e, he, hkey⟩ := List.mem_map.mp ((h.final _).mpr ⟨hne, hfinal⟩)
        have hvalue := h.value e he
        rw [hkey, Option.some.inj hs] at hvalue
        rw [← hkey, hvalue]
        exact he
      · cases hs
  · intro he
    obtain ⟨hne, hfinal⟩ := (h.final _).mp (List.mem_map_of_mem he)
    have hp : fsa.walk fsa.getStartState p ≠ 0 := by
      intro hzero
      rw [walk_append, hzero, walk_zero] at hne
      exact hne rfl
    rw [if_neg hp, if_pos hfinal]
    exact congrArg some (h.value _ he)

theorem contains_iff (h : fsa.Holds entries) (p key : Key) :
    contains fsa (fsa.walk fsa.getStartState p) key = true ↔ p ++ key ∈ keysOf entries := by
  unfold contains
  dsimp only
  rw [← walk_append, h.final]
  constructor
  · intro hs
    split at hs
    · cases hs
    · split at hs
      · cases hs
      · next hne => exact ⟨hne, hs⟩
  · rintro ⟨hne, hfinal⟩
    have hp : fsa.walk fsa.getStartState p ≠ 0 := by
      intro hzero
      rw [walk_append, hzero, walk_zero] at hne
      exact hne rfl
    rw [if_neg hp, if_neg hne]
    exact hfinal

namespace SecondaryKeyDictionary

/-- A step from offset 0 stays there, also where the code does not look. -/
theorem tryWalkTransition_eq_walk (h0 : NoStateAtZero fsa) {c : Byte} (hc : c ≠ 0) (state : Nat) :
    fsa.tryWalkTransition state c = fsa.walk state [c] := by
  rw [walk]
  split
  · next hs => rw [hs, h0.transitions c hc]
  · rfl

theorem walkReplacement_eq (h0 : NoStateAtZero fsa) : ∀ (replacement : Key) (state : Nat),
    0 ∉ replacement →
      match walkReplacement fsa state replacement with
      | some state' => fsa.walk state replacement = state'
      | none => fsa.walk state replacement = 0
  | [], _, _ => rfl
  | c :: cs, state, hzero => by
    rw [List.mem_cons, not_or] at hzero
    have hstep := tryWalkTransition_eq_walk h0 (Ne.symm hzero.1) state
    have hwalk : fsa.walk state (c :: cs) = fsa.walk (fsa.tryWalkTransition state c) cs := by
      rw [hstep, ← walk_append]
      rfl
    unfold walkReplacement
    dsimp only
    by_cases hs : fsa.tryWalkTransition state c = 0
    · rw [if_pos hs, hwalk, hs, walk_zero]
    · rw [if_neg hs, hwalk]
      exact walkReplacement_eq h0 cs _ hzero.2

variable {V : Type} {c : SecondaryKeyDictionaryCompiler V} {readValue : Nat → V}
    {d : SecondaryKeyDictionary} {replacementEntries : List (Key × Nat)}

/-- The other dictionary answers with the replacement. -/
theorem replacementOf_eq (hw : Written c readValue d entries replacementEntries)
    (h0 : d.secondaryKeyReplacementDict.isFinalState 0 = false)
    {value : Key} (hne : value.length ≠ 0) :
    (getSubscript d.secondaryKeyReplacementDict d.secondaryKeyReplacementDict.getStartState
      value).map d.getValueAsString = c.replacements.code value := by
  have hfound := getSubscript_eq_some_iff hw.holdsReplacements h0 [] value
  unfold Replacements.code
  rw [if_neg hne]
  cases hs : getSubscript d.secondaryKeyReplacementDict
      d.secondaryKeyReplacementDict.getStartState value with
  | some handle =>
    have hmem := (hw.replacements value _).mp ⟨handle, (hfound handle).mp hs, rfl⟩
    cases hl : c.replacements.secondaryKeyReplacements.lookup value with
    | none =>
      have := List.lookup_eq_none_iff.mp hl _ hmem
      simp at this
    | some replacement =>
      obtain ⟨other, hother, heq⟩ := (hw.replacements value replacement).mpr
        (Replacements.mem_of_lookup hl)
      have := (hfound other).mpr hother
      rw [walk, hs] at this
      rw [Option.map_some, Option.some.inj this, heq]
  | none =>
    cases hl : c.replacements.secondaryKeyReplacements.lookup value with
    | none => rfl
    | some replacement =>
      obtain ⟨handle, hmem, -⟩ := (hw.replacements value replacement).mpr
        (Replacements.mem_of_lookup hl)
      have := (hfound handle).mpr hmem
      rw [walk, hs] at this
      cases this

/-- **The walk over the fields** leads where the stored prefix leads, by induction on the fields. -/
theorem startStateFrom_eq (hw : Written c readValue d entries replacementEntries)
    (hr : c.replacements.WellFormed) (h0 : NoStateAtZero d.dictionary)
    (h0' : d.secondaryKeyReplacementDict.isFinalState 0 = false) (metadata : Metadata) :
    ∀ (keys : List Key) (state : Nat), d.startStateFrom metadata keys state =
      match c.replacements.prefixOf metadata keys with
      | some p => d.dictionary.walk state p
      | none => 0
  | [], _ => rfl
  | key :: keys, state => by
    unfold startStateFrom Replacements.prefixOf
    cases hm : metadata key with
    | none => rfl
    | some value =>
      rw [Option.bind_some]
      dsimp only
      by_cases hempty : value.length = 0
      · have hcode : c.replacements.code value = some [1] := if_pos hempty
        rw [if_pos hempty, hcode, Option.bind_some,
          startStateFrom_eq hw hr h0 h0' metadata keys,
          tryWalkTransition_eq_walk h0 (by decide) state]
        cases c.replacements.prefixOf metadata keys with
        | none => rfl
        | some p => exact (walk_append _ _ _ _).symm
      · have hdict := replacementOf_eq hw h0' hempty
        rw [if_neg hempty, ← hdict]
        cases hs : getSubscript d.secondaryKeyReplacementDict
            d.secondaryKeyReplacementDict.getStartState value with
        | none => rfl
        | some handle =>
          rw [hs] at hdict
          obtain ⟨i, hi, hcode, -⟩ := hr.code_eq hdict.symm
          have hwalk := walkReplacement_eq h0 (d.getValueAsString handle) state
            (hcode ▸ zero_not_mem_encodeVarInt hi)
          rw [Option.map_some, Option.bind_some]
          dsimp only
          cases hrep : walkReplacement d.dictionary state (d.getValueAsString handle) with
          | none =>
            rw [hrep] at hwalk
            have hzero : d.dictionary.walk state (d.getValueAsString handle) = 0 := hwalk
            cases c.replacements.prefixOf metadata keys with
            | none => rfl
            | some p =>
              show 0 = d.dictionary.walk state (d.getValueAsString handle ++ p)
              rw [walk_append, hzero, walk_zero]
          | some state' =>
            rw [hrep] at hwalk
            have hsome : d.dictionary.walk state (d.getValueAsString handle) = state' := hwalk
            dsimp only
            rw [startStateFrom_eq hw hr h0 h0' metadata keys]
            cases c.replacements.prefixOf metadata keys with
            | none => rfl
            | some p =>
              show d.dictionary.walk state' p =
                d.dictionary.walk state (d.getValueAsString handle ++ p)
              rw [walk_append, hsome]

/-- A name without a zero byte is read back. -/
theorem getString_eq {name : Key} (h : 0 ∉ name) : getString name = name := by
  unfold getString
  rw [List.takeWhile_eq_self_iff]
  intro c hc
  exact decide_eq_true fun h0 => h (h0 ▸ hc)

/-- **Where a lookup starts**: behind the prefix of the metadata, or at no state. -/
theorem getStartState_eq (hw : Written c readValue d entries replacementEntries)
    (hr : c.replacements.WellFormed) (h0 : NoStateAtZero d.dictionary)
    (h0' : NoStateAtZero d.secondaryKeyReplacementDict) (hnames : ∀ f ∈ c.secondaryKeys, 0 ∉ f)
    (metadata : Metadata) : d.getStartState metadata =
      match c.replacements.prefixOf metadata c.secondaryKeys with
      | some p => d.dictionary.walk d.dictionary.getStartState p
      | none => 0 := by
  have hread : d.secondaryKeys = c.secondaryKeys := by
    rw [hw.secondaryKeys]
    exact (List.map_congr_left fun f hf => getString_eq (hnames f hf)).trans (List.map_id _)
  unfold getStartState
  rw [hread]
  exact startStateFrom_eq hw hr h0 h0'.final metadata c.secondaryKeys _

theorem getFirst_eq_some_iff {adds : List (Key × Metadata × V)}
    (hw : Written c readValue d entries replacementEntries) (hc : c.Holds adds) (hdistinct : DistinctPairs c.secondaryKeys adds)
    (hkeys : c.secondaryKeys ≠ [] ∨ ∀ a ∈ adds, a.1 ≠ []) (h0 : NoStateAtZero d.dictionary)
    {metadata : Metadata}
    (hstart : d.getStartState metadata =
      match c.replacements.prefixOf metadata c.secondaryKeys with
      | some p => d.dictionary.walk d.dictionary.getStartState p
      | none => 0) (key : Key) (value : V) :
    (d.getFirst key metadata).map readValue = some value ↔
      AddedPair c.secondaryKeys adds key metadata value := by
  unfold getFirst
  rw [hstart]
  cases hp : c.replacements.prefixOf metadata c.secondaryKeys with
  | none => exact ⟨fun h => (by cases h), fun h => absurd h (hc.not_addedPair hp key value)⟩
  | some p =>
    rw [← hc.stored_iff hp key value]
    constructor
    · intro h
      obtain ⟨handle, hs, rfl⟩ := Option.map_eq_some_iff.mp h
      exact hw.values _ ((getSubscript_eq_some_iff hw.holds h0.final p key handle).mp hs)
    · intro h
      have hpair := (hc.stored_iff hp key value).mp h
      have hin := (hw.keys (p ++ key)).mpr ⟨hc.stored_ne_nil hkeys hp hpair, value, h⟩
      obtain ⟨e, he, hkey⟩ := List.mem_map.mp hin
      have hvalue := hw.values e he
      rw [hkey] at hvalue
      have hs := (getSubscript_eq_some_iff hw.holds h0.final p key e.2).mpr (hkey ▸ he)
      dsimp only
      rw [hs, Option.map_some, hdistinct.value_eq ((hc.stored_iff hp key _).mp hvalue) hpair]

theorem contains_eq_true_iff {adds : List (Key × Metadata × V)}
    (hw : Written c readValue d entries replacementEntries) (hc : c.Holds adds) (hkeys : c.secondaryKeys ≠ [] ∨ ∀ a ∈ adds, a.1 ≠ []) {metadata : Metadata}
    (hstart : d.getStartState metadata =
      match c.replacements.prefixOf metadata c.secondaryKeys with
      | some p => d.dictionary.walk d.dictionary.getStartState p
      | none => 0) (key : Key) :
    d.contains key metadata = true ↔ ∃ value, AddedPair c.secondaryKeys adds key metadata value := by
  unfold SecondaryKeyDictionary.contains
  rw [hstart]
  cases hp : c.replacements.prefixOf metadata c.secondaryKeys with
  | none =>
    exact ⟨fun h => (by cases h), fun ⟨value, h⟩ => absurd h (hc.not_addedPair hp key value)⟩
  | some p =>
    dsimp only
    rw [contains_iff hw.holds, hw.keys]
    constructor
    · rintro ⟨-, value, h⟩
      exact ⟨value, (hc.stored_iff hp key value).mp h⟩
    · rintro ⟨value, h⟩
      exact ⟨hc.stored_ne_nil hkeys hp h, value, (hc.stored_iff hp key value).mpr h⟩

/-- **A lookup finds what was added.** The names of the fields have no zero byte, there is a field or no
key is empty, and offset 0 is no state of the two automata. -/
theorem looksUp {secondaryKeys : List Key} {adds : List (Key × Metadata × V)}
    (hdistinct : DistinctPairs secondaryKeys adds) (hnames : ∀ f ∈ secondaryKeys, 0 ∉ f)
    (hkeys : secondaryKeys ≠ [] ∨ ∀ a ∈ adds, a.1 ≠ [])
    (hw : Written ((SecondaryKeyDictionaryCompiler.new secondaryKeys).addAll adds) readValue d entries
      replacementEntries) (h0 : NoStateAtZero d.dictionary)
    (h0' : NoStateAtZero d.secondaryKeyReplacementDict) : LooksUp secondaryKeys adds readValue d := by
  obtain ⟨hc, hfields⟩ := SecondaryKeyDictionaryCompiler.Holds.addAll adds
    (SecondaryKeyDictionaryCompiler.holds_new (V := V) secondaryKeys)
  rw [List.nil_append] at hc
  refine ⟨?_, ?_, hc.nodup (by rwa [hfields])⟩
  all_goals
    -- the compiler keeps the fields it was made with
    generalize (SecondaryKeyDictionaryCompiler.new secondaryKeys).addAll adds = c at hc hfields hw
    have hsame : secondaryKeys = c.secondaryKeys := hfields.symm
    subst hsame
    have hstart := getStartState_eq hw hc.wellFormed h0 h0' hnames
  · exact fun key metadata value =>
      getFirst_eq_some_iff hw hc hdistinct hkeys h0 (hstart metadata) key value
  · exact fun key metadata => contains_eq_true_iff hw hc hkeys (hstart metadata) key

/-! ## Two fields of one value -/

/-- The field `66` has a value and is empty. -/
def cityAdds : List (Key × Metadata × Nat) :=
  [([97], fun f => if f = [102] then some [98] else none, 7),
    ([97], fun f => if f = [102] then some [] else none, 8)]

/-- The keys `01 61` and `02 61`, and the replacement of `62`. -/
def cityDictionary : SecondaryKeyDictionary where
  dictionary := ofCells 2 4096
    [(4097, 1), (4098, 2), (3169, 97), (2145, 97), (4352, 0), (3328, 0), (2304, 0), (256, 0)]
    [(4097, 1537), (4098, 2562), (3169, 2657), (2145, 1121), (1280, 8), (1792, 7)]
  secondaryKeyReplacementDict := ofCells 1 2048 [(2146, 98), (2304, 0), (256, 0)]
    [(2146, 1634), (1280, 0)]
  getValueAsString _ := [2]
  secondaryKeys := [[102]]

theorem city_compiled : ((SecondaryKeyDictionaryCompiler.new [[102]]).addAll cityAdds).dictionaryCompiler =
      [([2, 97], 7), ([1, 97], 8)] ∧
    ((SecondaryKeyDictionaryCompiler.new [[102]]).addAll cityAdds).replacements.secondaryKeyReplacements =
      [([98], [2])] := by
  have h2 : encodeVarInt 2 = [2] := encodeVarInt_of_le (by decide)
  simp [cityAdds, SecondaryKeyDictionaryCompiler.addAll, SecondaryKeyDictionaryCompiler.add,
    SecondaryKeyDictionaryCompiler.new, Replacements.keyBuffer, Replacements.replace, h2]

theorem written_city : Written ((SecondaryKeyDictionaryCompiler.new [[102]]).addAll cityAdds) id
    cityDictionary [([1, 97], 8), ([2, 97], 7)] [([98], 0)] := by
  refine ⟨holds_of_check 2 (by decide +kernel), fun k => ?_, fun e he => ?_,
    holds_of_check 1 (by decide +kernel), fun value replacement => ?_, rfl⟩
  · rw [city_compiled.1]
    simp [keysOf]
    grind
  · rw [city_compiled.1]
    simp at he ⊢
    grind
  · rw [city_compiled.2]
    simp [cityDictionary]
    grind

theorem noStateAtZero_city : NoStateAtZero cityDictionary.dictionary ∧
    NoStateAtZero cityDictionary.secondaryKeyReplacementDict :=
  ⟨⟨by decide +kernel, by decide +kernel⟩, ⟨by decide +kernel, by decide +kernel⟩⟩

theorem looksUp_city : LooksUp [[102]] cityAdds id cityDictionary :=
  looksUp (by simp [DistinctPairs, cityAdds]) (by decide) (.inl (by decide)) written_city
    noStateAtZero_city.1 noStateAtZero_city.2

/-- The key `61` whose field `66 00` is empty. -/
def cutAdds : List (Key × Metadata × Nat) := [([97], fun f => if f = [102, 0] then some [] else none, 8)]

/-- The key `01 61`. -/
def cutDictionary (secondaryKeys : List Key) : SecondaryKeyDictionary where
  dictionary := ofCells 1 4096 [(4097, 1), (3169, 97), (4352, 0), (3328, 0), (256, 0)]
    [(4097, 1537), (3169, 2657), (1280, 8)]
  secondaryKeyReplacementDict := ofCells 0 0 [(256, 0)] []
  getValueAsString _ := []
  secondaryKeys := secondaryKeys

/-- A dictionary without keys. -/
def noKeys : SecondaryKeyDictionary where
  dictionary := ofCells 0 0 [(256, 0)] []
  secondaryKeyReplacementDict := ofCells 0 0 [(256, 0)] []
  getValueAsString _ := []
  secondaryKeys := []

theorem written_cut : Written ((SecondaryKeyDictionaryCompiler.new [[102, 0]]).addAll cutAdds) id
    (cutDictionary [[102]]) [([1, 97], 8)] [] := by
  have hc : ((SecondaryKeyDictionaryCompiler.new [[102, 0]]).addAll cutAdds).dictionaryCompiler =
      [([1, 97], 8)] := by
    simp [cutAdds, SecondaryKeyDictionaryCompiler.addAll, SecondaryKeyDictionaryCompiler.add,
      SecondaryKeyDictionaryCompiler.new, Replacements.keyBuffer, Replacements.replace]
  refine ⟨holds_of_check 2 (by decide +kernel), fun k => ?_, fun e he => ?_,
    holds_of_check 1 (by decide +kernel), fun value replacement => ?_, rfl⟩
  · rw [hc]
    simp [keysOf]
    grind
  · rw [hc]
    simpa using he
  · simp [cutAdds, SecondaryKeyDictionaryCompiler.addAll, SecondaryKeyDictionaryCompiler.add,
      SecondaryKeyDictionaryCompiler.new, Replacements.keyBuffer, Replacements.replace]

theorem written_noKeys (value : Nat) : Written
    ((SecondaryKeyDictionaryCompiler.new []).addAll [([], fun _ => none, value)]) id noKeys [] [] := by
  refine ⟨holds_of_check 1 (by decide +kernel), fun k => ?_, fun e he => (List.not_mem_nil he).elim,
    holds_of_check 1 (by decide +kernel), fun v replacement => ?_, rfl⟩
  · simp [keysOf, SecondaryKeyDictionaryCompiler.addAll, SecondaryKeyDictionaryCompiler.add,
      SecondaryKeyDictionaryCompiler.new, Replacements.keyBuffer]
  · simp [SecondaryKeyDictionaryCompiler.addAll, SecondaryKeyDictionaryCompiler.add,
      SecondaryKeyDictionaryCompiler.new, Replacements.keyBuffer]

/-- The name `66 00` is read back as `66`, which has no value; without fields the empty key is not stored. -/
theorem not_looksUp : (DistinctPairs [[102, 0]] cutAdds ∧
      Written ((SecondaryKeyDictionaryCompiler.new [[102, 0]]).addAll cutAdds) id
        (cutDictionary [[102]]) [([1, 97], 8)] [] ∧
      ¬ LooksUp [[102, 0]] cutAdds id (cutDictionary [[102]])) ∧
    Written ((SecondaryKeyDictionaryCompiler.new []).addAll [([], fun _ => none, 8)]) id noKeys [] [] ∧
    ¬ LooksUp [] [([], fun _ => none, 8)] id noKeys := by
  refine ⟨⟨List.pairwise_singleton _ _, written_cut, fun h => ?_⟩, written_noKeys 8, fun h => ?_⟩
  · have hadded : AddedPair [[102, 0]] cutAdds [97] (fun f => if f = [102, 0] then some [] else none) 8 :=
      ⟨_, List.mem_cons_self, rfl, fun f hf => by simp [List.mem_singleton.mp hf], rfl⟩
    have hfound := (h.getFirst _ _ _).mpr hadded
    exact absurd hfound (by decide)
  · have hadded : AddedPair [] [([], fun _ => none, 8)] [] (fun _ => none) 8 :=
      ⟨_, List.mem_cons_self, rfl, fun f hf => (List.not_mem_nil hf).elim, rfl⟩
    have hfound := (h.getFirst _ _ _).mpr hadded
    exact absurd hfound (by decide)

end SecondaryKeyDictionary

end Keyvi.Dictionary
