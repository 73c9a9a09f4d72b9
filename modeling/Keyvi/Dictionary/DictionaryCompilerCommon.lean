import Mathlib
import Keyvi.Dictionary.DictionaryMerger
import Keyvi.Library.SortedRuns

/-!
# What the compilers share

`dictionary_compiler_common.h`, the registration of values and what a generator takes: it leaves out
a key that is equal to the one before.
-/

namespace Keyvi.Dictionary

/-- `operator<` of `std::string`. -/
def stringLess (a b : Key) : Bool :=
  let compareResult := memcmp a b (min a.length b.length)
  if compareResult = 0 then decide (a.length < b.length) else decide (compareResult < 0)

theorem stringLess_cons (x y : Byte) (a b : Key) :
    stringLess (x :: a) (y :: b) = if x = y then stringLess a b else decide (x < y) := by
  have hmin : min (x :: a).length (y :: b).length = min a.length b.length + 1 := by
    simp only [List.length_cons]
    omega
  unfold stringLess
  rw [hmin, memcmp]
  by_cases h : x = y
  · subst h
    simp
  · have hne : (x.val : Int) - y.val ≠ 0 := fun h0 => h (Fin.ext (by omega))
    rw [if_neg h, if_neg h, if_neg hne]
    exact decide_eq_decide.mpr ⟨fun h0 => Fin.lt_def.mpr (by omega),
      fun h0 => by have := Fin.lt_def.mp h0; omega⟩

theorem stringLess_iff : ∀ a b : Key, stringLess a b = true ↔ a < b
  | [], [] => by simp [stringLess, memcmp]
  | [], _ :: _ => by simp [stringLess, memcmp]
  | _ :: _, [] => by simp [stringLess, memcmp]
  | x :: a, y :: b => by
    rw [stringLess_cons, List.cons_lt_cons_iff]
    by_cases h : x = y
    · simp [h, stringLess_iff a b]
    · simp [h]

theorem nil_le_key (k : Key) : [] ≤ k := not_lt.mp (List.not_lt_nil k)

/-- `key_value_t`. -/
structure KeyValue where
  key : Key
  value : ValueHandle
  deriving DecidableEq, Repr

/-- `operator<`. -/
def KeyValue.less (a b : KeyValue) : Bool := stringLess a.key b.key

theorem KeyValue.less_iff (a b : KeyValue) : a.less b = true ↔ a.key < b.key :=
  stringLess_iff a.key b.key

/-- `EstimateMemory` with the sizes of a 64 bit library in which short strings are inlined; a longer string
has the capacity of its length. -/
def estimateMemory (key : Key) : Nat :=
  let stringSize := if key.length < 16 then 0 else key.length
  32 + stringSize + 16 + 24

inductive CompilerError
  | noMoreDataOnceCompilationIsDone
  | memoryLimitMustBeAtLeast1MB
  deriving DecidableEq, Repr

/-! ## Values -/

/-- A value store that is written: `AddValue` returns the index of the value and whether the state is
left out of the minimization. -/
structure ValueStoreWriter (V : Type) where
  State : Type
  new : State
  addValue : State → V → State × Nat × Bool
  getWeightValue : V → Nat
  getMergeWeight : Nat → Nat

/-- `RegisterValue`. -/
def ValueStoreWriter.registerValue {V : Type} (W : ValueStoreWriter V) (valueStore : W.State)
    (value : V) : W.State × ValueHandle :=
  let (valueStore, valueIdx, noMinimization) := W.addValue valueStore value
  (valueStore, ⟨valueIdx, W.getWeightValue value, noMinimization, false⟩)

/-- A value store in which a value is its index. -/
def plainStore : ValueStoreWriter Nat where
  State := Unit
  new := ()
  addValue _ v := ((), v, false)
  getWeightValue _ := 0
  getMergeWeight _ := 0

/-! ## The generator -/

/-- `get_common_prefix_length`, where the second key does not end in front of a zero byte of the first:
the keys come in ascending order. -/
def getCommonPrefixLength : Key → Key → Nat
  | a :: as, b :: bs => if a = b then getCommonPrefixLength as bs + 1 else 0
  | _, _ => 0

/-- `Generator`, with the keys it has put into the automaton. -/
structure Generator where
  lastKey : Key
  entries : List (Key × ValueHandle)
  deriving DecidableEq, Repr

namespace Generator

def new : Generator := ⟨[], []⟩

/-- `Add`. -/
def add (g : Generator) (inputKey : Key) (handle : ValueHandle) : Generator :=
  let commonPrefixLength := getCommonPrefixLength g.lastKey inputKey
  if commonPrefixLength = inputKey.length ∧ g.lastKey.length = inputKey.length then g
  else ⟨inputKey, g.entries ++ [(inputKey, handle)]⟩

end Generator

theorem getCommonPrefixLength_eq : ∀ a b : Key,
    getCommonPrefixLength a b = b.length ∧ a.length = b.length ↔ a = b
  | [], [] => by simp [getCommonPrefixLength]
  | [], _ :: _ => by simp
  | _ :: _, [] => by simp
  | x :: a, y :: b => by
    have ih := getCommonPrefixLength_eq a b
    rw [getCommonPrefixLength]
    by_cases h : x = y
    · simp [h, ← ih]
    · simp [h]

namespace Generator

/-- A key that is equal to the one before is left out. -/
theorem add_eq (g : Generator) (inputKey : Key) (handle : ValueHandle) :
    g.add inputKey handle =
      if g.lastKey = inputKey then g else ⟨inputKey, g.entries ++ [(inputKey, handle)]⟩ := by
  unfold add
  exact if_congr (getCommonPrefixLength_eq _ _) rfl rfl

/-- Feeding a list gives the first entry of every run of equal keys. -/
theorem foldl_add : ∀ (l : List (Key × ValueHandle)) (g : Generator),
    (l.foldl (fun g e => g.add e.1 e.2) g).entries =
      g.entries ++ SortedRuns.firsts Prod.fst g.lastKey l
  | [], g => (List.append_nil _).symm
  | e :: l, g => by
    rw [List.foldl_cons, foldl_add l, add_eq, SortedRuns.firsts]
    by_cases h : g.lastKey = e.1
    · rw [if_pos h, if_pos h.symm]
    · rw [if_neg h, if_neg (Ne.symm h), List.append_assoc]
      rfl

end Generator

end Keyvi.Dictionary
