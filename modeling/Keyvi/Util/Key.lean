import Mathlib

/-!
# Keys

Keys are byte strings. `memcmp` compares bytes as unsigned numbers, which makes the order of the
iterators the lexicographic order of lists.
-/

namespace Keyvi

abbrev Byte := Fin 256

instance instNeZeroByte : NeZero 256 := ⟨by decide⟩

instance instLawfulBEqByte : LawfulBEq Byte := inferInstance

abbrev Key := List Byte

instance instLawfulBEqKey : LawfulBEq Key := inferInstance

/-- `memcmp(a, b, n)`. -/
def memcmp : Key → Key → Nat → Int
  | a :: as, b :: bs, n + 1 => if a = b then memcmp as bs n else (a.val : Int) - b.val
  | _, _, _ => 0

/-- `EntryIterator::operator<` on the keys of the two iterators. -/
def entryLess (a b : Key) : Bool :=
  let compareResult := memcmp b a (min a.length b.length)
  if compareResult = 0 then decide (a.length < b.length) else decide (compareResult > 0)

theorem entryLess_cons (x y : Byte) (a b : Key) :
    entryLess (x :: a) (y :: b) = if x = y then entryLess a b else decide (x < y) := by
  have hmin : min (x :: a).length (y :: b).length = min a.length b.length + 1 := by
    simp only [List.length_cons]; omega
  unfold entryLess
  rw [hmin, memcmp]
  by_cases h : x = y
  · subst h
    simp
  · have hne : (y.val : Int) - x.val ≠ 0 := fun h0 => h (Fin.ext (by omega))
    rw [if_neg h, if_neg (Ne.symm h), if_neg hne]
    exact decide_eq_decide.mpr ⟨fun h0 => Fin.lt_def.mpr (by omega),
      fun h0 => by have := Fin.lt_def.mp h0; omega⟩

/-- **The order of the iterators is the order of the keys.** -/
theorem entryLess_iff : ∀ a b : Key, entryLess a b = true ↔ a < b
  | [], [] => by simp [entryLess, memcmp]
  | [], _ :: _ => by simp [entryLess, memcmp]
  | _ :: _, [] => by simp [entryLess, memcmp]
  | x :: a, y :: b => by
    rw [entryLess_cons, List.cons_lt_cons_iff]
    by_cases h : x = y
    · simp [h, entryLess_iff a b]
    · simp [h]

end Keyvi
