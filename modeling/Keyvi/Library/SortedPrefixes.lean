import Mathlib

/-!
# Prefixes in a sorted list

The lists with a prefix are an interval of the lexicographic order, so a greater list leaves for good
what it does not share with the one before. With it: what a map from lists has behind a prefix, and
the greatest weight there.
-/

namespace SortedPrefixes

section Order

variable {α : Type*} [LinearOrder α]

/-- What is between two lists with a prefix has the prefix. -/
theorem prefix_of_between : ∀ {q a m b : List α}, q <+: a → q <+: b → a ≤ m → m ≤ b → q <+: m
  | [], _, m, _, _, _, _, _ => List.nil_prefix
  | c :: q, a, m, b, ha, hb, ham, hmb => by
    obtain ⟨a, rfl⟩ := ha
    obtain ⟨b, rfl⟩ := hb
    cases m with
    | nil => exact absurd (List.nil_lt_cons c (q ++ a)) (not_lt.mpr ham)
    | cons d m =>
      rw [List.cons_append, ← not_lt, List.cons_lt_cons_iff, not_or, not_and, not_lt, not_lt] at ham hmb
      obtain rfl : c = d := le_antisymm ham.1 hmb.1
      exact List.cons_prefix_cons.mpr ⟨rfl, prefix_of_between (List.prefix_append q a)
        (List.prefix_append q b) (ham.2 rfl) (hmb.2 rfl)⟩

/-- A greater list continues a prefix with an element that the smaller one does not have there. -/
theorem exists_step : ∀ {j k : List α}, j < k → ∃ (p : List α) (c : α) (k' : List α),
    k = p ++ c :: k' ∧ p <+: j ∧ ¬ (p ++ [c]) <+: j
  | _, [], h => absurd h (List.not_lt_nil _)
  | [], c :: k', _ => ⟨[], c, k', rfl, List.nil_prefix, by simp⟩
  | b :: j, c :: k, h => by
    rw [List.cons_lt_cons_iff] at h
    rcases h with h | ⟨rfl, h⟩
    · refine ⟨[], c, k, rfl, List.nil_prefix, ?_⟩
      rw [List.nil_append, List.cons_prefix_cons]
      exact fun hc => h.ne' hc.1
    · obtain ⟨p, d, k', rfl, hp, hn⟩ := exists_step h
      refine ⟨b :: p, d, k', rfl, List.cons_prefix_cons.mpr ⟨rfl, hp⟩, ?_⟩
      rw [List.cons_append, List.cons_prefix_cons]
      exact fun hc => hn hc.2

/-- What it continues with is new to all lists up to the smaller one. -/
theorem not_prefix_of_le {p j k' e : List α} {c : α} (hn : ¬ (p ++ [c]) <+: j)
    (hjk : j ≤ p ++ c :: k') (he : e ≤ j) : ¬ (p ++ [c]) <+: e := fun hpe =>
  hn (prefix_of_between hpe ⟨k', by simp⟩ he hjk)

end Order

/-! ## The greatest weight behind a prefix -/

section Weights

variable {α β : Type*} [DecidableEq α]

/-- The greatest weight of the entries with the prefix, 0 without one. -/
def greatest (weight : β → Nat) (entries : List (List α × β)) (p : List α) : Nat :=
  ((entries.filter fun e => p <+: e.1).map fun e => weight e.2).foldr max 0

variable {weight : β → Nat} {entries : List (List α × β)} {p : List α}

theorem foldr_max_append (l l' : List Nat) :
    (l ++ l').foldr max 0 = max (l.foldr max 0) (l'.foldr max 0) := by
  induction l with
  | nil => simp
  | cons n l ih => rw [List.cons_append, List.foldr_cons, ih, List.foldr_cons, max_assoc]

theorem greatest_concat (k : List α) (b : β) :
    greatest weight (entries ++ [(k, b)]) p =
      if p <+: k then max (greatest weight entries p) (weight b) else greatest weight entries p := by
  rw [greatest, List.filter_append, List.map_append, foldr_max_append]
  by_cases h : p <+: k
  · simp [greatest, h]
  · simp [greatest, h]

/-- Nothing is behind a prefix that no entry has. -/
theorem greatest_eq_zero (h : ∀ e ∈ entries, ¬ p <+: e.1) : greatest weight entries p = 0 := by
  have hnil : (entries.filter fun e => p <+: e.1) = [] :=
    List.filter_eq_nil_iff.mpr fun e he => by simpa using h e he
  rw [greatest, hnil]
  rfl

end Weights

/-! ## Loops over the positions of a function -/

/-- A loop that changes every position once. -/
theorem foldl_update {σ : Type*} (f : Nat → σ → σ) {positions : List Nat} (hnd : positions.Nodup) :
    ∀ (s : Nat → σ) (j : Nat),
      positions.foldl (fun s i => Function.update s i (f i (s i))) s j =
        if j ∈ positions then f j (s j) else s j := by
  induction positions with
  | nil => exact fun s j => rfl
  | cons i positions ih =>
    obtain ⟨hi, hnd⟩ := List.nodup_cons.mp hnd
    intro s j
    rw [List.foldl_cons, ih hnd]
    by_cases hj : j = i
    · subst hj
      rw [if_neg hi, Function.update_self, if_pos List.mem_cons_self]
    · simp [hj]

end SortedPrefixes
