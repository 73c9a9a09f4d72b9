import Mathlib

/-!
# Newest wins

A stack of layers is a list, oldest first, and a key is answered by the newest layer that holds it.
What a layer tells about the key is left to the caller.
-/

namespace NewestWins

variable {L K : Type*}

/-- The newest layer that holds `k`. -/
def newest (holds : L → K → Bool) : List L → K → Option L
  | [], _ => none
  | l :: ls, k =>
    match newest holds ls k with
    | some x => some x
    | none => if holds l k then some l else none

variable {holds : L → K → Bool} {k : K}

@[simp] theorem newest_nil : newest holds [] k = none := rfl

theorem newest_cons (l : L) (ls : List L) :
    newest holds (l :: ls) k = (newest holds ls k).or (if holds l k then some l else none) := by
  rw [newest]
  cases newest holds ls k <;> rfl

theorem newest_eq_none {ls : List L} :
    newest holds ls k = none ↔ ∀ l ∈ ls, holds l k = false := by
  induction ls with
  | nil => simp
  | cons l ls ih =>
    rw [newest_cons, List.forall_mem_cons, ← ih]
    cases newest holds ls k <;> cases hl : holds l k <;> simp

theorem newest_mem {l : L} {ls : List L} (h : newest holds ls k = some l) :
    l ∈ ls ∧ holds l k = true := by
  induction ls with
  | nil => simp at h
  | cons x ls ih =>
    rw [newest_cons, Option.or_eq_some_iff] at h
    rcases h with h | ⟨-, h⟩
    · exact ⟨List.mem_cons_of_mem _ (ih h).1, (ih h).2⟩
    · split at h
      · next hx =>
        obtain rfl : x = l := by simpa using h
        exact ⟨List.mem_cons_self, hx⟩
      · simp at h

/-- The newest layer holds the key and no later one does. -/
theorem newest_eq_some {l : L} : ∀ {ls : List L}, newest holds ls k = some l ↔
    ∃ i : Nat, ls[i]? = some l ∧ holds l k = true ∧
      ∀ j l', i < j → ls[j]? = some l' → holds l' k = false
  | [] => by simp
  | x :: ls => by
    rw [newest_cons, Option.or_eq_some_iff, newest_eq_none, newest_eq_some]
    constructor
    · rintro (⟨i, hi, hk, hlater⟩ | ⟨hno, hx⟩)
      · refine ⟨i + 1, by simpa using hi, hk, fun j l' hj hl' => ?_⟩
        obtain ⟨j', rfl⟩ : ∃ j', j = j' + 1 := ⟨j - 1, by omega⟩
        exact hlater j' l' (by omega) (by simpa using hl')
      · split at hx
        · next hxk =>
          obtain rfl : x = l := by simpa using hx
          refine ⟨0, rfl, hxk, fun j l' hj hl' => ?_⟩
          obtain ⟨j', rfl⟩ : ∃ j', j = j' + 1 := ⟨j - 1, by omega⟩
          exact hno l' (List.mem_of_getElem? (by simpa using hl'))
        · simp at hx
    · rintro ⟨i, hi, hk, hlater⟩
      cases i with
      | zero =>
        obtain rfl : x = l := by simpa using hi
        refine .inr ⟨fun l' hl' => ?_, by simp [hk]⟩
        obtain ⟨j, hj⟩ := List.mem_iff_getElem?.mp hl'
        exact hlater (j + 1) l' (by omega) (by simpa using hj)
      | succ i =>
        refine .inl ⟨i, by simpa using hi, hk, fun j l' hj hl' => ?_⟩
        exact hlater (j + 1) l' (by omega) (by simpa using hl')

variable {A : Type*}

/-- What a stack tells about `k`. -/
def answer (tells : L → K → Option A) : List L → K → Option A
  | [], _ => none
  | l :: ls, k => (answer tells ls k).or (tells l k)

variable {tells tells' : L → K → Option A}

@[simp] theorem answer_nil : answer tells [] k = none := rfl

theorem answer_cons (l : L) (ls : List L) :
    answer tells (l :: ls) k = (answer tells ls k).or (tells l k) := rfl

theorem answer_append (ls ls' : List L) :
    answer tells (ls ++ ls') k = (answer tells ls' k).or (answer tells ls k) := by
  induction ls with
  | nil => simp
  | cons l ls ih => rw [List.cons_append, answer_cons, answer_cons, ih, Option.or_assoc]

theorem answer_congr {ls : List L} (h : ∀ l ∈ ls, tells l k = tells' l k) :
    answer tells ls k = answer tells' ls k := by
  induction ls with
  | nil => rfl
  | cons l ls ih =>
    rw [answer_cons, answer_cons, ih fun x hx => h x (List.mem_cons_of_mem _ hx),
      h l List.mem_cons_self]

theorem answer_map {L' : Type*} (f : L' → L) (ls : List L') :
    answer tells (ls.map f) k = answer (fun l k => tells (f l) k) ls k := by
  induction ls with
  | nil => rfl
  | cons l ls ih => rw [List.map_cons, answer_cons, answer_cons, ih]

theorem answer_eq_none {ls : List L} : answer tells ls k = none ↔ ∀ l ∈ ls, tells l k = none := by
  induction ls with
  | nil => simp
  | cons l ls ih => rw [answer_cons, Option.or_eq_none_iff, ih, List.forall_mem_cons, and_comm]

/-- Some layer gives the answer, and the layers after it say nothing. -/
theorem answer_eq_some {a : A} : ∀ {ls : List L}, answer tells ls k = some a ↔
    ∃ pre l post, ls = pre ++ l :: post ∧ tells l k = some a ∧ ∀ x ∈ post, tells x k = none
  | [] => by simp
  | x :: ls => by
    rw [answer_cons, Option.or_eq_some_iff, answer_eq_none, answer_eq_some]
    constructor
    · rintro (⟨pre, l, post, rfl, hl, hpost⟩ | ⟨hno, hx⟩)
      · exact ⟨x :: pre, l, post, rfl, hl, hpost⟩
      · exact ⟨[], x, ls, rfl, hx, hno⟩
    · rintro ⟨pre, l, post, he, hl, hpost⟩
      cases pre with
      | nil =>
        obtain ⟨rfl, rfl⟩ := List.cons.inj he
        exact .inr ⟨hpost, hl⟩
      | cons y pre =>
        obtain ⟨rfl, rfl⟩ := List.cons.inj he
        exact .inl ⟨pre, l, post, rfl, hl, hpost⟩

/-- The newest layer that holds a key, in terms of answers. -/
theorem newest_bind (f : L → Option A) (ls : List L) : (newest holds ls k).bind f =
    (answer (fun l k => if holds l k then some (f l) else none) ls k).join := by
  induction ls with
  | nil => rfl
  | cons l ls ih =>
    rw [newest_cons, answer_cons]
    cases hn : newest holds ls k with
    | some x =>
      have hsome : answer (fun l k => if holds l k then some (f l) else none) ls k =
          some (f x) := by
        obtain ⟨i, hi, hk, hlater⟩ := newest_eq_some.mp hn
        refine answer_eq_some.mpr ⟨ls.take i, x, ls.drop (i + 1), ?_, by simp [hk], ?_⟩
        · obtain ⟨hlt, rfl⟩ := List.getElem?_eq_some_iff.mp hi
          simp
        · intro y hy
          obtain ⟨j, hj⟩ := List.mem_iff_getElem?.mp hy
          rw [List.getElem?_drop] at hj
          simp [hlater _ _ (by omega) hj]
      simp [hsome]
    | none =>
      have hnone : answer (fun l k => if holds l k then some (f l) else none) ls k = none := by
        rw [answer_eq_none]
        intro y hy
        simp [newest_eq_none.mp hn y hy]
      rw [hnone]
      cases holds l k <;> simp

/-- **Replacing adjacent layers by one.** The answer stays, if the new layer tells what the old ones
said, or tells nothing where they said `d` and the layers below say `d` or nothing. -/
theorem answer_replace {d : A} {pre block post : List L} {m : L}
    (h : tells m k = answer tells block k ∨ tells m k = none ∧ answer tells block k = some d ∧
      (answer tells pre k = none ∨ answer tells pre k = some d)) :
    answer tells (pre ++ m :: post) k = answer tells (pre ++ block ++ post) k ∨
      answer tells (pre ++ m :: post) k = none ∧
        answer tells (pre ++ block ++ post) k = some d := by
  rw [answer_append, answer_append, answer_append, answer_cons, Option.or_assoc]
  cases hpost : answer tells post k with
  | some a => simp
  | none =>
    simp only [Option.none_or]
    rcases h with h | ⟨hm, hb, hp | hp⟩
    · simp [h]
    · simp [hm, hb, hp]
    · simp [hm, hb, hp]

end NewestWins
