import Mathlib

/-!
# Runs of a step function

A system is a partial step function; an action that is not enabled gives `none`. A run is a list of
actions. `Along` says that a condition on the state before each step and on its action holds at
every step of a run, and `invariant` is the induction over such runs.
-/

namespace Run

variable {S A : Type*}

/-- The state after the actions, if all of them are enabled. -/
def run (step : S → A → Option S) : S → List A → Option S
  | s, [] => some s
  | s, a :: as =>
    match step s a with
    | none => none
    | some s' => run step s' as

/-- The condition holds at every step. -/
def Along (step : S → A → Option S) (ok : S → A → Prop) : S → List A → Prop
  | _, [] => True
  | s, a :: as => ok s a ∧ ∀ s', step s a = some s' → Along step ok s' as

/-- A run can be checked. -/
instance Along.decidable (step : S → A → Option S) (ok : S → A → Prop)
    [∀ s a, Decidable (ok s a)] : ∀ (s : S) (as : List A), Decidable (Along step ok s as)
  | _, [] => isTrue trivial
  | s, a :: as =>
    match hs : step s a with
    | none => decidable_of_iff (ok s a) ⟨fun h => ⟨h, fun s' h' => by rw [hs] at h'; cases h'⟩,
        fun h => h.1⟩
    | some t =>
      have := Along.decidable step ok t as
      decidable_of_iff (ok s a ∧ Along step ok t as)
        ⟨fun h => ⟨h.1, fun s' h' => by rw [hs] at h'; cases h'; exact h.2⟩,
          fun h => ⟨h.1, h.2 t hs⟩⟩

variable {step : S → A → Option S} {ok : S → A → Prop} {Inv : S → Prop}

@[simp] theorem run_nil (s : S) : run step s [] = some s := rfl

theorem run_cons {s s' : S} {a : A} {as : List A} :
    run step s (a :: as) = some s' ↔ ∃ t, step s a = some t ∧ run step t as = some s' := by
  rw [run]
  cases step s a <;> simp

theorem run_append {s s' : S} {as bs : List A} :
    run step s (as ++ bs) = some s' ↔ ∃ t, run step s as = some t ∧ run step t bs = some s' := by
  induction as generalizing s with
  | nil => simp
  | cons a as ih =>
    simp only [List.cons_append, run_cons, ih]
    constructor
    · rintro ⟨t, ht, u, hu, hs⟩
      exact ⟨u, ⟨t, ht, hu⟩, hs⟩
    · rintro ⟨u, ⟨t, ht, hu⟩, hs⟩
      exact ⟨t, ht, u, hu, hs⟩

/-- What every step keeps under the condition, every run keeps. -/
theorem invariant (hstep : ∀ s a s', Inv s → ok s a → step s a = some s' → Inv s') :
    ∀ {as : List A} {s s' : S}, Inv s → Along step ok s as → run step s as = some s' → Inv s'
  | [], s, s', hs, _, h => by
    rw [run_nil, Option.some.injEq] at h
    exact h ▸ hs
  | a :: as, s, s', hs, hok, h => by
    obtain ⟨t, ht, h⟩ := run_cons.mp h
    exact invariant hstep (hstep s a t hs hok.1 ht) (hok.2 t ht) h

/-- The same for an invariant that speaks of the actions so far. -/
theorem invariant_history (Inv : List A → S → Prop)
    (hstep : ∀ h s a s', Inv h s → ok s a → step s a = some s' → Inv (h ++ [a]) s') :
    ∀ {as h : List A} {s s' : S}, Inv h s → Along step ok s as → run step s as = some s' →
      Inv (h ++ as) s'
  | [], h, s, s', hs, _, hr => by
    rw [run_nil, Option.some.injEq] at hr
    rw [List.append_nil, ← hr]
    exact hs
  | a :: as, h, s, s', hs, hok, hr => by
    obtain ⟨t, ht, hr⟩ := run_cons.mp hr
    have hnext := invariant_history Inv hstep (hstep h s a t hs hok.1 ht) (hok.2 t ht) hr
    rwa [List.append_assoc, List.singleton_append] at hnext

theorem Along.append {s t : S} {as bs : List A} (h : Along step ok s (as ++ bs))
    (ht : run step s as = some t) : Along step ok s as ∧ Along step ok t bs := by
  induction as generalizing s with
  | nil =>
    rw [run_nil, Option.some.injEq] at ht
    exact ⟨trivial, ht ▸ h⟩
  | cons a as ih =>
    obtain ⟨u, hu, ht⟩ := run_cons.mp ht
    refine ⟨⟨h.1, fun u' hu' => ?_⟩, (ih (h.2 u hu) ht).2⟩
    rw [hu, Option.some.injEq] at hu'
    exact hu' ▸ (ih (h.2 u hu) ht).1

/-- A stronger condition. -/
theorem Along.imp {ok' : S → A → Prop} (himp : ∀ s a, ok s a → ok' s a) :
    ∀ {as : List A} {s : S}, Along step ok s as → Along step ok' s as
  | [], _, _ => trivial
  | _ :: _, _, h => ⟨himp _ _ h.1, fun s' hs' => (h.2 s' hs').imp himp⟩

/-- Two conditions at once. -/
theorem Along.and {ok' : S → A → Prop} :
    ∀ {as : List A} {s : S}, Along step ok s as → Along step ok' s as →
      Along step (fun s a => ok s a ∧ ok' s a) s as
  | [], _, _, _ => trivial
  | _ :: _, _, h, h' => ⟨⟨h.1, h'.1⟩, fun s' hs' => (h.2 s' hs').and (h'.2 s' hs')⟩

/-- Together with what holds of every action. -/
theorem Along.and_mem {P : A → Prop} :
    ∀ {as : List A} {s : S}, Along step ok s as → (∀ a ∈ as, P a) →
      Along step (fun s a => ok s a ∧ P a) s as
  | [], _, _, _ => trivial
  | a :: _, _, h, hP => ⟨⟨h.1, hP a List.mem_cons_self⟩, fun s' hs' =>
      (h.2 s' hs').and_mem fun b hb => hP b (List.mem_cons_of_mem a hb)⟩

end Run
