import Mathlib
import Keyvi.Fsa.MinimizationHashEntries

/-!
# Generations of the minimization hash

`lru_generation_cache.h`. Entries are added to the newest generation; what is found in an older one
is moved there.
-/

namespace Keyvi.Fsa

open HashEntry

open MinimizationHash

/-- `LeastRecentlyUsedGenerationsCache`; the older generations are listed the newest first. -/
structure LeastRecentlyUsedGenerationsCache (K : Type) where
  sizePerGeneration : Nat
  maxNumberOfGenerations : Nat
  currentGeneration : MinimizationHash K
  generations : List (MinimizationHash K)

namespace LeastRecentlyUsedGenerationsCache

variable {K : Type} [HashEntry K] (loadLimit : Nat → Nat)

/-- A generation as `MinimizationHash()` makes it. -/
def newGeneration : MinimizationHash K := .new loadLimit 3 8

theorem chained_newGeneration : Chained (newGeneration loadLimit : MinimizationHash K) fun _ => [] :=
  have hstep : min 3 hashMaxSizeStep ≤ hashMaxSizeStep := min_le_right 3 hashMaxSizeStep
  chained_empty hstep hstep rfl rfl rfl (fun _ => isEmpty_empty) isEmpty_empty

/-- The constructor with the sizes. -/
def new (sizePerGeneration maxNumberOfGenerations : Nat) : LeastRecentlyUsedGenerationsCache K :=
  ⟨sizePerGeneration, maxNumberOfGenerations, newGeneration loadLimit, []⟩

/-- The part of `Add` that begins a generation: the oldest one is used again when there are as many as
there may be. -/
def rotate (c : LeastRecentlyUsedGenerationsCache K) :
    Option (LeastRecentlyUsedGenerationsCache K) :=
  if c.sizePerGeneration ≤ c.currentGeneration.count then
    if c.generations.length + 1 = c.maxNumberOfGenerations then
      c.generations.getLast?.map fun oldest => { c with
        currentGeneration := oldest.reset
        generations := c.currentGeneration :: c.generations.dropLast }
    else some { c with
      currentGeneration := newGeneration loadLimit
      generations := c.currentGeneration :: c.generations }
  else some c

/-- `Add`. -/
def add (c : LeastRecentlyUsedGenerationsCache K) (k : K) :
    Option (LeastRecentlyUsedGenerationsCache K) :=
  (c.rotate loadLimit).bind fun c => (c.currentGeneration.add loadLimit k).map fun r =>
    { c with currentGeneration := r.1 }

/-- The loop over the older generations: what was found, the newest generation, and the others. -/
def moveFrom (q : Query K) (current : MinimizationHash K) : List (MinimizationHash K) →
    Option (Option K × MinimizationHash K × List (MinimizationHash K))
  | [] => some (none, current, [])
  | g :: gs => (g.getAndMove q).bind fun r =>
      match r.1 with
      | some k => (current.add loadLimit k).map fun a => (some k, a.1, r.2 :: gs)
      | none => (moveFrom q current gs).map fun m => (m.1, m.2.1, r.2 :: m.2.2)

/-- `Get`. -/
def get (c : LeastRecentlyUsedGenerationsCache K) (q : Query K) :
    Option (Option K × LeastRecentlyUsedGenerationsCache K) :=
  (c.currentGeneration.get q).bind fun
    | some k => some (some k, c)
    | none => (moveFrom loadLimit q c.currentGeneration c.generations).map fun m =>
        (m.1, { c with
          currentGeneration := m.2.1
          generations := m.2.2 })

/-- The calls of a user. -/
inductive Call (K : Type)
  | add (k : K)
  | get (q : Query K)

/-- One call. -/
def step (c : LeastRecentlyUsedGenerationsCache K) :
    Call K → Option (LeastRecentlyUsedGenerationsCache K)
  | .add k => c.add loadLimit k
  | .get q => (c.get loadLimit q).map Prod.snd

variable [DecidableEq K]

/-- The condition on a hit in an older generation: the entry is taken out of its chain there, and the
newest generation has room for it and does not drop it. -/
def MoveOk (q : Query K) (current : MinimizationHash K) : List (MinimizationHash K) → Prop
  | [] => True
  | g :: gs =>
    match g.get q with
    | some (some k) => g.detaches q = true ∧ AddRoom loadLimit current k ∧
        AddKeeps loadLimit current k
    | _ => MoveOk q current gs

/-- The condition on a call. A new entry is in no generation yet. -/
def CallOk (c : LeastRecentlyUsedGenerationsCache K) : Call K → Prop
  | .add k => (∀ t ∈ c.currentGeneration :: c.generations, ¬ t.Holds k) ∧
      (c.sizePerGeneration ≤ c.currentGeneration.count →
        c.generations.length + 1 = c.maxNumberOfGenerations → c.generations ≠ []) ∧
      ∀ c' ∈ c.rotate loadLimit, AddRoom loadLimit c'.currentGeneration k
  | .get q => c.currentGeneration.get q = some none →
      MoveOk loadLimit q c.currentGeneration c.generations

instance decidableAddKeeps (t : MinimizationHash K) (k : K) : Decidable (AddKeeps loadLimit t k) :=
  inferInstanceAs (Decidable (_ ∧ ∀ r ∈ t.addFirst k, (_ → _ ∧ _) ∧
    ∀ r' ∈ growIf _ _ _, _ → _ ∧ _))

instance decidableMoveOk (q : Query K) (current : MinimizationHash K) :
    ∀ gs, Decidable (MoveOk loadLimit q current gs)
  | [] => isTrue trivial
  | g :: gs =>
    match hg : g.get q with
    | none =>
      have := decidableMoveOk q current gs
      decidable_of_iff (MoveOk loadLimit q current gs) (by rw [MoveOk, hg])
    | some none =>
      have := decidableMoveOk q current gs
      decidable_of_iff (MoveOk loadLimit q current gs) (by rw [MoveOk, hg])
    | some (some k) =>
      decidable_of_iff (g.detaches q = true ∧ AddRoom loadLimit current k ∧
        AddKeeps loadLimit current k) (by rw [MoveOk, hg])

instance decidableHolds (t : MinimizationHash K) (k : K) : Decidable (t.Holds k) :=
  inferInstanceAs (Decidable (_ = _))

instance decidableCallOk (c : LeastRecentlyUsedGenerationsCache K) :
    ∀ call, Decidable (CallOk loadLimit c call)
  | .add _ => inferInstanceAs (Decidable ((∀ t ∈ c.currentGeneration :: c.generations, _) ∧
      (_ → _ → _ ≠ []) ∧ ∀ c' ∈ c.rotate loadLimit, _))
  | .get q => inferInstanceAs (Decidable (_ = _ → MoveOk loadLimit q _ _))

/-- No entry is in two generations. -/
def Apart (l : List (MinimizationHash K)) : Prop :=
  l.Pairwise fun t t' => ∀ k, t.Holds k → ¬ t'.Holds k

/-- The generations do not share entries, cookies ascend along every chain, and every lookup ends. -/
structure Sound (c : LeastRecentlyUsedGenerationsCache K) : Prop where
  apart : Apart (c.currentGeneration :: c.generations)
  chains : ∀ t ∈ c.currentGeneration :: c.generations, ∃ bs, Chained t bs
  ends : ∀ t ∈ c.currentGeneration :: c.generations, ∀ q, t.get q ≠ none ∧ t.getAndMove q ≠ none

/-- A hit in an older generation: the entry leaves it and all others stay there, the other older
generations are as they were, and the newest one has it. -/
def Moved (c : LeastRecentlyUsedGenerationsCache K) (q : Query K) (k : K)
    (c' : LeastRecentlyUsedGenerationsCache K) : Prop :=
  ∃ newer g g' older, c.generations = newer ++ g :: older ∧ c'.generations = newer ++ g' :: older ∧
    (∀ t ∈ c.currentGeneration :: newer, t.get q = some none) ∧ g.get q = some (some k) ∧
    ¬ g'.Holds k ∧ (∀ x, x ≠ k → (g'.Holds x ↔ g.Holds x)) ∧ c'.currentGeneration.Holds k

/-- What `Get` does, by the place of the hit. -/
def Answers (c : LeastRecentlyUsedGenerationsCache K) (q : Query K) (found : Option K)
    (c' : LeastRecentlyUsedGenerationsCache K) : Prop :=
  (found ≠ none ∧ c.currentGeneration.get q = some found ∧ c' = c) ∨
    (found = none ∧ (∀ t ∈ c.currentGeneration :: c.generations, t.get q = some none) ∧ c' = c) ∨
    ∃ k, found = some k ∧ c.Moved q k c'

/-- The newest generation has all its entries in chains, the older ones may have cells outside. -/
structure Keeps (c : LeastRecentlyUsedGenerationsCache K) : Prop where
  current : ∃ bs, Clean c.currentGeneration bs
  older : ∀ t ∈ c.generations, Distinct t
  apart : Apart (c.currentGeneration :: c.generations)

variable {loadLimit} {c : LeastRecentlyUsedGenerationsCache K}

theorem Keeps.sound (h : Keeps c) : Sound c := by
  have hchains : ∀ t ∈ c.currentGeneration :: c.generations, ∃ bs, Chained t bs := by
    intro t ht
    rcases List.mem_cons.mp ht with rfl | ht
    · obtain ⟨bs, hc⟩ := h.current
      exact ⟨bs, hc.toChained⟩
    · obtain ⟨bs, hc, -⟩ := h.older t ht
      exact ⟨bs, hc⟩
  refine ⟨h.apart, hchains, fun t ht q => ?_⟩
  obtain ⟨bs, hc⟩ := hchains t ht
  obtain ⟨t', bs', ht', -⟩ := hc.getAndMove q
  rw [hc.get, ht']
  simp

/-- A generation that gains at most an entry that no other one has. -/
theorem Apart.gain {t t' : MinimizationHash K} {l : List (MinimizationHash K)} {k : K}
    (h : Apart (t :: l)) (hgain : ∀ x, t'.Holds x → t.Holds x ∨ x = k)
    (hnew : ∀ u ∈ l, ¬ u.Holds k) : Apart (t' :: l) := by
  rw [Apart, List.pairwise_cons] at h ⊢
  refine ⟨fun u hu x hx => ?_, h.2⟩
  rcases hgain x hx with hx | rfl
  · exact h.1 u hu x hx
  · exact hnew u hu

/-- A generation that loses entries. -/
theorem Apart.lose {g g' : MinimizationHash K} {newer older : List (MinimizationHash K)}
    (h : Apart (newer ++ g :: older)) (hlose : ∀ x, g'.Holds x → g.Holds x) :
    Apart (newer ++ g' :: older) := by
  rw [Apart, List.pairwise_append, List.pairwise_cons] at h ⊢
  obtain ⟨hn, ⟨hg, ho⟩, hcross⟩ := h
  refine ⟨hn, ⟨fun u hu x hx => hg u hu x (hlose x hx), ho⟩, fun u hu v hv x hx => ?_⟩
  rcases List.mem_cons.mp hv with rfl | hv
  · exact fun hx' => hcross u hu g List.mem_cons_self x hx (hlose x hx')
  · exact hcross u hu v (List.mem_cons_of_mem g hv) x hx

/-- **The loop over the older generations.** -/
theorem moveFrom_spec {q : Query K} {current : MinimizationHash K} {bs : Nat → List K}
    (hc : Clean current bs) : ∀ {gs : List (MinimizationHash K)}, (∀ t ∈ gs, Distinct t) →
    (∀ t ∈ gs, ∀ k, current.Holds k → ¬ t.Holds k) → MoveOk loadLimit q current gs →
    (moveFrom loadLimit q current gs = some (none, current, gs) ∧
        ∀ t ∈ gs, t.get q = some none) ∨
      ∃ k current' newer g g' older, gs = newer ++ g :: older ∧
        moveFrom loadLimit q current gs = some (some k, current', newer ++ g' :: older) ∧
        (∀ t ∈ newer, t.get q = some none) ∧ g.get q = some (some k) ∧ g.Holds k ∧ Distinct g' ∧
        ¬ g'.Holds k ∧ (∀ x, x ≠ k → (g'.Holds x ↔ g.Holds x)) ∧ (∃ bs', Clean current' bs') ∧
        current'.Holds k ∧ ∀ x, current'.Holds x → current.Holds x ∨ x = k
  | [], _, _, _ => .inl ⟨rfl, by simp⟩
  | g :: gs, hold, hapart, hok => by
    obtain ⟨bsg, hg, hnd⟩ := hold g List.mem_cons_self
    rw [MoveOk] at hok
    cases hget : g.get q with
    | none =>
      rw [hg.get] at hget
      cases hget
    | some found =>
      rw [hget] at hok
      cases found with
      | none =>
        have hnone := hg.getAndMove_none hget
        rcases moveFrom_spec hc (fun t ht => hold t (List.mem_cons_of_mem g ht))
          (fun t ht => hapart t (List.mem_cons_of_mem g ht)) hok with
          ⟨hm, hall⟩ | ⟨k, current', newer, g₁, g', older, rfl, hm, hnewer, hrest⟩
        · refine .inl ⟨?_, fun t ht => ?_⟩
          · rw [moveFrom, hnone, Option.bind_some]
            simp only
            rw [hm]
            rfl
          · rcases List.mem_cons.mp ht with rfl | ht
            · exact hget
            · exact hall t ht
        · refine .inr ⟨k, current', g :: newer, g₁, g', older, rfl, ?_, fun t ht => ?_, hrest⟩
          · rw [moveFrom, hnone, Option.bind_some]
            simp only
            rw [hm]
            rfl
          · rcases List.mem_cons.mp ht with rfl | ht
            · exact hget
            · exact hnewer t ht
      | some k =>
        obtain ⟨hdetach, hroom, hkeeps⟩ := hok
        have hholds := hg.holds_of_get hget
        obtain ⟨g', hg', hdistinct, hgone, hstay⟩ :=
          Distinct.detach ⟨bsg, hg, hnd⟩ hget hdetach
        have hnew : k ∉ bs (current.bucket k) := by
          rw [← hc.toChained.holds_iff]
          exact fun hk => hapart g List.mem_cons_self k hk hholds
        obtain ⟨r, bs', hr, hc', hsub, hin⟩ := hc.add hnew hroom
        refine .inr ⟨k, r.1, [], g, g', gs, rfl, ?_, by simp, hget, hholds, hdistinct, hgone, hstay,
          ⟨bs', hc'⟩, ?_, fun x hx => ?_⟩
        · rw [moveFrom, hg', Option.bind_some]
          simp only
          rw [hr]
          rfl
        · rw [hc'.toChained.holds_iff]
          exact hin hkeeps
        · rw [hc'.toChained.holds_iff] at hx
          rw [hc.toChained.holds_iff]
          exact hsub _ x hx

/-- **One `Get`.** -/
theorem Keeps.get (h : Keeps c) {q : Query K} (hok : CallOk loadLimit c (.get q)) :
    ∃ found c', c.get loadLimit q = some (found, c') ∧ Keeps c' ∧ c.Answers q found c' := by
  obtain ⟨bs, hc⟩ := h.current
  have hapart := h.apart
  rw [Apart, List.pairwise_cons] at hapart
  rw [LeastRecentlyUsedGenerationsCache.get]
  cases hget : c.currentGeneration.get q with
  | none =>
    rw [hc.toChained.get] at hget
    cases hget
  | some found =>
    rw [Option.bind_some]
    cases found with
    | some k => exact ⟨some k, c, rfl, h, .inl ⟨by simp, hget, rfl⟩⟩
    | none =>
      simp only
      rcases moveFrom_spec hc h.older (fun t ht k hk => hapart.1 t ht k hk) (hok hget) with
        ⟨hm, hall⟩ | ⟨k, current', newer, g, g', older, hgs, hm, hnewer, hg, hholds, hdistinct, hgone,
          hstay, hcurrent, hin, hgain⟩
      · refine ⟨none, c, by rw [hm]; rfl, h, .inr (.inl ⟨rfl, fun t ht => ?_, rfl⟩)⟩
        rcases List.mem_cons.mp ht with rfl | ht
        · exact hget
        · exact hall t ht
      · refine ⟨some k, _, by rw [hm]; rfl, ⟨hcurrent, fun t ht => ?_, ?_⟩,
          .inr (.inr ⟨k, rfl, newer, g, g', older, hgs, rfl, fun t ht => ?_, hg, hgone, hstay, hin⟩)⟩
        · rcases List.mem_append.mp ht with ht | ht
          · exact h.older t (hgs ▸ List.mem_append_left _ ht)
          · rcases List.mem_cons.mp ht with rfl | ht
            · exact hdistinct
            · exact h.older t (hgs ▸ List.mem_append_right _ (List.mem_cons_of_mem g ht))
        · -- The entry was in one of the older generations only.
          have hsub : ∀ x, g'.Holds x → g.Holds x := by
            intro x hx
            rcases eq_or_ne x k with rfl | hne
            · exact hholds
            · exact (hstay x hne).mp hx
          have hall : Apart (c.currentGeneration :: (newer ++ g :: older)) := hgs ▸ h.apart
          have hlost : Apart ((c.currentGeneration :: newer) ++ g' :: older) :=
            Apart.lose (g := g) hall hsub
          refine Apart.gain hlost hgain fun u hu => ?_
          have htail := (List.pairwise_cons.mp hall).2
          rw [List.pairwise_append, List.pairwise_cons] at htail
          rcases List.mem_append.mp hu with hu | hu
          · exact fun hk => htail.2.2 u hu g List.mem_cons_self k hk hholds
          · rcases List.mem_cons.mp hu with rfl | hu
            · exact hgone
            · exact htail.2.1.1 u hu k hholds
        · rcases List.mem_cons.mp ht with rfl | ht
          · exact hget
          · exact hnewer t ht

/-- **A new generation.** -/
theorem Keeps.rotate (h : Keeps c) {k : K}
    (hnew : ∀ t ∈ c.currentGeneration :: c.generations, ¬ t.Holds k)
    (holdest : c.sizePerGeneration ≤ c.currentGeneration.count →
      c.generations.length + 1 = c.maxNumberOfGenerations → c.generations ≠ []) :
    ∃ c', c.rotate loadLimit = some c' ∧ Keeps c' ∧
      ∀ t ∈ c'.currentGeneration :: c'.generations, ¬ t.Holds k := by
  have hdistinct : ∀ t ∈ c.currentGeneration :: c.generations, Distinct t := by
    intro t ht
    rcases List.mem_cons.mp ht with rfl | ht
    · obtain ⟨bs, hc⟩ := h.current
      exact hc.toDistinct
    · exact h.older t ht
  -- An empty generation in front of some of the others.
  have hempty : ∀ {t : MinimizationHash K} {l : List (MinimizationHash K)},
      Chained t (fun _ => []) → t.overflowCount = 1 →
      l.Sublist (c.currentGeneration :: c.generations) →
      Keeps { c with currentGeneration := t, generations := l } ∧
        ∀ u ∈ t :: l, ¬ u.Holds k := by
    intro t l hc hcount hl
    refine ⟨⟨⟨_, clean_empty hc hcount⟩, fun u hu => hdistinct u (hl.subset hu), ?_⟩, fun u hu => ?_⟩
    · exact List.pairwise_cons.mpr ⟨fun u _ x hx => absurd hx (not_holds_empty hc),
        h.apart.sublist hl⟩
    · rcases List.mem_cons.mp hu with rfl | hu
      · exact not_holds_empty hc
      · exact hnew u (hl.subset hu)
  rw [LeastRecentlyUsedGenerationsCache.rotate]
  split
  · next hfull =>
    split
    · next hmax =>
      obtain ⟨oldest, ho⟩ : ∃ g, c.generations.getLast? = some g :=
        Option.ne_none_iff_exists'.mp fun hn =>
          holdest hfull hmax (List.getLast?_eq_none_iff.mp hn)
      obtain ⟨bs, hc, -⟩ := h.older oldest (List.mem_of_getLast? ho)
      obtain ⟨hk, hn⟩ := hempty (t := oldest.reset) (chained_empty hc.step hc.original hc.size
        hc.overflowSize rfl (fun _ => isEmpty_empty) hc.zero) rfl
        ((List.dropLast_sublist _).cons_cons c.currentGeneration)
      exact ⟨_, by rw [ho]; rfl, hk, hn⟩
    · obtain ⟨hk, hn⟩ := hempty (chained_newGeneration loadLimit) rfl (List.Sublist.refl _)
      exact ⟨_, rfl, hk, hn⟩
  · exact ⟨c, rfl, h, hnew⟩

/-- **One `Add`.** -/
theorem Keeps.add (h : Keeps c) {k : K} (hok : CallOk loadLimit c (.add k)) :
    ∃ c', c.add loadLimit k = some c' ∧ Keeps c' := by
  obtain ⟨hnew, holdest, hroom⟩ := hok
  obtain ⟨c₁, hc₁, hk, hnew₁⟩ : ∃ c₁, c.rotate loadLimit = some c₁ ∧ Keeps c₁ ∧
      ∀ t ∈ c₁.currentGeneration :: c₁.generations, ¬ t.Holds k := h.rotate hnew holdest
  obtain ⟨bs, hc⟩ := hk.current
  have hfresh : k ∉ bs (c₁.currentGeneration.bucket k) := by
    rw [← hc.toChained.holds_iff]
    exact hnew₁ _ List.mem_cons_self
  obtain ⟨r, bs', hr, hc', hsub, -⟩ := hc.add hfresh (hroom c₁ hc₁)
  refine ⟨{ c₁ with currentGeneration := r.1 }, ?_, ⟨bs', hc'⟩, hk.older, ?_⟩
  · rw [LeastRecentlyUsedGenerationsCache.add, hc₁, Option.bind_some, hr]
    rfl
  · refine hk.apart.gain (fun x hx => ?_) fun u hu => hnew₁ u (List.mem_cons_of_mem _ hu)
    rw [hc'.toChained.holds_iff] at hx
    rw [hc.toChained.holds_iff]
    exact hsub _ x hx

theorem keeps_new (sizePerGeneration maxNumberOfGenerations : Nat) :
    Keeps (new loadLimit sizePerGeneration maxNumberOfGenerations :
      LeastRecentlyUsedGenerationsCache K) where
  current := ⟨_, clean_empty (chained_newGeneration loadLimit) rfl⟩
  older _ ht := absurd ht List.not_mem_nil
  apart := List.pairwise_singleton _ _

/-- **Where hits are taken out of their chains, the generations stay apart**, and a hit in an older
generation moves exactly the entry that is found. -/
theorem cache_run (loadLimit : Nat → Nat) (sizePerGeneration maxNumberOfGenerations : Nat)
    (calls : List (Call K)) (hok : Run.Along (step loadLimit) (CallOk loadLimit)
      (new loadLimit sizePerGeneration maxNumberOfGenerations) calls) :
    ∃ c, Run.run (step loadLimit) (new loadLimit sizePerGeneration maxNumberOfGenerations) calls =
        some c ∧ Sound c ∧
      ∀ q, CallOk loadLimit c (.get q) →
        ∃ found c', c.get loadLimit q = some (found, c') ∧ c.Answers q found c' := by
  suffices hrun : ∀ (calls : List (Call K)) (c : LeastRecentlyUsedGenerationsCache K), Keeps c →
      Run.Along (step loadLimit) (CallOk loadLimit) c calls →
      ∃ c', Run.run (step loadLimit) c calls = some c' ∧ Keeps c' by
    obtain ⟨c, hc, hk⟩ := hrun calls _ (keeps_new _ _) hok
    refine ⟨c, hc, hk.sound, fun q hq => ?_⟩
    obtain ⟨found, c', hget, -, hanswers⟩ := hk.get hq
    exact ⟨found, c', hget, hanswers⟩
  intro calls
  induction calls with
  | nil => exact fun c h _ => ⟨c, rfl, h⟩
  | cons call calls ih =>
    intro c h hok
    have hstep : ∃ c₁, step loadLimit c call = some c₁ ∧ Keeps c₁ := by
      cases call with
      | add k => exact h.add hok.1
      | get q =>
        obtain ⟨found, c₁, hget, hk, -⟩ := h.get hok.1
        exact ⟨c₁, by rw [step, hget]; rfl, hk⟩
    obtain ⟨c₁, hc₁, h₁⟩ := hstep
    obtain ⟨c', hc', h'⟩ := ih c₁ h₁ (hok.2 c₁ hc₁)
    exact ⟨c', Run.run_cons.mpr ⟨c₁, hc₁, hc'⟩, h'⟩

/-- The third entry begins a generation; the second one is then found at the first link. -/
theorem cache_run_link :
    ∃ c, Run.run (step sixTenths) (new sixTenths 2 3)
        [.add ⟨1, 7, 0⟩, .add ⟨2, 7 + 8171, 0⟩, .add ⟨3, 1, 0⟩,
          .get ⟨7 + 8171, fun k => k.offset = 2⟩] = some c ∧ Sound c ∧
      ∀ q : Query PackedState, CallOk sixTenths c (.get q) →
        ∃ found c', c.get sixTenths q = some (found, c') ∧ c.Answers q found c' :=
  cache_run (K := PackedState) sixTenths 2 3 [.add ⟨1, 7, 0⟩, .add ⟨2, 7 + 8171, 0⟩, .add ⟨3, 1, 0⟩,
    .get ⟨7 + 8171, fun k => k.offset = 2⟩] (by decide +kernel)

/-- An entry without links is found in the older generation, and stays there. -/
theorem not_cache_run : ¬ ∀ calls : List (Call PackedState),
    ∃ c, Run.run (step sixTenths) (new sixTenths 1 3) calls = some c ∧ Sound c := by
  intro h
  obtain ⟨c, hc, hs⟩ := h [.add ⟨1, 5, 0⟩, .add ⟨2, 6, 0⟩, .get (exactly ⟨1, 5, 0⟩)]
  have hboth : (Run.run (step sixTenths) (new sixTenths 1 3 :
      LeastRecentlyUsedGenerationsCache PackedState)
      [.add ⟨1, 5, 0⟩, .add ⟨2, 6, 0⟩, .get (exactly ⟨1, 5, 0⟩)]).map
        (fun c => (c.currentGeneration :: c.generations).map fun t =>
          decide (t.Holds (⟨1, 5, 0⟩ : PackedState))) = some [true, true] := by
    decide +kernel
  rw [hc, Option.map_some, Option.some.injEq, List.map_cons] at hboth
  obtain ⟨hcurrent, hrest⟩ := List.cons.inj hboth
  obtain ⟨g, hg, hold⟩ := List.map_eq_singleton_iff.mp hrest
  have hapart := hs.apart
  rw [Apart, hg, List.pairwise_cons] at hapart
  exact hapart.1 g List.mem_cons_self _ (of_decide_eq_true hcurrent) (of_decide_eq_true hold)

end LeastRecentlyUsedGenerationsCache

end Keyvi.Fsa
