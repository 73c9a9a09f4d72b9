import Mathlib

/-!
# Depth first walks

A tree is given by the labels of the children of each path. Paths are kept as trails, the last
label first, since a walk only ever changes the end of its path.

A walk stands at a trail and holds, for every level from its own up to the root, the labels it
has not entered yet. `pending` lists what it will still visit; descending and going up only move
along that list.
-/

namespace Preorder

variable {α : Type*} (children : List α → List α)

/-- The trails below a trail in preorder, at most `n` levels deep. -/
def below : Nat → List α → List (List α)
  | 0, _ => []
  | n + 1, p => (children p).flatMap fun c => (c :: p) :: below n (c :: p)

/-- No path is longer than `B`. -/
def Bounded (B : Nat) : Prop := ∀ p, B ≤ p.length → children p = []

/-- The trails below a trail of a tree that is bounded by `B`. -/
def subtree (B : Nat) (p : List α) : List (List α) := below children (B - p.length) p

/-- The trails a walk will still visit. -/
def pending (B : Nat) : List α → List (List α) → List (List α)
  | _, [] => []
  | p, r :: rs => (r.flatMap fun c => (c :: p) :: subtree children B (c :: p)) ++ pending B p.tail rs

/-- The levels above the trail: the label taken there and the ones not entered yet end the list of
the children. -/
def Ancestors : List α → List (List α) → Prop
  | [], rs => rs = []
  | _ :: _, [] => False
  | c :: p, r :: rs => (c :: r) <:+ children p ∧ Ancestors p rs

/-- A strict extension of the trail in the tree. -/
inductive Extends (p : List α) : List α → Prop
  | child {c : α} : c ∈ children p → Extends p (c :: p)
  | step {q : List α} {c : α} : Extends p q → c ∈ children q → Extends p (c :: q)

variable {children} {B : Nat}

theorem subtree_eq (hB : Bounded children B) (p : List α) :
    subtree children B p =
      (children p).flatMap fun c => (c :: p) :: subtree children B (c :: p) := by
  unfold subtree
  by_cases h : p.length < B
  · obtain ⟨n, hn⟩ : ∃ n, B - p.length = n + 1 := ⟨B - p.length - 1, by omega⟩
    have hn' : ∀ c, B - (c :: p).length = n := by simp only [List.length_cons]; omega
    simp only [hn, hn', below]
  · rw [hB p (by omega), show B - p.length = 0 by omega]
    rfl

/-- Going up. -/
@[simp] theorem pending_up (p : List α) (rs : List (List α)) :
    pending children B p ([] :: rs) = pending children B p.tail rs := by
  simp [pending]

/-- Descending to the next child visits it. -/
theorem pending_descend (hB : Bounded children B) (p : List α) (c : α) (r : List α)
    (rs : List (List α)) :
    pending children B p ((c :: r) :: rs) =
      (c :: p) :: pending children B (c :: p) (children (c :: p) :: r :: rs) := by
  simp [pending, subtree_eq hB (c :: p)]

/-- A walk that starts at the root visits everything. -/
theorem pending_root (hB : Bounded children B) :
    pending children B [] [children []] = subtree children B [] := by
  simp [pending, subtree_eq hB []]

/-- The next trail that is pending leaves the current one behind. -/
theorem tail_suffix_of_pending : ∀ {p : List α} {rs : List (List α)} {q : List α}
    {rest : List (List α)}, pending children B p rs = q :: rest → q.tail <:+ p
  | p, [] :: rs, q, rest, h => by
    rw [pending_up] at h
    exact (tail_suffix_of_pending h).trans (List.tail_suffix p)
  | p, (c :: r) :: rs, q, rest, h => by
    simp only [pending, List.flatMap_cons, List.cons_append, List.cons.injEq] at h
    rw [← h.1]
    exact List.suffix_rfl

/-! ## What is visited -/

theorem Extends.suffix {p q : List α} (h : Extends children p q) : p <:+ q := by
  induction h with
  | child _ => exact List.suffix_cons _ _
  | step _ _ ih => exact ih.trans (List.suffix_cons _ _)

theorem Extends.length_lt {p q : List α} (h : Extends children p q) : p.length < q.length := by
  induction h with
  | child _ => simp
  | step _ _ ih => simp only [List.length_cons]; omega

theorem Extends.of_child {p q : List α} {c : α} (hc : c ∈ children p)
    (h : Extends children (c :: p) q) : Extends children p q := by
  induction h with
  | child hd => exact .step (.child hc) hd
  | step _ hd ih => exact .step ih hd

/-- An extension starts with a child. -/
theorem extends_iff {p q : List α} :
    Extends children p q ↔ ∃ c ∈ children p, q = c :: p ∨ Extends children (c :: p) q := by
  constructor
  · intro h
    induction h with
    | child hc => exact ⟨_, hc, .inl rfl⟩
    | step _ hd ih =>
      obtain ⟨c, hc, rfl | h⟩ := ih
      · exact ⟨c, hc, .inr (.child hd)⟩
      · exact ⟨c, hc, .inr (.step h hd)⟩
  · rintro ⟨c, hc, rfl | h⟩
    · exact .child hc
    · exact h.of_child hc

theorem extends_of_mem_below {n : Nat} : ∀ {p q : List α}, q ∈ below children n p →
    Extends children p q := by
  induction n with
  | zero => intro p q hq; cases hq
  | succ n ih =>
    intro p q hq
    obtain ⟨c, hc, hq⟩ := List.mem_flatMap.mp hq
    exact extends_iff.mpr ⟨c, hc, (List.mem_cons.mp hq).imp_right ih⟩

/-- The levels that were asked for are complete. -/
theorem mem_below_of_extends {n : Nat} : ∀ {p q : List α}, Extends children p q →
    q.length ≤ p.length + n → q ∈ below children n p := by
  induction n with
  | zero => intro p q hq hn; exact absurd hq.length_lt (by omega)
  | succ n ih =>
    intro p q hq hn
    obtain ⟨c, hc, h⟩ := extends_iff.mp hq
    refine List.mem_flatMap.mpr ⟨c, hc, List.mem_cons.mpr (h.imp_right fun h => ih h ?_)⟩
    simp only [List.length_cons]
    omega

theorem Extends.length_le (hB : Bounded children B) {p q : List α} (h : Extends children p q) :
    q.length ≤ B := by
  have hlt : ∀ {r : List α} {c : α}, c ∈ children r → r.length < B := by
    intro r c hc
    by_contra hr
    rw [hB r (by omega)] at hc
    cases hc
  cases h with
  | child hc => exact hlt hc
  | step _ hc => exact hlt hc

theorem mem_below {n : Nat} (hB : Bounded children B) {p q : List α} (hn : B - p.length ≤ n) :
    q ∈ below children n p ↔ Extends children p q :=
  ⟨extends_of_mem_below, fun h => mem_below_of_extends h (by have := h.length_le hB; omega)⟩

/-- **The subtree lists the extensions of its trail.** -/
theorem mem_subtree (hB : Bounded children B) {p q : List α} :
    q ∈ subtree children B p ↔ Extends children p q :=
  mem_below hB le_rfl

theorem suffix_of_mem_subtree (hB : Bounded children B) {p q : List α}
    (h : q ∈ subtree children B p) : p <:+ q :=
  ((mem_subtree hB).mp h).suffix

theorem mem_pending_cons (hB : Bounded children B) {p : List α} {r : List α}
    {rs : List (List α)} {q : List α} :
    q ∈ pending children B p (r :: rs) ↔
      (∃ c ∈ r, q = c :: p ∨ Extends children (c :: p) q) ∨ q ∈ pending children B p.tail rs := by
  simp [pending, mem_subtree hB]

/-! ## Pruning

The levels above a trail never lead back below it, since a label occurs once among the children.
-/

/-- Nothing that is pending above a trail extends it. -/
theorem not_suffix_of_mem_pending (hB : Bounded children B) (hnd : ∀ p, (children p).Nodup) :
    ∀ {p : List α} {rs : List (List α)}, Ancestors children p rs →
      ∀ {q : List α}, q ∈ pending children B p.tail rs → ∀ {s : List α}, s <:+ q → ¬ p <:+ s := by
  intro p
  induction p with
  | nil =>
    rintro rs hA q hq s - -
    rw [show rs = [] from hA] at hq
    cases hq
  | cons c p ih =>
    rintro (_ | ⟨r, rs⟩) hA q hq s hs hcs
    · cases hA
    obtain ⟨hr, hA⟩ := hA
    have hcq : (c :: p) <:+ q := hcs.trans hs
    rw [List.tail_cons, mem_pending_cons hB] at hq
    rcases hq with ⟨d, hd, hq⟩ | hq
    · -- The sibling `d` and `c` would be one label of `q`.
      have hdq : (d :: p) <:+ q := by
        rcases hq with rfl | hq
        · exact List.suffix_rfl
        · exact hq.suffix
      have hcd : c :: p = d :: p :=
        (List.suffix_of_suffix_length_le hcq hdq (by simp)).eq_of_length (by simp)
      obtain rfl : c = d := (List.cons.inj hcd).1
      exact (List.nodup_cons.mp ((hnd p).sublist hr.sublist)).1 hd
    · exact ih hA hq hcq (List.suffix_cons c p)

/-- **Leaving a trail drops exactly what lies below it.** -/
theorem filter_pending (hB : Bounded children B) (hnd : ∀ p, (children p).Nodup) [DecidableEq α]
    {c : α} {p r : List α} {rs : List (List α)} (hA : Ancestors children (c :: p) rs) :
    (pending children B (c :: p) (r :: rs)).filter (fun q => ¬ (c :: p) <:+ q) =
      pending children B p rs := by
  have hbelow : ∀ q ∈ r.flatMap (fun d => (d :: c :: p) :: subtree children B (d :: c :: p)),
      (c :: p) <:+ q := by
    intro q hq
    obtain ⟨d, -, hq⟩ := List.mem_flatMap.mp hq
    rcases List.mem_cons.mp hq with rfl | hq
    · exact List.suffix_cons d _
    · exact (List.suffix_cons d _).trans (suffix_of_mem_subtree hB hq)
  rw [pending, List.filter_append, List.filter_eq_nil_iff.mpr (by simpa using hbelow),
    List.nil_append, List.tail_cons, List.filter_eq_self]
  intro q hq
  have h := not_suffix_of_mem_pending hB hnd hA (q := q) (by simpa using hq) List.suffix_rfl
  simpa using h

/-! ## One visit after the other

A caller that keeps the labels of the last visit finds those of the next one among them, up to its
last label. Leaving out what lies below a trail keeps this.
-/

/-- Each visit extends a trail above the one before it by one label. -/
def Continues : List α → List (List α) → Prop
  | _, [] => True
  | p, q :: rest => q.tail <:+ p ∧ Continues q rest

/-- What is left after a visit is pending there. -/
theorem pending_tail (hB : Bounded children B) : ∀ {p : List α} {rs : List (List α)} {q : List α}
    {rest : List (List α)}, pending children B p rs = q :: rest →
    ∃ rs', rest = pending children B q rs'
  | p, [] :: rs, q, rest, h => by
    rw [pending_up] at h
    exact pending_tail hB h
  | p, (c :: r) :: rs, q, rest, h => by
    rw [pending_descend hB, List.cons.injEq] at h
    obtain ⟨rfl, rfl⟩ := h
    exact ⟨_, rfl⟩

theorem continues_pending (hB : Bounded children B) : ∀ {l : List (List α)} {p : List α}
    {rs : List (List α)}, l = pending children B p rs → Continues p l
  | [], _, _, _ => trivial
  | _ :: _, _, _, h => by
    obtain ⟨rs', hrest⟩ := pending_tail hB h.symm
    exact ⟨tail_suffix_of_pending h.symm, continues_pending hB hrest⟩

/-- **The visits of a subtree continue each other.** -/
theorem continues_subtree (hB : Bounded children B) : Continues [] (subtree children B []) :=
  continues_pending hB (pending_root hB).symm

/-- Every visit is above the last one by all but its label, or below another visit. -/
theorem Continues.tail_mem : ∀ {l : List (List α)} {r : List α}, Continues r l →
    ∀ q ∈ l, q.tail <:+ r ∨ q.tail ∈ l
  | q :: l, r, h, x, hx => by
    rcases List.mem_cons.mp hx with rfl | hx
    · exact .inl h.1
    · rcases h.2.tail_mem x hx with hs | hm
      · rcases hs.length_le.lt_or_eq with hlt | heq
        · refine .inl (List.IsSuffix.trans ?_ h.1)
          exact List.suffix_of_suffix_length_le hs (List.tail_suffix q)
            (by simp only [List.length_tail] at hlt ⊢; omega)
        · exact .inr (hs.eq_of_length heq ▸ List.mem_cons_self)
      · exact .inr (List.mem_cons_of_mem _ hm)

/-- Away from a trail nothing leads below it, unless it is visited itself. -/
theorem Continues.not_suffix {p : List α} : ∀ {l : List (List α)} {r : List α}, Continues r l →
    ¬ p <:+ r → p ∉ l → ∀ q ∈ l, ¬ p <:+ q
  | q :: l, r, h, hr, hl, x, hx => by
    have hq : ¬ p <:+ q := by
      intro hpq
      cases q with
      | nil => exact hl (List.suffix_nil.mp hpq ▸ List.mem_cons_self)
      | cons c q =>
        rcases List.suffix_cons_iff.mp hpq with rfl | hpq
        · exact hl List.mem_cons_self
        · exact hr (hpq.trans h.1)
    rcases List.mem_cons.mp hx with rfl | hx
    · exact hq
    · exact h.2.not_suffix hq (fun hp => hl (List.mem_cons_of_mem _ hp)) x hx

/-- **Without what lies below a trail the visits still continue each other.** -/
theorem Continues.filter [DecidableEq α] {p prev : List α} (hp : p.tail <:+ prev) :
    ∀ {l : List (List α)} {r : List α}, Continues r l → p <:+ r → p ∉ l →
      Continues prev (l.filter fun q => ¬ p <:+ q)
  | [], _, _, _, _ => trivial
  | q :: l, r, h, hr, hl => by
    have hl' : p ∉ l := fun hp => hl (List.mem_cons_of_mem _ hp)
    by_cases hq : p <:+ q
    · rw [List.filter_cons_of_neg (by simpa using hq)]
      exact Continues.filter hp h.2 hq hl'
    · have hrest : (l.filter fun q => ¬ p <:+ q) = l := by
        rw [List.filter_eq_self]
        intro x hx
        simpa using h.2.not_suffix hq hl' x hx
      rw [List.filter_cons_of_pos (by simpa using hq), hrest]
      refine ⟨?_, h.2⟩
      -- The tail is above the trail, so it is above the end of the visit before it.
      have hlt : q.tail.length < p.length := by
        by_contra hle
        exact hq ((List.suffix_of_suffix_length_le hr h.1 (by omega)).trans (List.tail_suffix q))
      exact (List.suffix_of_suffix_length_le h.1 ((List.tail_suffix p).trans hr)
        (by simp only [List.length_tail] at hlt ⊢; omega)).trans hp

/-! ## The order of the visits

`step p c` says where the child `c` stands among the children of `p`. The steps from the root down to
a trail are its key, and the visits come in the order of the keys.
-/

section Order

variable {β : Type*} {step : List α → α → β}

/-- The steps down to a trail. -/
def key (step : List α → α → β) : List α → List β
  | [] => []
  | c :: p => key step p ++ [step p c]

theorem key_label (p : List α) : key (fun _ c => c) p = p.reverse := by
  induction p with
  | nil => rfl
  | cons c p ih => rw [key, ih, List.reverse_cons]

theorem length_key (step : List α → α → β) (p : List α) : (key step p).length = p.length := by
  induction p with
  | nil => rfl
  | cons c p ih => rw [key, List.length_append, ih, List.length_singleton, List.length_cons]

theorem key_prefix (step : List α → α → β) {p q : List α} (h : p <:+ q) : key step p <+: key step q := by
  induction q with
  | nil => rw [List.suffix_nil.mp h]
  | cons c q ih =>
    rcases List.suffix_cons_iff.mp h with rfl | h
    · exact List.prefix_rfl
    · exact (ih h).trans (List.prefix_append _ _)

variable [LinearOrder β]

theorem append_lt_append {p a b : List β} (h : a < b) : p ++ a < p ++ b := by
  induction p with
  | nil => exact h
  | cons x p ih => exact List.cons_lt_cons_iff.mpr (.inr ⟨rfl, ih⟩)

theorem lt_append {p a : List β} (h : a ≠ []) : p < p ++ a := by
  obtain ⟨x, a, rfl⟩ := List.exists_cons_of_ne_nil h
  have : p ++ [] < p ++ x :: a := append_lt_append (List.nil_lt_cons x a)
  simpa using this

/-- A longer trail comes after the trails above it. -/
theorem key_lt_of_suffix (step : List α → α → β) {p q : List α} (h : p <:+ q)
    (hlt : p.length < q.length) : key step p < key step q := by
  obtain ⟨w, hw⟩ := key_prefix step h
  rw [← hw]
  refine lt_append ?_
  rintro rfl
  have := congrArg List.length hw
  rw [List.append_nil, length_key, length_key] at this
  omega

/-- What extends an earlier child comes first. -/
theorem key_lt_of_step (step : List α → α → β) {p q q' : List α} {c d : α}
    (hcd : step p c < step p d) (hq : (c :: p) <:+ q) (hq' : (d :: p) <:+ q') : key step q < key step q' := by
  obtain ⟨w, hw⟩ := key_prefix step hq
  obtain ⟨w', hw'⟩ := key_prefix step hq'
  rw [← hw, ← hw', key, key, List.append_assoc, List.append_assoc]
  exact append_lt_append (List.cons_lt_cons_iff.mpr (.inl hcd))

theorem pairwise_below (hsort : ∀ p, (children p).Pairwise fun c d => step p c < step p d)
    (hB : Bounded children B) (n : Nat) : ∀ p, B - p.length ≤ n →
      (below children n p).Pairwise fun a b => key step a < key step b := by
  induction n with
  | zero => intro p _; exact List.Pairwise.nil
  | succ n ih =>
    intro p hn
    have hn' : ∀ c, B - (c :: p).length ≤ n := by
      intro c
      simp only [List.length_cons]
      omega
    rw [below, List.pairwise_flatMap]
    constructor
    · intro c _
      rw [List.pairwise_cons]
      refine ⟨fun q hq => ?_, ih _ (hn' c)⟩
      have he := (mem_below hB (hn' c)).mp hq
      exact key_lt_of_suffix step he.suffix he.length_lt
    · refine (hsort p).imp fun {c d} hcd q hq q' hq' => ?_
      have hsuf : ∀ (e : α) (x : List α), x ∈ (e :: p) :: below children n (e :: p) →
          (e :: p) <:+ x := by
        intro e x hx
        rcases List.mem_cons.mp hx with rfl | hx
        · exact List.suffix_rfl
        · exact ((mem_below hB (hn' e)).mp hx).suffix
      exact key_lt_of_step step hcd (hsuf c q hq) (hsuf d q' hq')

/-- **With sorted children the visits come in the order of the keys.** -/
theorem pairwise_key_subtree (step : List α → α → β)
    (hsort : ∀ p, (children p).Pairwise fun c d => step p c < step p d)
    (hB : Bounded children B) (p : List α) :
    (subtree children B p).Pairwise fun a b => key step a < key step b :=
  pairwise_below hsort hB _ p le_rfl

/-- With ascending labels the visits come in lexicographic order. -/
theorem pairwise_subtree [LinearOrder α] (hsort : ∀ p, (children p).Pairwise (· < ·))
    (hB : Bounded children B) (p : List α) :
    (subtree children B p).Pairwise fun a b => a.reverse < b.reverse := by
  have h := pairwise_key_subtree (fun _ c => c) hsort hB p
  simpa only [key_label] using h

end Order

end Preorder
