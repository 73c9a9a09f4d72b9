import Mathlib
import Keyvi.Fsa.ZipStateTraverser

/-!
# The zipped traverser walks the union

Each inner traverser walks its own tree. All of them follow one list of trails, the paths of the
union that are still to be visited: an inner traverser stands at the first of them that it has.
`QueueAt` is that invariant; a move takes the first trail, or with `Prune` all trails below it, off
the list.

The specialisations order the trails in different ways. A `Discipline` says how, and what it means
that an inner traverser stands at a trail.
-/

namespace Keyvi.Fsa

/-- An inner traverser: its order, its automaton and the state it starts from. -/
structure Source where
  order : Nat
  fsa : Automata
  start : Nat

namespace Source

/-- The source has a path. -/
def hasPath (s : Source) (q : List Byte) : Bool := s.fsa.trailState s.start q ≠ 0

/-- The path is a key of the source. -/
def hasKey (s : Source) (q : List Byte) : Bool :=
  s.hasPath q && s.fsa.isFinalState (s.fsa.trailState s.start q)

theorem hasPath_of_suffix {s : Source} {p q : List Byte} (h : p <:+ q) (hq : s.hasPath q = true) :
    s.hasPath p = true := by
  obtain ⟨w, rfl⟩ := h
  simp only [hasPath, decide_eq_true_eq] at hq ⊢
  exact Automata.trailState_of_append hq

/-- The sources have different orders and their paths are trees. -/
structure WellFormed (sources : List Source) (B : Nat) : Prop where
  nodup : (sources.map order).Nodup
  tree : ∀ s ∈ sources, s.fsa.Tree s.start B

theorem WellFormed.eq_of_order {sources : List Source} {B : Nat} (h : WellFormed sources B)
    {s s' : Source} (hs : s ∈ sources) (hs' : s' ∈ sources) (ho : s.order = s'.order) : s = s' :=
  List.inj_on_of_nodup_map h.nodup hs hs' ho

end Source

open Source

variable {τ π κ : Type} [ZipT τ π] [LinearOrder κ]

/-- The order of the trails, and when an inner traverser stands at a trail with a list of trails left
to visit. -/
structure Discipline (τ π κ : Type) [ZipT τ π] [LinearOrder κ] where
  pathKey : List Byte → κ
  stands : Source → ComparableStateTraverser τ π → List Byte → List (List Byte) → Prop
  key_lt : ∀ p q, p <:+ q → p.length < q.length → pathKey p < pathKey q
  equals : ∀ c d : ComparableStateTraverser τ π,
    ZipT.equals c d = true ↔ c.labelStack = d.labelStack
  labels : ∀ s c p rest, stands s c p rest → c.labelStack = p.reverse
  fsa : ∀ s c p rest, stands s c p rest → c.stateTraverser.fsa = s.fsa
  state : ∀ s c p rest, stands s c p rest →
    c.stateTraverser.currentState = s.fsa.trailState s.start p
  alive : ∀ s c p rest, stands s c p rest → c.alive = true
  depth : ∀ s c p rest, stands s c p rest → c.stateTraverser.getDepth = p.length
  label : ∀ s c p rest, stands s c p rest → ∀ x ∈ p.head?, c.stateTraverser.currentLabel = x

namespace Discipline

variable (D : Discipline τ π κ)

/-- The trail first, then the later automaton. -/
def key (c : ComparableStateTraverser τ π) : κ ×ₗ Natᵒᵈ :=
  toLex (D.pathKey c.labelStack.reverse, OrderDual.toDual c.order)

theorem key_lt_iff {c d : ComparableStateTraverser τ π} :
    D.key c < D.key d ↔ D.pathKey c.labelStack.reverse < D.pathKey d.labelStack.reverse ∨
      D.pathKey c.labelStack.reverse = D.pathKey d.labelStack.reverse ∧ d.order < c.order :=
  Prod.Lex.toLex_lt_toLex

theorem key_ne_of_order_ne {c d : ComparableStateTraverser τ π} (h : c.order ≠ d.order) :
    D.key c ≠ D.key d := by
  intro he
  have : OrderDual.toDual c.order = OrderDual.toDual d.order := congrArg (fun x => (ofLex x).2) he
  exact h this

/-- The paths to visit: in order, without the empty one, and each in some source. -/
structure Agenda (sources : List Source) (L : List (List Byte)) : Prop where
  ascending : L.Pairwise fun p q => D.pathKey p < D.pathKey q
  nonempty : ∀ q ∈ L, q ≠ []
  covered : ∀ q ∈ L, ∃ s ∈ sources, s.hasPath q = true

/-- The traverser stands at the first path of the list that its source has. -/
def StandsAt (s : Source) (c : ComparableStateTraverser τ π) (L : List (List Byte)) : Prop :=
  ∃ q rest, L.filter s.hasPath = q :: rest ∧ D.stands s c q rest

/-- The traverser is at the first of the paths, or at its end. -/
def Arrives (s : Source) (c : ComparableStateTraverser τ π) : List (List Byte) → Prop
  | [] => c.alive = false
  | q :: rest => D.stands s c q rest

/-- **The invariant of the queue.** -/
structure QueueAt (sources : List Source) (queue : List (ComparableStateTraverser τ π))
    (L : List (List Byte)) : Prop where
  sound : ∀ c ∈ queue, ∃ s ∈ sources, c.order = s.order ∧ D.StandsAt s c L
  complete : ∀ s ∈ sources, L.filter s.hasPath ≠ [] → ∃ c ∈ queue, c.order = s.order
  nodup : (queue.map ComparableStateTraverser.order).Nodup
  sorted : queue.Pairwise fun c d => D.key c < D.key d

/-- The front of the queue: the traversers at the first path. -/
structure Front (sources : List Source) (front back : List (ComparableStateTraverser τ π))
    (p : List Byte) (L' : List (List Byte)) : Prop where
  ne_nil : front ≠ []
  front_at : ∀ c ∈ front, ∃ s ∈ sources, c.order = s.order ∧ s.hasPath p = true ∧
    D.stands s c p (L'.filter s.hasPath)
  back_at : ∀ c ∈ back, ∃ s ∈ sources, c.order = s.order ∧ s.hasPath p = false ∧
    D.StandsAt s c L'
  back_after : ∀ c ∈ back, D.pathKey p < D.pathKey c.labelStack.reverse

end Discipline

section

variable {D : Discipline τ π κ} {sources : List Source} {B : Nat}
  {queue : List (ComparableStateTraverser τ π)} {L L' : List (List Byte)} {p : List Byte}

namespace Discipline

theorem Agenda.sublist (h : D.Agenda sources L) (hs : L'.Sublist L) : D.Agenda sources L' :=
  ⟨h.ascending.sublist hs, fun q hq => h.nonempty q (hs.subset hq),
    fun q hq => h.covered q (hs.subset hq)⟩

theorem StandsAt.head_mem {s : Source} {c : ComparableStateTraverser τ π}
    (h : D.StandsAt s c L) : ∃ q ∈ L, s.hasPath q = true ∧ c.labelStack.reverse = q := by
  obtain ⟨q, rest, hf, hat⟩ := h
  have hq : q ∈ L.filter s.hasPath := hf ▸ List.mem_cons_self
  refine ⟨q, (List.mem_filter.mp hq).1, (List.mem_filter.mp hq).2, ?_⟩
  rw [D.labels _ _ _ _ hat, List.reverse_reverse]

theorem filter_cons_of_hasPath {s : Source} (h : s.hasPath p = true) :
    (p :: L').filter s.hasPath = p :: L'.filter s.hasPath :=
  List.filter_cons_of_pos h

/-- A traverser is at the first path exactly when its source has the path. -/
theorem StandsAt.at_iff {s : Source} {c : ComparableStateTraverser τ π}
    (h : D.StandsAt s c (p :: L')) : c.labelStack.reverse = p ↔ s.hasPath p = true := by
  constructor
  · intro hl
    obtain ⟨q, -, hq, hl'⟩ := h.head_mem
    rwa [← hl, hl']
  · intro hp
    obtain ⟨q, rest, hf, hat⟩ := h
    rw [filter_cons_of_hasPath hp] at hf
    rw [D.labels _ _ _ _ hat, List.reverse_reverse, (List.cons.inj hf).1]

/-- A traverser is at the first path, or its path comes after it. -/
theorem QueueAt.at_or_after (hL : D.Agenda sources (p :: L')) (h : D.QueueAt sources queue (p :: L'))
    {c : ComparableStateTraverser τ π} (hc : c ∈ queue) :
    c.labelStack.reverse = p ∨ D.pathKey p < D.pathKey c.labelStack.reverse := by
  obtain ⟨s, -, -, hstand⟩ := h.sound c hc
  obtain ⟨q, hq, -, hl⟩ := hstand.head_mem
  rw [hl]
  rcases List.mem_cons.mp hq with rfl | hq
  · exact .inl rfl
  · exact .inr (List.rel_of_pairwise_cons hL.ascending hq)

/-- The first traverser behind those at the first path has a larger key, so all behind it have. -/
theorem QueueAt.after_front (hL : D.Agenda sources (p :: L')) (h : D.QueueAt sources queue (p :: L')) :
    ∀ c ∈ queue.dropWhile (fun c => c.labelStack.reverse = p),
      D.pathKey p < D.pathKey c.labelStack.reverse := by
  have hsub := List.dropWhile_sublist (l := queue)
    fun c : ComparableStateTraverser τ π => decide (c.labelStack.reverse = p)
  have hsort := h.sorted.sublist hsub
  intro c hc
  cases hd : queue.dropWhile (fun c => c.labelStack.reverse = p) with
  | nil =>
    rw [hd] at hc
    cases hc
  | cons d q =>
    have hdne : d.labelStack.reverse ≠ p := by
      have := List.head_dropWhile_not (fun c : ComparableStateTraverser τ π =>
        decide (c.labelStack.reverse = p)) (l := queue) (by simp [hd])
      simpa [hd] using this
    have hdlt : D.pathKey p < D.pathKey d.labelStack.reverse :=
      (h.at_or_after hL (hsub.subset (hd ▸ List.mem_cons_self))).resolve_left hdne
    rw [hd] at hc hsort
    rcases List.mem_cons.mp hc with rfl | hc
    · exact hdlt
    · have hk := List.rel_of_pairwise_cons hsort hc
      rw [key_lt_iff] at hk
      exact hk.elim hdlt.trans fun hk => hk.1 ▸ hdlt

/-- Some source has the first path; its traverser has the smallest key, so the queue begins there. -/
theorem QueueAt.head_at (hw : WellFormed sources B) (hL : D.Agenda sources (p :: L'))
    (h : D.QueueAt sources queue (p :: L')) :
    ∃ t rest, queue = t :: rest ∧ t.labelStack.reverse = p := by
  obtain ⟨s, hs, hp⟩ := hL.covered p List.mem_cons_self
  obtain ⟨c, hc, hco⟩ := h.complete s hs (by simp [filter_cons_of_hasPath hp])
  obtain ⟨s', hs', hco', hstand⟩ := h.sound c hc
  obtain rfl := hw.eq_of_order hs' hs (hco'.symm.trans hco)
  have hcl := hstand.at_iff.mpr hp
  cases queue with
  | nil => cases hc
  | cons t rest =>
    refine ⟨t, rest, rfl, (h.at_or_after hL List.mem_cons_self).resolve_right fun hlt => ?_⟩
    rcases List.mem_cons.mp hc with rfl | hc
    · rw [hcl] at hlt
      exact lt_irrefl _ hlt
    · have hk := List.rel_of_pairwise_cons h.sorted hc
      rw [key_lt_iff, hcl] at hk
      rcases hk with hk | hk
      · exact lt_asymm hlt hk
      · exact absurd hk.1 hlt.ne'

/-- A queue splits into the traversers at the first path and those behind it. -/
theorem QueueAt.front (hw : WellFormed sources B) (hL : D.Agenda sources (p :: L'))
    (h : D.QueueAt sources queue (p :: L')) :
    ∃ front back, queue = front ++ back ∧ D.Front sources front back p L' := by
  refine ⟨queue.takeWhile fun c => c.labelStack.reverse = p,
    queue.dropWhile fun c => c.labelStack.reverse = p,
    (List.takeWhile_append_dropWhile).symm, ?_, ?_, ?_, h.after_front hL⟩
  · -- The queue begins at the first path, so the front is not empty.
    obtain ⟨t, rest, rfl, ht⟩ := h.head_at hw hL
    rw [List.takeWhile_cons_of_pos (by simpa using ht)]
    simp
  · intro c hc
    have hl : c.labelStack.reverse = p := by simpa using List.mem_takeWhile_imp hc
    obtain ⟨s, hs, hco, hstand⟩ := h.sound c ((List.takeWhile_sublist _).subset hc)
    have hp := hstand.at_iff.mp hl
    obtain ⟨q, rest, hf, hat⟩ := hstand
    rw [filter_cons_of_hasPath hp] at hf
    obtain ⟨rfl, rfl⟩ := List.cons.inj hf
    exact ⟨s, hs, hco, hp, hat⟩
  · -- The source of a traverser behind the front does not have the path.
    intro c hc
    obtain ⟨s, hs, hco, hstand⟩ := h.sound c ((List.dropWhile_sublist _).subset hc)
    have hp : s.hasPath p = false := by
      rw [← Bool.not_eq_true, ← hstand.at_iff]
      intro he
      have hlt := h.after_front hL c hc
      rw [he] at hlt
      exact lt_irrefl _ hlt
    obtain ⟨q, rest, hf, hat⟩ := hstand
    rw [List.filter_cons_of_neg (by simp [hp])] at hf
    exact ⟨s, hs, hco, hp, q, rest, hf, hat⟩

/-- A move of the front: it is changed by `f` (nothing, `Prune`, or new weights) and advanced, and the
sources behind it see the same list before and after. -/
structure FrontMove (D : Discipline τ π κ) (sources : List Source)
    (front : List (ComparableStateTraverser τ π)) (p : List Byte) (L' : List (List Byte))
    (f : ComparableStateTraverser τ π → ComparableStateTraverser τ π) (p' : List Byte)
    (L₁ : List (List Byte)) : Prop where
  suffix : p' <:+ p
  sublist : L₁.Sublist L'
  order : ∀ c, (f c).order = c.order
  labels : ∀ c ∈ front, (f c).labelStack = p'.reverse
  arrives : ∀ c ∈ front, ∀ s ∈ sources, c.order = s.order → s.hasPath p = true →
    D.stands s c p (L'.filter s.hasPath) → D.Arrives s (f c).advance (L₁.filter s.hasPath)
  same : ∀ s ∈ sources, s.hasPath p = false → L₁.filter s.hasPath = L'.filter s.hasPath

section

variable {front back : List (ComparableStateTraverser τ π)} {p' : List Byte}
  {L₁ : List (List Byte)} {f : ComparableStateTraverser τ π → ComparableStateTraverser τ π}

/-- A traverser of the front is changed and advanced to the next path of its source. -/
theorem FrontMove.arrives_source (hm : D.FrontMove sources front p L' f p' L₁)
    (hfr : D.Front sources front back p L') {c : ComparableStateTraverser τ π} (hc : c ∈ front) :
    ∃ s ∈ sources, c.order = s.order ∧ D.Arrives s (f c).advance (L₁.filter s.hasPath) := by
  obtain ⟨s, hs, hco, hp, hat⟩ := hfr.front_at c hc
  exact ⟨s, hs, hco, hm.arrives c hc s hs hco hp hat⟩

theorem FrontMove.stands (hm : D.FrontMove sources front p L' f p' L₁)
    (hfr : D.Front sources front back p L') {c : ComparableStateTraverser τ π} (hc : c ∈ front)
    (ha : (f c).advance.alive = true) :
    ∃ s ∈ sources, c.order = s.order ∧ D.StandsAt s (f c).advance L₁ := by
  obtain ⟨s, hs, hco, harr⟩ := hm.arrives_source hfr hc
  refine ⟨s, hs, hco, ?_⟩
  cases hf : L₁.filter s.hasPath with
  | nil =>
    rw [hf] at harr
    exact absurd ha (by rw [show (f c).advance.alive = false from harr]; simp)
  | cons q rest =>
    rw [hf] at harr
    exact ⟨q, rest, hf, harr⟩

/-- The advanced ones come after those of the front that wait. -/
theorem FrontMove.after (hm : D.FrontMove sources front p L' f p' L₁)
    (hL : D.Agenda sources (p :: L')) (hfr : D.Front sources front back p L') :
    ∀ c ∈ front.map f, ∀ c' ∈ front.map f, c'.advance.alive = true → D.key c < D.key c'.advance := by
  intro c hc c' hc' ha
  obtain ⟨d, hd, rfl⟩ := List.mem_map.mp hc
  obtain ⟨d', hd', rfl⟩ := List.mem_map.mp hc'
  obtain ⟨s, hs, -, hstand⟩ := hm.stands hfr hd' ha
  obtain ⟨q, hq, -, hlq⟩ := hstand.head_mem
  rw [key_lt_iff, hm.labels d hd, List.reverse_reverse, hlq]
  have hpq := List.rel_of_pairwise_cons hL.ascending (hm.sublist.subset hq)
  refine .inl (lt_of_le_of_lt ?_ hpq)
  rcases hm.suffix.length_le.lt_or_eq with hlt | heq
  · exact (D.key_lt p' p hm.suffix hlt).le
  · exact (congrArg D.pathKey (hm.suffix.eq_of_length heq)).le

/-- The orders in a queue whose front was changed and advanced. -/
theorem FrontMove.nodup (hm : D.FrontMove sources front p L' f p' L₁)
    (hnd : ((front ++ back).map ComparableStateTraverser.order).Nodup) :
    ((back ++ ((front.map f).map ComparableStateTraverser.advance).filter
      ComparableStateTraverser.alive).map ComparableStateTraverser.order).Nodup := by
  rw [List.map_append, List.nodup_append] at hnd
  obtain ⟨hnf, hnb, hdis⟩ := hnd
  have hadv : ((front.map f).map ComparableStateTraverser.advance).map
      ComparableStateTraverser.order = front.map ComparableStateTraverser.order := by
    simp [List.map_map, Function.comp_def, hm.order]
  have hsubl : ((((front.map f).map ComparableStateTraverser.advance).filter
      ComparableStateTraverser.alive).map ComparableStateTraverser.order).Sublist
      (front.map ComparableStateTraverser.order) := by
    rw [← hadv]
    exact List.filter_sublist.map _
  rw [List.map_append, List.nodup_append]
  exact ⟨hnb, hnf.sublist hsubl, fun x hx y hy => (hdis y (hsubl.subset hy) x hx).symm⟩

/-- The queue after the move, whatever the order of its elements was before they were sorted in. -/
theorem FrontMove.queueAt (hm : D.FrontMove sources front p L' f p' L₁)
    (hw : WellFormed sources B) (h : D.QueueAt sources (front ++ back) (p :: L'))
    (hfr : D.Front sources front back p L')
    (hperm : queue.Perm (back ++ ((front.map f).map ComparableStateTraverser.advance).filter
      ComparableStateTraverser.alive))
    (hsorted : queue.Pairwise fun c d => D.key c < D.key d) : D.QueueAt sources queue L₁ := by
  refine ⟨fun c hc => ?_, fun s hs hf => ?_, ?_, hsorted⟩
  · rw [hperm.mem_iff, List.mem_append, List.mem_filter, List.map_map, List.mem_map] at hc
    rcases hc with hc | ⟨⟨c, hc, rfl⟩, ha⟩
    · obtain ⟨s, hs, hco, hp, q, rest, hf, hat⟩ := hfr.back_at c hc
      exact ⟨s, hs, hco, q, rest, (hm.same s hs hp).trans hf, hat⟩
    · obtain ⟨s, hs, hco, hstand⟩ := hm.stands hfr hc ha
      exact ⟨s, hs, by simpa [hm.order] using hco, hstand⟩
  · have hf' : (p :: L').filter s.hasPath ≠ [] := by
      obtain ⟨q, hq⟩ := List.exists_mem_of_ne_nil _ hf
      rw [List.mem_filter] at hq
      exact List.ne_nil_of_mem
        (List.mem_filter.mpr ⟨List.mem_cons_of_mem _ (hm.sublist.subset hq.1), hq.2⟩)
    obtain ⟨c, hc, hco⟩ := h.complete s hs hf'
    rcases List.mem_append.mp hc with hc | hc
    · obtain ⟨s', hs', hco', harr⟩ := hm.arrives_source hfr hc
      obtain rfl := hw.eq_of_order hs' hs (hco'.symm.trans hco)
      refine ⟨(f c).advance, ?_, by simpa [hm.order] using hco⟩
      rw [hperm.mem_iff, List.mem_append, List.mem_filter, List.map_map, List.mem_map]
      refine .inr ⟨⟨c, hc, rfl⟩, ?_⟩
      obtain ⟨q, rest, hq⟩ := List.exists_cons_of_ne_nil hf
      rw [hq] at harr
      exact D.alive _ _ _ _ harr
    · exact ⟨c, hperm.mem_iff.mpr (List.mem_append_left _ hc), hco⟩
  · exact (hperm.map _).nodup_iff.mpr (hm.nodup h.nodup)

/-- **One move of the queue.** The comparison has to be that of the keys for the traversers that meet
here, which is `P`. -/
theorem QueueAt.requeue (hw : WellFormed sources B) (hL : D.Agenda sources (p :: L'))
    (h : D.QueueAt sources (front ++ back) (p :: L')) (hfr : D.Front sources front back p L')
    (hm : D.FrontMove sources front p L' f p' L₁) {P : ComparableStateTraverser τ π → Prop}
    (hless : ∀ c d, P c → P d → (ZipT.less c d = true ↔ D.key c < D.key d))
    (hP : ∀ c ∈ front.map f ++ back, P c)
    (hPf : ∀ c ∈ front.map f, c.advance.alive = true → P c.advance) :
    ∃ queue, SortedQueue.requeue ZipT.less ComparableStateTraverser.advance
        ComparableStateTraverser.alive front.length (front.map f ++ back) = some queue ∧
      D.QueueAt sources queue L₁ := by
  have hnd : ((front ++ back).map ComparableStateTraverser.order).Nodup := h.nodup
  rw [List.map_append, List.nodup_append] at hnd
  obtain ⟨hnf, -, hdis⟩ := hnd
  have hback : back.Pairwise fun c d => D.key c < D.key d :=
    h.sorted.sublist (List.sublist_append_right front back)
  have hne : ∀ c ∈ front.map f, ∀ d ∈ back, D.key c.advance ≠ D.key d := by
    intro c hc d hd
    obtain ⟨c', hc', rfl⟩ := List.mem_map.mp hc
    refine D.key_ne_of_order_ne ?_
    rw [ComparableStateTraverser.order_advance, hm.order]
    exact hdis _ (List.mem_map_of_mem hc') _ (List.mem_map_of_mem hd)
  have hfne : (front.map f).Pairwise fun c d => D.key c.advance ≠ D.key d.advance := by
    rw [List.pairwise_map]
    refine (List.pairwise_map.mp hnf).imp fun hcd => ?_
    exact D.key_ne_of_order_ne (by simpa [hm.order] using hcd)
  obtain ⟨queue, hqueue, hperm, hsorted⟩ :=
    SortedQueue.requeue_spec hless hP hPf hback (hm.after hL hfr) hne hfne
  rw [List.length_map] at hqueue
  exact ⟨queue, hqueue, hm.queueAt hw h hfr hperm hsorted⟩

end

end Discipline

end

end Keyvi.Fsa
