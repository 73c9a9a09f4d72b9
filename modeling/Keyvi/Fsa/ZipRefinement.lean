import Mathlib
import Keyvi.Fsa.DictionaryTraversal
import Keyvi.Fsa.ZipSimulation

/-!
# The zipped traverser refines a traverser over the union

A caller moves a traverser with `operator++`, or skips what lies below its path with `Prune` and
then `operator++`. Under the same moves the zipped traverser and one traverser over the union of the
keys are always at the same path.
-/

namespace Keyvi.Fsa

open Automata Source

/-- What a caller does at a path. -/
inductive Move where
  | next
  | skip
deriving DecidableEq, Repr

namespace Move

/-- The paths that are left after a move at the first one. -/
def agenda : Move → List (List Byte) → List (List Byte)
  | _, [] => []
  | next, _ :: L => L
  | skip, p :: L => L.filter fun q => ¬ p <:+ q

variable {S T : Type}

/-- Moves that are made at a path, none at the end. -/
def run (alive : T → Bool) (move : T → Move → Option T) : List Move → T → Option T
  | [], t => some t
  | m :: moves, t => if alive t then (move t m).bind (run alive move moves) else none

theorem rel_mono {R R' : S → T → Prop} (h : ∀ s t, R s t → R' s t) :
    ∀ {a : Option S} {b : Option T}, Option.Rel R a b → Option.Rel R' a b
  | _, _, .some h' => .some (h _ _ h')
  | _, _, .none => .none

/-- **Two traversers that agree at every path agree after every run.** -/
theorem rel_run {aliveS : S → Bool} {aliveT : T → Bool} {moveS : S → Move → Option S}
    {moveT : T → Move → Option T} {R : S → T → Prop} (halive : ∀ s t, R s t → aliveS s = aliveT t)
    (hmove : ∀ s t m, R s t → aliveT t = true →
      ∃ s' t', moveS s m = some s' ∧ moveT t m = some t' ∧ R s' t') :
    ∀ (moves : List Move) {s : S} {t : T}, R s t →
      Option.Rel R (run aliveS moveS moves s) (run aliveT moveT moves t)
  | [], _, _, h => .some h
  | m :: moves, s, t, h => by
    rw [run, run, halive s t h]
    by_cases ha : aliveT t = true
    · obtain ⟨s', t', hs, ht, h'⟩ := hmove s t m h ha
      rw [if_pos ha, if_pos ha, hs, ht, Option.bind_some, Option.bind_some]
      exact rel_run halive hmove moves h'
    · rw [if_neg ha, if_neg ha]
      exact .none

end Move

namespace ComparableStateTraverser

variable {τ π : Type} [TransitionT τ π]

/-- A move of an inner traverser. -/
def move (c : ComparableStateTraverser τ π) : Move → ComparableStateTraverser τ π
  | .next => c.advance
  | .skip => c.prune.advance

/-- A move where it is defined: `Prune` takes one state off the stack. -/
def move? (c : ComparableStateTraverser τ π) : Move → Option (ComparableStateTraverser τ π)
  | .next => some c.advance
  | .skip => if 0 < c.stateTraverser.getDepth then some c.prune.advance else none

end ComparableStateTraverser

namespace ZipStateTraverser

variable {τ π : Type} [ZipT τ π]

/-- A move of the zipped traverser. -/
def move (z : ZipStateTraverser τ π) : Move → ZipStateTraverser τ π
  | .next => z.advance
  | .skip => z.prune.advance

/-- A move where it is defined. -/
def move? (z : ZipStateTraverser τ π) : Move → Option (ZipStateTraverser τ π)
  | .next => z.advance?
  | .skip => if z.canPrune then z.prune.advance? else none

end ZipStateTraverser

/-! ## What a zipped traverser shows -/

section

variable {τ π κ : Type} [ZipT τ π] [LinearOrder κ] {D : Discipline τ π κ} {sources : List Source}
  {B : Nat} {L L' : List (List Byte)} {p : List Byte}

/-- The key at a path is read from the source with the highest order that has it. -/
structure ReadsKey (sources : List Source) (z : ZipStateTraverser τ π) (p : List Byte)
    (s : Source) : Prop where
  mem : s ∈ sources
  hasKey : s.hasKey p = true
  order : z.order = s.order
  fsa : z.fsa = some s.fsa
  value : z.stateValue = s.fsa.getStateValue (s.fsa.trailState s.start p)
  newest : ∀ s' ∈ sources, s'.hasKey p = true → s'.order ≤ s.order

/-- The zipped traverser shows the path `p`. -/
structure ShowsPath (sources : List Source) (z : ZipStateTraverser τ π) (p : List Byte) :
    Prop where
  alive : z.alive = true
  labels : z.getStateLabels = p.reverse
  depth : z.depth = p.length
  label : ∀ c ∈ p.head?, z.stateLabel = c
  final : z.final = true ↔ ∃ s ∈ sources, s.hasKey p = true
  reads : z.final = true → ∃ s, ReadsKey sources z p s

namespace Discipline

/-- **The invariant of the zipped traverser.** -/
def At (D : Discipline τ π κ) (sources : List Source) (z : ZipStateTraverser τ π) :
    List (List Byte) → Prop
  | [] => z.traverserQueue = []
  | p :: L => D.QueueAt sources z.traverserQueue (p :: L) ∧ ShowsPath sources z p ∧
      z.pruned = false ∧ ∃ front back, z.traverserQueue = front ++ back ∧
        z.equalStates = front.length ∧ D.Front sources front back p L

theorem queue_eq_nil {queue : List (ComparableStateTraverser τ π)}
    (h : D.QueueAt sources queue []) : queue = [] := by
  refine List.eq_nil_iff_forall_not_mem.mpr fun c hc => ?_
  obtain ⟨s, -, -, q, rest, hf, -⟩ := h.sound c hc
  cases hf

/-- Whether a traverser of the front is final, and its value, are those of its source. -/
theorem isFinalState_eq {s : Source} {c : ComparableStateTraverser τ π}
    {rest : List (List Byte)} (hp : s.hasPath p = true) (hat : D.stands s c p rest) :
    c.isFinalState = s.hasKey p ∧
      c.getStateValue = s.fsa.getStateValue (s.fsa.trailState s.start p) := by
  rw [ComparableStateTraverser.isFinalState, ComparableStateTraverser.getStateValue,
    D.fsa _ _ _ _ hat, D.state _ _ _ _ hat, hasKey, hp, Bool.true_and]
  exact ⟨rfl, rfl⟩

/-- The traverser of a source that has the path is in front. -/
theorem mem_front_of_hasPath (hw : WellFormed sources B)
    {queue front back : List (ComparableStateTraverser τ π)}
    (h : D.QueueAt sources queue (p :: L)) (hq : queue = front ++ back)
    (hfr : D.Front sources front back p L) {s : Source} (hs : s ∈ sources)
    (hp : s.hasPath p = true) :
    ∃ c ∈ front, c.order = s.order ∧ D.stands s c p (L.filter s.hasPath) := by
  obtain ⟨c, hc, hco⟩ := h.complete s hs (by simp [filter_cons_of_hasPath hp])
  rw [hq, List.mem_append] at hc
  rcases hc with hc | hc
  · obtain ⟨s', hs', hco', -, hat⟩ := hfr.front_at c hc
    obtain rfl := hw.eq_of_order hs' hs (hco'.symm.trans hco)
    exact ⟨c, hc, hco, hat⟩
  · obtain ⟨s', hs', hco', hp', -⟩ := hfr.back_at c hc
    obtain rfl := hw.eq_of_order hs' hs (hco'.symm.trans hco)
    rw [hp] at hp'
    cases hp'

/-- The traverser of a source that has the key is in front. -/
theorem mem_front_of_hasKey (hw : WellFormed sources B)
    {queue front back : List (ComparableStateTraverser τ π)}
    (h : D.QueueAt sources queue (p :: L)) (hq : queue = front ++ back)
    (hfr : D.Front sources front back p L) {s : Source} (hs : s ∈ sources)
    (hk : s.hasKey p = true) : ∃ c ∈ front, c.order = s.order ∧ c.isFinalState = true := by
  have hp : s.hasPath p = true := by
    rw [hasKey, Bool.and_eq_true] at hk
    exact hk.1
  obtain ⟨c, hc, hco, hat⟩ := mem_front_of_hasPath hw h hq hfr hs hp
  exact ⟨c, hc, hco, by rw [(isFinalState_eq hp hat).1, hk]⟩

/-- **`FillInValues` reads the path at the front of the queue.** -/
theorem at_fillInValues (hw : WellFormed sources B) (hL : D.Agenda sources L)
    {z : ZipStateTraverser τ π} (h : D.QueueAt sources z.traverserQueue L) :
    D.At sources z.fillInValues L := by
  cases L with
  | nil =>
    have hq := queue_eq_nil h
    show z.fillInValues.traverserQueue = []
    rw [ZipStateTraverser.fillInValues, hq]
  | cons p L =>
    obtain ⟨front, back, hq, hfr⟩ := h.front hw hL
    obtain ⟨t, front', rfl⟩ := List.exists_cons_of_ne_nil hfr.ne_nil
    have hlab : ∀ c ∈ t :: front', c.labelStack = p.reverse := by
      intro c hc
      obtain ⟨s, -, -, -, hat⟩ := hfr.front_at c hc
      exact D.labels _ _ _ _ hat
    obtain ⟨s, hs, hto, hp, hat⟩ := hfr.front_at t List.mem_cons_self
    obtain ⟨hqueue, hdepth, hlabel, hpruned, hequal, hreads⟩ :=
      ZipStateTraverser.fillInValues_spec hq
        (fun c hc => (D.equals t c).mpr
          ((hlab t List.mem_cons_self).trans (hlab c (List.mem_cons_of_mem _ hc)).symm))
        (fun c hc => by
          rw [← Bool.not_eq_true]
          intro he
          have hlt := hfr.back_after c hc
          rw [← (D.equals t c).mp he, hlab t List.mem_cons_self, List.reverse_reverse] at hlt
          exact lt_irrefl _ hlt)
    have hqq : z.fillInValues.traverserQueue = (t :: front') ++ back := hqueue.trans hq
    refine ⟨hqueue ▸ h, ⟨?_, ?_, ?_, ?_, ?_, ?_⟩, hpruned, t :: front', back, hqq, hequal, hfr⟩
    · rw [ZipStateTraverser.alive, hqq]
      rfl
    · rw [ZipStateTraverser.getStateLabels, hqq]
      exact hlab t List.mem_cons_self
    · rw [hdepth]
      exact D.depth _ _ _ _ hat
    · intro c hc
      rw [hlabel]
      exact D.label _ _ _ _ hat c hc
    all_goals
      cases hfind : (t :: front').find? fun c => c.isFinalState with
      | none =>
        rw [hfind] at hreads
        have hno : ¬ ∃ s ∈ sources, s.hasKey p = true := by
          rintro ⟨s, hs, hk⟩
          obtain ⟨c, hc, -, hcf⟩ := mem_front_of_hasKey hw h hq hfr hs hk
          exact List.find?_eq_none.mp hfind c hc hcf
        simp [hreads, hno]
      | some c =>
        rw [hfind] at hreads
        obtain ⟨hcf, as, bs, hsplit, hbefore⟩ := List.find?_eq_some_iff_append.mp hfind
        have hc : c ∈ t :: front' := hsplit ▸ List.mem_append_right _ List.mem_cons_self
        obtain ⟨sc, hsc, hco, hcp, hcat⟩ := hfr.front_at c hc
        obtain ⟨hfe, hve⟩ := isFinalState_eq hcp hcat
        have hnew : ∀ s' ∈ sources, s'.hasKey p = true → s'.order ≤ sc.order := by
          intro s' hs' hk'
          obtain ⟨d, hd, hdo, hdf⟩ := mem_front_of_hasKey hw h hq hfr hs' hk'
          rw [hsplit, List.mem_append, List.mem_cons] at hd
          rcases hd with hd | rfl | hd
          · simpa [hdf] using hbefore d hd
          · exact (hdo.symm.trans hco).le
          · have hsort := h.sorted
            rw [hq, hsplit] at hsort
            have hcd := List.rel_of_pairwise_cons
              ((List.pairwise_append.mp (List.pairwise_append.mp hsort).1).2.1) hd
            rw [key_lt_iff, hlab c hc,
              hlab d (hsplit ▸ List.mem_append_right _ (List.mem_cons_of_mem _ hd))] at hcd
            rcases hcd with hcd | hcd
            · exact absurd hcd (lt_irrefl _)
            · omega
        first
          | exact ⟨fun _ => ⟨sc, hsc, by rw [← hfe, hcf]⟩, fun _ => hreads.final⟩
          | exact fun _ => ⟨sc, hsc, by rw [← hfe, hcf], hreads.order.trans hco,
              hreads.fsa.trans (by rw [D.fsa _ _ _ _ hcat]), hreads.value.trans hve, hnew⟩

omit [ZipT τ π] in
theorem nodup_orders (hw : WellFormed sources B) {inner : Source → ComparableStateTraverser τ π}
    (horder : ∀ s ∈ sources, (inner s).order = s.order) :
    (((sources.map inner).filter fun c => c.alive).map ComparableStateTraverser.order).Nodup := by
  have hmap : (sources.map inner).map ComparableStateTraverser.order = sources.map order := by
    rw [List.map_map]
    exact List.map_congr_left fun s hs => horder s hs
  refine List.Nodup.sublist (List.filter_sublist.map _) ?_
  rw [hmap]
  exact hw.nodup

/-- A sorted queue of the traversers that are alive, each at the first path of its source. -/
theorem queueAt_of_perm (hw : WellFormed sources B) {inner : Source → ComparableStateTraverser τ π}
    (horder : ∀ s ∈ sources, (inner s).order = s.order)
    (harr : ∀ s ∈ sources, D.Arrives s (inner s) (L.filter s.hasPath))
    {queue : List (ComparableStateTraverser τ π)}
    (hperm : queue.Perm ((sources.map inner).filter fun c => c.alive))
    (hsort : queue.Pairwise fun c d => D.key c < D.key d) : D.QueueAt sources queue L := by
  refine ⟨fun c hc => ?_, fun s hs hf => ?_, ?_, hsort⟩
  · have hc' := hperm.mem_iff.mp hc
    rw [List.mem_filter, List.mem_map] at hc'
    obtain ⟨⟨s, hs, rfl⟩, ha⟩ := hc'
    refine ⟨s, hs, horder s hs, ?_⟩
    have harrs := harr s hs
    cases hfs : L.filter s.hasPath with
    | nil =>
      rw [hfs] at harrs
      exact absurd ha (by rw [show (inner s).alive = false from harrs]; simp)
    | cons q rest =>
      rw [hfs] at harrs
      exact ⟨q, rest, hfs, harrs⟩
  · obtain ⟨q, rest, hq⟩ := List.exists_cons_of_ne_nil hf
    have harrs := harr s hs
    rw [hq] at harrs
    refine ⟨inner s, hperm.mem_iff.mpr ?_, horder s hs⟩
    rw [List.mem_filter]
    exact ⟨List.mem_map_of_mem hs, D.alive _ _ _ _ harrs⟩
  · exact (hperm.map _).nodup_iff.mpr (nodup_orders hw horder)

/-- **A new zipped traverser.** Each source has its traverser, at the first of its paths. -/
theorem at_ofTraversers (hw : WellFormed sources B) (hL : D.Agenda sources L)
    {inner : Source → ComparableStateTraverser τ π}
    (horder : ∀ s ∈ sources, (inner s).order = s.order)
    (harr : ∀ s ∈ sources, D.Arrives s (inner s) (L.filter s.hasPath))
    {P : ComparableStateTraverser τ π → Prop}
    (hless : ∀ c d, P c → P d → (ZipT.less c d = true ↔ D.key c < D.key d))
    (hP : ∀ s ∈ sources, (inner s).alive = true → P (inner s)) :
    D.At sources (ZipStateTraverser.ofTraversers (sources.map inner)) L := by
  have hPl : ∀ c ∈ ((sources.map inner).filter fun c => c.alive) ++ [], P c := by
    intro c hc
    rw [List.append_nil, List.mem_filter, List.mem_map] at hc
    obtain ⟨⟨s, hs, rfl⟩, ha⟩ := hc
    exact hP s hs ha
  obtain ⟨hperm, hsort⟩ := SortedQueue.sorted_foldl_push hless hPl List.Pairwise.nil (by simp)
    ((List.pairwise_map.mp (nodup_orders hw horder)).imp fun hcd => D.key_ne_of_order_ne hcd)
  rw [List.append_nil] at hperm
  exact at_fillInValues hw hL
    (queueAt_of_perm hw horder harr (hperm.trans (List.reverse_perm _)) hsort)

/-- At the end `operator++` does nothing where it is defined. -/
theorem At.advance_nil {z : ZipStateTraverser τ π}
    (hpre : ∀ b n, ZipT.preIncrement b n ([] : List (ComparableStateTraverser τ π)) = [])
    (h : D.At sources z []) : D.At sources z.advance [] := by
  have hq : z.traverserQueue = [] := h
  cases hn : z.equalStates with
  | zero =>
    rw [ZipStateTraverser.advance_of_requeue (q := []) (by rw [hn, hq, hpre]; rfl)]
    rfl
  | succ n =>
    have hnone : z.advance? = none := by
      rw [ZipStateTraverser.advance?, hn, hq, hpre]
      rfl
    rw [ZipStateTraverser.advance, hnone]
    exact h

end Discipline

end

/-! ## Over plain traversers -/

/-- The zipped traverser over plain ones. -/
abbrev ZipTraverser := ZipStateTraverser Transition Unit

namespace ZipTraverser

variable {sources : List Source} {B : Nat} {L L' : List (List Byte)} {p : List Byte}

/-- The zipped traverser shows the path `p`. -/
abbrev Shows (sources : List Source) (z : ZipTraverser) (p : List Byte) : Prop :=
  ShowsPath sources z p

/-- The lexicographic order, and plain traversers. -/
def plain (B : Nat) : Discipline Transition Unit (List Byte) where
  pathKey := List.reverse
  stands s c p rest := ComparableTraverser.At s.fsa s.start B c p rest
  key_lt p q h hlt := by
    have := Preorder.key_lt_of_suffix (fun _ c => c) h hlt
    simpa only [Preorder.key_label] using this
  equals := ComparableStateTraverser.equals_iff
  labels _ _ _ _ h := h.labels
  fsa _ _ _ _ h := h.traverser.fsa
  state _ _ _ _ h := h.traverser.state
  alive _ _ _ _ h := h.alive
  depth _ _ _ _ h := h.traverser.depth
  label _ _ _ _ h := h.traverser.label

/-- The paths to visit. -/
abbrev Agenda (B : Nat) (sources : List Source) (L : List (List Byte)) : Prop :=
  (plain B).Agenda sources L

/-- **The invariant of the zipped traverser.** -/
abbrev At (sources : List Source) (B : Nat) (z : ZipTraverser) (L : List (List Byte)) : Prop :=
  (plain B).At sources z L

/-- Plain traversers are compared by the keys, wherever they are. -/
theorem less_iff (c d : ComparableTraverser) (_ : True) (_ : True) :
    ZipT.less c d = true ↔ (plain B).key c < (plain B).key d := by
  show c.less d = true ↔ _
  rw [ComparableStateTraverser.less_iff, ComparableStateTraverser.key_lt_iff,
    Discipline.key_lt_iff]
  show _ ↔ c.labelStack.reverse.reverse < d.labelStack.reverse.reverse ∨ _
  simp only [plain, List.reverse_reverse]

theorem arrives_of_arrives {s : Source} {c : ComparableTraverser}
    (h : ComparableTraverser.Arrives s.fsa s.start B c L) : (plain B).Arrives s c L := by
  cases L with
  | nil => exact h
  | cons q rest => exact h.2

/-- The front is pruned. -/
theorem frontMove_prune (hw : WellFormed sources B) {front : List ComparableTraverser} {x : Byte}
    {p' : List Byte} (hlabels : ∀ c ∈ front, c.labelStack = (x :: p').reverse) :
    (plain B).FrontMove sources front (x :: p') L ComparableStateTraverser.prune p'
      (L.filter fun q => ¬ (x :: p') <:+ q) where
  suffix := List.suffix_cons x p'
  sublist := List.filter_sublist
  order _ := rfl
  labels c hc := by
    rw [ComparableStateTraverser.prune, hlabels c hc, List.reverse_cons, List.dropLast_concat]
  arrives _ _ s hs _ _ hat := by
    have := ComparableTraverser.arrives_advance (hw.tree s hs)
      (ComparableTraverser.before_prune (hw.tree s hs) hat)
    rw [List.filter_filter] at this ⊢
    refine arrives_of_arrives ?_
    simpa only [Bool.and_comm] using this
  same s _ hps := by
    rw [List.filter_filter]
    refine List.filter_congr fun q _ => ?_
    cases hqs : s.hasPath q with
    | false => rfl
    | true =>
      have hns : ¬ (x :: p') <:+ q := by
        intro hsuf
        rw [hasPath_of_suffix hsuf hqs] at hps
        cases hps
      simp [hns]

/-- **A move takes the first path, or all below it, off the list.** -/
theorem At.move (hw : WellFormed sources B) (hL : Agenda B sources L) {z : ZipTraverser}
    (h : At sources B z L) (m : Move) : At sources B (z.move m) (m.agenda L) := by
  cases L with
  | nil =>
    cases m with
    | next => exact Discipline.At.advance_nil (fun _ _ => rfl) h
    | skip =>
      refine Discipline.At.advance_nil (z := z.prune) (fun _ _ => rfl) ?_
      have hq : z.traverserQueue = [] := h
      show z.prune.traverserQueue = []
      rw [ZipStateTraverser.prune, hq]
      simp
  | cons p L =>
    obtain ⟨hqueue, -, -, front, back, hq, heq, hfr⟩ := h
    rw [hq] at hqueue
    have hp : p ≠ [] := hL.nonempty p List.mem_cons_self
    obtain ⟨x, p', rfl⟩ := List.exists_cons_of_ne_nil hp
    have htail : Agenda B sources L := hL.sublist (List.sublist_cons_self _ _)
    have hlabels : ∀ c ∈ front, c.labelStack = (x :: p').reverse := by
      intro c hc
      obtain ⟨s, -, -, -, hat⟩ := hfr.front_at c hc
      exact hat.labels
    cases m with
    | next =>
      have hfront : (plain B).FrontMove sources front (x :: p') L id (x :: p') L :=
        ⟨List.suffix_rfl, List.Sublist.refl L, fun _ => rfl, hlabels,
          fun _ _ s hs _ _ hat => arrives_of_arrives
            (ComparableTraverser.arrives_advance (hw.tree s hs) hat.before), fun _ _ _ => rfl⟩
      obtain ⟨queue, hrequeue, hmove⟩ := hqueue.requeue hw hL hfr hfront less_iff
        (fun _ _ => trivial) (fun _ _ _ => trivial)
      rw [List.map_id, ← heq, ← hq] at hrequeue
      show At sources B z.advance L
      rw [ZipStateTraverser.advance_of_requeue hrequeue]
      exact Discipline.at_fillInValues hw htail hmove
    | skip =>
      have hsub : (L.filter fun q => ¬ (x :: p') <:+ q).Sublist L := List.filter_sublist
      obtain ⟨queue, hrequeue, hmove⟩ := hqueue.requeue hw hL hfr (frontMove_prune hw hlabels) less_iff
        (fun _ _ => trivial) (fun _ _ _ => trivial)
      have hpq : z.prune.traverserQueue = front.map ComparableStateTraverser.prune ++ back := by
        rw [ZipStateTraverser.prune, heq, hq, List.take_left, List.drop_left]
      rw [← hpq, show front.length = z.prune.equalStates from heq.symm] at hrequeue
      show At sources B z.prune.advance _
      rw [ZipStateTraverser.advance_of_requeue hrequeue]
      exact Discipline.at_fillInValues hw (htail.sublist hsub) hmove

/-! ## Runs -/

theorem advance?_eq {z : ZipTraverser} (h : z.equalStates ≤ z.traverserQueue.length) :
    z.advance? = some z.advance := by
  obtain ⟨q, hq⟩ : ∃ q, SortedQueue.requeue ZipT.less ComparableStateTraverser.advance
      ComparableStateTraverser.alive z.equalStates z.traverserQueue = some q :=
    SortedQueue.exists_requeue h
  rw [ZipStateTraverser.advance_of_requeue hq, ZipStateTraverser.advance?_of_requeue hq]

theorem At.equalStates_le {z : ZipTraverser} (h : At sources B z (p :: L)) :
    z.equalStates ≤ z.traverserQueue.length := by
  obtain ⟨-, -, -, front, back, hq, heq, -⟩ := h
  rw [hq, heq, List.length_append]
  omega

theorem prune_canPrune {z : ZipTraverser} (h : z.canPrune = true) : z.prune.canPrune = true := by
  have hlen : z.prune.traverserQueue.length = z.traverserQueue.length := by
    rw [ZipStateTraverser.prune, List.length_append, List.length_map, ← List.length_append,
      List.take_append_drop]
  exact decide_eq_true ((of_decide_eq_true h).trans hlen.ge)

theorem advance_canPrune {z : ZipTraverser} (h : z.canPrune = true)
    (hat : At sources B z.advance L) : z.advance.canPrune = true := by
  cases L with
  | nil =>
    have hzero := ZipStateTraverser.equalStates_of_advance? (advance?_eq (of_decide_eq_true h)) hat
    exact decide_eq_true (hzero ▸ Nat.zero_le _)
  | cons p L => exact decide_eq_true hat.equalStates_le

/-- At a path all moves are defined. -/
theorem At.move? {z : ZipTraverser} (h : At sources B z (p :: L)) (m : Move) :
    z.move? m = some (z.move m) := by
  have hcan : z.canPrune = true := decide_eq_true h.equalStates_le
  cases m with
  | next => exact advance?_eq h.equalStates_le
  | skip =>
    rw [ZipStateTraverser.move?, if_pos hcan]
    exact advance?_eq (of_decide_eq_true (prune_canPrune hcan))

theorem agenda_sublist (m : Move) : ∀ L : List (List Byte), (m.agenda L).Sublist L
  | [] => by cases m <;> exact List.Sublist.refl []
  | p :: L => by
    cases m with
    | next => exact List.sublist_cons_self p L
    | skip => exact List.filter_sublist.trans (List.sublist_cons_self p L)

/-- With `operator++` alone the paths come one after the other. -/
theorem At.run_next (hw : WellFormed sources B) (n : Nat) {L : List (List Byte)}
    {z : ZipTraverser} (hL : Agenda B sources L) (h : At sources B z L) (hn : n ≤ L.length) :
    ∃ z', Move.run ZipStateTraverser.alive ZipStateTraverser.move? (List.replicate n Move.next) z =
      some z' ∧ At sources B z' (L.drop n) := by
  induction n generalizing L z with
  | zero => exact ⟨z, rfl, h⟩
  | succ n ih =>
    obtain ⟨p, L, rfl⟩ := List.exists_cons_of_length_pos (Nat.lt_of_lt_of_le n.succ_pos hn)
    rw [List.replicate_succ, Move.run, if_pos h.2.1.alive, h.move?, Option.bind_some]
    exact ih (hL.sublist (List.sublist_cons_self p L)) (h.move hw hL .next) (Nat.le_of_succ_le_succ hn)

/-- A single traverser follows its list in the same way. -/
theorem arrives_move {a : Automata} {s₀ : Nat} (hT : a.Tree s₀ B) {t : ComparableTraverser}
    (h : ComparableTraverser.Arrives a s₀ B t L) (m : Move) :
    ComparableTraverser.Arrives a s₀ B (t.move m) (m.agenda L) := by
  cases L with
  | nil =>
    have h0 : t.stateTraverser.currentState = 0 := by
      have : t.alive = false := h
      simpa [ComparableStateTraverser.alive, StateTraverser.alive] using this
    have hdead : ∀ t : ComparableTraverser, t.stateTraverser.currentState = 0 →
        t.advance.alive = false := by
      intro t ht
      have ha : t.stateTraverser.advance.alive = false := by
        rw [StateTraverser.advance, if_pos ht]
        simp [StateTraverser.alive, ht]
      rw [ComparableStateTraverser.advance, if_neg (by simp [ha])]
      exact ha
    cases m with
    | next => exact hdead t h0
    | skip => exact hdead t.prune h0
  | cons p L =>
    obtain ⟨hp, hat⟩ := h
    cases m with
    | next => exact ComparableTraverser.arrives_advance hT hat.before
    | skip =>
      obtain ⟨x, p', rfl⟩ := List.exists_cons_of_ne_nil hp
      exact ComparableTraverser.arrives_advance hT (ComparableTraverser.before_prune hT hat)

/-- At a path all moves of a single traverser are defined. -/
theorem arrives_move? {a : Automata} {s₀ : Nat} {t : ComparableTraverser}
    (h : ComparableTraverser.Arrives a s₀ B t (p :: L)) (m : Move) :
    t.move? m = some (t.move m) := by
  cases m with
  | next => rfl
  | skip =>
    have hdepth : t.stateTraverser.getDepth = p.length := h.2.traverser.depth
    rw [ComparableStateTraverser.move?, if_pos (hdepth ▸ List.length_pos_iff.mpr h.1)]
    rfl

/-! ## The start -/

/-- The tree of `u` is the union of the trees of the sources. -/
structure Union (sources : List Source) (B : Nat) (u : Automata) (start : Nat) : Prop where
  tree : u.Tree start B
  union : ∀ q, q ≠ [] → (u.trailState start q ≠ 0 ↔ ∃ s ∈ sources, s.hasPath q = true)

theorem Union.agenda {u : Automata} {start : Nat} (h : Union sources B u start) :
    Agenda B sources (Preorder.subtree (u.children start) B []) where
  ascending := Preorder.pairwise_subtree (pairwise_children u start) (bounded_children h.tree) []
  nonempty q hq :=
    ((extends_children_iff h.tree).mp ((Preorder.mem_subtree (bounded_children h.tree)).mp hq)).1
  covered q hq := by
    obtain ⟨hne, hw⟩ :=
      (extends_children_iff h.tree).mp ((Preorder.mem_subtree (bounded_children h.tree)).mp hq)
    exact (h.union q hne).mp hw

/-- The paths of a source are those of the union that it has. -/
theorem Union.filter_subtree (hw : WellFormed sources B) {u : Automata} {start : Nat}
    (h : Union sources B u start) {s : Source} (hs : s ∈ sources) :
    (Preorder.subtree (u.children start) B []).filter s.hasPath =
      Preorder.subtree (s.fsa.children s.start) B [] := by
  refine List.map_injective_iff.mpr List.reverse_injective ?_
  have hsort : ((Preorder.subtree (u.children start) B []).map List.reverse).Pairwise (· < ·) :=
    pairwise_paths h.tree
  refine List.Pairwise.eq_of_mem_iff (hsort.sublist (List.filter_sublist.map _))
    (pairwise_paths (hw.tree s hs)) fun k => ?_
  show _ ↔ k ∈ s.fsa.paths s.start B
  rw [Automata.mem_paths (hw.tree s hs), List.mem_map]
  constructor
  · rintro ⟨q, hq, rfl⟩
    rw [List.mem_filter] at hq
    refine ⟨by simpa using h.agenda.nonempty q hq.1, ?_⟩
    rw [walk_reverse]
    simpa [hasPath] using hq.2
  · rintro ⟨hne, hk⟩
    have hp : s.hasPath k.reverse = true := by
      rw [← trailState_reverse] at hk
      simpa [hasPath] using hk
    have hne' : k.reverse ≠ [] := by simpa using hne
    refine ⟨k.reverse, List.mem_filter.mpr ⟨?_, hp⟩, List.reverse_reverse k⟩
    exact (Preorder.mem_subtree (bounded_children h.tree)).mpr
      ((extends_children_iff h.tree).mpr ⟨hne', (h.union _ hne').mpr ⟨s, hs, hp⟩⟩)

/-- The inner traverser of a source. -/
def inner (s : Source) : ComparableTraverser :=
  ComparableStateTraverser.ofState s.fsa s.start () true s.order

theorem order_inner (s : Source) : (inner s).order = s.order := by
  rw [inner, ComparableStateTraverser.ofState, if_pos rfl, ComparableStateTraverser.order_advance]

/-- **A new zipped traverser is at the first path of the union.** -/
theorem at_ofTraversers (hw : WellFormed sources B) {u : Automata} {start : Nat}
    (h : Union sources B u start) :
    At sources B (ZipStateTraverser.ofTraversers (sources.map inner))
      (Preorder.subtree (u.children start) B []) := by
  refine Discipline.at_ofTraversers hw h.agenda (fun s _ => order_inner s) (fun s hs => ?_)
    less_iff fun _ _ _ => trivial
  rw [h.filter_subtree hw hs]
  exact arrives_of_arrives (ComparableTraverser.arrives_ofState (hw.tree s hs) s.order)

/-- Both traversers are at the same path, and the zipped one shows what the sources have there. -/
structure Agrees (sources : List Source) (z : ZipTraverser) (t : ComparableTraverser) : Prop where
  alive : z.alive = t.alive
  shows : t.alive = true → ∃ p : List Byte, p ≠ [] ∧ t.labelStack = p.reverse ∧
    t.stateTraverser.getDepth = p.length ∧ (∀ c ∈ p.head?, t.stateTraverser.currentLabel = c) ∧
    Shows sources z p

theorem agrees {a : Automata} {s₀ : Nat} {z : ZipTraverser} {t : ComparableTraverser}
    (hz : At sources B z L) (ht : ComparableTraverser.Arrives a s₀ B t L) : Agrees sources z t := by
  cases L with
  | nil =>
    have hta : t.alive = false := ht
    have hzq : z.traverserQueue = [] := hz
    refine ⟨by rw [hta, ZipStateTraverser.alive, hzq]; rfl, fun ha => ?_⟩
    rw [hta] at ha
    cases ha
  | cons p rest =>
    obtain ⟨hp, hat⟩ := ht
    exact ⟨hz.2.1.alive.trans hat.alive.symm, fun _ =>
      ⟨p, hp, hat.labels, hat.traverser.depth, hat.traverser.label, hz.2.1⟩⟩

/-- **Under the same moves the zipped traverser is where a traverser over the union is.** -/
theorem agree (hw : WellFormed sources B) {u : Automata} {start : Nat}
    (h : Union sources B u start) (moves : List Move) (order : Nat) :
    Option.Rel (Agrees sources)
      (Move.run ZipStateTraverser.alive ZipStateTraverser.move? moves
        (ZipStateTraverser.ofTraversers (sources.map inner)))
      (Move.run ComparableStateTraverser.alive ComparableStateTraverser.move? moves
        (ComparableStateTraverser.ofState u start () true order : ComparableTraverser)) := by
  let R (z : ZipTraverser) (t : ComparableTraverser) : Prop := ∃ L, At sources B z L ∧
    Agenda B sources L ∧ ComparableTraverser.Arrives u start B t L
  have halive : ∀ z t, R z t → z.alive = t.alive := by
    rintro z t ⟨L, hz, -, ht⟩
    exact (agrees hz ht).alive
  have hmove : ∀ z t (m : Move), R z t → t.alive = true →
      ∃ z' t', z.move? m = some z' ∧ t.move? m = some t' ∧ R z' t' := by
    rintro z t m ⟨L, hz, hL, ht⟩ ha
    cases L with
    | nil => exact absurd ha (by rw [show t.alive = false from ht]; simp)
    | cons p L =>
      exact ⟨z.move m, t.move m, hz.move? m, arrives_move? ht m, m.agenda (p :: L), hz.move hw hL m,
        hL.sublist (agenda_sublist m _), arrives_move h.tree ht m⟩
  have hstart : R (ZipStateTraverser.ofTraversers (sources.map inner))
      (ComparableStateTraverser.ofState u start () true order) :=
    ⟨_, at_ofTraversers hw h, h.agenda, ComparableTraverser.arrives_ofState h.tree order⟩
  refine Move.rel_mono ?_ (Move.rel_run halive hmove moves hstart)
  rintro z t ⟨L, hz, -, ht⟩
  exact agrees hz ht

end ZipTraverser

end Keyvi.Fsa
