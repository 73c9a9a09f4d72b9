import Mathlib
import Keyvi.Fsa.Traversal
import Keyvi.Library.TopQueue

/-!
# The bounded weighted traverser

`bounded_weighted_state_traverser.h`. The transitions of a state are taken in the order of their
weights. The weights of transitions that were found are put into a bounded queue, and what is lighter
than the queue is left out, when the transitions are collected and when one is taken.
-/

namespace Keyvi.Fsa

/-- `BoundedWeightedStateTraverser`. The vectors have their last element first, the heap of the
priority queue is the ascending list of its elements. -/
structure BoundedWeightedStateTraverser where
  fsa : Automata
  currentState : Nat
  currentLabel : Byte
  currentDepth : Nat
  atEnd : Bool
  stateTraversalStack : List Nat
  entryTraversalStack : List (List (Nat × Byte))
  priorityQueue : List Nat

namespace BoundedWeightedStateTraverser

/-- `BoundedPriorityQueue::Back`. -/
def back (queue : List Nat) : Nat := queue.headD 0

/-- The loop of `GetNextTransitionsInSortedOrder` over the labels that are left, with the queue and
the transitions so far. -/
def collectTransitions (fsa : Automata) (currentState parentWeight : Nat) :
    List Byte → List Nat × List (Nat × Byte) → List Nat × List (Nat × Byte)
  | [], r => r
  | i :: labels, (queue, outgoingTransitions) =>
    let childNode := fsa.tryWalkTransition currentState i
    if childNode ≠ 0 then
      -- A child without an inner weight has the one of its parent.
      let weight :=
        if fsa.getInnerWeight childNode = 0 then parentWeight else fsa.getInnerWeight childNode
      if weight < back queue then
        collectTransitions fsa currentState parentWeight labels (queue, outgoingTransitions)
      else
        collectTransitions fsa currentState parentWeight labels
          (if parentWeight ≠ weight ∧ back queue < weight then TopQueue.put weight queue else queue,
            outgoingTransitions ++ [(weight, i)])
    else collectTransitions fsa currentState parentWeight labels (queue, outgoingTransitions)

/-- The labels of the loop: it begins at 1. -/
def labelsFromOne : List Byte := (List.finRange 256).tail

/-- `GetNextTransitionsInSortedOrder`; `sort` is `std::sort` with `compare`. -/
def getNextTransitionsInSortedOrder (sort : List (Nat × Byte) → List (Nat × Byte))
    (t : BoundedWeightedStateTraverser) (parentWeight : Nat) : BoundedWeightedStateTraverser :=
  let r := collectTransitions t.fsa t.currentState parentWeight labelsFromOne (t.priorityQueue, [])
  { t with
    priorityQueue := r.1
    entryTraversalStack := sort r.2 :: t.entryTraversalStack }

/-- The loop of `operator++`. It goes up as long as there is no transition to take; the stack of
entries gets shorter. -/
def findNext (sort : List (Nat × Byte) → List (Nat × Byte)) (t : BoundedWeightedStateTraverser) :
    Nat → Byte → Nat → List Nat → List (List (Nat × Byte)) → BoundedWeightedStateTraverser
  | _, _, _, _, [] => { t with atEnd := true }
  | state, label, depth, states, entry :: entries =>
    let taken := entry.head?.filter fun x => back t.priorityQueue ≤ x.1
    let label := (taken.map Prod.snd).getD label
    let childNode := taken.elim 0 fun x => t.fsa.tryWalkTransition state x.2
    if childNode ≠ 0 then
      getNextTransitionsInSortedOrder sort
        { t with
          currentState := childNode
          currentLabel := label
          currentDepth := depth + 1
          stateTraversalStack := state :: states
          entryTraversalStack := entry.tail :: entries }
        ((taken.map Prod.fst).getD 0)
    else if depth ≠ 0 then
      findNext sort t (states.headD 0) label (depth - 1) states.tail entries
    else
      { t with
        currentState := 0
        currentLabel := 0
        currentDepth := 0
        atEnd := true
        stateTraversalStack := states
        entryTraversalStack := entry :: entries }

/-- `operator++`. -/
def advance (sort : List (Nat × Byte) → List (Nat × Byte)) (t : BoundedWeightedStateTraverser) :
    BoundedWeightedStateTraverser :=
  if t.atEnd then t
  else
    findNext sort t t.currentState t.currentLabel t.currentDepth t.stateTraversalStack
      t.entryTraversalStack

/-- `BoundedWeightedStateTraverser(f, start_state, top_number_of_results)`. -/
def ofState (sort : List (Nat × Byte) → List (Nat × Byte)) (fsa : Automata) (startState : Nat)
    (topNumberOfResults : Nat) : BoundedWeightedStateTraverser :=
  advance sort (getNextTransitionsInSortedOrder sort
    { fsa := fsa
      currentState := startState
      currentLabel := 0
      currentDepth := 0
      atEnd := decide (startState = 0)
      stateTraversalStack := []
      entryTraversalStack := []
      priorityQueue := List.replicate topNumberOfResults 0 } 0)

/-- What `std::sort` with `compare` promises: the order of equal weights is open. -/
structure Sorts (sort : List (Nat × Byte) → List (Nat × Byte)) : Prop where
  perm : ∀ l, (sort l).Perm l
  sorted : ∀ l, (sort l).Pairwise fun x y => y.1 ≤ x.1

/-! ## What one state adds -/

section

variable {a : Automata} {s₀ : Nat}

/-- The weight of the transition at the end of a path: its inner weight, or that of its parent. -/
def weightOf (a : Automata) (s₀ : Nat) : List Byte → Nat
  | [] => 0
  | c :: p =>
    if a.getInnerWeight (a.trailState s₀ (c :: p)) = 0 then weightOf a s₀ p
    else a.getInnerWeight (a.trailState s₀ (c :: p))

/-- The queue holds the best weights of the transitions that were counted. -/
structure Counts (a : Automata) (s₀ n : Nat) (counted : List (List Byte)) (queue : List Nat) :
    Prop where
  holds : TopQueue.Holds queue (counted.map (weightOf a s₀))
  length : queue.length = n

/-- So many transitions that were counted are heavier than the path. -/
def Outweighed (a : Automata) (s₀ n : Nat) (counted : List (List Byte)) (p : List Byte) : Prop :=
  n ≤ counted.countP fun q => weightOf a s₀ p < weightOf a s₀ q

theorem Outweighed.append {n : Nat} {counted : List (List Byte)} {p : List Byte}
    (h : Outweighed a s₀ n counted p) (more : List (List Byte)) :
    Outweighed a s₀ n (counted ++ more) p :=
  le_trans h (by rw [List.countP_append]; exact Nat.le_add_right _ _)

theorem admits_iff {queue : List Nat} {v : Nat} (hq : queue ≠ []) :
    TopQueue.admits queue v = true ↔ back queue ≤ v := by
  obtain ⟨b, queue, rfl⟩ := List.exists_cons_of_ne_nil hq
  simp [TopQueue.admits, back]

theorem Counts.ne_nil {n : Nat} {counted : List (List Byte)} {queue : List Nat}
    (h : Counts a s₀ n counted queue) (hn : 1 ≤ n) : queue ≠ [] := by
  rintro rfl
  have := h.length
  simp at this
  omega

/-- What is lighter than the queue is outweighed. -/
theorem Counts.outweighed {n : Nat} {counted : List (List Byte)} {queue : List Nat}
    (h : Counts a s₀ n counted queue) (hn : 1 ≤ n) {p : List Byte} {w : Nat}
    (hw : w < back queue) (hp : weightOf a s₀ p ≤ w) : Outweighed a s₀ n counted p := by
  have hno : TopQueue.admits queue (weightOf a s₀ p) = false := by
    rw [Bool.eq_false_iff, Ne, admits_iff (h.ne_nil hn)]
    omega
  have hle := h.holds.length_le hno
  rwa [h.length, List.countP_map] at hle

theorem Counts.put {n : Nat} {counted : List (List Byte)} {queue : List Nat}
    (h : Counts a s₀ n counted queue) (hn : 1 ≤ n) (p : List Byte) :
    Counts a s₀ n (counted ++ [p]) (TopQueue.put (weightOf a s₀ p) queue) where
  holds := by
    rw [List.map_append]
    exact h.holds.put (h.ne_nil hn)
  length := by rw [TopQueue.length_put (h.ne_nil hn), h.length]

/-- What the loop over the labels of a state does: it lists the transitions that are not outweighed
and counts some whose weight is not that of their parent. -/
def Collected (a : Automata) (s₀ n : Nat) (p : List Byte) (labels : List Byte)
    (counted : List (List Byte)) (outgoing : List (Nat × Byte))
    (r : List Nat × List (Nat × Byte)) : Prop :=
  ∃ (fresh : List Byte) (es : List (Nat × Byte)), fresh.Sublist labels ∧
    Counts a s₀ n (counted ++ fresh.map (· :: p)) r.1 ∧
    (∀ c ∈ fresh, a.trailState s₀ (c :: p) ≠ 0 ∧ weightOf a s₀ (c :: p) ≠ weightOf a s₀ p) ∧
    r.2 = outgoing ++ es ∧ (es.map Prod.snd).Sublist labels ∧
    (∀ x ∈ es, x.1 = weightOf a s₀ (x.2 :: p) ∧ a.trailState s₀ (x.2 :: p) ≠ 0) ∧
    ∀ c ∈ labels, a.trailState s₀ (c :: p) ≠ 0 → (weightOf a s₀ (c :: p), c) ∈ es ∨
      Outweighed a s₀ n (counted ++ fresh.map (· :: p)) (c :: p)

/-- By induction on the labels. -/
theorem collectTransitions_spec {n : Nat} (hn : 1 ≤ n) {p : List Byte}
    (hp : a.trailState s₀ p ≠ 0) : ∀ (labels : List Byte) (counted : List (List Byte))
    (queue : List Nat) (outgoing : List (Nat × Byte)), Counts a s₀ n counted queue →
    Collected a s₀ n p labels counted outgoing
      (collectTransitions a (a.trailState s₀ p) (weightOf a s₀ p) labels (queue, outgoing))
  | [], counted, queue, outgoing, h =>
    ⟨[], [], .refl _, by simpa [collectTransitions] using h, by simp, by simp [collectTransitions],
      .refl _, by simp, by simp⟩
  | c :: labels, counted, queue, outgoing, h => by
    have hstate : a.tryWalkTransition (a.trailState s₀ p) c = a.trailState s₀ (c :: p) := by
      rw [Automata.trailState, if_neg hp]
    have hweight : (if a.getInnerWeight (a.trailState s₀ (c :: p)) = 0 then weightOf a s₀ p
        else a.getInnerWeight (a.trailState s₀ (c :: p))) = weightOf a s₀ (c :: p) := rfl
    rw [collectTransitions]
    simp only [hstate, hweight]
    by_cases h0 : a.trailState s₀ (c :: p) = 0
    · rw [if_neg (not_not.mpr h0)]
      obtain ⟨fresh, es, h1, h2, h3, h4, h5, h6, h7⟩ :=
        collectTransitions_spec hn hp labels counted queue outgoing h
      refine ⟨fresh, es, h1.cons c, h2, h3, h4, h5.cons c, h6, fun d hd hne => ?_⟩
      rcases List.mem_cons.mp hd with rfl | hd
      · exact absurd h0 hne
      · exact h7 d hd hne
    · rw [if_pos h0]
      by_cases hlight : weightOf a s₀ (c :: p) < back queue
      · rw [if_pos hlight]
        obtain ⟨fresh, es, h1, h2, h3, h4, h5, h6, h7⟩ :=
          collectTransitions_spec hn hp labels counted queue outgoing h
        refine ⟨fresh, es, h1.cons c, h2, h3, h4, h5.cons c, h6, fun d hd hne => ?_⟩
        rcases List.mem_cons.mp hd with rfl | hd
        · exact .inr ((h.outweighed hn hlight le_rfl).append _)
        · exact h7 d hd hne
      · rw [if_neg hlight]
        by_cases hput : weightOf a s₀ p ≠ weightOf a s₀ (c :: p) ∧
            back queue < weightOf a s₀ (c :: p)
        · rw [if_pos hput]
          obtain ⟨fresh, es, h1, h2, h3, h4, h5, h6, h7⟩ :=
            collectTransitions_spec hn hp labels (counted ++ [c :: p]) _
              (outgoing ++ [(weightOf a s₀ (c :: p), c)]) (h.put hn (c :: p))
          have hassoc : counted ++ [c :: p] ++ fresh.map (· :: p) =
              counted ++ (c :: fresh).map (· :: p) := by simp
          rw [hassoc] at h2 h7
          refine ⟨c :: fresh, (weightOf a s₀ (c :: p), c) :: es, h1.cons_cons c, h2, ?_, ?_,
            h5.cons_cons c, ?_, ?_⟩
          · intro d hd
            rcases List.mem_cons.mp hd with rfl | hd
            · exact ⟨h0, hput.1.symm⟩
            · exact h3 d hd
          · rw [h4]
            simp
          · intro x hx
            rcases List.mem_cons.mp hx with rfl | hx
            · exact ⟨rfl, h0⟩
            · exact h6 x hx
          · intro d hd hne
            rcases List.mem_cons.mp hd with rfl | hd
            · exact .inl List.mem_cons_self
            · exact (h7 d hd hne).imp_left (List.mem_cons_of_mem _)
        · rw [if_neg hput]
          obtain ⟨fresh, es, h1, h2, h3, h4, h5, h6, h7⟩ :=
            collectTransitions_spec hn hp labels counted queue
              (outgoing ++ [(weightOf a s₀ (c :: p), c)]) h
          refine ⟨fresh, (weightOf a s₀ (c :: p), c) :: es, h1.cons c, h2, h3, ?_,
            h5.cons_cons c, ?_, ?_⟩
          · rw [h4]
            simp
          · intro x hx
            rcases List.mem_cons.mp hx with rfl | hx
            · exact ⟨rfl, h0⟩
            · exact h6 x hx
          · intro d hd hne
            rcases List.mem_cons.mp hd with rfl | hd
            · exact .inl List.mem_cons_self
            · exact (h7 d hd hne).imp_left (List.mem_cons_of_mem _)

/-! ## The search -/

/-- The transitions of a path that were not taken yet, heavier ones first. -/
structure Entry (a : Automata) (s₀ : Nat) (p : List Byte) (es : List (Nat × Byte)) : Prop where
  sorted : es.Pairwise fun x y => y.1 ≤ x.1
  labels : (es.map Prod.snd).Nodup
  ok : ∀ x ∈ es, x.1 = weightOf a s₀ (x.2 :: p) ∧ a.trailState s₀ (x.2 :: p) ≠ 0 ∧ x.2 ≠ 0

/-- The stacks above a path. -/
def Above (a : Automata) (s₀ : Nat) : List Byte → List Nat → List (List (Nat × Byte)) → Prop
  | [], states, entries => states = [] ∧ entries = []
  | _ :: p, states, entries => ∃ states' es entries', states = a.trailState s₀ p :: states' ∧
      entries = es :: entries' ∧ Entry a s₀ p es ∧ Above a s₀ p states' entries'

/-- The paths that the entries above a path lead to. -/
def pendingAbove : List Byte → List (List (Nat × Byte)) → List (List Byte)
  | _ :: p, es :: entries => es.map (·.2 :: p) ++ pendingAbove p entries
  | _, _ => []

/-- The paths that were visited and those that were counted: a counted path does not have the weight
of its parent, and the parent was visited. -/
structure Progress (a : Automata) (s₀ : Nat) (visited counted : List (List Byte)) : Prop where
  counted_nodup : counted.Nodup
  counted_ok : ∀ q ∈ counted, q ≠ [] ∧ a.trailState s₀ q ≠ 0 ∧
    weightOf a s₀ q ≠ weightOf a s₀ q.tail ∧ q.tail ∈ [] :: visited
  visited_nodup : visited.Nodup
  visited_ok : ∀ q ∈ visited, q ≠ [] ∧ a.trailState s₀ q ≠ 0 ∧ 0 ∉ q ∧ q.tail ∈ [] :: visited

/-- A path was visited, or is outweighed where it was left out. -/
def Settled (a : Automata) (s₀ n : Nat) (visited counted : List (List Byte)) (q : List Byte) :
    Prop :=
  q ∈ visited ∨ ∃ r, r ≠ [] ∧ r <:+ q ∧ Outweighed a s₀ n counted r

/-- The search at a path whose transitions are not listed yet. -/
structure Entering (a : Automata) (s₀ n : Nat) (visited counted : List (List Byte))
    (p : List Byte) (states : List Nat) (entries : List (List (Nat × Byte))) (queue : List Nat) :
    Prop extends Progress a s₀ visited counted where
  above : Above a s₀ p states entries
  counts : Counts a s₀ n counted queue
  here : p ∈ [] :: visited
  alive : a.trailState s₀ p ≠ 0
  untouched : ∀ q ∈ counted, q.tail ≠ p
  below : ∀ v ∈ visited, p <:+ v → v = p
  fresh : ∀ q ∈ pendingAbove p entries, ∀ v ∈ visited, ¬ q <:+ v
  covered : ∀ q, q ≠ [] → a.trailState s₀ q ≠ 0 → 0 ∉ q → Settled a s₀ n visited counted q ∨
    p <:+ q ∨ ∃ r ∈ pendingAbove p entries, r <:+ q

/-- The search at a path. -/
structure Search (a : Automata) (s₀ n : Nat) (visited counted : List (List Byte)) (p : List Byte)
    (states : List Nat) (es : List (Nat × Byte)) (entries : List (List (Nat × Byte)))
    (queue : List Nat) : Prop extends Progress a s₀ visited counted where
  entry : Entry a s₀ p es
  above : Above a s₀ p states entries
  counts : Counts a s₀ n counted queue
  here : p ∈ [] :: visited
  alive : a.trailState s₀ p ≠ 0
  fresh : ∀ q ∈ es.map (·.2 :: p) ++ pendingAbove p entries, ∀ v ∈ visited, ¬ q <:+ v
  covered : ∀ q, q ≠ [] → a.trailState s₀ q ≠ 0 → 0 ∉ q → Settled a s₀ n visited counted q ∨
    ∃ r ∈ es.map (·.2 :: p) ++ pendingAbove p entries, r <:+ q

/-- The search is over. -/
structure Finished (a : Automata) (s₀ n : Nat) (visited counted : List (List Byte)) : Prop
    extends Progress a s₀ visited counted where
  covered : ∀ q, q ≠ [] → a.trailState s₀ q ≠ 0 → 0 ∉ q → Settled a s₀ n visited counted q

variable {n : Nat} {visited counted : List (List Byte)} {p : List Byte} {states : List Nat}
  {es : List (Nat × Byte)} {entries : List (List (Nat × Byte))} {queue : List Nat}
  {sort : List (Nat × Byte) → List (Nat × Byte)} {t : BoundedWeightedStateTraverser}

theorem Settled.append {q : List Byte} (h : Settled a s₀ n visited counted q)
    (more : List (List Byte)) : Settled a s₀ n visited (counted ++ more) q :=
  h.imp_right fun ⟨r, hne, hr, ho⟩ => ⟨r, hne, hr, ho.append more⟩

theorem trailState_of_suffix {p q : List Byte} (h : p <:+ q) (hq : a.trailState s₀ q ≠ 0) :
    a.trailState s₀ p ≠ 0 := by
  induction q with
  | nil => rwa [List.suffix_nil.mp h]
  | cons c q ih =>
    rcases List.suffix_cons_iff.mp h with rfl | h
    · exact hq
    · exact ih h (Automata.trailState_ne_zero_of_cons hq)

theorem exists_child_of_suffix {p q : List Byte} (h : p <:+ q) (hne : q ≠ p) :
    ∃ c, (c :: p) <:+ q := by
  obtain ⟨w, rfl⟩ := h
  have hw : w ≠ [] := by
    rintro rfl
    exact hne rfl
  obtain ⟨w, c, rfl⟩ := List.eq_nil_or_concat w |>.resolve_left hw
  exact ⟨c, w, by simp⟩

theorem length_le_of_pendingAbove : ∀ {p : List Byte} {entries : List (List (Nat × Byte))}
    {q : List Byte}, q ∈ pendingAbove p entries → q.length ≤ p.length
  | [], _, q, h => by simp [pendingAbove] at h
  | _ :: _, [], q, h => by simp [pendingAbove] at h
  | c :: p, es :: entries, q, h => by
    rw [pendingAbove] at h
    rcases List.mem_append.mp h with h | h
    · obtain ⟨x, -, rfl⟩ := List.mem_map.mp h
      simp
    · have := length_le_of_pendingAbove h
      simp only [List.length_cons]
      omega

theorem mem_labelsFromOne {c : Byte} : c ∈ labelsFromOne ↔ c ≠ 0 := by
  revert c
  decide +kernel

theorem nodup_labelsFromOne : labelsFromOne.Nodup := (List.nodup_finRange 256).tail

/-- **Listing the transitions of a path.** What is not listed is outweighed. -/
theorem Entering.search (h : Entering a s₀ n visited counted p states entries queue) (hn : 1 ≤ n)
    (hsort : Sorts sort) {r : List Nat × List (Nat × Byte)}
    (hr : r = collectTransitions a (a.trailState s₀ p) (weightOf a s₀ p) labelsFromOne (queue, [])) :
    ∃ counted', Search a s₀ n visited counted' p states (sort r.2) entries r.1 := by
  obtain ⟨new, es, hsub, hcounts, hnew, hr2, hlabels, hok, hall⟩ :=
    collectTransitions_spec hn h.alive labelsFromOne counted queue [] h.counts
  rw [← hr] at hcounts hr2
  rw [List.nil_append] at hr2
  have hperm : (sort r.2).Perm es := hr2 ▸ hsort.perm r.2
  have hmem : ∀ x, x ∈ sort r.2 ↔ x ∈ es := fun x => hperm.mem_iff
  have hne0 : ∀ x ∈ es, x.2 ≠ 0 := fun x hx =>
    mem_labelsFromOne.mp (hlabels.subset (List.mem_map_of_mem hx))
  refine ⟨counted ++ new.map (· :: p), ⟨⟨?_, ?_, h.visited_nodup, h.visited_ok⟩, ⟨hsort.sorted _, ?_,
    ?_⟩, h.above, hcounts, h.here, h.alive, ?_, ?_⟩⟩
  · refine List.nodup_append.mpr ⟨h.counted_nodup, ?_, ?_⟩
    · exact (hsub.nodup nodup_labelsFromOne).map fun _ _ he => (List.cons.inj he).1
    · rintro q hq _ hq' rfl
      obtain ⟨c, -, rfl⟩ := List.mem_map.mp hq'
      exact h.untouched _ hq rfl
  · intro q hq
    rcases List.mem_append.mp hq with hq | hq
    · exact h.counted_ok q hq
    · obtain ⟨c, hc, rfl⟩ := List.mem_map.mp hq
      exact ⟨by simp, (hnew c hc).1, (hnew c hc).2, h.here⟩
  · exact ((hperm.map Prod.snd).nodup_iff).mpr (hlabels.nodup nodup_labelsFromOne)
  · intro x hx
    have hx := (hmem x).mp hx
    exact ⟨(hok x hx).1, (hok x hx).2, hne0 x hx⟩
  · intro q hq v hv hqv
    rcases List.mem_append.mp hq with hq | hq
    · obtain ⟨x, -, rfl⟩ := List.mem_map.mp hq
      have hpv := h.below v hv ((List.suffix_cons _ _).trans hqv)
      rw [hpv] at hqv
      exact absurd hqv.length_le (by simp)
    · exact h.fresh q hq v hv hqv
  · intro q hne hq h0
    rcases h.covered q hne hq h0 with hs | hpq | ⟨r', hr', hs⟩
    · exact .inl (hs.append _)
    · by_cases heq : q = p
      · exact .inl (.inl ((List.mem_cons.mp (heq ▸ h.here)).resolve_left hne))
      obtain ⟨c, hc⟩ := exists_child_of_suffix hpq heq
      have hc0 : c ≠ 0 := by
        rintro rfl
        exact h0 (hc.subset List.mem_cons_self)
      rcases hall c (mem_labelsFromOne.mpr hc0) (trailState_of_suffix hc hq) with hm | ho
      · refine .inr ⟨c :: p, List.mem_append_left _ ?_, hc⟩
        exact List.mem_map.mpr ⟨_, (hmem _).mpr hm, rfl⟩
      · exact .inl (.inr ⟨c :: p, by simp, hc, ho⟩)
    · exact .inr ⟨r', List.mem_append_right _ hr', hs⟩

/-- **Taking a transition.** The path is new. -/
theorem Search.take {x : Nat × Byte}
    (h : Search a s₀ n visited counted p states (x :: es) entries queue) :
    Entering a s₀ n (visited ++ [x.2 :: p]) counted (x.2 :: p) (a.trailState s₀ p :: states)
      (es :: entries) queue := by
  have hx := h.entry.ok x List.mem_cons_self
  have hnew : ∀ v ∈ visited, ¬ (x.2 :: p) <:+ v := h.fresh _ (by simp)
  have hhere : ∀ q, q ∈ [] :: visited → q ∈ [] :: (visited ++ [x.2 :: p]) := fun q hq =>
    (List.cons_subset_cons [] (List.subset_append_left visited _)) hq
  refine ⟨⟨h.counted_nodup, fun q hq => ?_, ?_, fun v hv => ?_⟩, ⟨states, es, entries, rfl, rfl,
    ⟨h.entry.sorted.of_cons, ?_, fun y hy => h.entry.ok y (List.mem_cons_of_mem _ hy)⟩, h.above⟩,
    h.counts, by simp, hx.2.1, fun q hq heq => ?_, fun v hv hs => ?_, fun q hq v hv hs => ?_,
    fun q hne hq h0 => ?_⟩
  · obtain ⟨h1, h2, h3, h4⟩ := h.counted_ok q hq
    exact ⟨h1, h2, h3, hhere _ h4⟩
  · refine List.nodup_append.mpr ⟨h.visited_nodup, List.nodup_singleton _, ?_⟩
    rintro v hv _ hv' rfl
    exact hnew v hv (List.mem_singleton.mp hv' ▸ List.suffix_rfl)
  · rcases List.mem_append.mp hv with hv | hv
    · obtain ⟨h1, h2, h3, h4⟩ := h.visited_ok v hv
      exact ⟨h1, h2, h3, hhere _ h4⟩
    · obtain rfl := List.mem_singleton.mp hv
      refine ⟨by simp, hx.2.1, ?_, hhere _ h.here⟩
      have hp : 0 ∉ p := by
        rcases List.mem_cons.mp h.here with rfl | hp
        · simp
        · exact (h.visited_ok p hp).2.2.1
      simpa using ⟨hx.2.2.symm, hp⟩
  · exact (List.nodup_cons.mp h.entry.labels).2
  · have hm := (h.counted_ok q hq).2.2.2
    rw [heq] at hm
    rcases List.mem_cons.mp hm with hnil | hm
    · cases hnil
    · exact hnew _ hm List.suffix_rfl
  · rcases List.mem_append.mp hv with hv | hv
    · exact absurd hs (hnew v hv)
    · exact List.mem_singleton.mp hv
  · rw [pendingAbove] at hq
    have hq' : q ∈ (x :: es).map (·.2 :: p) ++ pendingAbove p entries := List.mem_cons_of_mem _ hq
    rcases List.mem_append.mp hv with hv | hv
    · exact h.fresh q hq' v hv hs
    · obtain rfl := List.mem_singleton.mp hv
      rcases List.mem_append.mp hq with hq | hq
      · obtain ⟨y, hy, rfl⟩ := List.mem_map.mp hq
        have heq := (List.cons.inj (hs.eq_of_length rfl)).1
        exact (List.nodup_cons.mp h.entry.labels).1 (heq ▸ List.mem_map_of_mem hy)
      · have hlen := length_le_of_pendingAbove hq
        have hqp : q <:+ p := by
          rcases List.suffix_cons_iff.mp hs with rfl | hqp
          · simp at hlen
          · exact hqp
        rcases List.mem_cons.mp h.here with rfl | hp
        · simp [pendingAbove] at hq
        · exact h.fresh q hq' p hp hqp
  · rcases h.covered q hne hq h0 with hs | ⟨r, hr, hs⟩
    · exact .inl (hs.imp_left (List.mem_append_left _))
    · rcases List.mem_cons.mp hr with rfl | hr
      · exact .inr (.inl hs)
      · exact .inr (.inr ⟨r, hr, hs⟩)

/-- **Going up.** What is left is outweighed. -/
theorem Search.goUp {c : Byte} (h : Search a s₀ n visited counted (c :: p) states es entries queue)
    (hes : ∀ x ∈ es, Outweighed a s₀ n counted (x.2 :: c :: p)) :
    ∃ states' es' entries', states = a.trailState s₀ p :: states' ∧ entries = es' :: entries' ∧
      Search a s₀ n visited counted p states' es' entries' queue := by
  obtain ⟨states', es', entries', hst, hen, hentry, habove⟩ := h.above
  refine ⟨states', es', entries', hst, hen, h.toProgress, hentry, habove, h.counts, ?_, ?_, ?_, ?_⟩
  · have hc : c :: p ∈ visited := (List.mem_cons.mp h.here).resolve_left (by simp)
    exact (h.visited_ok _ hc).2.2.2
  · exact trailState_of_suffix (List.suffix_cons c p) h.alive
  · intro q hq
    refine h.fresh q (List.mem_append_right _ ?_)
    rwa [hen, pendingAbove]
  · intro q hne hq h0
    rcases h.covered q hne hq h0 with hs | ⟨r, hr, hs⟩
    · exact .inl hs
    · rcases List.mem_append.mp hr with hr | hr
      · obtain ⟨x, hx, rfl⟩ := List.mem_map.mp hr
        exact .inl (.inr ⟨_, by simp, hs, hes x hx⟩)
      · rw [hen, pendingAbove] at hr
        exact .inr ⟨r, hr, hs⟩

theorem Search.finished (h : Search a s₀ n visited counted [] states es entries queue)
    (hes : ∀ x ∈ es, Outweighed a s₀ n counted [x.2]) : Finished a s₀ n visited counted where
  toProgress := h.toProgress
  covered q hne hq h0 := by
    rcases h.covered q hne hq h0 with hs | ⟨r, hr, hs⟩
    · exact hs
    · rcases List.mem_append.mp hr with hr | hr
      · obtain ⟨x, hx, rfl⟩ := List.mem_map.mp hr
        exact .inr ⟨_, by simp, hs, hes x hx⟩
      · simp [pendingAbove] at hr

/-- Where no transition is taken, all are outweighed. -/
theorem Search.outweighed (h : Search a s₀ n visited counted p states es entries queue)
    (hn : 1 ≤ n) (ht : es.head?.filter (fun x => back queue ≤ x.1) = none) :
    ∀ x ∈ es, Outweighed a s₀ n counted (x.2 :: p) := by
  intro x hx
  cases es with
  | nil => cases hx
  | cons y es =>
    have hlight : y.1 < back queue := by simpa using ht
    have hle : x.1 ≤ y.1 := by
      rcases List.mem_cons.mp hx with rfl | hx
      · exact le_rfl
      · exact List.rel_of_pairwise_cons h.entry.sorted hx
    exact h.counts.outweighed hn (lt_of_le_of_lt hle hlight)
      (h.entry.ok x hx).1.ge

/-- The traverser is at a path. -/
structure At (a : Automata) (s₀ n : Nat) (visited counted : List (List Byte)) (p : List Byte)
    (t : BoundedWeightedStateTraverser) : Prop where
  fsa : t.fsa = a
  state : t.currentState = a.trailState s₀ p
  label : ∀ c ∈ p.head?, t.currentLabel = c
  depth : t.currentDepth = p.length
  atEnd : t.atEnd = false
  search : ∃ es entries, t.entryTraversalStack = es :: entries ∧
    Search a s₀ n visited counted p t.stateTraversalStack es entries t.priorityQueue

theorem Search.findNext_take (h : Search a s₀ n visited counted p states es entries t.priorityQueue)
    (hn : 1 ≤ n) (hsort : Sorts sort) (hfsa : t.fsa = a) (hend : t.atEnd = false) (label : Byte)
    {x : Nat × Byte} (ht : es.head?.filter (fun x => back t.priorityQueue ≤ x.1) = some x) :
    ∃ counted', At a s₀ n (visited ++ [x.2 :: p]) counted' (x.2 :: p)
      (findNext sort t (a.trailState s₀ p) label p.length states (es :: entries)) := by
  obtain ⟨es, rfl⟩ : ∃ es', es = x :: es' := by
    cases es with
    | nil => cases ht
    | cons y es =>
      have hy : y = x := (Option.filter_eq_some_iff.mp ht).1 |> Option.some.inj
      exact ⟨es, by rw [hy]⟩
  have hx := h.entry.ok x List.mem_cons_self
  have hwalk : a.tryWalkTransition (a.trailState s₀ p) x.2 = a.trailState s₀ (x.2 :: p) := by
    rw [Automata.trailState, if_neg h.alive]
  obtain ⟨counted', hs⟩ := h.take.search hn hsort rfl
  refine ⟨counted', ?_⟩
  rw [findNext]
  simp only [ht, Option.elim_some, Option.map_some, Option.getD_some, hfsa, hwalk]
  rw [if_pos hx.2.1]
  refine ⟨rfl, rfl, fun c hc => ?_, rfl, hend, _, _, rfl, ?_⟩
  · exact Option.some.inj hc
  · simp only [getNextTransitionsInSortedOrder, hx.1]
    exact hs

/-- **The next path.** By induction on the path: a transition is taken, or the search goes up. -/
theorem findNext_spec (hn : 1 ≤ n) (hsort : Sorts sort) (hfsa : t.fsa = a)
    (hend : t.atEnd = false) : ∀ (p : List Byte) (label : Byte) (states : List Nat)
    (es : List (Nat × Byte)) (entries : List (List (Nat × Byte))),
    Search a s₀ n visited counted p states es entries t.priorityQueue →
    ((findNext sort t (a.trailState s₀ p) label p.length states (es :: entries)).atEnd = true ∧
      Finished a s₀ n visited counted) ∨
    ∃ c q counted', q <:+ p ∧ At a s₀ n (visited ++ [c :: q]) counted' (c :: q)
      (findNext sort t (a.trailState s₀ p) label p.length states (es :: entries)) := by
  intro p
  induction p with
  | nil =>
    intro label states es entries h
    cases ht : es.head?.filter fun x => back t.priorityQueue ≤ x.1 with
    | none =>
      refine .inl ⟨?_, h.finished (h.outweighed hn ht)⟩
      rw [findNext]
      simp [ht]
    | some x =>
      obtain ⟨counted', hat⟩ := h.findNext_take hn hsort hfsa hend label ht
      exact .inr ⟨x.2, [], counted', List.suffix_rfl, hat⟩
  | cons c p ih =>
    intro label states es entries h
    cases ht : es.head?.filter fun x => back t.priorityQueue ≤ x.1 with
    | none =>
      obtain ⟨states', es', entries', rfl, rfl, h'⟩ := h.goUp (h.outweighed hn ht)
      have hup : findNext sort t (a.trailState s₀ (c :: p)) label (c :: p).length
          (a.trailState s₀ p :: states') (es :: es' :: entries') =
          findNext sort t (a.trailState s₀ p) label p.length states' (es' :: entries') := by
        rw [findNext]
        simp [ht]
      rw [hup]
      refine (ih label states' es' entries' h').imp_right ?_
      rintro ⟨d, q, counted', hq, hat⟩
      exact ⟨d, q, counted', hq.trans (List.suffix_cons c p), hat⟩
    | some x =>
      obtain ⟨counted', hat⟩ := h.findNext_take hn hsort hfsa hend label ht
      exact .inr ⟨x.2, c :: p, counted', List.suffix_rfl, hat⟩

theorem At.advance (h : At a s₀ n visited counted p t) (hn : 1 ≤ n) (hsort : Sorts sort) :
    ((t.advance sort).atEnd = true ∧ Finished a s₀ n visited counted) ∨
    ∃ c q counted', q <:+ p ∧ At a s₀ n (visited ++ [c :: q]) counted' (c :: q)
      (t.advance sort) := by
  obtain ⟨es, entries, hen, hs⟩ := h.search
  rw [BoundedWeightedStateTraverser.advance, h.atEnd, if_neg (by simp), h.state, h.depth, hen]
  exact findNext_spec hn hsort h.fsa h.atEnd p _ _ es entries hs

/-- The traverser before its first step. -/
def atRoot (sort : List (Nat × Byte) → List (Nat × Byte)) (fsa : Automata) (startState n : Nat) :
    BoundedWeightedStateTraverser :=
  getNextTransitionsInSortedOrder sort
    { fsa := fsa
      currentState := startState
      currentLabel := 0
      currentDepth := 0
      atEnd := decide (startState = 0)
      stateTraversalStack := []
      entryTraversalStack := []
      priorityQueue := List.replicate n 0 } 0

/-- The search begins at the start state. -/
theorem at_atRoot (hn : 1 ≤ n) (hsort : Sorts sort) (hs₀ : s₀ ≠ 0) :
    ∃ counted, At a s₀ n [] counted [] (atRoot sort a s₀ n) := by
  have hroot : Entering a s₀ n [] [] [] [] [] (List.replicate n 0) := by
    refine ⟨⟨by simp, by simp, by simp, by simp⟩, ⟨rfl, rfl⟩, ⟨TopQueue.holds_replicate n, by simp⟩,
      by simp, hs₀, by simp, by simp, ?_, fun q _ _ _ => .inr (.inl List.nil_suffix)⟩
    intro q hq
    cases hq
  obtain ⟨counted, hs⟩ := hroot.search hn hsort rfl
  exact ⟨counted, rfl, rfl, by simp, rfl, decide_eq_false hs₀, _, _, rfl, hs⟩

/-! ## What is left to be visited -/

/-- The traverser visits the paths one after the other; each goes on from a place of the one
before. -/
inductive Visits (sort : List (Nat × Byte) → List (Nat × Byte)) (a : Automata) (s₀ : Nat) :
    List Byte → BoundedWeightedStateTraverser → List (List Byte) → Prop
  | finished {prev : List Byte} {t : BoundedWeightedStateTraverser} (hend : t.atEnd = true) :
    Visits sort a s₀ prev t []
  | visit {prev p : List Byte} {c : Byte} {t : BoundedWeightedStateTraverser}
    {L : List (List Byte)} (hend : t.atEnd = false) (hfsa : t.fsa = a)
    (hstate : t.currentState = a.trailState s₀ (c :: p)) (hlabel : t.currentLabel = c)
    (hdepth : t.currentDepth = p.length + 1) (hprev : p <:+ prev)
    (hnext : Visits sort a s₀ (c :: p) (t.advance sort) L) : Visits sort a s₀ prev t ((c :: p) :: L)

theorem At.length_le (h : At a s₀ n visited counted p t) {paths : List (List Byte)}
    (hpaths : ∀ p, a.trailState s₀ p ≠ 0 → p ∈ paths) : visited.length ≤ paths.length := by
  obtain ⟨es, entries, -, hs⟩ := h.search
  exact (hs.visited_nodup.subperm fun v hv => hpaths v (hs.visited_ok v hv).2.1).length_le

/-- **The search ends.** Every step visits a path that was not visited before. -/
theorem At.visits (hn : 1 ≤ n) (hsort : Sorts sort) {paths : List (List Byte)}
    (hpaths : ∀ p, a.trailState s₀ p ≠ 0 → p ∈ paths) : ∀ (k : Nat)
    {visited counted : List (List Byte)} {p : List Byte} {t : BoundedWeightedStateTraverser},
    At a s₀ n visited counted p t → paths.length ≤ visited.length + k →
    ∃ L counted', Visits sort a s₀ p (t.advance sort) L ∧
      Finished a s₀ n (visited ++ L) counted' := by
  intro k
  induction k with
  | zero =>
    intro visited counted p t h hk
    rcases h.advance hn hsort with ⟨hend, hfin⟩ | ⟨c, q, counted', -, hat⟩
    · exact ⟨[], counted, .finished hend, by simpa using hfin⟩
    · have hle := hat.length_le hpaths
      rw [List.length_append, List.length_singleton] at hle
      omega
  | succ k ih =>
    intro visited counted p t h hk
    rcases h.advance hn hsort with ⟨hend, hfin⟩ | ⟨c, q, counted', hq, hat⟩
    · exact ⟨[], counted, .finished hend, by simpa using hfin⟩
    · obtain ⟨L, counted'', hv, hfin⟩ :=
        ih hat (by rw [List.length_append, List.length_singleton]; omega)
      refine ⟨(c :: q) :: L, counted'', .visit hat.atEnd hat.fsa hat.state (hat.label c rfl)
        hat.depth hq hv, ?_⟩
      rwa [List.append_assoc, List.singleton_append] at hfin

/-- **The bounded traverser visits every path, unless it is outweighed.** -/
theorem ofState_visits (hn : 1 ≤ n) (hsort : Sorts sort) (hs₀ : s₀ ≠ 0) {paths : List (List Byte)}
    (hpaths : ∀ p, a.trailState s₀ p ≠ 0 → p ∈ paths) :
    ∃ L counted, Visits sort a s₀ [] (ofState sort a s₀ n) L ∧ Finished a s₀ n L counted := by
  obtain ⟨counted, hat⟩ := at_atRoot hn hsort hs₀
  obtain ⟨L, counted', hv, hfin⟩ := hat.visits hn hsort hpaths paths.length (Nat.le_add_left _ _)
  exact ⟨L, counted', hv, hfin⟩

end

end BoundedWeightedStateTraverser

end Keyvi.Fsa
