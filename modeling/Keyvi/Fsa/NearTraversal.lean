import Mathlib
import Keyvi.Fsa.ComparableStateTraverser

/-!
# The near traversal

`near_traversal.h`. The transition that agrees with the lookup key comes first; the payload, shared
by all depths, remembers how deep the path agrees and whether it still does.
-/

namespace Keyvi.Fsa

/-- The length of the longest common prefix. -/
def commonPrefix : Key → Key → Nat
  | x :: k, y :: q => if x = y then commonPrefix k q + 1 else 0
  | _, _ => 0

@[simp] theorem commonPrefix_nil (q : Key) : commonPrefix [] q = 0 := rfl

theorem commonPrefix_le_right : ∀ k q : Key, commonPrefix k q ≤ q.length
  | [], _ => Nat.zero_le _
  | _ :: _, [] => Nat.zero_le _
  | x :: k, y :: q => by
    rw [commonPrefix, List.length_cons]
    split
    · exact Nat.add_le_add_right (commonPrefix_le_right k q) 1
    · exact Nat.zero_le _

/-- The common prefix is the whole key when the key is a prefix. -/
theorem commonPrefix_eq_length_iff : ∀ {k q : Key}, commonPrefix k q = k.length ↔ k <+: q
  | [], q => by simp
  | x :: k, [] => by simp [commonPrefix]
  | x :: k, y :: q => by
    rw [commonPrefix, List.length_cons, List.cons_prefix_cons]
    by_cases h : x = y
    · simp [h, commonPrefix_eq_length_iff]
    · simp [h]

theorem commonPrefix_append (j k q : Key) :
    commonPrefix (j ++ k) (j ++ q) = j.length + commonPrefix k q := by
  induction j with
  | nil => simp
  | cons x j ih =>
    rw [List.cons_append, List.cons_append, commonPrefix, if_pos rfl, ih, List.length_cons]
    omega

/-- What is appended to a key that is not a prefix does not count. -/
theorem commonPrefix_append_of_not_prefix : ∀ {k q : Key} (w : Key), ¬ k <+: q →
    commonPrefix (k ++ w) q = commonPrefix k q
  | [], q, _, h => absurd List.nil_prefix h
  | x :: k, [], _, _ => rfl
  | x :: k, y :: q, w, h => by
    rw [List.cons_append, commonPrefix, commonPrefix]
    by_cases hxy : x = y
    · subst hxy
      rw [if_pos rfl, if_pos rfl, commonPrefix_append_of_not_prefix w]
      intro hk
      exact h (List.cons_prefix_cons.mpr ⟨rfl, hk⟩)
    · rw [if_neg hxy, if_neg hxy]

/-- A label that does not agree ends the common prefix. -/
theorem commonPrefix_concat {k q : Key} {c : Byte} (h : ¬ (k ++ [c]) <+: q) :
    commonPrefix (k ++ [c]) q = commonPrefix k q := by
  by_cases hk : k <+: q
  · obtain ⟨w, rfl⟩ := hk
    have h0 := commonPrefix_append k [] w
    rw [List.append_nil, commonPrefix_nil] at h0
    rw [commonPrefix_append, h0]
    cases w with
    | nil => rfl
    | cons y w =>
      rw [commonPrefix, if_neg]
      rintro rfl
      exact h ((List.prefix_append_right_inj k).mpr (List.cons_prefix_cons.mpr
        ⟨rfl, List.nil_prefix⟩))
  · exact commonPrefix_append_of_not_prefix [c] hk

/-- How far a key agrees is how long a prefix of the other it starts with. -/
theorem le_commonPrefix_iff : ∀ {k q : Key} {n : Nat}, n ≤ q.length →
    (n ≤ commonPrefix k q ↔ q.take n <+: k)
  | _, _, 0, _ => by simp
  | [], y :: q, n + 1, _ => by simp
  | x :: k, y :: q, n + 1, h => by
    rw [commonPrefix, List.take_succ_cons, List.cons_prefix_cons]
    by_cases hxy : x = y
    · rw [if_pos hxy, Nat.add_le_add_iff_right, le_commonPrefix_iff (Nat.le_of_succ_le_succ h)]
      simp [hxy]
    · rw [if_neg hxy]
      simp [Ne.symm hxy]

/-- `NearTransition`. -/
structure NearTransition where
  state : Nat
  label : Byte
deriving DecidableEq, Repr

/-- `TraversalPayload<NearTransition>` less the depth. -/
structure NearPayload where
  lookupKey : Key
  exactDepth : Nat := 0
  exact : Bool := true

namespace NearTransition

/-- `TraversalState<NearTransition>::Add`: an exact match goes to the first place. -/
def add (s : Nat) (l : Byte) (depth : Nat) (payload : NearPayload)
    (st : TraversalState NearTransition) : TraversalState NearTransition :=
  if payload.exact ∧ payload.lookupKey[depth]? = some l then
    { transitions := st.transitions.set 0 ⟨s, l⟩, position := 0 }
  else
    { st with transitions := st.transitions ++ [⟨s, l⟩] }

/-- `TraversalState<NearTransition>::PostProcess`. -/
def postProcess (depth : Nat) (st : TraversalState NearTransition) (payload : NearPayload) :
    TraversalState NearTransition × NearPayload :=
  if payload.exact then
    (st, { payload with
      exactDepth := depth
      exact := decide (st.position = 0) })
  else (st, payload)

/-- `TraversalStack<NearTransition>::operator--`, the part of the payload. -/
def leave (depth : Nat) (payload : NearPayload) : NearPayload :=
  if payload.exactDepth = depth then
    { payload with exactDepth := payload.exactDepth - 1 }
  else payload

end NearTransition

instance : TransitionT NearTransition NearPayload where
  state := NearTransition.state
  label := NearTransition.label
  innerWeight _ := 0
  clear := ⟨[⟨0, 0⟩], 1⟩
  childWeight _ _ _ := 0
  add s _ l depth payload st := NearTransition.add s l depth payload st
  postProcess := NearTransition.postProcess
  leave := NearTransition.leave
  filterByMinWeight _ _ state := state

namespace NearTransition

variable {a : Automata} {s₀ B : Nat} {w : Key}

/-- The label that agrees with the key at a trail, if there is such a transition. -/
def exactChild (a : Automata) (s₀ : Nat) (w : Key) (p : List Byte) : Option Byte :=
  if p.reverse <+: w then w[p.length]?.filter fun c => c ∈ a.children s₀ p else none

/-- The labels below a trail, the one that agrees first. -/
def children (a : Automata) (s₀ : Nat) (w : Key) (p : List Byte) : List Byte :=
  match exactChild a s₀ w p with
  | some c => c :: (a.children s₀ p).filter fun d => d ≠ c
  | none => a.children s₀ p

/-- The transition for a label below a trail. -/
def at' (a : Automata) (s₀ : Nat) (p : List Byte) (c : Byte) : NearTransition :=
  ⟨a.trailState s₀ (c :: p), c⟩

/-- What the payload says at a trail: how deep the path agrees, and whether the traversal is still on
its first way down, about to enter the transition that agrees. -/
structure Ok (a : Automata) (s₀ : Nat) (w : Key) (payload : NearPayload) (p r : List Byte) :
    Prop where
  lookupKey : payload.lookupKey = w
  exactDepth : payload.exactDepth = commonPrefix p.reverse w
  exact : payload.exact = true ↔ (∃ c, exactChild a s₀ w p = some c) ∧ r = children a s₀ w p

theorem exactChild_eq_some {p : List Byte} {c : Byte} :
    exactChild a s₀ w p = some c ↔ (c :: p).reverse <+: w ∧ c ∈ a.children s₀ p := by
  rw [exactChild]
  have hsnoc : (c :: p).reverse <+: w ↔ p.reverse <+: w ∧ w[p.length]? = some c := by
    rw [List.reverse_cons]
    constructor
    · rintro ⟨v, rfl⟩
      refine ⟨⟨[c] ++ v, by simp⟩, ?_⟩
      rw [List.append_assoc, List.getElem?_append_right (by simp)]
      simp
    · rintro ⟨⟨v, rfl⟩, hc⟩
      rw [List.getElem?_append_right (by simp)] at hc
      cases v with
      | nil => simp at hc
      | cons d v =>
        obtain rfl : d = c := by simpa using hc
        exact ⟨v, by simp⟩
  rw [hsnoc]
  by_cases hp : p.reverse <+: w
  · rw [if_pos hp, Option.filter_eq_some_iff]
    simp [hp]
  · simp [hp]

theorem mem_children_iff {p : List Byte} {c : Byte} :
    c ∈ children a s₀ w p ↔ c ∈ a.children s₀ p := by
  rw [children]
  split
  case h_1 d hd =>
    have hd' := (exactChild_eq_some.mp hd).2
    rw [List.mem_cons, List.mem_filter]
    constructor
    · rintro (rfl | ⟨h, -⟩)
      · exact hd'
      · exact h
    · intro h
      by_cases hcd : c = d
      · exact .inl hcd
      · exact .inr ⟨h, by simpa using hcd⟩
  case h_2 => rfl

theorem nodup_children (p : List Byte) : (children a s₀ w p).Nodup := by
  rw [children]
  split
  case h_1 d hd =>
    exact List.nodup_cons.mpr ⟨by simp, (Automata.nodup_children a s₀ p).filter _⟩
  case h_2 => exact Automata.nodup_children a s₀ p

theorem bounded_children (hT : a.Tree s₀ B) : Preorder.Bounded (children a s₀ w) B := by
  intro p hp
  refine List.eq_nil_iff_forall_not_mem.mpr fun c hc => ?_
  rw [mem_children_iff, Automata.bounded_children hT p hp] at hc
  cases hc

/-- On the way down the path of an entered label agrees with the key. -/
theorem Ok.exact_iff {payload : NearPayload} {p r : List Byte} {c : Byte}
    (h : Ok a s₀ w payload p (c :: r)) (hr : (c :: r) <:+ children a s₀ w p) :
    payload.exact = true ↔ (c :: p).reverse <+: w := by
  have hc : c ∈ a.children s₀ p := mem_children_iff.mp (hr.subset List.mem_cons_self)
  rw [h.exact]
  constructor
  · rintro ⟨⟨d, hd⟩, heq⟩
    rw [children, hd] at heq
    obtain rfl : c = d := (List.cons.inj heq).1
    exact (exactChild_eq_some.mp hd).1
  · intro hpre
    have hex := exactChild_eq_some.mpr ⟨hpre, hc⟩
    refine ⟨⟨c, hex⟩, ?_⟩
    -- `c` stands first among the children, and only there.
    obtain ⟨pre, hpre'⟩ := hr
    cases pre with
    | nil => exact hpre'
    | cons d pre =>
      have hnd : (children a s₀ w p).Nodup := nodup_children p
      have hhead : children a s₀ w p = c :: (a.children s₀ p).filter fun d => d ≠ c := by
        rw [children, hex]
      rw [hhead, List.cons_append] at hpre'
      rw [hhead] at hnd
      have hmem : c ∈ (a.children s₀ p).filter fun d => d ≠ c := by
        rw [← (List.cons.inj hpre').2]
        simp
      exact absurd hmem (List.nodup_cons.mp hnd).1

/-! ## Filling the list of a state -/

/-- The transitions that do not agree are appended. -/
theorem foldl_add_ne {payload : NearPayload} {depth : Nat} (f : Byte → Nat) :
    ∀ (l : List Byte) (st : TraversalState NearTransition),
      (∀ c ∈ l, ¬ (payload.exact = true ∧ payload.lookupKey[depth]? = some c)) →
      l.foldl (fun st c => add (f c) c depth payload st) st =
        { st with transitions := st.transitions ++ l.map fun c => ⟨f c, c⟩ }
  | [], st, _ => by simp
  | c :: l, st, h => by
    rw [List.foldl_cons, add, if_neg (h c List.mem_cons_self),
      foldl_add_ne f l _ fun d hd => h d (List.mem_cons_of_mem _ hd)]
    simp

/-- The one that agrees goes to the first place. -/
theorem foldl_add_exact {payload : NearPayload} {depth : Nat} {c : Byte} (f : Byte → Nat)
    (he : payload.exact = true) (hc : payload.lookupKey[depth]? = some c) :
    ∀ (l : List Byte) (t : NearTransition) (pre : List NearTransition) (n : Nat), l.Nodup →
      c ∈ l → l.foldl (fun st c => add (f c) c depth payload st) ⟨t :: pre, n⟩ =
        ⟨⟨f c, c⟩ :: pre ++ (l.filter fun d => d ≠ c).map fun d => ⟨f d, d⟩, 0⟩
  | [], _, _, _, _, h => by cases h
  | d :: l, t, pre, n, hnd, h => by
    rw [List.nodup_cons] at hnd
    rw [List.foldl_cons, add]
    by_cases hdc : d = c
    · subst hdc
      have hfil : (d :: l).filter (fun x => x ≠ d) = l := by
        rw [List.filter_cons_of_neg (by simp), List.filter_eq_self]
        intro x hx
        have : x ≠ d := fun he => hnd.1 (he ▸ hx)
        simpa using this
      rw [if_pos ⟨he, hc⟩, hfil, foldl_add_ne f l]
      · rfl
      · rintro x hx ⟨-, hxc⟩
        rw [hc] at hxc
        exact hnd.1 ((Option.some.inj hxc) ▸ hx)
    · have hfil : (d :: l).filter (fun x => x ≠ c) = d :: l.filter fun x => x ≠ c :=
        List.filter_cons_of_pos (by simpa using hdc)
      have hmem : c ∈ l := (List.mem_cons.mp h).resolve_left (Ne.symm hdc)
      have hno : ¬ (payload.exact = true ∧ payload.lookupKey[depth]? = some d) := by
        rintro ⟨-, hd⟩
        rw [hc] at hd
        exact hdc (Option.some.inj hd).symm
      rw [if_neg hno, hfil]
      refine (foldl_add_exact f he hc l t (pre ++ [⟨f d, d⟩]) n hnd.2 hmem).trans ?_
      simp

/-- **The list of a state that the payload fits.** `p` is its trail. -/
theorem getOutGoingTransitions_spec (payload : NearPayload) {p : List Byte}
    (h0 : a.trailState s₀ p ≠ 0) (hkey : payload.lookupKey = w)
    (hexact : payload.exact = true ↔ p.reverse <+: w)
    (hdepth : payload.exact = false → payload.exactDepth = commonPrefix p.reverse w) (v : Nat) :
    ∃ st π', a.getOutGoingTransitions (a.trailState s₀ p) v p.length payload = (st, π') ∧
      st.transitions.drop st.position = (children a s₀ w p).map (at' a s₀ p) ∧
      Ok a s₀ w π' p (children a s₀ w p) := by
  have hout : a.outgoingLabels (a.trailState s₀ p) = a.children s₀ p := by
    rw [Automata.children, if_neg h0]
  have hnd := Automata.nodup_children a s₀ p
  have hmap : ∀ l : List Byte, (∀ c ∈ l, c ∈ a.children s₀ p) →
      l.map (fun c => (⟨a.resolvePointer (a.trailState s₀ p) c, c⟩ : NearTransition)) =
        l.map (at' a s₀ p) := by
    intro l hl
    refine List.map_congr_left fun c hc => ?_
    rw [at', Automata.trailState, if_neg h0, Automata.resolvePointer_of_mem (hout ▸ hl c hc)]
  have hfold : a.getOutGoingTransitions (τ := NearTransition) (a.trailState s₀ p) v p.length payload
      = postProcess p.length ((a.children s₀ p).foldl (fun st c =>
        add (a.resolvePointer (a.trailState s₀ p) c) c p.length payload st) ⟨[⟨0, 0⟩], 1⟩)
        payload := by
    rw [← hout]
    rfl
  rw [hfold]
  cases hx : exactChild a s₀ w p with
  | some c =>
    obtain ⟨hpre, hc⟩ := exactChild_eq_some.mp hx
    have hpp : p.reverse <+: w := by
      rw [List.reverse_cons] at hpre
      exact (List.prefix_append _ _).trans hpre
    have he := hexact.mpr hpp
    have hcw : payload.lookupKey[p.length]? = some c := by
      rw [hkey]
      obtain ⟨v, rfl⟩ := hpre
      rw [List.reverse_cons, List.append_assoc, List.getElem?_append_right (by simp)]
      simp
    have hch : children a s₀ w p = c :: (a.children s₀ p).filter fun d => d ≠ c := by
      rw [children, hx]
    rw [foldl_add_exact _ he hcw _ _ _ _ hnd hc, postProcess, if_pos he]
    refine ⟨_, _, rfl, ?_, hkey, ?_, ?_⟩
    · rw [hch, ← hmap _ (fun d hd => mem_children_iff.mp (hch ▸ hd)), List.map_cons]
      rfl
    · have := commonPrefix_eq_length_iff.mpr hpp
      rw [List.length_reverse] at this
      exact this.symm
    · simp [hx]
  | none =>
    have hno : ∀ c ∈ a.children s₀ p,
        ¬ (payload.exact = true ∧ payload.lookupKey[p.length]? = some c) := by
      rintro c hc ⟨he, hcw⟩
      obtain ⟨v, hv⟩ := hexact.mp he
      rw [hkey, ← hv, List.getElem?_append_right (by simp)] at hcw
      cases v with
      | nil => simp at hcw
      | cons d v =>
        obtain rfl : d = c := by simpa using hcw
        have := (exactChild_eq_some (w := w)).mpr ⟨⟨v, by rw [← hv]; simp⟩, hc⟩
        rw [hx] at this
        cases this
    have hch : children a s₀ w p = a.children s₀ p := by rw [children, hx]
    rw [foldl_add_ne _ _ _ hno, hmap _ (fun c hc => hc), postProcess]
    split
    case isTrue he =>
      refine ⟨_, _, rfl, by rw [hch]; rfl, hkey, ?_, ?_⟩
      · have := commonPrefix_eq_length_iff.mpr (hexact.mp he)
        rw [List.length_reverse] at this
        exact this.symm
      · simp [hx]
    case isFalse he =>
      refine ⟨_, _, rfl, by rw [hch]; rfl, hkey, hdepth (by simpa using he), ?_⟩
      simp [hx, he]

/-- **A near traverser shows the tree with the agreeing labels first.** -/
theorem visits (hT : a.Tree s₀ B) :
    Visits a s₀ (children a s₀ w) (at' a s₀) (Ok a s₀ w) where
  state _ _ _ := rfl
  ne_zero _ _ hc := (Automata.mem_children hT).mp (mem_children_iff.mp hc)
  label _ _ := rfl
  passes _ _ _ _ _ _ _ := rfl
  exhausted _ _ := rfl
  expand payload p c r hok hr := by
    have hne := (Automata.mem_children hT).mp
      (mem_children_iff.mp (hr.subset List.mem_cons_self))
    have hex := hok.exact_iff hr
    refine getOutGoingTransitions_spec _ hne hok.lookupKey hex (fun hf => ?_) _
    have hnp : ¬ (p.reverse ++ [c]) <+: w := by
      rw [← List.reverse_cons, ← hex, hf]
      simp
    rw [hok.exactDepth, List.reverse_cons, commonPrefix_concat hnp]
  leave payload p c r hok hr := by
    have hshort : r ≠ children a s₀ w p := by
      intro h
      have := hr.length_le
      rw [← h, List.length_cons] at this
      omega
    have hf : payload.exact = false := by
      rw [← Bool.not_eq_true, hok.exact]
      rintro ⟨⟨d, hd⟩, hnil⟩
      rw [children, hd] at hnil
      cases hnil
    have hdepth := hok.exactDepth
    show Ok a s₀ w (NearTransition.leave (p.length + 1) payload) p r
    rw [NearTransition.leave]
    split
    case isTrue h =>
      refine ⟨hok.lookupKey, ?_, by simp [hf, hshort]⟩
      -- The whole path agreed, so the shorter one does.
      have hpre : (c :: p).reverse <+: w := by
        rw [← commonPrefix_eq_length_iff, ← hdepth, h]
        simp
      rw [List.reverse_cons] at hpre
      have := commonPrefix_eq_length_iff.mpr ((List.prefix_append _ _).trans hpre)
      rw [List.length_reverse] at this
      show payload.exactDepth - 1 = _
      rw [h, this]
      rfl
    case isFalse h =>
      refine ⟨hok.lookupKey, ?_, by simp [hf, hshort]⟩
      have hnp : ¬ (p.reverse ++ [c]) <+: w := by
        intro hpre
        rw [← List.reverse_cons, ← commonPrefix_eq_length_iff, ← hdepth] at hpre
        exact h (by simpa using hpre)
      rw [hdepth, List.reverse_cons, commonPrefix_concat hnp]

end NearTransition

end Keyvi.Fsa
