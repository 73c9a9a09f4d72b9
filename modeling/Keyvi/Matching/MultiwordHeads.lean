import Mathlib
import Keyvi.Matching.TopCompletion

/-!
# Multiword completion of heads

A dictionary for multiword completion has keys of a head, the separator and a text. The remembered
boundary is the depth of the separator on the path, and what is returned are the keys whose head
completes the query without a further space.
-/

namespace Keyvi.Matching

open Fsa Automata Dictionary

/-! ## Paths that have one separator -/

/-- What stands before the separator. -/
def headOf (separator : Byte) (k : Key) : Key := k.takeWhile (· ≠ separator)

/-- What stands behind the separator. -/
def textOf (separator : Byte) (k : Key) : Key := (k.dropWhile (· ≠ separator)).tail

/-- The depth of the separator on a path, 0 without one. -/
def separatorDepth (separator : Byte) (p : List Byte) : Nat :=
  (p.dropWhile (· ≠ separator)).length

/-- There is no space before the separator. -/
def oneWord (separator : Byte) (p : List Byte) : Bool := 0x20 ∉ headOf separator p.reverse

section

variable {separator : Byte} {p q : List Byte} {c : Byte}

theorem dropWhile_of_not_mem (h : separator ∉ p) : p.dropWhile (· ≠ separator) = [] := by
  rw [List.dropWhile_eq_nil_iff]
  intro x hx
  simp only [decide_eq_true_eq]
  rintro rfl
  exact h hx

theorem headOf_append_of_not_mem {k w : Key} (h : separator ∉ k) :
    headOf separator (k ++ w) = k ++ headOf separator w := by
  refine List.takeWhile_append_of_pos fun x hx => ?_
  simp only [decide_eq_true_eq]
  rintro rfl
  exact h hx

theorem headOf_of_not_mem {k : Key} (h : separator ∉ k) : headOf separator k = k := by
  have happend := headOf_append_of_not_mem (w := []) h
  rwa [List.append_nil, headOf, headOf, List.takeWhile_nil, List.append_nil] at happend

theorem headOf_append_of_mem {k w : Key} (h : separator ∈ k) :
    headOf separator (k ++ w) = headOf separator k := by
  have hne : headOf separator k ≠ k := by
    intro heq
    have hall := List.takeWhile_eq_self_iff.mp heq separator h
    simp at hall
  rw [headOf, List.takeWhile_append, if_neg]
  · rfl
  · exact fun hlen => hne ((List.takeWhile_prefix _).eq_of_length hlen)

/-- The key, its head and its text. -/
theorem head_separator_text {k : Key} (h : separator ∈ k) :
    k = headOf separator k ++ separator :: textOf separator k := by
  have hne : k.dropWhile (· ≠ separator) ≠ [] := by
    rw [Ne, List.dropWhile_eq_nil_iff]
    intro hall
    simpa using hall separator h
  have hhead : (k.dropWhile (· ≠ separator)).head hne = separator := by
    simpa using List.head_dropWhile_not (fun x => decide (x ≠ separator)) hne
  have hsplit := List.takeWhile_append_dropWhile (p := (· ≠ separator)) (l := k)
  rw [← List.cons_head_tail hne, hhead] at hsplit
  exact hsplit.symm

theorem separatorDepth_eq_zero : separatorDepth separator p = 0 ↔ separator ∉ p := by
  rw [separatorDepth, List.length_eq_zero_iff, List.dropWhile_eq_nil_iff]
  simp only [decide_eq_true_eq]
  exact ⟨fun h hm => h separator hm rfl, fun h x hx he => h (he ▸ hx)⟩

theorem separatorDepth_append (hp : separator ∉ p) :
    separatorDepth separator (p ++ q) = separatorDepth separator q := by
  rw [separatorDepth, List.dropWhile_append, dropWhile_of_not_mem hp]
  rfl

theorem length_lt_separatorDepth {q : List Byte} (h : separator ∈ p) :
    q.length < separatorDepth separator (p ++ q) := by
  have hne : p.dropWhile (· ≠ separator) ≠ [] := by
    intro hnil
    exact absurd h (separatorDepth_eq_zero.mp (by rw [separatorDepth, hnil]; rfl))
  rw [separatorDepth, List.dropWhile_append, if_neg (by simpa using hne), List.length_append]
  have := List.length_pos_of_ne_nil hne
  omega

/-- **The boundary is the depth of the separator.** The path goes on from some place of the one
before. -/
theorem boundaryOf_separatorDepth (hq : q <:+ p) (hp : p.count separator ≤ 1) :
    MultiwordCompletionMatching.boundaryOf separator (separatorDepth separator p) (c :: q) =
      separatorDepth separator (c :: q) := by
  obtain ⟨r, rfl⟩ := hq
  rw [MultiwordCompletionMatching.boundaryOf]
  by_cases hcs : c = separator
  · rw [if_pos (by rw [hcs]; rfl), separatorDepth, hcs, List.dropWhile_cons_of_neg (by simp)]
  · rw [if_neg (by simpa using hcs)]
    have hcons : separatorDepth separator (c :: q) = separatorDepth separator q := by
      rw [separatorDepth, List.dropWhile_cons_of_pos (by simpa using hcs), separatorDepth]
    rw [hcons]
    by_cases hr : separator ∈ r
    · -- The traverser went up behind the separator.
      have hnq : separator ∉ q := by
        rw [List.count_append] at hp
        have := List.one_le_count_iff.mpr hr
        exact List.count_eq_zero.mp (by omega)
      have hlt : q.length < separatorDepth separator (r ++ q) := length_lt_separatorDepth hr
      rw [if_pos (by rw [List.length_cons]; omega), separatorDepth_eq_zero.mpr hnq]
    · by_cases hs : separator ∈ q
      · rw [separatorDepth_append hr]
        have hle : separatorDepth separator q ≤ q.length :=
          (List.dropWhile_sublist _).length_le
        rw [if_neg (by rw [List.length_cons]; omega)]
      · rw [separatorDepth_eq_zero.mpr (by simpa using ⟨hr, hs⟩), separatorDepth_eq_zero.mpr hs]
        simp

/-- A path keeps to one word unless its label is a space before the separator. -/
theorem oneWord_cons : oneWord separator (c :: p) = true ↔
    oneWord separator p = true ∧ ¬(c = 0x20 ∧ separator ∉ c :: p) := by
  simp only [oneWord, List.reverse_cons, decide_eq_true_eq]
  by_cases hs : separator ∈ p
  · rw [headOf_append_of_mem (List.mem_reverse.mpr hs)]
    simp [hs]
  · rw [headOf_append_of_not_mem (mt List.mem_reverse.mp hs),
      headOf_of_not_mem (mt List.mem_reverse.mp hs)]
    by_cases hc : c = separator
    · subst hc
      simp [headOf]
    · rw [headOf_of_not_mem (by simpa using fun h => hc h.symm)]
      rw [List.mem_append, List.mem_reverse, List.mem_singleton, not_or]
      refine and_congr_right fun _ => not_congr ⟨fun h => ⟨h.symm, ?_⟩, fun h => h.1.symm⟩
      simpa using ⟨fun h => hc h.symm, hs⟩

theorem oneWord_of_suffix (h : q <:+ p) (hp : oneWord separator p = true) :
    oneWord separator q = true := by
  induction p with
  | nil => rwa [List.suffix_nil.mp h]
  | cons c p ih =>
    rcases List.suffix_cons_iff.mp h with rfl | h
    · exact hp
    · exact ih h (oneWord_cons.mp hp).1

end

/-! ## The scan returns the keys of one word -/

section

variable {separator : Byte} {final : List Byte → Bool}

/-- What the scan needs to know of the paths that are left: they go on from the path before, each
after what is above it. -/
structure Pending (separator : Byte) (prev : List Byte) (L : List (List Byte)) : Prop where
  continues : Preorder.Continues prev L
  nonempty : ∀ p ∈ L, p ≠ []
  once : ∀ p ∈ prev :: L, p.count separator ≤ 1
  parents : ∀ p ∈ L, p.tail ∈ L ∨ oneWord separator p.tail = true
  order : L.Pairwise fun p q => ¬ q <:+ p

theorem Pending.tail {prev p : List Byte} {L : List (List Byte)}
    (h : Pending separator prev (p :: L)) (hp : oneWord separator p = true) :
    Pending separator p L where
  continues := h.continues.2
  nonempty q hq := h.nonempty q (List.mem_cons_of_mem _ hq)
  once q hq := h.once q (List.mem_cons_of_mem _ hq)
  parents q hq := by
    rcases h.parents q (List.mem_cons_of_mem _ hq) with hm | hw
    · rcases List.mem_cons.mp hm with heq | hm
      · exact .inr (heq ▸ hp)
      · exact .inl hm
    · exact .inr hw
  order := h.order.of_cons

theorem Pending.skip {prev p : List Byte} {L : List (List Byte)}
    (h : Pending separator prev (p :: L)) :
    Pending separator p (Move.skip.agenda (p :: L)) where
  continues := by
    have hp : p ∉ L := fun hm => (List.pairwise_cons.mp h.order).1 p hm List.suffix_rfl
    exact h.continues.2.filter (List.tail_suffix p) List.suffix_rfl hp
  nonempty q hq := h.nonempty q (List.mem_cons_of_mem _ (List.mem_filter.mp hq).1)
  once q hq := by
    rcases List.mem_cons.mp hq with rfl | hq
    · exact h.once q (by simp)
    · exact h.once q (by simp [(List.mem_filter.mp hq).1])
  parents q hq := by
    obtain ⟨hm, hno⟩ := List.mem_filter.mp hq
    have hno : ¬ p <:+ q := by simpa using hno
    rcases h.parents q (List.mem_cons_of_mem _ hm) with ht | hw
    · rcases List.mem_cons.mp ht with heq | ht
      · exact absurd (heq ▸ List.tail_suffix q) hno
      · refine .inl (List.mem_filter.mpr ⟨ht, ?_⟩)
        simpa using fun hs => hno (hs.trans (List.tail_suffix q))
    · exact .inr hw
  order := h.order.of_cons.filter _

/-- The path at the front leaves the head only by its own label. -/
theorem Pending.oneWord_tail {prev p : List Byte} {L : List (List Byte)}
    (h : Pending separator prev (p :: L)) : oneWord separator p.tail = true := by
  obtain ⟨c, p, rfl⟩ := List.exists_cons_of_ne_nil (h.nonempty p List.mem_cons_self)
  rcases h.parents _ List.mem_cons_self with hm | hw
  · rcases List.mem_cons.mp hm with heq | hm
    · exact absurd (congrArg List.length heq) (by simp)
    · exact absurd (List.tail_suffix _) ((List.pairwise_cons.mp h.order).1 _ hm)
  · exact hw

/-- **What the scan takes.** By induction on the number of paths: the boundary is the depth of the
separator on the last path. -/
theorem scan_eq : ∀ {n : Nat} {prev : List Byte} {L : List (List Byte)}, L.length < n →
    Pending separator prev L →
    MultiwordCompletionMatching.scan separator final (separatorDepth separator prev) L =
      (L.filter fun p => final p && oneWord separator p).map
        fun p => (p, separatorDepth separator p)
  | n + 1, prev, [], _, _ => by rw [MultiwordCompletionMatching.scan]; rfl
  | n + 1, prev, p :: L, hn, h => by
    have hL : L.length < n := by simpa using hn
    have hb : MultiwordCompletionMatching.boundaryOf separator (separatorDepth separator prev) p =
        separatorDepth separator p := by
      obtain ⟨c, p, rfl⟩ := List.exists_cons_of_ne_nil (h.nonempty p List.mem_cons_self)
      exact boundaryOf_separatorDepth h.continues.1 (h.once prev (by simp))
    have hword : oneWord separator p = true ↔ ¬(p.head? = some 0x20 ∧ separator ∉ p) := by
      have htail := h.oneWord_tail
      obtain ⟨c, p, rfl⟩ := List.exists_cons_of_ne_nil (h.nonempty p List.mem_cons_self)
      rw [List.tail_cons] at htail
      rw [oneWord_cons, and_iff_right htail, List.head?_cons, Option.some_inj]
    rw [MultiwordCompletionMatching.scan]
    simp only [hb, separatorDepth_eq_zero]
    by_cases hsp : p.head? = some 0x20 ∧ separator ∉ p
    · -- Nothing below a space before the separator is one word.
      have hno : ¬ oneWord separator p = true := fun hw => hword.mp hw hsp
      have hle : (Move.skip.agenda (p :: L)).length ≤ L.length := List.length_filter_le _ _
      have hskip : (Move.skip.agenda (p :: L)).filter (fun q => final q && oneWord separator q) =
          L.filter fun q => final q && oneWord separator q := by
        rw [Move.agenda, List.filter_filter]
        refine List.filter_congr fun q _ => ?_
        by_cases hpq : p <:+ q
        · have hq : oneWord separator q = false :=
            Bool.eq_false_iff.mpr fun hw => hno (oneWord_of_suffix hpq hw)
          simp [hq]
        · simp [hpq]
      have hlt : (Move.skip.agenda (p :: L)).length < n := by omega
      rw [if_pos hsp, scan_eq hlt h.skip, hskip, List.filter_cons_of_neg]
      simp [hno]
    · have hw := hword.mpr hsp
      rw [if_neg hsp, scan_eq hL (h.tail hw)]
      by_cases hf : final p = true
      · rw [if_pos hf, List.filter_cons_of_pos (by simp [hf, hw])]
        rfl
      · rw [if_neg hf, List.filter_cons_of_neg (by simp [hf])]

end

/-! ## The completions of a dictionary with heads -/

/-- Every key is a head, the separator and a text. -/
def HasHeads (d : Dictionary) (separator : Byte) : Prop :=
  ∀ k ∈ keysOf d.2, k.count separator = 1

/-- The entries whose head completes the words without a further space. -/
def Completed (d : Dictionary) (separator : Byte) (words : Key) (e : Key × Nat) : Prop :=
  e ∈ d.2 ∧ ∃ rest, headOf separator e.1 = words ++ rest ∧ 0x20 ∉ rest

/-- The completions: one for every such entry, with its text as matched string and its value. -/
def HeadCompletions (d : Dictionary) (separator : Byte) (words : Key) (ms : List Match) : Prop :=
  ∃ es : List (Key × Nat), es.Nodup ∧ (∀ e, e ∈ es ↔ Completed d separator words e) ∧
    ms = es.map fun e => ⟨0, e.1.length, textOf separator e.1, 0, d.1, e.2⟩

section

variable {d : Dictionary} {separator : Byte} {words : Key} {L : List (List Byte)}

/-- The paths behind the words, in some order in which nothing stands before what is above it. -/
theorem pending_of_continues (h : Holds d.1 d.2) (hs : HasHeads d separator)
    (hL : ∀ p, p ∈ L ↔ p ≠ [] ∧ d.1.trailState (stateAt d words) p ≠ 0)
    (hc : Preorder.Continues [] L) (ho : L.Pairwise fun p q => ¬ q <:+ p) :
    Pending separator [] L where
  continues := hc
  nonempty p hp := ((hL p).mp hp).1
  once p hp := by
    rcases List.mem_cons.mp hp with rfl | hp
    · simp
    · obtain ⟨hne, h0⟩ := (hL p).mp hp
      rw [← walk_reverse, stateAt, ← walk_append] at h0
      obtain ⟨k, hk, hpk⟩ := h.leads (words ++ p.reverse) (by simp [hne]) h0
      have hle := hpk.sublist.count_le separator
      rw [List.count_append, List.count_reverse, hs k hk] at hle
      omega
  parents p hp := by
    rcases hc.tail_mem p hp with hr | hm
    · rw [List.suffix_nil.mp hr]
      exact .inr rfl
    · exact .inl hm
  order := ho

theorem not_mem_headOf (k : Key) : separator ∉ headOf separator k := by
  intro hm
  simpa using List.mem_takeWhile_imp hm

/-- The text behind the boundary. -/
theorem strOf_eq {p : List Byte} (hw : separator ∉ words)
    (hone : (words ++ p.reverse).count separator = 1) :
    MultiwordCompletionMatching.strOf words (p, separatorDepth separator p) =
      textOf separator (words ++ p.reverse) := by
  have hp : separator ∈ p := by
    rw [List.count_append, List.count_reverse, List.count_eq_zero.mpr hw] at hone
    exact List.one_le_count_iff.mp (by omega)
  have hdepth : 0 < separatorDepth separator p :=
    Nat.pos_of_ne_zero fun h0 => separatorDepth_eq_zero.mp h0 hp
  -- The labels behind the separator, and those before it.
  obtain ⟨a, b, ha, hab⟩ : ∃ a b, separator ∉ a ∧ p = a ++ separator :: b :=
    ⟨_, _, not_mem_headOf p, head_separator_text hp⟩
  have hb : separator ∉ b := by
    rw [hab, List.count_append, List.count_reverse, List.count_append, List.count_cons_self] at hone
    exact List.count_eq_zero.mp (by omega)
  have hlen : separatorDepth separator p = b.length + 1 := by
    rw [hab, separatorDepth_append ha, separatorDepth, List.dropWhile_cons_of_neg (by simp)]
    rfl
  have hkey : words ++ p.reverse = (words ++ b.reverse ++ [separator]) ++ a.reverse := by
    rw [hab]
    simp
  have htext : textOf separator (words ++ p.reverse) = a.reverse := by
    rw [hkey, textOf, List.append_assoc, List.dropWhile_append,
      dropWhile_of_not_mem (by simpa using ⟨hw, hb⟩), List.singleton_append,
      List.dropWhile_cons_of_neg (by simp)]
    rfl
  rw [MultiwordCompletionMatching.strOf, if_pos hdepth, htext, hlen, hkey]
  exact List.drop_left' (by simp)

/-- The entry of a path behind the words. -/
def entryOf (d : Dictionary) (words : Key) (p : List Byte) : Key × Nat :=
  (words ++ p.reverse, valueOf d (words ++ p.reverse))

/-- **The paths of one word are the completions.** -/
theorem headCompletions_of_paths (h : Holds d.1 d.2) (hs : HasHeads d separator)
    (hw : separator ∉ words)
    (hL : ∀ p, p ∈ L ↔ p ≠ [] ∧ d.1.trailState (stateAt d words) p ≠ 0) (hnd : L.Nodup) :
    HeadCompletions d separator words
      (((L.filter fun p => keyBehind d words p && oneWord separator p).map
        fun p => (p, separatorDepth separator p)).map
          (MultiwordCompletionMatching.matchOf (foundSingle d words) words)) := by
  have hmem : ∀ p, p ∈ L.filter (fun p => keyBehind d words p && oneWord separator p) ↔
      p ≠ [] ∧ words ++ p.reverse ∈ keysOf d.2 ∧ oneWord separator p = true := by
    intro p
    rw [List.mem_filter, hL, Bool.and_eq_true, keyBehind, hasKey, decide_eq_true_eq, and_assoc]
    refine and_congr_right fun _ => and_iff_right_of_imp fun hk => ?_
    have hwalk := ((h.final _).mp hk.1).1
    rwa [walk_append, walk_reverse] at hwalk
  refine ⟨(L.filter fun p => keyBehind d words p && oneWord separator p).map (entryOf d words),
    ?_, fun e => ?_, ?_⟩
  · refine (hnd.filter _).map fun p q hpq => ?_
    have happend := (Prod.mk.inj hpq).1
    exact List.reverse_injective (List.append_cancel_left happend)
  · rw [List.mem_map]
    constructor
    · rintro ⟨p, hp, rfl⟩
      obtain ⟨-, hk, hone⟩ := (hmem p).mp hp
      exact ⟨valueOf_mem h (decide_eq_true hk), headOf separator p.reverse,
        headOf_append_of_not_mem hw, of_decide_eq_true hone⟩
    · rintro ⟨he, rest, hrest, hspace⟩
      have hk : e.1 ∈ keysOf d.2 := List.mem_map_of_mem he
      have hsep : separator ∈ e.1 := List.one_le_count_iff.mp (hs _ hk).ge
      have hsplit : e.1 = words ++ (rest ++ separator :: textOf separator e.1) := by
        have hkey := head_separator_text hsep
        rwa [hrest, List.append_assoc] at hkey
      have hr : separator ∉ rest := fun hm =>
        not_mem_headOf e.1 (hrest ▸ List.mem_append_right words hm)
      refine ⟨(rest ++ separator :: textOf separator e.1).reverse, (hmem _).mpr ⟨by simp, ?_, ?_⟩,
        ?_⟩
      · rwa [List.reverse_reverse, ← hsplit]
      · rw [oneWord, List.reverse_reverse, headOf_append_of_not_mem hr, decide_eq_true_eq]
        simpa [headOf] using hspace
      · rw [entryOf, List.reverse_reverse, ← hsplit, valueOf_eq h he]
  · rw [List.map_map, List.map_map]
    refine List.map_congr_left fun p hp => ?_
    obtain ⟨-, hk, -⟩ := (hmem p).mp hp
    simp only [Function.comp_apply, MultiwordCompletionMatching.matchOf, entryOf, foundSingle,
      Match.make, strOf_eq hw (hs _ hk), List.length_append, List.length_reverse, Nat.zero_mod]

/-- The words are no key. -/
theorem firstSingle_words (hs : HasHeads d separator) (hw : separator ∉ words) (str : Key) :
    firstSingle d words str = none := by
  rw [firstSingle, if_neg]
  intro hk
  have hcount := hs words (of_decide_eq_true hk)
  rw [List.count_eq_zero.mpr hw] at hcount
  cases hcount

/-- What the scan takes of such a list of paths are the completions. -/
theorem headCompletions_scan (h : Holds d.1 d.2) (hs : HasHeads d separator)
    (hw : separator ∉ words)
    (hL : ∀ p, p ∈ L ↔ p ≠ [] ∧ d.1.trailState (stateAt d words) p ≠ 0) (hnd : L.Nodup)
    (hc : Preorder.Continues [] L) (ho : L.Pairwise fun p q => ¬ q <:+ p) (str : Key) :
    HeadCompletions d separator words ((firstSingle d words str).toList ++
      (MultiwordCompletionMatching.scan separator (keyBehind d words) 0 L).map
        (MultiwordCompletionMatching.matchOf (foundSingle d words) words)) := by
  have hscan : MultiwordCompletionMatching.scan separator (keyBehind d words) 0 L =
      (L.filter fun p => keyBehind d words p && oneWord separator p).map
        fun p => (p, separatorDepth separator p) :=
    scan_eq (Nat.lt_succ_self _) (pending_of_continues h hs hL hc ho)
  rw [firstSingle_words hs hw, Option.toList_none, List.nil_append]
  exact hscan ▸ headCompletions_of_paths h hs hw hL hnd

/-- Nothing stands before what is above it. -/
theorem order_of_key {β : Type} [LinearOrder β] {step : List Byte → Byte → β}
    (h : L.Pairwise fun p q => Preorder.key step p < Preorder.key step q) :
    L.Pairwise fun p q => ¬ q <:+ p := by
  refine h.imp fun {p q} hlt hs => ?_
  rcases hs.length_le.lt_or_eq with hlen | hlen
  · exact lt_asymm hlt (Preorder.key_lt_of_suffix step hs hlen)
  · rw [hs.eq_of_length hlen] at hlt
    exact lt_irrefl _ hlt

/-- The completions with a weighted traverser, which are what a list of paths gives. -/
theorem allMatches_weighted (h : Holds d.1 d.2) (query : Key) (separator : Byte) {fuel rounds : Nat}
    (hf : (heaviestBehind d (bagOfWordsPartial query)).length < fuel)
    (hr : (heaviestBehind d (bagOfWordsPartial query)).length < rounds) :
    MultiwordCompletionMatching.allMatches fuel rounds (.fromSingleFsa d.1 query separator :
        MultiwordCompletionMatching WeightedStateTraverser) =
      some ((firstSingle d (bagOfWordsPartial query) query).toList ++
        (MultiwordCompletionMatching.scan separator (keyBehind d (bagOfWordsPartial query)) 0
          (heaviestBehind d (bagOfWordsPartial query))).map
            (MultiwordCompletionMatching.matchOf (foundSingle d (bagOfWordsPartial query))
              (bagOfWordsPartial query))) := by
  by_cases h0 : stateAt d (bagOfWordsPartial query) = 0
  · have hempty : (MultiwordCompletionMatching.fromSingleFsa d.1 query separator :
        MultiwordCompletionMatching WeightedStateTraverser) = .empty := by
      rw [MultiwordCompletionMatching.fromSingleFsa, MultiwordCompletionMatching.fromSingleFsaAt]
      split
      · rfl
      · exact if_pos h0
    have hnil : heaviestBehind d (bagOfWordsPartial query) = [] := by
      refine List.eq_nil_iff_forall_not_mem.mpr fun p hp => ?_
      have hne := ((mem_heaviestBehind h).mp hp).2
      rw [h0, ← walk_reverse, walk_zero] at hne
      exact hne rfl
    rw [hempty, MultiwordCompletionMatching.allMatches_empty (by omega) (by omega), hnil,
      MultiwordCompletionMatching.scan, firstSingle_eq_none h h0]
    rfl
  · have hcontinues : Preorder.Continues [] (heaviestBehind d (bagOfWordsPartial query)) :=
      Preorder.continues_subtree (WeightedTraverser.bounded (tree_behind h _))
    rw [MultiwordCompletionMatching.fromSingleFsa, MultiwordCompletionMatching.fromSingleFsaAt,
      if_neg (start_ne_zero h0)]
    simp only
    rw [if_neg (show d.1.walk d.1.getStartState (bagOfWordsPartial query) ≠ 0 from h0),
      MultiwordCompletionMatching.allMatches,
      MultiwordCompletionMatching.nextMatches_eq (follows_weighted h _) hf hr
        ⟨⟨_, rfl, arrives_weighted (tree_behind h _) h0⟩, ⟨[], by simp, hcontinues⟩, rfl, rfl, rfl,
          nodup_heaviestBehind h⟩, ← firstSingle_eq h h0]
    rfl

theorem mem_pathsBehind (h : Holds d.1 d.2) {p : List Byte} :
    p ∈ pathsBehind [d] d words ↔ p ≠ [] ∧ d.1.trailState (stateAt d words) p ≠ 0 := by
  have hT : d.1.Tree (stateAt d words) (bound [d] + depthOf d.2) :=
    Dictionary.Tree.mono (h.tree_walk words) (Nat.le_add_left _ _)
  rw [pathsBehind, Preorder.mem_subtree (bounded_children hT), extends_children_iff hT]

/-- The completions of `m`, given enough fuel and rounds, are those of the words. -/
def Returns {T : Type} [InnerTraverser T] (m : MultiwordCompletionMatching T) (d : Dictionary)
    (separator : Byte) (words : Key) : Prop :=
  ∃ ms, (∃ N, ∀ fuel rounds, N ≤ fuel → N ≤ rounds → m.allMatches fuel rounds = some ms) ∧
    HeadCompletions d separator words ms

/-- **Multiword completion returns the keys whose head is completed by one word.** -/
theorem multiwordCompletion_heads (h : Holds d.1 d.2) (hs : HasHeads d separator) (query : Key)
    (hq : separator ∉ bagOfWordsPartial query) :
    Returns (.fromSingleFsa d.1 query separator :
        MultiwordCompletionMatching WeightedStateTraverser) d separator (bagOfWordsPartial query) ∧
      Returns (.fromSingleFsa d.1 query separator :
        MultiwordCompletionMatching PlainTraverser) d separator (bagOfWordsPartial query) := by
  constructor
  · have hB : Preorder.Bounded (weightedChildren [behind d (bagOfWordsPartial query)]
        (behind d (bagOfWordsPartial query))) (depthOf d.2) :=
      WeightedTraverser.bounded (tree_behind h (bagOfWordsPartial query))
    have hkeys := pairwise_sortedTrails (weightedStep_inj [behind d (bagOfWordsPartial query)])
      fun q hq => WeightedTraverser.length_le_of_hasPath (tree_behind h (bagOfWordsPartial query)) hq
    exact ⟨_, ⟨_, fun fuel rounds hf hr => allMatches_weighted h query separator hf hr⟩,
      headCompletions_scan h hs hq (fun p => mem_heaviestBehind h) (nodup_heaviestBehind h)
        (Preorder.continues_subtree hB) (order_of_key hkeys) query⟩
  · have hd : ∀ e ∈ [d], Holds e.1 e.2 := by simpa using h
    have hu : IsUnion [d] d := ⟨h, by simp⟩
    have hT : d.1.Tree (stateAt d (bagOfWordsPartial query)) (bound [d] + depthOf d.2) :=
      Dictionary.Tree.mono (h.tree_walk _) (Nat.le_add_left _ _)
    have hkeys := Preorder.pairwise_key_subtree (fun _ c => c) (pairwise_children d.1 _)
      (bounded_children hT) []
    exact ⟨_, ⟨_, fun fuel rounds hf hr =>
        MultiwordCompletionMatching.allMatches_single hd hu separator hf hr⟩,
      headCompletions_scan h hs hq (fun p => mem_pathsBehind h)
        (MultiwordCompletionMatching.nodup_pathsBehind hd hu)
        (Preorder.continues_subtree (bounded_children hT)) (order_of_key hkeys) query⟩

/-- The key `61 20 62 63`. -/
def keyABC : Dictionary :=
  (ofCells 1 5120 [(5217, 97), (4128, 32), (3170, 98), (2147, 99), (5376, 0), (4352, 0), (3328, 0),
    (2304, 0)] [(5217, 1633), (4128, 1568), (3170, 1634), (2147, 1635), (1280, 7)],
    [([97, 32, 98, 99], 7)])

theorem holds_keyABC : Holds keyABC.1 keyABC.2 := holds_of_check 4 (by decide +kernel)

theorem hasHeads_keyABC : HasHeads keyABC 0x20 := by
  intro k hk
  obtain rfl : k = [97, 32, 98, 99] := by simpa [keyABC, keysOf] using hk
  decide

/-- With the space as separator the query `61` completes the head of the key. -/
theorem multiwordCompletion_heads_space :
    Returns (.fromSingleFsa keyABC.1 [97] 0x20 :
        MultiwordCompletionMatching WeightedStateTraverser) keyABC 0x20 (bagOfWordsPartial [97]) ∧
      Returns (.fromSingleFsa keyABC.1 [97] 0x20 :
        MultiwordCompletionMatching PlainTraverser) keyABC 0x20 (bagOfWordsPartial [97]) :=
  multiwordCompletion_heads holds_keyABC hasHeads_keyABC [97] (by decide +kernel)

/-- The query `61 09 62` has no space, its words have one: the key is returned. -/
theorem multiwordCompletion_tab :
    Holds keyABC.1 keyABC.2 ∧ HasHeads keyABC 0x20 ∧ (0x20 : Byte) ∉ ([97, 9, 98] : Key) ∧
      ¬ Returns (.fromSingleFsa keyABC.1 [97, 9, 98] 0x20 :
        MultiwordCompletionMatching WeightedStateTraverser) keyABC 0x20
          (bagOfWordsPartial [97, 9, 98]) := by
  refine ⟨holds_keyABC, hasHeads_keyABC, by decide, ?_⟩
  rintro ⟨ms, ⟨N, hN⟩, ⟨es, -, hes, hms⟩⟩
  have hwords : bagOfWordsPartial [97, 9, 98] = [97, 32, 98] := by decide +kernel
  -- No head begins with the words.
  have hnil : es = [] := by
    refine List.eq_nil_iff_forall_not_mem.mpr fun e he => ?_
    obtain ⟨hm, rest, hrest, -⟩ := (hes e).mp he
    obtain rfl : e = ([97, 32, 98, 99], 7) := by simpa [keyABC] using hm
    rw [hwords, show headOf 0x20 [97, 32, 98, 99] = [97] by decide] at hrest
    simp at hrest
  have hone : ((MultiwordCompletionMatching.allMatches 9 9
      (.fromSingleFsa keyABC.1 [97, 9, 98] 0x20 :
        MultiwordCompletionMatching WeightedStateTraverser)).map List.length) = some 1 := by
    decide +kernel
  have hlen : (heaviestBehind keyABC (bagOfWordsPartial [97, 9, 98])).length < 9 := by
    decide +kernel
  have hlarge := hN (N + 9) (N + 9) (by omega) (by omega)
  rw [allMatches_weighted holds_keyABC _ _ hlen hlen] at hone
  rw [allMatches_weighted holds_keyABC _ _ (by omega) (by omega)] at hlarge
  rw [hlarge, hms, hnil] at hone
  cases hone

end

end Keyvi.Matching
