import Mathlib

/-!
# A queue of the best weights

A priority queue of a fixed size keeps the greatest weights that were put into it, and what is
lighter than all of them is left out. What is left out once stays out: the queue only grows heavier.
-/

namespace TopQueue

variable {α β : Type*} [LinearOrder β]

/-- The lightest weight leaves the queue and another one enters. The queue is in ascending order. -/
def put (v : β) (q : List β) : List β := q.tail.orderedInsert (· ≤ ·) v

/-- The weight is not less than the lightest one of the queue. -/
def admits (q : List β) (v : β) : Bool := q.head?.all fun b => decide (b ≤ v)

/-- The elements that are admitted, one after the other. -/
def select (w : α → β) : List β → List α → List α
  | _, [] => []
  | q, x :: l => if admits q (w x) then x :: select w (put (w x) q) l else select w q l

variable {w : α → β} {q : List β} {v : β}

theorem length_put (hq : q ≠ []) : (put v q).length = q.length := by
  obtain ⟨b, q, rfl⟩ := List.exists_cons_of_ne_nil hq
  rw [put, List.orderedInsert_length, List.tail_cons, List.length_cons]

theorem put_perm : (put v q).Perm (v :: q.tail) := List.perm_orderedInsert _ _ _

theorem sorted_put (hs : q.Pairwise (· ≤ ·)) : (put v q).Pairwise (· ≤ ·) :=
  hs.tail.orderedInsert v _

/-- What is not admitted is lighter than the whole queue. -/
theorem lt_of_not_admits (hs : q.Pairwise (· ≤ ·)) (h : admits q v = false) : ∀ b ∈ q, v < b := by
  cases q with
  | nil => simp
  | cons b q =>
    have hlt : v < b := by simpa [admits] using h
    intro c hc
    rcases List.mem_cons.mp hc with rfl | hc
    · exact hlt
    · exact hlt.trans_le (List.rel_of_pairwise_cons hs hc)

theorem select_sublist (w : α → β) : ∀ (l : List α) (q : List β), (select w q l).Sublist l
  | [], _ => .refl []
  | x :: l, q => by
    rw [select]
    split
    · exact (select_sublist w l _).cons_cons x
    · exact (select_sublist w l q).cons x

/-- The queue holds the lightest value where nothing was put yet, and weights of `ws`. -/
structure Holds [OrderBot β] (q ws : List β) : Prop where
  sorted : q.Pairwise (· ≤ ·)
  subperm : q.Subperm (List.replicate q.length ⊥ ++ ws)

section OrderBot

variable [OrderBot β] {ws : List β}

theorem holds_replicate (n : Nat) : Holds (List.replicate n (⊥ : β)) [] :=
  ⟨List.pairwise_replicate.mpr (.inr le_rfl), by
    rw [List.length_replicate, List.append_nil]⟩

theorem Holds.put (h : Holds q ws) (hq : q ≠ []) : Holds (put v q) (ws ++ [v]) := by
  refine ⟨sorted_put h.sorted, ?_⟩
  rw [length_put hq, ← List.append_assoc]
  have hsub : (v :: q.tail).Subperm (v :: (List.replicate q.length ⊥ ++ ws)) :=
    (List.subperm_cons v).mpr ((List.tail_sublist q).subperm.trans h.subperm)
  exact (put_perm.subperm.trans hsub).trans (List.perm_append_singleton v _).symm.subperm

/-- Where an element is not admitted, the queue is full of heavier weights. -/
theorem Holds.length_le (h : Holds q ws) (hv : admits q v = false) :
    q.length ≤ ws.countP fun b => v < b := by
  have hall : q.countP (fun b => v < b) = q.length :=
    List.countP_eq_length.mpr fun b hb => decide_eq_true (lt_of_not_admits h.sorted hv b hb)
  have hbot : (List.replicate q.length (⊥ : β)).countP (fun b => v < b) = 0 := by
    refine List.countP_eq_zero.mpr fun b hb => ?_
    rw [List.eq_of_mem_replicate hb]
    simp
  have hle := h.subperm.countP_le fun b => decide (v < b)
  rw [hall, List.countP_append, hbot, Nat.zero_add] at hle
  exact hle

/-- What is left out is lighter than as many elements as the queue has places: those selected
before it or after it. -/
theorem Holds.length_le_of_left_out : ∀ {l : List α} {q ws : List β} {x : α}, Holds q ws →
    q ≠ [] → x ∈ l → x ∉ select w q l →
    q.length ≤ (ws ++ (select w q l).map w).countP fun b => w x < b
  | y :: l, q, ws, x, h, hq, hx, hout => by
    rw [select] at hout ⊢
    by_cases hy : admits q (w y) = true
    · rw [if_pos hy] at hout ⊢
      have hne : x ≠ y := fun he => hout (he ▸ List.mem_cons_self)
      have hx' : x ∈ l := (List.mem_cons.mp hx).resolve_left hne
      have hput := length_put (v := w y) hq
      have hq' : TopQueue.put (w y) q ≠ [] := by
        rw [← List.length_pos_iff, hput]
        exact List.length_pos_iff.mpr hq
      have ih := (h.put hq).length_le_of_left_out hq' hx'
        fun hs => hout (List.mem_cons_of_mem _ hs)
      rwa [hput, List.append_assoc] at ih
    · rw [if_neg hy] at hout ⊢
      rcases List.mem_cons.mp hx with rfl | hx
      · exact (h.length_le (Bool.eq_false_of_not_eq_true hy)).trans ((List.sublist_append_left _ _).countP_le)
      · exact h.length_le_of_left_out hq hx hout

/-- **The best `n`.** What a queue of `n` places leaves out is lighter than `n` elements that it
selects. -/
theorem le_countP_of_left_out {n : Nat} (hn : 0 < n) {l : List α} {x : α} (hx : x ∈ l)
    (hout : x ∉ select w (List.replicate n ⊥) l) :
    n ≤ (select w (List.replicate n ⊥) l).countP fun y => w x < w y := by
  have hq : List.replicate n (⊥ : β) ≠ [] := by
    rw [← List.length_pos_iff, List.length_replicate]
    exact hn
  have h := (holds_replicate n).length_le_of_left_out hq hx hout
  rwa [List.length_replicate, List.nil_append, List.countP_map] at h

end OrderBot

end TopQueue
