import Mathlib

namespace Order
set_option autoImplicit true

/-! Sorting by a key keeps the order among equal keys. -/

variable {α T : Type} [LinearOrder T] (key : α → T)

def sortBy (l : List α) : List α := l.mergeSort fun a b => decide (key a ≤ key b)

/-- Two lists have the same elements in the same order, for each key. -/
def SameFibers (l m : List α) : Prop :=
  ∀ t, (l.filter fun a => decide (key a = t)) = m.filter fun a => decide (key a = t)

variable {key}

theorem SameFibers.mem (h : SameFibers key l m) (ha : a ∈ l) : a ∈ m := by
  have hfiber : a ∈ l.filter fun b => decide (key b = key a) :=
    List.mem_filter.2 ⟨ha, decide_eq_true rfl⟩
  rw [h (key a)] at hfiber
  exact (List.mem_filter.1 hfiber).1

theorem SameFibers.symm (h : SameFibers key l m) : SameFibers key m l := fun t => (h t).symm

theorem SameFibers.tail (h : SameFibers key (a :: l) (a :: m)) : SameFibers key l m := by
  intro t
  have ht := h t
  rw [List.filter_cons, List.filter_cons] at ht
  split at ht
  · exact (List.cons.inj ht).2
  · exact ht

/-- Lists in the order of their keys are told apart by the elements of one key. -/
theorem SameFibers.eq (h : SameFibers key l m) (hl : l.Pairwise fun a b => key a ≤ key b)
    (hm : m.Pairwise fun a b => key a ≤ key b) : l = m := by
  induction l generalizing m with
  | nil =>
    cases m with
    | nil => rfl
    | cons b m => cases h.symm.mem List.mem_cons_self
  | cons a l ih =>
    cases m with
    | nil => cases h.mem List.mem_cons_self
    | cons b m =>
      obtain ⟨hal, hl⟩ := List.pairwise_cons.1 hl
      obtain ⟨hbm, hm⟩ := List.pairwise_cons.1 hm
      have hab : key a ≤ key b := by
        obtain rfl | hb := List.mem_cons.1 (h.symm.mem List.mem_cons_self)
        · exact le_refl _
        · exact hal b hb
      have hba : key b ≤ key a := by
        obtain rfl | ha := List.mem_cons.1 (h.mem List.mem_cons_self)
        · exact le_refl _
        · exact hbm a ha
      have hhead : a = b := by
        have hfiber := h (key a)
        rw [List.filter_cons, List.filter_cons, if_pos (decide_eq_true rfl),
          if_pos (decide_eq_true (le_antisymm hba hab))] at hfiber
        exact (List.cons.inj hfiber).1
      rw [← hhead] at h ⊢
      rw [ih h.tail hl hm]

theorem sameFibers_sortBy (l : List α) : SameFibers key (sortBy key l) l := by
  intro t
  have hsub : (l.filter fun a => decide (key a = t)).Sublist (sortBy key l) := by
    apply List.sublist_mergeSort
    · intro a b c hab hbc
      exact decide_eq_true (le_trans (of_decide_eq_true hab) (of_decide_eq_true hbc))
    · intro a b
      rw [Bool.or_eq_true, decide_eq_true_eq, decide_eq_true_eq]
      exact le_total _ _
    · apply List.pairwise_of_forall_mem_list
      intro a ha b hb
      have hat := of_decide_eq_true (List.mem_filter.1 ha).2
      have hbt := of_decide_eq_true (List.mem_filter.1 hb).2
      rw [hat, hbt]
      exact decide_eq_true (le_refl t)
    · exact List.filter_sublist
  have hfilter := hsub.filter fun a => decide (key a = t)
  rw [List.filter_filter] at hfilter
  simp only [Bool.and_self] at hfilter
  apply (hfilter.eq_of_length _).symm
  exact ((List.mergeSort_perm l _).filter _).length_eq.symm

theorem pairwise_sortBy (l : List α) : (sortBy key l).Pairwise fun a b => key a ≤ key b := by
  have htrans : ∀ a b c, decide (key a ≤ key b) = true → decide (key b ≤ key c) = true →
      decide (key a ≤ key c) = true := by
    intro a b c hab hbc
    exact decide_eq_true (le_trans (of_decide_eq_true hab) (of_decide_eq_true hbc))
  have htotal : ∀ a b, (decide (key a ≤ key b) || decide (key b ≤ key a)) = true := by
    intro a b
    rw [Bool.or_eq_true, decide_eq_true_eq, decide_eq_true_eq]
    exact le_total _ _
  exact (List.pairwise_mergeSort htrans htotal l).imp of_decide_eq_true

/-- What is sorted is found again from any order that keeps the elements of one key apart. -/
theorem sortBy_eq (h : SameFibers key l m) (hm : m.Pairwise fun a b => key a ≤ key b) :
    sortBy key l = m := by
  apply SameFibers.eq _ (pairwise_sortBy l) hm
  intro t
  exact (sameFibers_sortBy l t).trans (h t)

end Order
