import Mathlib.Data.List.FinRange
import Mathlib.Order.Defs.LinearOrder

namespace Ordered
set_option autoImplicit true

/-! The first element of least key in a list. -/

variable {κ : Type} [LinearOrder κ] {key : α → κ}

def FirstMin (key : α → κ) (l : List α) (a : α) : Prop :=
  ∃ before after, l = before ++ a :: after ∧ (∀ b ∈ before, key a < key b) ∧
    ∀ b ∈ after, key a ≤ key b

namespace FirstMin

theorem singleton (key : α → κ) (a : α) : FirstMin key [a] a :=
  ⟨[], [], rfl, fun _ h => absurd h List.not_mem_nil, fun _ h => absurd h List.not_mem_nil⟩

theorem mem (h : FirstMin key l a) : a ∈ l := by
  obtain ⟨before, after, rfl, -⟩ := h
  exact List.mem_append_right before List.mem_cons_self

theorem le (h : FirstMin key l a) (hb : b ∈ l) : key a ≤ key b := by
  obtain ⟨before, after, rfl, hbefore, hafter⟩ := h
  rcases List.mem_append.1 hb with hb | hb
  · exact (hbefore b hb).le
  · cases hb with
    | head => exact le_refl _
    | tail _ hb => exact hafter b hb

/-- A later element of lower key takes the place of the first. -/
theorem concat_lower (h : FirstMin key l a) (hlt : key b < key a) : FirstMin key (l ++ [b]) b := by
  refine ⟨l, [], rfl, ?_, fun _ h => absurd h List.not_mem_nil⟩
  intro c hc
  exact hlt.trans_le (h.le hc)

theorem concat_keep (h : FirstMin key l a) (hge : ¬ key b < key a) : FirstMin key (l ++ [b]) a := by
  obtain ⟨before, after, rfl, hbefore, hafter⟩ := h
  refine ⟨before, after ++ [b], by simp, hbefore, ?_⟩
  intro c hc
  rcases List.mem_append.1 hc with hc | hc
  · exact hafter c hc
  · rw [List.mem_singleton.1 hc]
    exact not_lt.1 hge

/-- In an increasing list the elements before one are the lower ones. -/
theorem lt_of_lt [LinearOrder α] (h : FirstMin key l a) (hl : l.Pairwise (· < ·)) (hb : b ∈ l)
    (hlt : b < a) : key a < key b := by
  obtain ⟨before, after, rfl, hbefore, -⟩ := h
  rcases List.mem_append.1 hb with hb | hb
  · exact hbefore b hb
  · cases hb with
    | head => exact absurd hlt (lt_irrefl _)
    | tail _ hb =>
      have hafter := (List.pairwise_cons.1 (List.pairwise_append.1 hl).2.1).1 b hb
      exact absurd hlt hafter.not_gt

end FirstMin

/-- In an increasing list no lower element than the one found has what was looked for. -/
theorem find?_first [LinearOrder α] {p : α → Bool} {l : List α} (hl : l.Pairwise (· < ·))
    (h : l.find? p = some a) (hb : b ∈ l) (hlt : b < a) : p b = false := by
  obtain ⟨-, before, after, rfl, hbefore⟩ := List.find?_eq_some_iff_append.1 h
  rcases List.mem_append.1 hb with hb | hb
  · simpa using hbefore b hb
  · cases hb with
    | head => exact absurd hlt (lt_irrefl _)
    | tail _ hb =>
      have hafter := (List.pairwise_cons.1 (List.pairwise_append.1 hl).2.1).1 b hb
      exact absurd hlt hafter.not_gt

/-- In a list of increasing keys the search finds the one of least key that has what is sought. -/
theorem find?_eq_some_iff_least {p : α → Bool} {l : List α}
    (hl : l.Pairwise fun a b => key a < key b) :
    l.find? p = some a ↔ a ∈ l ∧ p a = true ∧ ∀ b ∈ l, p b = true → key a ≤ key b := by
  induction l with
  | nil =>
    constructor
    · intro h
      cases h
    · intro h
      cases h.1
  | cons c l ih =>
    obtain ⟨hc, hl⟩ := List.pairwise_cons.1 hl
    cases hp : p c with
    | true =>
      rw [List.find?_cons_of_pos hp]
      constructor
      · intro h
        cases h
        refine ⟨List.mem_cons_self, hp, ?_⟩
        intro b hb _
        obtain rfl | hb := List.mem_cons.1 hb
        · exact le_refl _
        · exact (hc b hb).le
      · intro ⟨ha, _, hmin⟩
        obtain rfl | ha := List.mem_cons.1 ha
        · rfl
        · exact absurd (hmin c List.mem_cons_self hp) (hc a ha).not_ge
    | false =>
      have hno : p c ≠ true := by
        rw [hp]
        exact Bool.false_ne_true
      rw [List.find?_cons_of_neg hno, ih hl]
      constructor
      · intro ⟨ha, hpa, hmin⟩
        refine ⟨List.mem_cons_of_mem c ha, hpa, ?_⟩
        intro b hb hpb
        obtain rfl | hb := List.mem_cons.1 hb
        · exact absurd hpb hno
        · exact hmin b hb hpb
      · intro ⟨ha, hpa, hmin⟩
        obtain rfl | ha := List.mem_cons.1 ha
        · exact absurd hpa hno
        · exact ⟨ha, hpa, fun b hb => hmin b (List.mem_cons_of_mem c hb)⟩

end Ordered
