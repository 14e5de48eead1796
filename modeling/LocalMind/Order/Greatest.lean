import Mathlib.Data.Prod.Lex
import Mathlib.Order.MinMax

namespace Ordered
set_option autoImplicit true

/-! The greatest element of a list, kept while the list is walked. -/

variable {κ : Type} [LinearOrder κ]

/-- One step: a greater element takes the place of the best so far. -/
def keepGreater (best : Option κ) (c : κ) : Option κ :=
  if best.all fun b => decide (b < c) then some c else best

theorem keepGreater_some (b c : κ) : keepGreater (some b) c = some (max b c) := by
  rw [keepGreater, Option.all_some]
  by_cases h : b < c
  · rw [if_pos (decide_eq_true h), max_eq_right h.le]
  · rw [if_neg (by simpa using not_lt.1 h), max_eq_left (not_lt.1 h)]

theorem foldl_keepGreater_some (b : κ) (l : List κ) :
    l.foldl keepGreater (some b) = some (l.foldl max b) := by
  induction l generalizing b with
  | nil => rfl
  | cons c l ih => rw [List.foldl_cons, keepGreater_some, ih, List.foldl_cons]

/-- The walk ends with the maximum of the list. -/
theorem foldl_keepGreater (l : List κ) : l.foldl keepGreater none = l.max? := by
  cases l with
  | nil => rfl
  | cons c l => exact foldl_keepGreater_some c l

theorem max?_eq_some {l : List κ} : l.max? = some a ↔ a ∈ l ∧ ∀ b ∈ l, b ≤ a :=
  List.max?_eq_some_iff

theorem max?_perm {l l' : List κ} (h : l.Perm l') : l.max? = l'.max? := by
  refine Option.ext fun a => ?_
  rw [max?_eq_some, max?_eq_some, h.mem_iff]
  exact and_congr_right fun _ => forall_congr' fun b => by rw [h.mem_iff]

end Ordered
