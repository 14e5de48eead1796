import LocalMind.Concurrent.Program

namespace Concurrent
set_option autoImplicit true

/-! Resources that tasks hold, counted over all tasks. -/

variable {τ ρ : Type} [DecidableEq ρ] (held : τ → List ρ)

/-- How many of a resource the tasks hold. -/
def holdings (tasks : List τ) (r : ρ) : Nat := (tasks.map fun t => (held t).count r).sum

theorem holdings_concat (tasks : List τ) (t : τ) (r : ρ) :
    holdings held (tasks ++ [t]) r = holdings held tasks r + (held t).count r := by
  rw [holdings, List.map_append, List.sum_append, List.map_singleton, List.sum_singleton]
  rfl

theorem holdings_set {tasks : List τ} (h : tasks[c]? = some t) (t' : τ) (r : ρ) :
    holdings held (tasks.set c t') r + (held t).count r =
      holdings held tasks r + (held t').count r :=
  sum_map_set (fun t => (held t).count r) h t'

theorem count_le_holdings {tasks : List τ} (h : t ∈ tasks) (r : ρ) :
    (held t).count r ≤ holdings held tasks r :=
  List.single_le_sum (fun _ _ => Nat.zero_le _) _ (List.mem_map_of_mem h)

/-- What is held has a holder. -/
theorem exists_of_holdings_pos {tasks : List τ} (h : 0 < holdings held tasks r) :
    ∃ t ∈ tasks, r ∈ held t := by
  obtain ⟨n, hn, hpos⟩ := List.sum_pos_iff_exists_pos_nat.1 h
  obtain ⟨t, ht, rfl⟩ := List.mem_map.1 hn
  exact ⟨t, ht, List.count_pos_iff.1 hpos⟩

/-- Tasks that hold at most one of a resource each are as many as are held. -/
theorem holdings_eq_countP {tasks : List τ} {r : ρ} (h : ∀ t ∈ tasks, (held t).count r ≤ 1) :
    holdings held tasks r = tasks.countP fun t => decide (r ∈ held t) := by
  induction tasks with
  | nil => rfl
  | cons t tasks ih =>
    have hrest := ih fun u hu => h u (List.mem_cons_of_mem _ hu)
    have hone : (held t).count r = if r ∈ held t then 1 else 0 := by
      split
      · next hmem => exact Nat.le_antisymm (h t List.mem_cons_self) (List.count_pos_iff.2 hmem)
      · next hmem => exact List.count_eq_zero.2 hmem
    rw [List.countP_cons, ← hrest, holdings, List.map_cons, List.sum_cons, hone, Nat.add_comm]
    simp only [decide_eq_true_eq]
    rfl

end Concurrent
