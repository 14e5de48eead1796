import LocalMind.Backends.CounterExact

namespace LocalMind.Backends
open Concurrent Program NodeOp
set_option autoImplicit true

/-- The answers a call on the nodes has had. -/
abbrev NodeLog (n : Nat) := List (Sigma (NodeOp.Ret (n := n)))

/-- The check of a node said that it is in cooldown. -/
def CooledIn (now : Instant) (i : Fin (n + 1)) (log : NodeLog n) : Prop :=
  ⟨loadHealthy i, false⟩ ∈ log ∧
    ∃ expiry : Instant, ⟨loadCooldownUntil i, expiry⟩ ∈ log ∧ now < expiry

theorem CooledIn.mono (h : CooledIn now i log) (hsub : log ⊆ log') : CooledIn now i log' := by
  obtain ⟨hhealthy, expiry, hexpiry, hlt⟩ := h
  exact ⟨hsub hhealthy, expiry, hsub hexpiry, hlt⟩

namespace PriorityFreeBalancer

/-- The best so far is a load that was read, and no read load is below it. -/
def Best (now : Instant) (best : Option (Fin (n + 1) × Int)) (log : NodeLog n)
    (i : Fin (n + 1)) : Prop :=
  CooledIn now i log ∨ ∃ load : Int, ⟨fetchAdd i, load⟩ ∈ log ∧ ∃ b ∈ best, b.2 ≤ load

theorem Best.mono {best best' : Option (Fin (n + 1) × Int)} (h : Best now best log i)
    (hsub : log ⊆ log') (hle : ∀ b ∈ best, ∃ b' ∈ best', b'.2 ≤ b.2) : Best now best' log' i := by
  obtain hcooled | ⟨load, hload, b, hb, hbl⟩ := h
  · exact .inl (hcooled.mono hsub)
  · obtain ⟨b', hb', hle'⟩ := hle b hb
    exact .inr ⟨load, hsub hload, b', hb', hle'.trans hbl⟩

/-- What a `select` knows of the node it returns: it claimed the node as free, or no load it read
was below the node's, or every node is cooled. -/
def Chosen (now : Instant) (j : Fin (n + 1)) (log : NodeLog n) : Prop :=
  ⟨compareExchange j, true⟩ ∈ log ∨
    (∃ load : Int, ⟨fetchAdd j, load⟩ ∈ log ∧ ∀ i, CooledIn now i log ∨
      (⟨compareExchange i, false⟩ ∈ log ∧
        ∃ load' : Int, ⟨fetchAdd i, load'⟩ ∈ log ∧ load ≤ load')) ∨
    ∀ i, CooledIn now i log

theorem Chosen.mono (h : Chosen now j log) (hsub : log ⊆ log') : Chosen now j log' := by
  obtain hclaimed | ⟨load, hload, h⟩ | hcooled := h
  · exact .inl (hsub hclaimed)
  · refine .inr (.inl ⟨load, hsub hload, ?_⟩)
    intro i
    obtain hc | ⟨hfull, load', hload', hle⟩ := h i
    · exact .inl (hc.mono hsub)
    · exact .inr ⟨hsub hfull, load', hsub hload', hle⟩
  · exact .inr (.inr fun i => (hcooled i).mono hsub)

end PriorityFreeBalancer

namespace Pool

/-- A run performs `o` for the call `t` in state `s`. -/
def Visits (s₀ : Pool n) (es : List (Event n)) (t : Nat) (o : NodeOp n) (s : Pool n) : Prop :=
  (s, .step t) ∈ steps step s₀ es ∧ ∃ task, s.tasks[t]? = some task ∧ task.pending = some o

/-- What one event does to a call. -/
def Moves (e : Event n) (t : Nat) (s : Pool n) (task task' : Task n) : Prop :=
  task' = task ∨ (e = .step t ∧ ∃ nodes, task.advance s.nodes = some (nodes, task')) ∨
    task.clone = some task' ∨ task.dropGuard = some task'

theorem start_task {s : Pool n} {t : Nat} (ht : s.tasks[t]? = some task) (new : Task n) :
    (s.start new).tasks[t]? = some task := by
  obtain ⟨hlt, -⟩ := List.getElem?_eq_some_iff.1 ht
  rw [start, List.getElem?_append_left hlt]
  exact ht

theorem step_moves {s : Pool n} {t : Nat} (ht : s.tasks[t]? = some task) (hs : s.step e = some s') :
    ∃ task', s'.tasks[t]? = some task' ∧ Moves e t s task task' := by
  obtain ⟨hlt, -⟩ := List.getElem?_eq_some_iff.1 ht
  cases e with
  | priorityFree now => cases hs; exact ⟨task, start_task ht _, .inl rfl⟩
  | roundRobin now => cases hs; exact ⟨task, start_task ht _, .inl rfl⟩
  | markFailed i expiry => cases hs; exact ⟨task, start_task ht _, .inl rfl⟩
  | markHealthy i => cases hs; exact ⟨task, start_task ht _, .inl rfl⟩
  | step u =>
    obtain ⟨task₁, hu, hs⟩ := Option.bind_eq_some_iff.1 hs
    obtain ⟨r, hr, hs⟩ := Option.bind_eq_some_iff.1 hs
    cases hs
    by_cases h : u = t
    · subst h
      rw [ht] at hu
      cases hu
      exact ⟨r.2, List.getElem?_set_self hlt, .inr (.inl ⟨rfl, r.1, hr⟩)⟩
    · exact ⟨task, (List.getElem?_set_ne h).trans ht, .inl rfl⟩
  | clone u =>
    obtain ⟨task₁, hu, hs⟩ := Option.bind_eq_some_iff.1 hs
    obtain ⟨r, hr, hs⟩ := Option.bind_eq_some_iff.1 hs
    cases hs
    by_cases h : u = t
    · subst h
      rw [ht] at hu
      cases hu
      exact ⟨r, List.getElem?_set_self hlt, .inr (.inr (.inl hr))⟩
    · exact ⟨task, (List.getElem?_set_ne h).trans ht, .inl rfl⟩
  | dropGuard u =>
    obtain ⟨task₁, hu, hs⟩ := Option.bind_eq_some_iff.1 hs
    obtain ⟨r, hr, hs⟩ := Option.bind_eq_some_iff.1 hs
    cases hs
    by_cases h : u = t
    · subst h
      rw [ht] at hu
      cases hu
      exact ⟨r, List.getElem?_set_self hlt, .inr (.inr (.inr hr))⟩
    · exact ⟨task, (List.getElem?_set_ne h).trans ht, .inl rfl⟩

theorem Visits.cons (hs : s.step e = some s₁) (h : Visits s₁ es t o u) :
    Visits s (e :: es) t o u :=
  ⟨mem_steps_cons hs h.1, h.2⟩

/-- The call starts here. -/
def call (s₀ : Pool n) (now : Instant) : Pool n :=
  s₀.start (.selecting (PriorityFreeBalancer.select n now) 0)

/-- After `es` the call is about to return `j`. -/
def Returns (s₀ : Pool n) (now : Instant) (es : List (Event n)) (j : Fin (n + 1)) : Prop :=
  ∃ s held, (s₀.call now).run es = some s ∧
    s.tasks[s₀.tasks.length]? = some (.selecting (.ret j) held)

theorem Visits.mem {s₀ : Pool n} (h : Visits s₀ es t o s) : s ∈ s₀.trace es :=
  mem_trace_of_mem_steps h.1

theorem Reachable.call {s₀ : Pool n} (h : s₀.Reachable) (now : Instant) :
    (s₀.call now).Reachable := by
  have hrun : s₀.run [.priorityFree now] = some (s₀.call now) := rfl
  exact h.run hrun

end Pool

end LocalMind.Backends
