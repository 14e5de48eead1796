import Mathlib.Data.List.Basic

namespace Concurrent
set_option autoImplicit true

variable (step : σ → ε → Option σ)

/-- The state after a list of events, if each of them could happen. -/
def run (s : σ) : List ε → Option σ
  | [] => some s
  | e :: es => (step s e).bind fun s' => run s' es

/-- The states a run goes through, its first and last among them. -/
def trace (s : σ) : List ε → List σ
  | [] => [s]
  | e :: es => s :: ((step s e).map fun s' => trace s' es).getD []

/-- Each event of a run with the state it happens in. -/
def steps (s : σ) (es : List ε) : List (σ × ε) := (trace step s es).zip es

variable {step}

theorem run_append (s : σ) (es fs : List ε) :
    run step s (es ++ fs) = (run step s es).bind fun s' => run step s' fs := by
  induction es generalizing s with
  | nil => rfl
  | cons e es ih =>
    simp only [List.cons_append, run]
    cases step s e with
    | none => rfl
    | some s' => exact ih s'

theorem steps_cons (hs : step s e = some s') (es : List ε) :
    steps step s (e :: es) = (s, e) :: steps step s' es := by
  rw [steps, trace, hs]
  rfl

/-- What each step of a run keeps holds at its end. -/
theorem run_keeps {P : σ → Prop} (h : P s) (hrun : run step s es = some t)
    (hstep : ∀ u e u', (u, e) ∈ steps step s es → P u → step u e = some u' → P u') : P t := by
  induction es generalizing s with
  | nil => cases hrun; exact h
  | cons e es ih =>
    obtain ⟨s', hs, hrun'⟩ := Option.bind_eq_some_iff.1 hrun
    rw [steps_cons hs] at hstep
    apply ih (hstep s e s' List.mem_cons_self h hs) hrun'
    intro u f u' hmem
    exact hstep u f u' (List.mem_cons_of_mem _ hmem)

theorem mem_trace_of_run (hrun : run step s es = some t) : t ∈ trace step s es := by
  induction es generalizing s with
  | nil =>
    cases hrun
    exact List.mem_cons_self
  | cons e es ih =>
    obtain ⟨s', hs, hrun⟩ := Option.bind_eq_some_iff.1 hrun
    rw [trace, hs]
    exact List.mem_cons_of_mem s (ih hrun)

/-- What each step of a run keeps holds in every state it goes through. -/
theorem trace_keeps {P : σ → Prop} (h : P s)
    (hstep : ∀ u e u', (u, e) ∈ steps step s es → P u → step u e = some u' → P u') :
    ∀ t ∈ trace step s es, P t := by
  induction es generalizing s with
  | nil =>
    intro t ht
    rw [List.mem_singleton.1 ht]
    exact h
  | cons e es ih =>
    intro t ht
    obtain rfl | ht := List.mem_cons.1 ht
    · exact h
    · cases hs : step s e with
      | none =>
        rw [hs] at ht
        cases ht
      | some s' =>
        rw [hs] at ht
        rw [steps_cons hs] at hstep
        apply ih (hstep s e s' List.mem_cons_self h hs) _ t ht
        intro u f u' hmem
        exact hstep u f u' (List.mem_cons_of_mem _ hmem)

/-- What each step keeps of a state and its past holds at the end of a run. -/
theorem run_records {P : List (σ × ε) → σ → Prop} (h : P [] s) (hrun : run step s es = some t)
    (hstep : ∀ past u e u', P past u → step u e = some u' → P (past ++ [(u, e)]) u') :
    P (steps step s es) t := by
  have hpast : ∀ past s, P past s → run step s es = some t → P (past ++ steps step s es) t := by
    clear h hrun
    intro past s h hrun
    induction es generalizing past s with
    | nil =>
      cases hrun
      rw [steps, List.zip_nil_right, List.append_nil]
      exact h
    | cons e es ih =>
      obtain ⟨s', hs, hrun'⟩ := Option.bind_eq_some_iff.1 hrun
      rw [steps_cons hs, List.append_cons]
      exact ih _ s' (hstep past s e s' h hs) hrun'
  exact hpast [] s h hrun

theorem mem_steps_cons (hs : step s e = some s') (h : (u, f) ∈ steps step s' es) :
    (u, f) ∈ steps step s (e :: es) := by
  rw [steps, trace, hs]
  exact List.mem_cons_of_mem _ h

theorem mem_steps_head (s : σ) (e : ε) (es : List ε) : (s, e) ∈ steps step s (e :: es) := by
  rw [steps, trace]
  exact List.mem_cons_self

/-- What is read off the steps of a run, one step longer. -/
theorem filterMap_concat {f : β → Option γ} (past : List β) (h : f p = o) :
    (past ++ [p]).filterMap f = past.filterMap f ++ o.toList := by
  subst h
  rw [List.filterMap_append, List.filterMap_cons]
  cases f p with
  | none => rfl
  | some b => rfl

/-- A state of a run is the end of a shorter one. -/
theorem exists_run_of_mem_trace (h : u ∈ trace step s es) : ∃ fs, run step s fs = some u := by
  induction es generalizing s with
  | nil =>
    cases List.mem_singleton.1 h
    exact ⟨[], rfl⟩
  | cons e es ih =>
    obtain rfl | h := List.mem_cons.1 h
    · exact ⟨[], rfl⟩
    · cases hs : step s e with
      | none =>
        rw [hs] at h
        cases h
      | some s' =>
        rw [hs] at h
        obtain ⟨fs, hrun⟩ := ih h
        refine ⟨e :: fs, ?_⟩
        rw [run, hs]
        exact hrun

theorem mem_trace_of_mem_steps (h : (u, e) ∈ steps step s es) : u ∈ trace step s es :=
  (List.of_mem_zip h).1

end Concurrent
