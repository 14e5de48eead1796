import Mathlib.Data.List.DropRight

namespace Text
set_option autoImplicit true

/-! The runs of a text between its gaps. -/

variable {p : α → Bool}

def runs (p : α → Bool) (xs : List α) : List (List α) :=
  (xs.splitOnP p).filter (!·.isEmpty)

/-- What stands before the first gap. -/
def front (p : α → Bool) (xs : List α) : List α := xs.takeWhile (!p ·)

def strip (p : α → Bool) (xs : List α) : List α := (xs.dropWhile p).rdropWhile p

@[simp] theorem runs_nil : runs p [] = [] := by
  rw [runs, List.splitOnP_nil]
  rfl

theorem runs_append (hm : p m = true) (xs ys : List α) :
    runs p (xs ++ m :: ys) = runs p xs ++ runs p ys := by
  rw [runs, List.splitOnP_append_cons xs ys hm, List.filter_append]
  rfl

theorem runs_gap (hm : p m = true) (ms : List α) : runs p (m :: ms) = runs p ms := by
  have h := runs_append hm [] ms
  rw [runs_nil] at h
  exact h

theorem runs_single (hw : w ≠ []) (h : ∀ m ∈ w, p m = false) : runs p w = [w] := by
  rw [runs, List.splitOnP_eq_singleton h]
  apply List.filter_cons_of_pos
  cases w with
  | nil => exact absurd rfl hw
  | cons m w => rfl

theorem runs_gaps (h : ∀ m ∈ gaps, p m = true) (ms : List α) :
    runs p (gaps ++ ms) = runs p ms := by
  induction gaps with
  | nil => rfl
  | cons m gaps ih =>
    rw [List.cons_append, runs_gap (h m List.mem_cons_self)]
    exact ih fun x hx => h x (List.mem_cons_of_mem m hx)

theorem runs_append_gaps (h : ∀ m ∈ gaps, p m = true) (ms : List α) :
    runs p (ms ++ gaps) = runs p ms := by
  cases gaps with
  | nil => rw [List.append_nil]
  | cons m gaps =>
    have hg := runs_gaps (fun x hx => h x (List.mem_cons_of_mem m hx)) []
    rw [List.append_nil, runs_nil] at hg
    rw [runs_append (h m List.mem_cons_self), hg, List.append_nil]

theorem runs_strip (ms : List α) : runs p (strip p ms) = runs p ms := by
  have hfront : runs p (ms.dropWhile p) = runs p ms := by
    have hgap : ∀ m ∈ ms.takeWhile p, p m = true := fun m hm => List.mem_takeWhile_imp hm
    have h := runs_gaps hgap (ms.dropWhile p)
    rw [List.takeWhile_append_dropWhile] at h
    exact h.symm
  rw [← hfront, strip]
  have hgap : ∀ m ∈ (ms.dropWhile p).rtakeWhile p, p m = true :=
    fun m hm => List.mem_rtakeWhile_imp hm
  have h := runs_append_gaps hgap ((ms.dropWhile p).rdropWhile p)
  rw [List.rdropWhile_append_rtakeWhile] at h
  exact h.symm

theorem head_strip (xs : List α) : ∀ x, (strip p xs).head? = some x → p x = false := by
  intro x hx
  obtain ⟨t, ht⟩ := List.rdropWhile_prefix p (xs.dropWhile p)
  have hd : (xs.dropWhile p).head? = some x := by
    rw [← ht, List.head?_append]
    rw [strip] at hx
    rw [hx]
    rfl
  have hn := List.head?_dropWhile_not p xs
  rw [hd] at hn
  exact hn

theorem mem_of_mem_strip {xs : List α} (h : x ∈ strip p xs) : x ∈ xs :=
  (List.dropWhile_sublist p).subset ((List.rdropWhile_prefix p _).subset h)

theorem gap_of_mem_front (hm : m ∈ front p ms) : p m = false := by
  have h := List.mem_takeWhile_imp hm
  cases hg : p m with
  | false => rfl
  | true =>
    rw [hg] at h
    exact absurd h (by decide)

theorem front_append (h : ∀ m ∈ w, p m = false) (ms : List α) :
    front p (w ++ ms) = w ++ front p ms := by
  apply List.takeWhile_append_of_pos
  intro m hm
  rw [h m hm]
  rfl

theorem front_gap (hm : p m = true) (ms : List α) : front p (m :: ms) = [] := by
  rw [front, List.takeWhile_cons_of_neg]
  rw [hm]
  decide

/-- What stands before the first gap, and what stands behind it. -/
theorem front_cases (ms : List α) :
    ms = front p ms ∨ ∃ m rest, ms = front p ms ++ m :: rest ∧ p m = true := by
  induction ms with
  | nil => exact .inl rfl
  | cons x ms ih =>
    cases hx : p x with
    | true => exact .inr ⟨x, ms, by rw [front_gap hx, List.nil_append], hx⟩
    | false =>
      have hfront := front_append (w := [x]) (by simpa using hx) ms
      rw [List.singleton_append, List.singleton_append] at hfront
      rw [hfront]
      rcases ih with h | ⟨m, rest, h, hm⟩
      · exact .inl (congrArg (x :: ·) h)
      · exact .inr ⟨m, rest, congrArg (x :: ·) h, hm⟩

/-- The first word of a text that begins with one. -/
theorem runs_front (h : front p ms ≠ []) : ∃ ws, runs p ms = front p ms :: ws := by
  rcases front_cases ms with he | ⟨m, rest, he, hm⟩
  · refine ⟨[], ?_⟩
    have hw := runs_single h fun m hm => gap_of_mem_front hm
    rw [← he] at hw
    rw [← he]
    exact hw
  · refine ⟨runs p rest, ?_⟩
    have hw := runs_append hm (front p ms) rest
    rw [← he, runs_single h fun m hm => gap_of_mem_front hm] at hw
    exact hw

/-- Every word begins at the start of the text or behind a gap. -/
theorem mem_runs (h : w ∈ runs p ms) : ∃ before after, ms = before ++ after ∧
    w = front p after ∧
    w ≠ [] ∧ (before = [] ∨ ∃ init m, before = init ++ [m] ∧ p m = true) := by
  induction hn : ms.length using Nat.strong_induction_on generalizing ms with
  | _ n ih =>
    have hsingle : ∀ v, w ∈ runs p v → (∀ m ∈ v, p m = false) → w = v ∧ w ≠ [] := by
      intro v hv hgap
      by_cases hnil : v = []
      · rw [hnil, runs_nil] at hv
        exact absurd hv List.not_mem_nil
      · rw [runs_single hnil hgap, List.mem_singleton] at hv
        rw [hv]
        exact ⟨rfl, hnil⟩
    rcases front_cases ms with he | ⟨m, rest, he, hm⟩
    · rw [he] at h
      obtain ⟨hw, hne⟩ := hsingle _ h fun m hm => gap_of_mem_front hm
      exact ⟨[], ms, rfl, hw, hne, .inl rfl⟩
    · rw [he, runs_append hm, List.mem_append] at h
      rcases h with h | h
      · obtain ⟨hw, hne⟩ := hsingle _ h fun m hm => gap_of_mem_front hm
        exact ⟨[], ms, rfl, hw, hne, .inl rfl⟩
      · have hlt : rest.length < n := by
          rw [← hn, he]
          simp only [List.length_append, List.length_cons]
          omega
        obtain ⟨before, after, hrest, hw, hne, hb⟩ := ih _ hlt h rfl
        refine ⟨front p ms ++ m :: before, after, ?_, hw, hne, .inr ?_⟩
        · rw [List.append_assoc, List.cons_append, ← hrest]
          exact he
        · rcases hb with rfl | ⟨init, d, rfl, hd⟩
          · exact ⟨front p ms, m, rfl, hm⟩
          · exact ⟨front p ms ++ m :: init, d, by simp, hd⟩

end Text
