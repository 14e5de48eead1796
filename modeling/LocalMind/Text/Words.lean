import LocalMind.Text.Runs
import LocalMind.Text.Seams

namespace Text
set_option autoImplicit true

/-! The words of a text, joined again. -/

variable {p : α → Bool} {m : α}

/-- Each gap is one mark, and none is at the end. -/
structure SingleSpaced (p : α → Bool) (m : α) (s : List α) : Prop where
  marks : ∀ x ∈ s, p x = true → x = m
  single : ¬ [m, m] <:+: s
  last : s.getLast? ≠ some m

theorem word_of_mem_runs (h : w ∈ runs p s) : w ≠ [] ∧ ∀ x ∈ w, p x = false := by
  obtain ⟨before, after, _, hw, hne, _⟩ := mem_runs h
  refine ⟨hne, ?_⟩
  intro x hx
  rw [hw] at hx
  exact gap_of_mem_front hx

theorem singleSpaced_word (hm : p m = true) (hw : ∀ x ∈ w, p x = false) :
    SingleSpaced p m w where
  marks := by
    intro x hx hgap
    rw [hw x hx] at hgap
    cases hgap
  single := by
    intro h
    have hmem := hw m (h.subset List.mem_cons_self)
    rw [hm] at hmem
    cases hmem
  last := by
    intro h
    have hmem := hw m (List.mem_of_getLast? h)
    rw [hm] at hmem
    cases hmem

theorem SingleSpaced.cons (hm : p m = true) (hw : ∀ x ∈ w, p x = false)
    (hhead : s.head? ≠ some m) (hne : s ≠ []) (h : SingleSpaced p m s) :
    SingleSpaced p m (w ++ m :: s) where
  marks := by
    intro x hx hgap
    obtain hx | hx := List.mem_append.1 hx
    · rw [hw x hx] at hgap
      cases hgap
    · obtain rfl | hx := List.mem_cons.1 hx
      · rfl
      · exact h.marks x hx hgap
  single := by
    have hnot : m ∉ w := by
      intro hmem
      have hgap := hw m hmem
      rw [hm] at hgap
      cases hgap
    intro hin
    obtain hin | hin | ⟨x, y, hxy, hx, hy, hxw, _⟩ := infix_append_iff.1 hin
    · exact hnot (hin.subset List.mem_cons_self)
    · obtain ⟨t, ht⟩ | hin := List.infix_cons_iff.1 hin
      · obtain ⟨-, hs⟩ := List.cons.inj ht
        exact hhead (by rw [← hs]; rfl)
      · exact h.single hin
    · cases x with
      | nil => exact hx rfl
      | cons c x =>
        obtain ⟨rfl, -⟩ := List.cons.inj hxy
        exact hnot (hxw.subset List.mem_cons_self)
  last := by
    obtain rfl | ⟨init, x, rfl⟩ := List.eq_nil_or_concat' s
    · exact absurd rfl hne
    · have hlast := h.last
      rw [List.getLast?_concat] at hlast
      rw [← List.cons_append, ← List.append_assoc, List.getLast?_concat]
      exact hlast

/-- Words joined by single marks. -/
theorem singleSpaced_join (hm : p m = true) {ws : List (List α)}
    (h : ∀ w ∈ ws, w ≠ [] ∧ ∀ x ∈ w, p x = false) :
    SingleSpaced p m ([m].intercalate ws) ∧ ([m].intercalate ws).head? ≠ some m ∧
      (ws ≠ [] → [m].intercalate ws ≠ []) := by
  induction ws with
  | nil =>
    rw [List.intercalate_nil]
    refine ⟨⟨?_, ?_, ?_⟩, ?_, fun hne => absurd rfl hne⟩
    · exact List.forall_mem_nil _
    · intro hin
      cases List.infix_nil.1 hin
    · intro h
      cases h
    · intro h
      cases h
  | cons w ws ih =>
    obtain ⟨hne, hw⟩ := h w List.mem_cons_self
    obtain ⟨hspaced, hhead, hsome⟩ := ih fun v hv => h v (List.mem_cons_of_mem w hv)
    obtain ⟨c, t, rfl⟩ := List.exists_cons_of_ne_nil hne
    have hc : c ≠ m := by
      rintro rfl
      have hgap := hw c List.mem_cons_self
      rw [hm] at hgap
      cases hgap
    by_cases hnil : ws = []
    · rw [hnil, List.intercalate_singleton]
      refine ⟨singleSpaced_word hm hw, ?_, fun _ => hne⟩
      intro he
      exact hc (Option.some.inj he)
    · rw [List.intercalate_cons_of_ne_nil hnil, List.append_assoc, List.singleton_append]
      refine ⟨hspaced.cons hm hw hhead (hsome hnil), ?_, fun _ => List.cons_ne_nil _ _⟩
      intro he
      exact hc (Option.some.inj he)

/-- The marks before a word are behind the one before it. -/
theorem SingleSpaced.behind {s t : List α} (h : SingleSpaced p m (s ++ m :: t)) :
    SingleSpaced p m t ∧ t ≠ [] ∧ ∀ x, t.head? = some x → p x = false := by
  have hin : t <:+: s ++ m :: t := ((List.suffix_cons m t).trans (List.suffix_append s _)).isInfix
  have hne : t ≠ [] := by
    rintro rfl
    exact h.last List.getLast?_concat
  refine ⟨⟨?_, ?_, ?_⟩, hne, ?_⟩
  · intro x hx
    exact h.marks x (hin.subset hx)
  · intro hdouble
    exact h.single (hdouble.trans hin)
  · obtain rfl | ⟨init, x, rfl⟩ := List.eq_nil_or_concat' t
    · exact absurd rfl hne
    · have hlast := h.last
      rw [← List.cons_append, ← List.append_assoc, List.getLast?_concat] at hlast
      rw [List.getLast?_concat]
      exact hlast
  · intro x hx
    obtain ⟨u, rfl⟩ := List.head?_eq_some_iff.1 hx
    cases hgap : p x with
    | false => rfl
    | true =>
      have hxm := h.marks x (hin.subset List.mem_cons_self) hgap
      rw [hxm] at h
      exact absurd ⟨s, u, by simp⟩ h.single

/-- A text that begins with a word is its words, joined by single marks, if it has no other gaps. -/
theorem intercalate_runs_iff (hm : p m = true) {s : List α}
    (hhead : ∀ x, s.head? = some x → p x = false) :
    [m].intercalate (runs p s) = s ↔ SingleSpaced p m s := by
  constructor
  · intro h
    rw [← h]
    exact (singleSpaced_join hm fun w hw => word_of_mem_runs hw).1
  · intro h
    induction hn : s.length using Nat.strong_induction_on generalizing s with
    | _ n ih =>
      obtain hfront | ⟨g, t, hs, hg⟩ := front_cases (p := p) s
      · by_cases hnil : s = []
        · rw [hnil, runs_nil, List.intercalate_nil]
        · have hgap : ∀ x ∈ s, p x = false := by
            intro x hx
            rw [hfront] at hx
            exact gap_of_mem_front hx
          rw [runs_single hnil hgap, List.intercalate_singleton]
      · have hgap : ∀ x ∈ front p s, p x = false := fun x hx => gap_of_mem_front hx
        have hmem : g ∈ s := by
          rw [hs]
          exact List.mem_append_right _ List.mem_cons_self
        have hgm := h.marks g hmem hg
        have hfront : front p s ≠ [] := by
          intro he
          rw [he, List.nil_append] at hs
          have hno := hhead g (by rw [hs]; rfl)
          rw [hg] at hno
          cases hno
        rw [hgm] at hs
        generalize front p s = w at hs hgap hfront
        rw [hs] at h
        obtain ⟨htail, hne, hword⟩ := h.behind
        have hlen : t.length < n := by
          rw [← hn, hs, List.length_append, List.length_cons]
          omega
        have hruns : runs p t ≠ [] := by
          obtain ⟨x, u, rfl⟩ := List.exists_cons_of_ne_nil hne
          have hx := hword x rfl
          have hfx : front p (x :: u) ≠ [] := by
            have hf := front_append (w := [x]) (by simpa using hx) u
            rw [List.singleton_append] at hf
            rw [hf]
            exact List.cons_ne_nil _ _
          obtain ⟨ws, hws⟩ := runs_front hfx
          rw [hws]
          exact List.cons_ne_nil _ _
        rw [hs, runs_append hm, runs_single hfront hgap, List.singleton_append,
          List.intercalate_cons_of_ne_nil hruns, ih _ hlen hword htail rfl, List.append_assoc,
          List.singleton_append]

end Text
