import Mathlib.Data.List.Infix

namespace Text
set_option autoImplicit true

variable {u : List α} {ps : List (List α)}

/-- A word begins in one piece of a text and ends in a later one. -/
def Straddles (ps : List (List α)) (u : List α) : Prop :=
  ∃ before p mid q after x y, ps = before ++ p :: (mid ++ q :: after) ∧ x ≠ [] ∧ y ≠ [] ∧
    x <:+ p ∧ y <+: q ∧ u = x ++ (mid.flatten ++ y)

theorem infix_append_iff {p q : List α} : u <:+: p ++ q ↔
    u <:+: p ∨ u <:+: q ∨ ∃ x y, u = x ++ y ∧ x ≠ [] ∧ y ≠ [] ∧ x <:+ p ∧ y <+: q := by
  constructor
  · intro h
    obtain ⟨s, t, h⟩ := h
    rw [List.append_assoc] at h
    obtain ⟨a, rfl, hq⟩ | ⟨a, rfl, hp⟩ := List.append_eq_append_iff.1 h
    · -- the word starts in the first part
      obtain ⟨b, rfl, rfl⟩ | ⟨b, rfl, rfl⟩ := List.append_eq_append_iff.1 hq
      · exact .inl ⟨s, b, List.append_assoc s u b⟩
      · by_cases ha : a = []
        · rw [ha]
          exact .inr (.inl ⟨[], t, rfl⟩)
        · by_cases hb : b = []
          · rw [hb, List.append_nil]
            exact .inl ⟨s, [], List.append_nil _⟩
          · exact .inr (.inr ⟨a, b, rfl, ha, hb, List.suffix_append s a, List.prefix_append b t⟩)
    · exact .inr (.inl ⟨a, t, by rw [List.append_assoc, hp]⟩)
  · intro h
    obtain h | h | ⟨x, y, rfl, -, -, ⟨s, rfl⟩, ⟨t, rfl⟩⟩ := h
    · exact h.trans (List.prefix_append p q).isInfix
    · exact h.trans (List.suffix_append p q).isInfix
    · exact ⟨s, t, by simp only [List.append_assoc]⟩

/-- A word stands on one side of a symbol that it does not have. -/
theorem infix_mark {p q : List α} (hc : c ∉ u) (h : u <:+: p ++ c :: q) :
    u <:+: p ∨ u <:+: q := by
  obtain h | h | ⟨x, y, rfl, -, hy, -, hq⟩ := infix_append_iff.1 h
  · exact .inl h
  · obtain h | h := List.infix_cons_iff.1 h
    · cases u with
      | nil => exact .inl List.nil_infix
      | cons d v =>
        obtain ⟨rfl, -⟩ := List.cons_prefix_cons.1 h
        exact absurd List.mem_cons_self hc
    · exact .inr h
  · cases y with
    | nil => exact absurd rfl hy
    | cons d y =>
      obtain ⟨rfl, -⟩ := List.cons_prefix_cons.1 hq
      exact absurd (List.mem_append_right x List.mem_cons_self) hc

/-- A word does not go on where its first symbol, which it does not have twice, stands. -/
theorem infix_led {p q : List α} (hc : c ∉ t) (h : c :: t <:+: p ++ c :: q) :
    c :: t <:+: p ∨ c :: t <:+: c :: q := by
  obtain h | h | ⟨x, y, hu, hx, hy, -, hq⟩ := infix_append_iff.1 h
  · exact .inl h
  · exact .inr h
  · cases x with
    | nil => exact absurd rfl hx
    | cons b x =>
      cases y with
      | nil => exact absurd rfl hy
      | cons d y =>
        obtain ⟨rfl, -⟩ := List.cons_prefix_cons.1 hq
        obtain ⟨-, rfl⟩ := List.cons.inj hu
        exact absurd (List.mem_append_right x List.mem_cons_self) hc

theorem prefix_flatten (hy : u ≠ []) (h : u <+: ps.flatten) :
    ∃ mid q after y, ps = mid ++ q :: after ∧ y ≠ [] ∧ y <+: q ∧ u = mid.flatten ++ y := by
  induction ps generalizing u with
  | nil => exact absurd (List.prefix_nil.1 h) hy
  | cons p ps ih =>
    obtain ⟨t, h⟩ := h
    rw [List.flatten_cons] at h
    obtain ⟨a, rfl, -⟩ | ⟨a, rfl, ha⟩ := List.append_eq_append_iff.1 h
    · exact ⟨[], u ++ a, ps, u, rfl, hy, List.prefix_append u a, rfl⟩
    · by_cases hne : a = []
      · rw [hne, List.append_nil] at hy ⊢
        exact ⟨[], p, ps, p, rfl, hy, List.prefix_rfl, rfl⟩
      · obtain ⟨mid, q, after, y, rfl, hyne, hpre, rfl⟩ := ih hne ⟨t, ha.symm⟩
        exact ⟨p :: mid, q, after, y, rfl, hyne, hpre, by simp⟩

/-- A word occurs in a text that is made of pieces: inside one of them, or from one to another. -/
theorem infix_flatten_iff (hu : u ≠ []) :
    u <:+: ps.flatten ↔ (∃ p ∈ ps, u <:+: p) ∨ Straddles ps u := by
  constructor
  · intro h
    induction ps with
    | nil => exact absurd (List.infix_nil.1 h) hu
    | cons p ps ih =>
      rw [List.flatten_cons] at h
      obtain h | h | ⟨x, y, rfl, hx, hy, hxp, hyq⟩ := infix_append_iff.1 h
      · exact .inl ⟨p, List.mem_cons_self, h⟩
      · obtain ⟨q, hq, hin⟩ | ⟨before, q, mid, r, after, x, y, rfl, hs⟩ := ih h
        · exact .inl ⟨q, List.mem_cons_of_mem p hq, hin⟩
        · exact .inr ⟨p :: before, q, mid, r, after, x, y, rfl, hs⟩
      · obtain ⟨mid, q, after, z, rfl, hz, hzq, rfl⟩ := prefix_flatten hy hyq
        exact .inr ⟨[], p, mid, q, after, x, z, rfl, hx, hz, hxp, hzq, rfl⟩
  · intro h
    obtain ⟨p, hp, hin⟩ | ⟨before, p, mid, q, after, x, y, rfl, -, -, ⟨s, rfl⟩, ⟨t, rfl⟩, rfl⟩ := h
    · exact hin.trans (List.infix_of_mem_flatten hp)
    · exact ⟨before.flatten ++ s, t ++ after.flatten, by simp⟩

end Text
