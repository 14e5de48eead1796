import Mathlib.Data.List.Basic

namespace Shell
set_option autoImplicit true

/-! Paths as they read, without the file system. -/

/-- One directory up, where the directories stand with the innermost first. -/
def up : List (List Char) → List (List Char)
  | [] => [['.', '.']]
  | d :: dirs => if d = ['.', '.'] then ['.', '.'] :: d :: dirs else dirs

def walk (dirs : List (List Char)) (name : List Char) : List (List Char) :=
  if name = [] ∨ name = ['.'] then dirs
  else if name = ['.', '.'] then up dirs
  else name :: dirs

def normalize (path : List Char) : List (List Char) := (path.splitOn '/').foldl walk []

/-- The path names something below the directory it starts from. -/
def Inside (path : List Char) : Prop :=
  path.head? ≠ some '/' ∧ normalize path ≠ [] ∧ ['.', '.'] ∉ normalize path

instance (path : List Char) : Decidable (Inside path) :=
  inferInstanceAs (Decidable (_ ∧ _ ∧ _))

/-- The path has a component that names something. -/
def Named (path : List Char) : Prop := ∃ name ∈ path.splitOn '/', name ≠ [] ∧ name ≠ ['.']

theorem walk_forward (hn : name ≠ ['.', '.']) (hd : ['.', '.'] ∉ dirs) :
    ['.', '.'] ∉ walk dirs name ∧
      (walk dirs name ≠ [] ↔ dirs ≠ [] ∨ (name ≠ [] ∧ name ≠ ['.'])) := by
  rw [walk]
  by_cases h : name = [] ∨ name = ['.']
  · rw [if_pos h]
    constructor
    · exact hd
    · constructor
      · exact .inl
      · rintro (h' | ⟨h₁, h₂⟩)
        · exact h'
        · exact absurd h (not_or.2 ⟨h₁, h₂⟩)
  · rw [if_neg h, if_neg hn]
    constructor
    · intro hm
      rcases List.mem_cons.1 hm with hm | hm
      · exact hn hm.symm
      · exact hd hm
    · rw [not_or] at h
      exact ⟨fun _ => .inr h, fun _ => List.cons_ne_nil _ _⟩

theorem walks_forward {names : List (List Char)} (hn : ['.', '.'] ∉ names)
    (hd : ['.', '.'] ∉ dirs) :
    ['.', '.'] ∉ names.foldl walk dirs ∧
      (names.foldl walk dirs ≠ [] ↔ dirs ≠ [] ∨ ∃ name ∈ names, name ≠ [] ∧ name ≠ ['.']) := by
  induction names generalizing dirs with
  | nil =>
    refine ⟨hd, ?_⟩
    simp
  | cons name names ih =>
    rw [List.mem_cons, not_or] at hn
    obtain ⟨hw, hne⟩ := walk_forward (Ne.symm hn.1) hd
    obtain ⟨hm, h⟩ := ih hn.2 hw
    refine ⟨hm, ?_⟩
    rw [List.foldl_cons, h, hne, or_assoc]
    apply or_congr_right
    simp only [List.mem_cons, exists_eq_or_imp]

/-- A path that never steps back is inside exactly where it names something. -/
theorem inside_iff (hs : path.head? ≠ some '/') (hd : ['.', '.'] ∉ path.splitOn '/') :
    Inside path ↔ Named path := by
  obtain ⟨hm, h⟩ := walks_forward hd (List.not_mem_nil (a := ['.', '.']))
  constructor
  · intro hi
    rcases h.1 hi.2.1 with hne | hne
    · exact absurd rfl hne
    · exact hne
  · intro hn
    exact ⟨hs, h.2 (.inr hn), hm⟩

end Shell
