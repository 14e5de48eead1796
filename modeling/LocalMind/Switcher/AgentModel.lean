import LocalMind.Switcher.Marked

namespace LocalMind.Switcher.Agent
open Json Text
set_option autoImplicit true

/-! The model that an agent's frontmatter pins. -/

def frontmatterMark : List Char := ['-', '-', '-']

def modelMark : List Char := ['m', 'o', 'd', 'e', 'l', ':']

/-- The line that closes the frontmatter. -/
def frontmatterEnd (ls : List (List Char)) : Option Nat :=
  if ls.head?.map trimEnd = some frontmatterMark then
    ((ls.drop 1).findIdx? fun l => trimEnd l == frontmatterMark).map (· + 1)
  else none

/-- The frontmatter's `model:` line; an indented key is none. -/
def modelLineIndex (ls : List (List Char)) : Option Nat := do
  let stop ← frontmatterEnd ls
  (List.range' 1 (stop - 1)).find? fun i => modelMark.isPrefixOf (ls.getD i [])

def trimMatches (c : Char) (s : List Char) : List Char :=
  (s.dropWhile (· == c)).rdropWhile (· == c)

/-- The value without the blanks and quotes around it. -/
def unquoted (value : List Char) : List Char := trimMatches '\'' (trimMatches '"' (trim value))

def getCurrentModel (content : List Char) : Option (List Char) :=
  (modelLineIndex (lines content)).map fun idx =>
    unquoted (((lines content).getD idx []).drop modelMark.length)

def modelLine (model : List Char) : List Char := modelMark ++ ' ' :: model

def updateAgentModel (content model : List Char) : Option (List Char) :=
  (modelLineIndex (lines content)).map fun idx =>
    (mapLines (fun i l => if i = idx then modelLine model else l) content).1

/-! The line stays where it is. -/

theorem findIdx?_set {p : α → Bool} {l : List α} (h : l[k]? = some a) (hp : p b = p a) :
    (l.set k b).findIdx? p = l.findIdx? p := by
  induction l generalizing k with
  | nil => rfl
  | cons c l ih =>
    cases k with
    | zero =>
      cases h
      rw [List.set_cons_zero, List.findIdx?_cons, List.findIdx?_cons, hp]
    | succ k => rw [List.set_cons_succ, List.findIdx?_cons, List.findIdx?_cons, ih h]

theorem mapIdx_set (l : List α) (k : Nat) (b : α) :
    (l.mapIdx fun i a => if i = k then b else a) = l.set k b := by
  apply List.ext_getElem?
  intro i
  rw [List.getElem?_mapIdx, List.getElem?_set]
  by_cases hi : k = i
  · subst hi
    rw [if_pos rfl]
    by_cases hk : k < l.length
    · rw [if_pos hk, List.getElem?_eq_getElem hk]
      simp
    · rw [if_neg hk, List.getElem?_eq_none (Nat.le_of_not_lt hk)]
      rfl
  · rw [if_neg hi]
    simp [Ne.symm hi]

theorem model_not_mark {l : List Char} (h : modelMark <+: l) :
    (trimEnd l == frontmatterMark) = false := by
  obtain ⟨t, rfl⟩ := h
  rw [beq_eq_false_iff_ne]
  intro hmark
  have hstart : frontmatterMark <+: modelMark ++ t := by
    rw [← hmark]
    exact List.rdropWhile_prefix isWhitespace _
  obtain ⟨s, hs⟩ := hstart
  cases hs

theorem frontmatterEnd_set {ls : List (List Char)} {l line : List Char} {idx : Nat} (hidx : 1 ≤ idx)
    (hl : ls[idx]? = some l) (hold : modelMark <+: l) (hnew : modelMark <+: line) :
    frontmatterEnd (ls.set idx line) = frontmatterEnd ls := by
  obtain ⟨k, rfl⟩ := Nat.exists_eq_add_of_le' hidx
  cases ls with
  | nil => rfl
  | cons first ls =>
    have hsame := findIdx?_set (p := fun l => trimEnd l == frontmatterMark) (l := ls) hl
      ((model_not_mark hnew).trans (model_not_mark hold).symm)
    rw [frontmatterEnd, frontmatterEnd, List.set_cons_succ, List.drop_one, List.drop_one,
      List.tail_cons, List.tail_cons, hsame]
    rfl

theorem modelLineIndex_spec {ls : List (List Char)} {idx : Nat}
    (h : modelLineIndex ls = some idx) : 1 ≤ idx ∧ ∃ l, ls[idx]? = some l ∧ modelMark <+: l := by
  obtain ⟨stop, -, hfind⟩ := Option.bind_eq_some_iff.1 h
  have hstart := List.find?_some hfind
  refine ⟨(List.mem_range'_1.1 (List.mem_of_find?_eq_some hfind)).1, ?_⟩
  rw [List.getD_eq_getElem?_getD] at hstart
  cases hl : ls[idx]? with
  | none =>
    rw [hl] at hstart
    cases hstart
  | some l =>
    rw [hl] at hstart
    exact ⟨l, rfl, List.isPrefixOf_iff_prefix.1 hstart⟩

theorem modelLineIndex_set {ls : List (List Char)} {line : List Char} {idx : Nat}
    (h : modelLineIndex ls = some idx) (hnew : modelMark <+: line) :
    modelLineIndex (ls.set idx line) = some idx := by
  obtain ⟨hidx, l, hl, hold⟩ := modelLineIndex_spec h
  have hsame : (fun i => modelMark.isPrefixOf ((ls.set idx line).getD i [])) =
      fun i => modelMark.isPrefixOf (ls.getD i []) := by
    funext i
    rw [List.getD_eq_getElem?_getD, List.getD_eq_getElem?_getD, List.getElem?_set]
    by_cases hi : idx = i
    · subst hi
      have hlt : idx < ls.length := (List.getElem?_eq_some_iff.1 hl).1
      rw [if_pos rfl, if_pos hlt, hl, Option.getD_some, Option.getD_some,
        List.isPrefixOf_iff_prefix.2 hnew, List.isPrefixOf_iff_prefix.2 hold]
    · rw [if_neg hi]
  rw [modelLineIndex] at h ⊢
  rw [frontmatterEnd_set hidx hl hold hnew, hsame]
  exact h

theorem modelMark_modelLine (model : List Char) : modelMark <+: modelLine model :=
  List.prefix_append modelMark (' ' :: model)

theorem unquoted_blank (value : List Char) : unquoted (' ' :: value) = unquoted value := by
  rw [unquoted, unquoted, trim, trim, trimStart, trimStart, List.dropWhile_cons_of_pos (by decide)]

/-! The other lines stay as they are. -/

theorem modelLine_whole {model : List Char} (hline : '\n' ∉ model)
    (hend : model.getLast? ≠ some '\r') : Whole (modelLine model) := by
  constructor
  · rw [modelLine, modelMark]
    simp [hline]
  · rw [modelLine, List.getLast?_append_of_ne_nil _ (List.cons_ne_nil ' ' model)]
    cases model with
    | nil => decide
    | cons c model =>
      rw [List.getLast?_cons_cons]
      exact hend

theorem mapLines_at (content line : List Char) (idx : Nat) :
    (mapLines (fun i l => if i = idx then line else l) content).1 =
      joinLines content ((lines content).set idx line) := by
  rw [mapLines]
  dsimp only
  rw [mapIdx_set]

section
variable {content line : List Char} {idx : Nat}
  (hcr : ∀ l ∈ lines content, l.getLast? ≠ some '\r') (hline : Whole line) (hne : line ≠ [])
  (hidx : idx < (lines content).length)
include hcr hline hne hidx

theorem set_lines : (∀ l ∈ (lines content).set idx line, Whole l) ∧
    (lines content).set idx line ≠ [] ∧
    (content.getLast? = some '\n' ∨ ((lines content).set idx line).getLast? ≠ some []) := by
  refine ⟨fun l hl => ?_, ?_, ?_⟩
  · obtain hl | rfl := List.mem_or_eq_of_mem_set hl
    · exact ⟨notMem_linesFrom List.not_mem_nil hl, hcr l hl⟩
    · exact hline
  · intro hnil
    rw [List.set_eq_nil_iff] at hnil
    rw [hnil] at hidx
    exact absurd hidx (Nat.not_lt_zero idx)
  · obtain hlast | hlast := getLast?_linesFrom content (List.not_mem_nil : '\n' ∉ ([] : List Char))
    · exact .inl hlast
    · right
      rw [List.getLast?_eq_getElem?, List.length_set, List.getElem?_set]
      rw [List.getLast?_eq_getElem?] at hlast
      split
      · exact fun he => hne (Option.some.inj he)
      · exact hlast

theorem lines_set : lines (joinLines content ((lines content).set idx line)) =
    (lines content).set idx line := by
  obtain ⟨hwhole, hfull, hlast⟩ := set_lines hcr hline hne hidx
  exact lines_joinLines hwhole hfull hlast

theorem joinLines_set (ls : List (List Char)) :
    joinLines (joinLines content ((lines content).set idx line)) ls = joinLines content ls := by
  obtain ⟨hwhole, hfull, hlast⟩ := set_lines hcr hline hne hidx
  have hend := getLast?_joinLines (fun l hl => (hwhole l hl).1) hlast
  rw [joinLines, joinLines.eq_def content ls]
  simp only [hend]

end

/-- An update that finds a pinned model leaves all lines but its own, is read back, and is lost
without trace in the next one; where no model is pinned there is nothing to read either. -/
theorem updateAgentModel_laws {content model : List Char}
    (hcr : ∀ l ∈ lines content, l.getLast? ≠ some '\r') (hline : '\n' ∉ model)
    (hend : model.getLast? ≠ some '\r') :
    (updateAgentModel content model = none ↔ getCurrentModel content = none) ∧
      ∀ new, updateAgentModel content model = some new →
        getCurrentModel new = some (unquoted model) ∧
          (∃ idx, modelLineIndex (lines content) = some idx ∧
            lines new = (lines content).set idx (modelLine model)) ∧
          ∀ other, updateAgentModel new other = updateAgentModel content other := by
  constructor
  · rw [updateAgentModel, getCurrentModel, Option.map_eq_none_iff, Option.map_eq_none_iff]
  · intro new hnew
    obtain ⟨idx, hidx, rfl⟩ := Option.map_eq_some_iff.1 hnew
    obtain ⟨-, l, hl, -⟩ := modelLineIndex_spec hidx
    have hlt : idx < (lines content).length := (List.getElem?_eq_some_iff.1 hl).1
    have hwhole := modelLine_whole hline hend
    have hne : modelLine model ≠ [] := List.cons_ne_nil 'm' _
    rw [mapLines_at]
    have hlines := lines_set hcr hwhole hne hlt
    have hagain := modelLineIndex_set hidx (modelMark_modelLine model)
    refine ⟨?_, ⟨idx, hidx, hlines⟩, fun other => ?_⟩
    · rw [getCurrentModel, hlines, hagain, Option.map_some, List.getD_eq_getElem?_getD,
        List.getElem?_set_self hlt, Option.getD_some, modelLine, List.drop_left, unquoted_blank]
    · rw [updateAgentModel, updateAgentModel, hlines, hagain, hidx, Option.map_some, Option.map_some,
        mapLines_at, mapLines_at, hlines, List.set_set, joinLines_set hcr hwhole hne hlt]

def agentFile : List Char := "---\nmodel: a\n---\n".toList

theorem updateAgentModel_laws_one :
    (updateAgentModel agentFile ['b'] = none ↔ getCurrentModel agentFile = none) ∧
      ∀ new, updateAgentModel agentFile ['b'] = some new →
        getCurrentModel new = some (unquoted ['b']) ∧
          (∃ idx, modelLineIndex (lines agentFile) = some idx ∧
            lines new = (lines agentFile).set idx (modelLine ['b'])) ∧
          ∀ other, updateAgentModel new other = updateAgentModel agentFile other :=
  updateAgentModel_laws (by decide) (by decide) (by decide)

example : updateAgentModel agentFile ['b'] = some "---\nmodel: b\n---\n".toList := by decide

end LocalMind.Switcher.Agent
