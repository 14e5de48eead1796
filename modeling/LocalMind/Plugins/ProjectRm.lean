import LocalMind.Shell.Expansion
import LocalMind.Shell.Paths
import LocalMind.Text.Str

namespace LocalMind.ProjectRm
set_option autoImplicit true

/-! The `rm` commands that skip the risk check. -/

/-- The characters that `\s` matches and `trim` removes. -/
def isSpace (c : Char) : Bool :=
  let n := c.toNat
  decide (0x09 ≤ n ∧ n ≤ 0x0D) || n == 0x20 || n == 0xA0 || n == 0x1680 ||
    decide (0x2000 ≤ n ∧ n ≤ 0x200A) || n == 0x2028 || n == 0x2029 || n == 0x202F ||
    n == 0x205F || n == 0x3000 || n == 0xFEFF

def trim (s : List Char) : List Char := Text.strip isSpace s

/-- The pieces between runs of spaces; `gap` while a run goes on. -/
def splitFrom (gap : Bool) (cur : List Char) : List Char → List (List Char)
  | [] => [cur]
  | c :: s =>
    if isSpace c then
      if gap then splitFrom true cur s else cur :: splitFrom true [] s
    else splitFrom false (cur ++ [c]) s

/-- `split(/\s+/)`. -/
def splitSpaces (s : List Char) : List (List Char) := splitFrom false [] s

/-- A word character, `@`, `+`, a dot or a hyphen. -/
def nameChar (c : Char) : Bool :=
  c.isAlphanum || c == '_' || c == '@' || c == '+' || c == '.' || c == '-'

def pathChar (c : Char) : Bool := nameChar c || c == '/'

/-- The first pattern of a path. -/
def plainPath : List Char → Bool
  | [] => false
  | c :: s => nameChar c && s.all pathChar

/-- The second pattern, of a path behind `./`. -/
def dotPath : List Char → Bool
  | '.' :: '/' :: c :: s => pathChar c && s.all pathChar
  | _ => false

def inProject (p : List Char) : Bool :=
  (plainPath p || dotPath p) && !(p.splitOn '/').contains ['.', '.'] && p != ['.'] &&
    p != ['.', '/']

/-- ``[;&|<>`]|\$\(``. -/
def joins (command : List Char) : Bool :=
  command.any (fun c => c == ';' || c == '&' || c == '|' || c == '<' || c == '>' || c == '`') ||
    Text.contains command ['$', '(']

def inProjectRm (command : String) : Bool :=
  let words := splitSpaces (trim command.toList)
  if words.head? ≠ some ['r', 'm'] ∨ joins command.toList then false
  else
    let paths := words.tail.filter fun w => w.head? != some '-'
    !paths.isEmpty && paths.all inProject

theorem plainPath_cons (h : inProject (c :: s) = true) :
    nameChar c = true ∧ s.all pathChar = true := by
  rw [inProject, Bool.and_eq_true, Bool.and_eq_true, Bool.and_eq_true] at h
  obtain ⟨⟨⟨h, _⟩, _⟩, _⟩ := h
  rw [Bool.or_eq_true] at h
  rcases h with h | h
  · rw [plainPath, Bool.and_eq_true] at h
    exact h
  · unfold dotPath at h
    split at h
    · rename_i d t he
      rw [List.cons.injEq] at he
      obtain ⟨rfl, rfl⟩ := he
      rw [Bool.and_eq_true] at h
      refine ⟨by decide, ?_⟩
      rw [List.all_cons, List.all_cons, h.1, h.2]
      decide
    · exact absurd h Bool.false_ne_true

theorem inProject_pathChar (h : inProject p = true) : ∀ c ∈ p, pathChar c = true := by
  cases p with
  | nil => exact fun c hc => absurd hc List.not_mem_nil
  | cons d s =>
    obtain ⟨hd, hs⟩ := plainPath_cons h
    intro c hc
    rcases List.mem_cons.1 hc with rfl | hc
    · rw [pathChar, hd]
      rfl
    · exact List.all_eq_true.1 hs c hc

theorem inProject_ne_nil (h : inProject p = true) : p ≠ [] := by
  rintro rfl
  exact absurd h (by decide)

/-- A path that the check passes lies inside unless it names nothing. -/
theorem inProject_inside (h : inProject p = true) : Shell.Inside p ↔ Shell.Named p := by
  apply Shell.inside_iff
  · cases p with
    | nil => simp
    | cons c s =>
      obtain ⟨hc, _⟩ := plainPath_cons h
      intro hslash
      rw [List.head?_cons, Option.some.injEq] at hslash
      rw [hslash] at hc
      exact absurd hc (by decide)
  · rw [inProject, Bool.and_eq_true, Bool.and_eq_true, Bool.and_eq_true] at h
    have hdots := h.1.1.2
    intro hm
    rw [List.contains_iff_mem.2 hm] at hdots
    exact absurd hdots Bool.false_ne_true

theorem splitFrom_runs (hlast : ∀ h : s ≠ [], isSpace (s.getLast h) = false) :
    (∀ cur, cur ≠ [] → (∀ c ∈ cur, isSpace c = false) →
      splitFrom false cur s = Text.runs isSpace (cur ++ s)) ∧
    (s ≠ [] → splitFrom true [] s = Text.runs isSpace s) := by
  induction s with
  | nil =>
    constructor
    · intro cur hcur hc
      rw [List.append_nil, Text.runs_single hcur hc]
      rfl
    · exact fun h => absurd rfl h
  | cons c s ih =>
    have htail : ∀ h : s ≠ [], isSpace (s.getLast h) = false := by
      intro h
      rw [← List.getLast_cons h (a := c)]
      exact hlast (List.cons_ne_nil c s)
    obtain ⟨hword, hgap⟩ := ih htail
    have hne : isSpace c = true → s ≠ [] := by
      rintro hc rfl
      have hl := hlast (List.cons_ne_nil c [])
      rw [List.getLast_singleton, hc] at hl
      exact absurd hl (by decide)
    constructor
    · intro cur hcur hcs
      rw [splitFrom]
      by_cases hc : isSpace c = true
      · rw [if_pos hc, if_neg Bool.false_ne_true, hgap (hne hc), Text.runs_append hc,
          Text.runs_single hcur hcs]
        rfl
      · have hall : ∀ d ∈ cur ++ [c], isSpace d = false := by
          intro d hd
          rcases List.mem_append.1 hd with hd | hd
          · exact hcs d hd
          · rw [List.mem_singleton] at hd
            rw [hd]
            exact Bool.eq_false_iff.2 hc
        rw [if_neg hc, hword _ (by simp) hall, List.append_assoc]
        rfl
    · intro _
      rw [splitFrom]
      by_cases hc : isSpace c = true
      · rw [if_pos hc, if_pos rfl, hgap (hne hc), Text.runs_gap hc]
      · rw [if_neg hc]
        apply hword [c] (List.cons_ne_nil c [])
        intro d hd
        rw [List.mem_singleton] at hd
        rw [hd]
        exact Bool.eq_false_iff.2 hc

/-- The words of the check are the runs between white space. -/
theorem splitSpaces_trim (s : List Char) :
    splitSpaces (trim s) = [[]] ∨ splitSpaces (trim s) = Text.runs isSpace s := by
  rw [← Text.runs_strip s]
  have hlast : ∀ hne : trim s ≠ [], isSpace ((trim s).getLast hne) = false :=
    fun hne => Bool.eq_false_iff.2 (List.rdropWhile_last_not _ _ hne)
  have hhead := Text.head_strip (p := isSpace) s
  rw [trim] at hlast ⊢
  cases hs : Text.strip isSpace s with
  | nil => exact .inl rfl
  | cons c t =>
    apply Or.inr
    rw [hs] at hlast hhead
    have hc : isSpace c = false := hhead c rfl
    have htail : ∀ h : t ≠ [], isSpace (t.getLast h) = false := by
      intro h
      rw [← List.getLast_cons h (a := c)]
      exact hlast (List.cons_ne_nil c t)
    rw [splitSpaces, splitFrom, hc, if_neg Bool.false_ne_true]
    apply (splitFrom_runs htail).1 [c] (List.cons_ne_nil c [])
    intro d hd
    rw [List.mem_singleton] at hd
    rw [hd]
    exact hc

/-- What the check knows of a command it lets through. -/
theorem inProjectRm_runs (h : inProjectRm command = true) :
    ∃ ws, Text.runs isSpace command.toList = ['r', 'm'] :: ws ∧
      (∀ w ∈ ws, w.head? = some '-' ∨ inProject w = true) ∧ joins command.toList = false := by
  rw [inProjectRm] at h
  split_ifs at h with hguard
  rw [not_or, not_not, Bool.not_eq_true] at hguard
  obtain ⟨hhead, hjoins⟩ := hguard
  rw [Bool.and_eq_true] at h
  have hruns : splitSpaces (trim command.toList) = Text.runs isSpace command.toList := by
    apply (splitSpaces_trim command.toList).resolve_left
    intro hnil
    rw [hnil] at hhead
    exact absurd hhead (by decide)
  rw [hruns] at hhead h
  obtain ⟨ws, hws⟩ := List.head?_eq_some_iff.1 hhead
  rw [hws, List.tail_cons] at h
  refine ⟨ws, hws, fun w hw => ?_, hjoins⟩
  by_cases hdash : w.head? = some '-'
  · exact .inl hdash
  · apply Or.inr
    apply List.all_eq_true.1 h.2
    rw [List.mem_filter, bne_iff_ne]
    exact ⟨hw, hdash⟩

end LocalMind.ProjectRm
