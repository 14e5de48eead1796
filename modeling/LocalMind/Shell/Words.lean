import LocalMind.Text.Runs
import Mathlib.Tactic.SplitIfs

namespace Shell
set_option autoImplicit true

/-! How a POSIX shell breaks a command line into words. -/

/-- What the quoting rules leave of a character: it is outside quotes, it stands for itself, it
is a dollar sign or a backquote inside double quotes, or it was a quotation mark. -/
inductive Mark where
  | bare (c : Char)
  | kept (c : Char)
  | live (c : Char)
  | quote
deriving DecidableEq, Repr

/-- Where a character is read: outside quotes (`fresh` where a word would begin), behind a
backslash, inside quotes, or inside a comment. -/
inductive Mode where
  | plain (fresh : Bool)
  | escaped (fresh : Bool)
  | single
  | double
  | doubleEscaped
  | comment
deriving DecidableEq, Repr

def isBlank (c : Char) : Bool := c == ' ' || c == '\t'

def isOperator (c : Char) : Bool :=
  c == '|' || c == '&' || c == ';' || c == '<' || c == '>' || c == '(' || c == ')'

def parts (c : Char) : Bool := isBlank c || c == '\n'

def Mode.read : Mode → Char → Mode × List Mark
  | .plain fresh, c =>
    if c = '\\' then (.escaped fresh, [])
    else if c = '\'' then (.single, [.quote])
    else if c = '"' then (.double, [.quote])
    else if c = '#' ∧ fresh = true then (.comment, [])
    else (.plain (parts c || isOperator c), [.bare c])
  | .escaped fresh, c => if c = '\n' then (.plain fresh, []) else (.plain false, [.kept c])
  | .single, c => if c = '\'' then (.plain false, [.quote]) else (.single, [.kept c])
  | .double, c =>
    if c = '"' then (.plain false, [.quote])
    else if c = '\\' then (.doubleEscaped, [])
    else if c = '$' ∨ c = '`' then (.double, [.live c])
    else (.double, [.kept c])
  | .doubleEscaped, c =>
    if c = '\n' then (.double, [])
    else if c = '$' ∨ c = '`' ∨ c = '"' ∨ c = '\\' then (.double, [.kept c])
    else (.double, [.kept '\\', .kept c])
  | .comment, c => if c = '\n' then (.plain true, [.bare '\n']) else (.comment, [])

/-- The end of the input, where a quotation mark must not be open. -/
def Mode.close : Mode → Option (List Mark)
  | .plain _ => some []
  | .escaped _ => some [.kept '\\']
  | .single => none
  | .double => none
  | .doubleEscaped => none
  | .comment => some []

def marksFrom (m : Mode) : List Char → Option (List Mark)
  | [] => m.close
  | c :: s => (marksFrom (m.read c).1 s).map ((m.read c).2 ++ ·)

def marks (s : List Char) : Option (List Mark) := marksFrom (.plain true) s

abbrev Word := List Mark

/-- A blank or a newline outside quotes. -/
def Mark.isGap : Mark → Bool
  | .bare c => parts c
  | .kept _ => false
  | .live _ => false
  | .quote => false

/-- A mark that is no part of a command's words. -/
def Mark.ends : Mark → Bool
  | .bare c => c == '\n' || isOperator c
  | .kept _ => false
  | .live _ => false
  | .quote => false

def words (ms : List Mark) : List Word := Text.runs Mark.isGap ms

/-- The marks from the first word to the last. -/
def body (ms : List Mark) : List Mark := Text.strip Mark.isGap ms

/-- The words of a text that is one simple command and no more. -/
def commandOf (s : List Char) : Option (List Word) :=
  (marks s).bind fun ms => if (body ms).any Mark.ends then none else some (words (body ms))

theorem commandOf_eq_some : commandOf s = some ws ↔
    ∃ ms, marks s = some ms ∧ (body ms).any Mark.ends = false ∧ words ms = ws := by
  rw [commandOf, Option.bind_eq_some_iff]
  apply exists_congr
  intro ms
  apply and_congr_right
  intro _
  rw [words, body, Text.runs_strip]
  cases (Text.strip Mark.isGap ms).any Mark.ends with
  | true => simp
  | false => simp [words]

/-- Only a gap outside quotes leaves a gap. -/
theorem Mode.read_gap (m : Mode) (h : (m.read c).2 = before ++ Mark.bare d :: after)
    (hd : parts d = true) : c = d ∧ before = [] ∧ after = [] ∧ (m.read c).1 = .plain true := by
  have hbare : ∀ x : Mark, ∀ e, [x] = before ++ Mark.bare e :: after →
      before = [] ∧ x = .bare e ∧ after = [] := by
    intro x e he
    cases before with
    | nil =>
      rw [List.nil_append, List.cons.injEq] at he
      exact ⟨rfl, he.1, he.2.symm⟩
    | cons y before =>
      rw [List.cons_append, List.cons.injEq] at he
      exact absurd he.2.symm (List.append_ne_nil_of_right_ne_nil before (List.cons_ne_nil _ _))
  have hno : ([] : List Mark) ≠ before ++ Mark.bare d :: after :=
    (List.append_ne_nil_of_right_ne_nil before (List.cons_ne_nil _ _)).symm
  cases m with
  | plain fresh =>
    rw [Mode.read] at h ⊢
    split_ifs at h ⊢ with h₁ h₂ h₃ h₄
    · exact absurd h hno
    · exact absurd (hbare _ _ h).2.1 (by simp)
    · exact absurd (hbare _ _ h).2.1 (by simp)
    · exact absurd h hno
    · obtain ⟨hb, he, ha⟩ := hbare _ _ h
      rw [Mark.bare.injEq] at he
      subst he
      refine ⟨rfl, hb, ha, ?_⟩
      rw [hd]
      rfl
  | escaped fresh =>
    rw [Mode.read] at h
    split_ifs at h with h₁
    · exact absurd h hno
    · exact absurd (hbare _ _ h).2.1 (by simp)
  | single =>
    rw [Mode.read] at h
    split_ifs at h with h₁
    · exact absurd (hbare _ _ h).2.1 (by simp)
    · exact absurd (hbare _ _ h).2.1 (by simp)
  | double =>
    rw [Mode.read] at h
    split_ifs at h with h₁ h₂ h₃
    · exact absurd (hbare _ _ h).2.1 (by simp)
    · exact absurd h hno
    · exact absurd (hbare _ _ h).2.1 (by simp)
    · exact absurd (hbare _ _ h).2.1 (by simp)
  | doubleEscaped =>
    rw [Mode.read] at h
    split_ifs at h with h₁ h₂
    · exact absurd h hno
    · exact absurd (hbare _ _ h).2.1 (by simp)
    · have hm : Mark.bare d ∈ [Mark.kept '\\', Mark.kept c] := by
        rw [show [Mark.kept '\\', Mark.kept c] = _ from h]
        simp
      simp at hm
  | comment =>
    rw [Mode.read] at h ⊢
    split_ifs at h ⊢ with h₁
    · obtain ⟨hb, he, ha⟩ := hbare _ _ h
      rw [Mark.bare.injEq] at he
      exact ⟨h₁.trans he, hb, ha, rfl⟩
    · exact absurd h hno

/-- Behind a gap the text is read afresh. -/
theorem marks_cut (h : marksFrom m s = some (a ++ Mark.bare d :: after))
    (hd : parts d = true) :
    ∃ pre rest, s = pre ++ d :: rest ∧ marksFrom (.plain true) rest = some after := by
  induction s generalizing m a with
  | nil =>
    have hm : ∀ ms, m.close = some ms → Mark.bare d ∉ ms := by
      intro ms hms
      cases m <;> simp [Mode.close] at hms <;> subst hms <;> simp
    exact absurd (List.mem_append_right a List.mem_cons_self) (hm _ h)
  | cons c s ih =>
    rw [marksFrom, Option.map_eq_some_iff] at h
    obtain ⟨ms, hms, he⟩ := h
    rcases List.append_eq_append_iff.1 he with ⟨b, hb, hms'⟩ | ⟨b, hb, hms'⟩
    · rw [hms'] at hms
      obtain ⟨pre, rest, rfl, hrest⟩ := ih hms
      exact ⟨c :: pre, rest, rfl, hrest⟩
    · cases b with
      | nil =>
        rw [List.nil_append] at hms'
        rw [← hms'] at hms
        obtain ⟨pre, rest, rfl, hrest⟩ := ih (a := []) hms
        exact ⟨c :: pre, rest, rfl, hrest⟩
      | cons x b =>
        rw [List.cons_append, List.cons.injEq] at hms'
        rw [← hms'.1] at hb
        obtain ⟨rfl, _, rfl, hmode⟩ := Mode.read_gap m hb hd
        rw [hmode, ← List.nil_append ms, ← hms'.2] at hms
        exact ⟨[], s, rfl, hms⟩

/-- Every word of a text begins where the text is read afresh. -/
theorem marks_word (h : marks s = some ms) (hw : w ∈ words ms) :
    ∃ pre rest after, s = pre ++ rest ∧ marks rest = some after ∧
      w = Text.front Mark.isGap after ∧ w ≠ [] ∧
      (pre = [] ∨ ∃ init d, pre = init ++ [d] ∧ parts d = true) := by
  obtain ⟨before, after, rfl, hfront, hne, hb⟩ := Text.mem_runs hw
  rcases hb with rfl | ⟨init, m, rfl, hm⟩
  · exact ⟨[], s, after, rfl, h, hfront, hne, .inl rfl⟩
  · cases m with
    | bare d =>
      rw [List.append_assoc] at h
      obtain ⟨pre, rest, rfl, hrest⟩ := marks_cut h hm
      exact ⟨pre ++ [d], rest, after, by simp, hrest, hfront, hne, .inr ⟨pre, d, rfl, hm⟩⟩
    | kept c => exact absurd hm Bool.false_ne_true
    | live c => exact absurd hm Bool.false_ne_true
    | quote => exact absurd hm Bool.false_ne_true

/-- A character that has no meaning to the shell. -/
def isPlain (c : Char) : Bool :=
  !(c == '\\' || c == '\'' || c == '"' || c == '#' || parts c || isOperator c)

theorem Mode.read_plain (h : isPlain c = true) (fresh : Bool) :
    (Mode.plain fresh).read c = (.plain false, [.bare c]) := by
  simp only [isPlain, Bool.not_eq_true', Bool.or_eq_false_iff, beq_eq_false_iff_ne] at h
  obtain ⟨⟨⟨⟨⟨h₁, h₂⟩, h₃⟩, h₄⟩, h₅⟩, h₆⟩ := h
  rw [Mode.read, if_neg h₁, if_neg h₂, if_neg h₃, if_neg fun h => h₄ h.1, h₅, h₆]
  rfl

theorem Mode.read_parts (h : parts c = true) (fresh : Bool) :
    (Mode.plain fresh).read c = (.plain true, [.bare c]) := by
  have hc : c = ' ' ∨ c = '\t' ∨ c = '\n' := by
    simpa [parts, isBlank, or_assoc] using h
  rcases hc with rfl | rfl | rfl
  · rfl
  · rfl
  · rfl

theorem marks_plain_cons (h : isPlain c = true) (fresh : Bool) (s : List Char) :
    marksFrom (.plain fresh) (c :: s) = (marksFrom (.plain false) s).map (.bare c :: ·) := by
  rw [marksFrom, Mode.read_plain h]
  rfl

theorem marks_parts_cons (h : parts c = true) (fresh : Bool) (s : List Char) :
    marksFrom (.plain fresh) (c :: s) = (marks s).map (.bare c :: ·) := by
  rw [marksFrom, Mode.read_parts h]
  rfl

theorem marks_plain (h : ∀ c ∈ w, isPlain c = true) (s : List Char) :
    marksFrom (.plain false) (w ++ s) = (marksFrom (.plain false) s).map (w.map .bare ++ ·) := by
  induction w with
  | nil =>
    rw [List.nil_append]
    exact Option.map_id'.symm
  | cons c w ih =>
    rw [List.cons_append, marks_plain_cons (h c List.mem_cons_self),
      ih fun d hd => h d (List.mem_cons_of_mem c hd), Option.map_map]
    rfl

theorem marks_gaps (h : ∀ c ∈ w, parts c = true) (s : List Char) :
    marks (w ++ s) = (marks s).map (w.map .bare ++ ·) := by
  induction w with
  | nil =>
    rw [List.nil_append]
    exact Option.map_id'.symm
  | cons c w ih =>
    rw [List.cons_append, marks, marks_parts_cons (h c List.mem_cons_self),
      ih fun d hd => h d (List.mem_cons_of_mem c hd), Option.map_map]
    rfl

theorem marks_plain_word (h : ∀ c ∈ w, isPlain c = true) (hw : w ≠ []) (s : List Char) :
    marks (w ++ s) = (marksFrom (.plain false) s).map (w.map .bare ++ ·) := by
  cases w with
  | nil => exact absurd rfl hw
  | cons c w =>
    rw [List.cons_append, marks, marks_plain_cons (h c List.mem_cons_self),
      marks_plain fun d hd => h d (List.mem_cons_of_mem c hd), Option.map_map]
    rfl

theorem isGap_of_isPlain (h : isPlain c = true) : (Mark.bare c).isGap = false := by
  simp only [isPlain, Bool.not_eq_true', Bool.or_eq_false_iff] at h
  exact h.1.2

/-- The characters with a meaning to the shell. -/
def special : List Char :=
  ['\\', '\'', '"', '#', ' ', '\t', '\n', '|', '&', ';', '<', '>', '(', ')']

theorem mem_special (h : isPlain c = false) : c ∈ special := by
  by_contra hc
  have hplain : isPlain c = true := by
    simpa [special, isPlain, parts, isBlank, isOperator, and_assoc] using hc
  rw [h] at hplain
  exact absurd hplain Bool.false_ne_true

theorem Mode.read_bare (m : Mode) (h : Mark.bare d ∈ (m.read c).2) : d = c := by
  cases m with
  | plain fresh =>
    rw [Mode.read] at h
    split_ifs at h <;> simp at h
    exact h
  | escaped fresh =>
    rw [Mode.read] at h
    split_ifs at h <;> simp at h
  | single =>
    rw [Mode.read] at h
    split_ifs at h <;> simp at h
  | double =>
    rw [Mode.read] at h
    split_ifs at h <;> simp at h
  | doubleEscaped =>
    rw [Mode.read] at h
    split_ifs at h <;> simp at h
  | comment =>
    rw [Mode.read] at h
    split_ifs at h with hc
    · rw [List.mem_singleton, Mark.bare.injEq] at h
      exact h.trans hc.symm
    · exact absurd h List.not_mem_nil

/-- What stands outside quotes stands in the text. -/
theorem marks_bare (h : marksFrom m s = some ms) (hd : Mark.bare d ∈ ms) : d ∈ s := by
  induction s generalizing m ms with
  | nil =>
    cases m <;> simp [marksFrom, Mode.close] at h <;> subst h <;> simp at hd
  | cons c s ih =>
    rw [marksFrom, Option.map_eq_some_iff] at h
    obtain ⟨rest, hrest, rfl⟩ := h
    rcases List.mem_append.1 hd with hd | hd
    · rw [Mode.read_bare m hd]
      exact List.mem_cons_self
    · exact List.mem_cons_of_mem c (ih hrest hd)

end Shell
