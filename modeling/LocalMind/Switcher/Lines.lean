import LocalMind.Json.LineEnds
import LocalMind.Switcher.Jsonc

namespace LocalMind.Switcher
open Json Text
set_option autoImplicit true

/-! Edits line by line. -/

/-- The lines joined again, with the last line feed kept. -/
def joinLines (content : List Char) (lines : List (List Char)) : List Char :=
  ['\n'].intercalate lines ++ if content.getLast? = some '\n' then ['\n'] else []

/-- The new content, and the number of lines that changed. -/
def mapLines (f : Nat → List Char → List Char) (content : List Char) : List Char × Nat :=
  let old := lines content
  let new := old.mapIdx f
  (joinLines content new, (old.zip new).countP fun l => l.1 != l.2)

theorem stripComments_str_plain (h : c ≠ '\\') (t : List Char) :
    stripComments .str (c :: t) = c :: stripComments (if c = '"' then .code else .str) t := by
  rw [stripComments]
  intro n u he
  exact absurd he h

theorem stripComments_line_plain (h : c ≠ '\n') (t : List Char) :
    stripComments .line (c :: t) = stripComments .line t := by
  rw [stripComments]
  exact h

theorem stripComments_code (h : c ≠ '/' ∨ t.head? ≠ some '/' ∧ t.head? ≠ some '*') :
    stripComments .code (c :: t) = c :: stripComments (if c = '"' then .str else .code) t := by
  rw [stripComments]
  · intro u he hu
    rw [hu] at h
    rcases h with h | h
    · exact h he
    · exact h.1 rfl
  · intro u he hu
    rw [hu] at h
    rcases h with h | h
    · exact h he
    · exact h.2 rfl

theorem stripComments_lineEnds (m : Mode) (h : LineEnds x y) :
    LineEnds (stripComments m x) (stripComments m y) := by
  generalize hn : x.length = n
  induction n using Nat.strong_induction_on generalizing m x y with
  | _ n ih =>
    cases h with
    | nil => exact .refl _
    | @keep x y c h =>
      rw [List.length_cons] at hn
      cases m with
      | str =>
        by_cases hc : c = '\\'
        · subst hc
          cases h with
          | nil => exact .refl _
          | @keep x y d h =>
            rw [List.length_cons] at hn
            exact .keep _ (.keep d (ih x.length (by omega) .str h rfl))
          | @drop x y h =>
            simp only [List.length_cons] at hn
            have hrest := ih x.length (by omega) .str h rfl
            have hx := stripComments_str_plain (c := '\n') (by decide) x
            rw [stripComments, stripComments, hx]
            exact .keep _ (.drop hrest)
        · rw [stripComments_str_plain hc, stripComments_str_plain hc]
          exact .keep c (ih x.length (by omega) _ h rfl)
      | code =>
        by_cases hc : c = '/'
        · subst hc
          cases h with
          | nil => exact .refl _
          | @keep x y d h =>
            rw [List.length_cons] at hn
            by_cases hline : d = '/'
            · subst hline
              rw [stripComments, stripComments]
              exact ih x.length (by omega) .line h rfl
            · by_cases hblock : d = '*'
              · subst hblock
                rw [stripComments, stripComments]
                exact ih x.length (by omega) _ h rfl
              · have hcode : ∀ t : List Char, (d :: t).head? ≠ some '/' ∧
                    (d :: t).head? ≠ some '*' := by
                  intro t
                  simp [hline, hblock]
                rw [stripComments_code (.inr (hcode x)), stripComments_code (.inr (hcode y))]
                exact .keep _ (ih (d :: x).length (by simp; omega) _ (.keep d h) rfl)
          | @drop x y h =>
            simp only [List.length_cons] at hn
            have hcr : ('\r' :: '\n' :: x).head? ≠ some '/' ∧
                ('\r' :: '\n' :: x).head? ≠ some '*' := by
              refine ⟨?_, ?_⟩
              · intro he
                cases he
              · intro he
                cases he
            have hlf : ('\n' :: y).head? ≠ some '/' ∧ ('\n' :: y).head? ≠ some '*' := by
              refine ⟨?_, ?_⟩
              · intro he
                cases he
              · intro he
                cases he
            rw [stripComments_code (.inr hcr), stripComments_code (.inr hlf)]
            exact .keep _ (ih _ (by simp; omega) _ (.drop h) rfl)
        · rw [stripComments_code (.inl hc), stripComments_code (.inl hc)]
          exact .keep c (ih x.length (by omega) _ h rfl)
      | line =>
        by_cases hc : c = '\n'
        · subst hc
          rw [stripComments, stripComments]
          exact .keep _ (ih x.length (by omega) _ h rfl)
        · rw [stripComments_line_plain hc, stripComments_line_plain hc]
          exact ih x.length (by omega) _ h rfl
      | block prev =>
        rw [stripComments, stripComments]
        split
        · exact .keep _ (ih x.length (by omega) _ h rfl)
        · exact ih x.length (by omega) _ h rfl
    | @drop x y h =>
      simp only [List.length_cons] at hn
      cases m with
      | str =>
        have hrest := ih x.length (by omega) .str h rfl
        rw [stripComments_str_plain (by decide), stripComments_str_plain (by decide)]
        change LineEnds ('\r' :: stripComments .str ('\n' :: x)) ('\n' :: stripComments .str y)
        rw [stripComments_str_plain (by decide)]
        exact .drop hrest
      | code =>
        have hrest := ih x.length (by omega) .code h rfl
        rw [stripComments_plain (by decide) (by decide), stripComments_plain (by decide) (by decide),
          stripComments_plain (by decide) (by decide)]
        exact .drop hrest
      | line =>
        have hrest := ih x.length (by omega) .code h rfl
        rw [stripComments_line_plain (by decide), stripComments, stripComments]
        exact .keep _ hrest
      | block prev =>
        have hrest := ih x.length (by omega) (.block '\n') h rfl
        rw [stripComments, if_neg, stripComments, if_neg, stripComments, if_neg]
        · exact hrest
        · rintro ⟨-, he⟩
          cases he
        · rintro ⟨-, he⟩
          cases he
        · rintro ⟨-, he⟩
          cases he

theorem closesNext_cons (h : isWhitespace c = true) (t : List Char) :
    closesNext (c :: t) = closesNext t := by
  rw [closesNext, closesNext, List.dropWhile_cons_of_pos h]

theorem closesNext_lineEnds (h : LineEnds x y) : closesNext x = closesNext y := by
  induction h with
  | nil => rfl
  | @keep x y c h ih =>
    cases hc : isWhitespace c with
    | true => rw [closesNext_cons hc, closesNext_cons hc, ih]
    | false =>
      rw [closesNext, closesNext, List.dropWhile_cons_of_neg (by simp [hc]),
        List.dropWhile_cons_of_neg (by simp [hc])]
  | drop _ ih => rw [closesNext_cons (by decide), closesNext_cons (by decide),
      closesNext_cons (by decide), ih]

theorem removeTrailingCommas_str_plain (h : c ≠ '\\') (t : List Char) :
    removeTrailingCommas true (c :: t) = c :: removeTrailingCommas (c != '"') t := by
  rw [removeTrailingCommas]
  intro n u he
  exact absurd he h

theorem removeTrailingCommas_code (h : c ≠ ',') (t : List Char) :
    removeTrailingCommas false (c :: t) = c :: removeTrailingCommas (c == '"') t := by
  rw [removeTrailingCommas]
  exact h

theorem removeTrailingCommas_lineEnds (b : Bool) (h : LineEnds x y) :
    LineEnds (removeTrailingCommas b x) (removeTrailingCommas b y) := by
  generalize hn : x.length = n
  induction n using Nat.strong_induction_on generalizing b x y with
  | _ n ih =>
    cases h with
    | nil => exact .refl _
    | @keep x y c h =>
      rw [List.length_cons] at hn
      cases b with
      | true =>
        by_cases hc : c = '\\'
        · subst hc
          cases h with
          | nil => exact .refl _
          | @keep x y d h =>
            rw [List.length_cons] at hn
            exact .keep _ (.keep d (ih x.length (by omega) true h rfl))
          | @drop x y h =>
            simp only [List.length_cons] at hn
            have hrest := ih x.length (by omega) true h rfl
            have hx := removeTrailingCommas_str_plain (c := '\n') (by decide) x
            rw [removeTrailingCommas, removeTrailingCommas, hx]
            exact .keep _ (.drop hrest)
        · rw [removeTrailingCommas_str_plain hc, removeTrailingCommas_str_plain hc]
          exact .keep c (ih x.length (by omega) _ h rfl)
      | false =>
        have hrest := ih x.length (by omega) false h rfl
        by_cases hc : c = ','
        · subst hc
          rw [removeTrailingCommas, removeTrailingCommas, closesNext_lineEnds h]
          split
          · exact hrest
          · exact .keep _ hrest
        · rw [removeTrailingCommas_code hc, removeTrailingCommas_code hc]
          exact .keep c (ih x.length (by omega) _ h rfl)
    | @drop x y h =>
      simp only [List.length_cons] at hn
      cases b with
      | true =>
        have hrest := ih x.length (by omega) true h rfl
        rw [removeTrailingCommas_str_plain (by decide), removeTrailingCommas_str_plain (by decide)]
        change LineEnds ('\r' :: removeTrailingCommas true ('\n' :: x))
          ('\n' :: removeTrailingCommas true y)
        rw [removeTrailingCommas_str_plain (by decide)]
        exact .drop hrest
      | false =>
        have hrest := ih x.length (by omega) false h rfl
        rw [removeTrailingCommas_plain (by decide) (by decide),
          removeTrailingCommas_plain (by decide) (by decide),
          removeTrailingCommas_plain (by decide) (by decide)]
        exact .drop hrest

/-- Line ends do not matter to what a text with comments is read as. -/
theorem parseJsonc_lineEnds (h : parseJsonc codec s = some v) (hends : LineEnds s s') :
    parseJsonc codec s' = some v :=
  fromStr_lineEnds h (removeTrailingCommas_lineEnds false (stripComments_lineEnds .code hends))

theorem lineEnds_stripCR (s : List Char) : LineEnds (s ++ ['\n']) (stripCR s ++ ['\n']) := by
  rw [stripCR]
  split
  · next h =>
    obtain ⟨init, rfl⟩ := List.getLast?_eq_some_iff.1 h
    rw [List.dropLast_concat, List.append_assoc]
    exact (LineEnds.refl init).append (.drop .nil)
  · exact .refl _

theorem linesFrom_ne_nil {cur s : List Char} (h : s ≠ []) : linesFrom cur s ≠ [] := by
  induction s generalizing cur with
  | nil => exact absurd rfl h
  | cons c s ih =>
    rw [linesFrom]
    split
    · exact List.cons_ne_nil _ _
    · cases s with
      | nil =>
        rw [linesFrom, if_neg]
        · exact List.cons_ne_nil _ _
        · simp
      | cons d s => exact ih (List.cons_ne_nil d s)

theorem joinLines_cons (content line : List Char) {lines : List (List Char)} (h : lines ≠ []) :
    joinLines content (line :: lines) = line ++ '\n' :: joinLines content lines := by
  rw [joinLines, joinLines, List.intercalate_cons_of_ne_nil h]
  simp

theorem lineEnds_linesFrom (cur s : List Char) (h : '\n' ∉ cur) :
    LineEnds (cur ++ s) (joinLines (cur ++ s) (linesFrom cur s)) := by
  induction s generalizing cur with
  | nil =>
    have hlast : (cur ++ []).getLast? ≠ some '\n' := by
      intro he
      rw [List.append_nil] at he
      exact h (List.mem_of_getLast? he)
    rw [joinLines, if_neg hlast, linesFrom]
    cases cur with
    | nil => exact .nil
    | cons c cur =>
      rw [if_neg (by simp), List.intercalate_singleton]
      exact .refl _
  | cons c s ih =>
    rw [linesFrom]
    by_cases hc : c = '\n'
    · subst hc
      rw [if_pos rfl]
      by_cases hs : s = []
      · subst hs
        have hnone : linesFrom [] [] = [] := rfl
        rw [joinLines, List.getLast?_concat, if_pos rfl, hnone, List.intercalate_singleton]
        exact lineEnds_stripCR cur
      · have hrest := ih [] List.not_mem_nil
        have hlast : (cur ++ '\n' :: s).getLast? = s.getLast? := by
          obtain ⟨init, d, rfl⟩ := (List.eq_nil_or_concat' s).resolve_left hs
          rw [← List.cons_append, ← List.append_assoc, List.getLast?_concat, List.getLast?_concat]
        have hjoin : joinLines (cur ++ '\n' :: s) (linesFrom [] s) = joinLines s (linesFrom [] s) := by
          rw [joinLines, joinLines, hlast]
        rw [joinLines_cons _ _ (linesFrom_ne_nil hs), hjoin]
        have hline := (lineEnds_stripCR cur).append hrest
        simpa using hline
    · rw [if_neg hc]
      have hrest := ih (cur ++ [c]) (by simp [h, Ne.symm hc])
      rw [List.append_assoc, List.singleton_append] at hrest
      exact hrest

/-- The lines joined again are the content, less its carriage returns before line feeds. -/
theorem lineEnds_joinLines (content : List Char) :
    LineEnds content (joinLines content (lines content)) :=
  lineEnds_linesFrom [] content List.not_mem_nil

def textBefore (front : List (List Char)) : List Char := front.flatMap (· ++ ['\n'])

def textAfter (content : List Char) (back : List (List Char)) : List Char :=
  back.flatMap ('\n' :: ·) ++ if content.getLast? = some '\n' then ['\n'] else []

theorem joinLines_back (content line : List Char) (back : List (List Char)) :
    joinLines content (line :: back) = line ++ textAfter content back := by
  induction back generalizing line with
  | nil =>
    rw [joinLines, List.intercalate_singleton]
    rfl
  | cons next back ih =>
    rw [joinLines_cons _ _ (List.cons_ne_nil _ _), ih, textAfter, textAfter, List.flatMap_cons]
    simp

/-- The text before a line, the line, and the text after it. -/
theorem joinLines_at (content line : List Char) (front back : List (List Char)) :
    joinLines content (front ++ line :: back) =
      textBefore front ++ line ++ textAfter content back := by
  induction front with
  | nil => exact joinLines_back content line back
  | cons first front ih =>
    rw [List.cons_append, joinLines_cons _ _ (by simp), ih, textBefore, textBefore,
      List.flatMap_cons]
    simp

end LocalMind.Switcher
