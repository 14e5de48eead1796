import LocalMind.Json.Marked
import LocalMind.Switcher.Lines

namespace LocalMind.Switcher
open Json Text MarkedText
set_option autoImplicit true

/-! Files that are edited at marked parts of their lines. -/

/-- A line that is read again as it is. -/
def Whole (line : List Char) : Prop := '\n' ∉ line ∧ line.getLast? ≠ some '\r'

theorem linesFrom_line (h : '\n' ∉ line) (cur rest : List Char) :
    linesFrom cur (line ++ '\n' :: rest) = stripCR (cur ++ line) :: linesFrom [] rest := by
  induction line generalizing cur with
  | nil => rw [List.nil_append, linesFrom, if_pos rfl, List.append_nil]
  | cons c line ih =>
    obtain ⟨hc, hline⟩ := List.ne_and_not_mem_of_not_mem_cons h
    rw [List.cons_append, linesFrom, if_neg (Ne.symm hc), ih hline, List.append_assoc]
    rfl

theorem linesFrom_last (h : '\n' ∉ line) (cur : List Char) :
    linesFrom cur line = if (cur ++ line).isEmpty then [] else [cur ++ line] := by
  induction line generalizing cur with
  | nil => rw [linesFrom, List.append_nil]
  | cons c line ih =>
    obtain ⟨hc, hline⟩ := List.ne_and_not_mem_of_not_mem_cons h
    rw [linesFrom, if_neg (Ne.symm hc), ih hline, List.append_assoc]
    rfl

theorem Whole.stripCR (h : Whole line) : stripCR line = line := if_neg h.2

/-- Whole lines that are joined are read again. -/
theorem lines_joinLines {ls : List (List Char)} (hwhole : ∀ l ∈ ls, Whole l) (hne : ls ≠ [])
    (hlast : content.getLast? = some '\n' ∨ ls.getLast? ≠ some []) :
    lines (joinLines content ls) = ls := by
  induction ls with
  | nil => exact absurd rfl hne
  | cons l ls ih =>
    have hl := hwhole l List.mem_cons_self
    cases ls with
    | nil =>
      rw [joinLines, List.intercalate_singleton]
      split
      · rw [lines, linesFrom_line hl.1, List.nil_append, hl.stripCR]
        rfl
      · next hcontent =>
        have hfull : l ≠ [] := by
          rintro rfl
          exact hlast.resolve_left hcontent rfl
        rw [List.append_nil, lines, linesFrom_last hl.1, List.nil_append,
          if_neg (by rwa [List.isEmpty_iff])]
    | cons l' ls =>
      rw [joinLines_cons _ _ (List.cons_ne_nil l' ls), lines, linesFrom_line hl.1, List.nil_append,
        hl.stripCR]
      rw [List.getLast?_cons_cons] at hlast
      have hrest := ih (fun l hmem => hwhole l (List.mem_cons_of_mem _ hmem))
        (List.cons_ne_nil l' ls) hlast
      rw [lines] at hrest
      rw [hrest]

theorem notMem_linesFrom {cur s : List Char} (hcur : '\n' ∉ cur) (h : l ∈ linesFrom cur s) :
    '\n' ∉ l := by
  induction s generalizing cur with
  | nil =>
    rw [linesFrom] at h
    split at h
    · cases h
    · rw [List.mem_singleton.1 h]
      exact hcur
  | cons c s ih =>
    rw [linesFrom] at h
    split at h
    · obtain rfl | h := List.mem_cons.1 h
      · intro hmem
        exact hcur ((stripCR_isPrefix cur).subset hmem)
      · exact ih List.not_mem_nil h
    · next hc => exact ih (by simp [hcur, Ne.symm hc]) h

theorem getLast?_linesFrom {cur : List Char} (s : List Char) (hcur : '\n' ∉ cur) :
    s.getLast? = some '\n' ∨ (linesFrom cur s).getLast? ≠ some [] := by
  induction s generalizing cur with
  | nil =>
    right
    rw [linesFrom]
    split
    · intro he
      cases he
    · next hne =>
      intro he
      rw [List.getLast?_singleton, Option.some.injEq] at he
      exact hne (List.isEmpty_iff.2 he)
  | cons c s ih =>
    rw [linesFrom]
    split
    · next hc =>
      subst hc
      by_cases hs : s = []
      · subst hs
        exact .inl rfl
      · rw [List.getLast?_cons_of_ne_nil hs, List.getLast?_cons_of_ne_nil (linesFrom_ne_nil hs)]
        exact ih List.not_mem_nil
    · next hc =>
      have hcur' : '\n' ∉ cur ++ [c] := by simp [hcur, Ne.symm hc]
      obtain hs | hs := ih hcur'
      · cases s with
        | nil => cases hs
        | cons d s => exact .inl hs
      · exact .inr hs

theorem getLast?_joinLines {ls : List (List Char)} (hwhole : ∀ l ∈ ls, '\n' ∉ l)
    (hlast : content.getLast? = some '\n' ∨ ls.getLast? ≠ some []) :
    (joinLines content ls).getLast? = some '\n' ↔ content.getLast? = some '\n' := by
  by_cases hcontent : content.getLast? = some '\n'
  · rw [joinLines, if_pos hcontent, List.getLast?_concat]
    exact iff_of_true rfl hcontent
  · apply iff_of_false _ hcontent
    rw [joinLines, if_neg hcontent, List.append_nil]
    have hls := hlast.resolve_left hcontent
    clear hlast
    induction ls with
    | nil =>
      intro he
      cases he
    | cons l ls ih =>
      cases ls with
      | nil =>
        rw [List.intercalate_singleton]
        intro he
        exact hwhole l List.mem_cons_self (List.mem_of_getLast? he)
      | cons l' ls =>
        have hrest := ih (fun l hmem => hwhole l (List.mem_cons_of_mem _ hmem)) hls
        have hne : ['\n'].intercalate (l' :: ls) ≠ [] := by
          intro he
          cases ls with
          | nil =>
            rw [List.intercalate_singleton] at he
            rw [he] at hls
            exact hls rfl
          | cons l'' ls =>
            rw [List.intercalate_cons_of_ne_nil (List.cons_ne_nil _ _)] at he
            simp at he
        rw [List.intercalate_cons_of_ne_nil (List.cons_ne_nil _ _), List.append_assoc,
          List.getLast?_append_of_ne_nil _ (by simp), List.getLast?_append_of_ne_nil _ hne]
        exact hrest

/-! The two passes over a marked text. -/

/-- The text of a value, with comments and trailing commas. -/
def Raw (codec : FloatCodec) (d : Nat) (t : List Char) (v : Value) : Prop :=
  ∃ s, Stripped t s ∧ Tok (valueHandlers codec) d s v

/-- The second pass makes `y` of `x` where a value follows. -/
def KeepsAhead (x y : List Char) : Prop :=
  ∀ m r, Opens m → removeTrailingCommas false (x ++ (m ++ r)) =
    y ++ removeTrailingCommas false (m ++ r)

/-- The passes make a marked text of another, whose marks are the same and stand outside strings
and comments. -/
inductive StripsTo : MarkedText → MarkedText → Prop where
  | last : stripJsonc s = u → StripsTo (plain s) (plain u)
  | mark : Strips x y → KeepsAhead y u → StripsTo t t' →
    StripsTo (plain x ++ .mark m :: t) (plain u ++ .mark m :: t')

theorem Keeps.ahead (h : Keeps x y) : KeepsAhead x y := fun _ _ _ => h _

theorem Stripped.eq (h : Stripped t s) : stripJsonc t = s := by
  obtain ⟨m, hm, hs, -⟩ := h
  have hstrips : stripComments .code (t ++ []) = m ++ [] := hm []
  have hkeeps : removeTrailingCommas false (m ++ []) = s ++ [] := hs []
  rw [List.append_nil, List.append_nil] at hstrips hkeeps
  rw [stripJsonc, hstrips, hkeeps]

theorem StripsTo.marks (h : StripsTo t t') : marks t' = marks t := by
  induction h with
  | last => rw [marks_plain, marks_plain]
  | @mark x y u t t' m hx hy ht ih =>
    rw [marks_append, marks_append, marks_plain, marks_plain]
    exact congrArg (m :: ·) ih

theorem StripsTo.rewrite (f : List Char → List Char) (h : StripsTo t t') :
    StripsTo (rewrite f t) (rewrite f t') := by
  induction h with
  | last hs =>
    rw [rewrite_plain, rewrite_plain]
    exact .last hs
  | mark hx hy _ ih =>
    rw [rewrite_append, rewrite_append, rewrite_plain, rewrite_plain]
    exact .mark hx hy ih

/-- The passes work on the marked parts by themselves. -/
theorem StripsTo.text (h : StripsTo t t') (hm : ∀ m ∈ MarkedText.marks t, ∃ s, Stripped m s) :
    stripJsonc (MarkedText.text t) = MarkedText.text (MarkedText.rewrite stripJsonc t') := by
  induction h with
  | last hs => rw [rewrite_plain, text_plain, text_plain, hs]
  | @mark x y u t t' m hx hy ht ih =>
    rw [marks_append, marks_plain, List.nil_append] at hm
    obtain ⟨s, hstripped⟩ := hm m List.mem_cons_self
    have heq := hstripped.eq
    obtain ⟨k, hk, hs, hopens⟩ := hstripped
    have hrest := ih fun m' hmem => hm m' (List.mem_cons_of_mem m hmem)
    rw [text_append, text_plain, text_mark, rewrite_append, rewrite_plain, text_append, text_plain]
    change _ = u ++ (stripJsonc m ++ MarkedText.text (MarkedText.rewrite stripJsonc t'))
    rw [← hrest, heq, stripJsonc, hx, hk, hy _ _ hopens, hs]
    rfl

/-- Marked lines joined as the lines of a file are. -/
def joinMarked (content : List Char) (ls : List MarkedText) : MarkedText :=
  (plain ['\n']).intercalate ls ++ plain (if content.getLast? = some '\n' then ['\n'] else [])

theorem text_intercalate (sep : MarkedText) (ls : List MarkedText) :
    text (sep.intercalate ls) = (text sep).intercalate (ls.map text) := by
  induction ls with
  | nil => rfl
  | cons l ls ih =>
    cases ls with
    | nil => rw [List.map_singleton, List.intercalate_singleton, List.intercalate_singleton]
    | cons l' ls =>
      rw [List.intercalate_cons_cons, text_append, text_append, ih, List.map_cons, List.map_cons,
        List.map_cons, List.intercalate_cons_cons]

theorem text_joinMarked (content : List Char) (ls : List MarkedText) :
    text (joinMarked content ls) = joinLines content (ls.map text) := by
  rw [joinMarked, text_append, text_intercalate, text_plain, text_plain]
  rfl

theorem marks_intercalate (ls : List MarkedText) :
    marks ((plain ['\n']).intercalate ls) = ls.flatMap marks := by
  induction ls with
  | nil => rfl
  | cons l ls ih =>
    cases ls with
    | nil => rw [List.intercalate_singleton, List.flatMap_singleton]
    | cons l' ls =>
      rw [List.intercalate_cons_cons, marks_append, marks_append, ih, marks_plain, List.append_nil]
      rfl

theorem marks_joinMarked (content : List Char) (ls : List MarkedText) :
    marks (joinMarked content ls) = ls.flatMap marks := by
  rw [joinMarked, marks_append, marks_plain, List.append_nil, marks_intercalate]

/-! Whole files. -/

/-- A line with no mark, or with one. -/
inductive LineOf (bare : List Char → Prop) (around : List Char → List Char → List Char → Prop) :
    MarkedText → Prop where
  | bare : bare s → LineOf bare around (plain s)
  | around : around x m y → LineOf bare around (plain x ++ .mark m :: plain y)

/-- A file whose document has its marks on lines of their own. -/
structure MarkedFile (codec : FloatCodec) (leaf : Nat → List Char → Value → Prop)
    (bare : List Char → Prop) (around : List Char → List Char → List Char → Prop)
    (path : List Step) (file : List Char) (ls : List MarkedText) (v : Value) : Prop where
  lines : lines file = ls.map text
  whole : ∀ l ∈ ls, (text l).getLast? ≠ some '\r'
  line : ∀ l ∈ ls, LineOf bare around l
  doc : ∃ w t w', AllWs w ∧ AllWs w' ∧ StripsTo (joinMarked file ls) (plain w ++ t ++ plain w') ∧
    Along codec leaf path MAX_DEPTH t v

theorem marks_between (w w' : List Char) (t : MarkedText) :
    marks (plain w ++ t ++ plain w') = marks t := by
  rw [marks_append, marks_append, marks_plain, marks_plain, List.append_nil, List.nil_append]

theorem mapLines_const (f : List Char → List Char) (content : List Char) :
    mapLines (fun _ => f) content = (joinLines content ((lines content).map f),
      (lines content).countP fun l => l != f l) := by
  have hmap : (lines content).mapIdx (fun _ => f) = (lines content).map f := by
    apply List.ext_getElem?
    intro i
    rw [List.getElem?_mapIdx, List.getElem?_map]
  have hcount : ∀ ls : List (List Char), (ls.zip (ls.map f)).countP (fun l => l.1 != l.2) =
      ls.countP fun l => l != f l := by
    intro ls
    induction ls with
    | nil => rfl
    | cons l ls ih => rw [List.map_cons, List.zip_cons_cons, List.countP_cons, List.countP_cons, ih]
  rw [mapLines, hmap]
  exact Prod.ext rfl (hcount _)

theorem forall₂_left {R : α → β → Prop} (h : List.Forall₂ R as bs) (ha : a ∈ as) :
    ∃ b, R a b := by
  induction h with
  | nil => cases ha
  | cons hr _ ih =>
    obtain rfl | ha := List.mem_cons.1 ha
    · exact ⟨_, hr⟩
    · exact ih ha

section
variable {codec : FloatCodec} {leaf leaf' : Nat → List Char → Value → Prop}
  {bare bare' : List Char → Prop} {around around' : List Char → List Char → List Char → Prop}

theorem MarkedFile.forall_marks (h : MarkedFile codec leaf bare around path file ls v) :
    List.Forall₂ (fun m v => ∃ e, leaf e m v) (ls.flatMap marks) (valuesAlong path v) := by
  obtain ⟨w, t, w', -, -, hstrip, halong⟩ := h.doc
  have hmarks := hstrip.marks
  rw [marks_between, marks_joinMarked] at hmarks
  rw [← hmarks]
  exact halong.marks

/-- The lines joined are a text of the value. -/
theorem MarkedFile.parse (h : MarkedFile codec leaf bare around path file ls v)
    (hleaf : ∀ e m v, leaf e m v → Raw codec e m v) :
    parseJsonc codec (joinLines file (Text.lines file)) = some v := by
  have hmarks := h.forall_marks
  obtain ⟨w, t, w', hw, hw', hstrip, halong⟩ := h.doc
  have hstripped : ∀ m ∈ marks (joinMarked file ls), ∃ s, Stripped m s := by
    rw [marks_joinMarked]
    intro m hm
    obtain ⟨v, e, hv⟩ := forall₂_left hmarks hm
    obtain ⟨s, hs, -⟩ := hleaf e m v hv
    exact ⟨s, hs⟩
  rw [h.lines, ← text_joinMarked, parseJsonc, hstrip.text hstripped, rewrite_append, rewrite_append,
    text_append, text_append, rewrite_plain, rewrite_plain, text_plain, text_plain]
  apply fromStr_eq_some_iff.2
  refine ⟨w, _, w', rfl, hw, hw', ?_⟩
  apply halong.tok
  intro e m v hm
  obtain ⟨s, hs, ht⟩ := hleaf e m v hm
  rw [hs.eq]
  exact ht

/-- The number of changed lines is the number of marked values that change. -/
theorem MarkedFile.count {onLine f : List Char → List Char} {changed : Value → Bool}
    (h : MarkedFile codec leaf bare around path file ls v) (hbare : ∀ s, bare s → onLine s = s)
    (haround : ∀ x m y, around x m y → onLine (x ++ m ++ y) = x ++ f m ++ y)
    (hleaf : ∀ e m v, leaf e m v → (f m = m ↔ changed v = false)) :
    (mapLines (fun _ => onLine) file).2 = (valuesAlong path v).countP changed := by
  have hmarks := h.forall_marks
  have hvalues : ∀ {ms vs}, List.Forall₂ (fun m v => ∃ e, leaf e m v) ms vs →
      ms.countP (fun m => m != f m) = vs.countP changed := by
    intro ms vs hall
    induction hall with
    | nil => rfl
    | @cons m v ms vs hm _ ih =>
      obtain ⟨e, hm⟩ := hm
      have hbool : (m != f m) = changed v := by
        cases hv : changed v with
        | false => rw [(hleaf e m v hm).2 hv, bne_self_eq_false]
        | true =>
          apply bne_iff_ne.2
          intro he
          rw [(hleaf e m v hm).1 he.symm] at hv
          cases hv
      rw [List.countP_cons, List.countP_cons, ih, hbool]
  rw [mapLines_const, h.lines, ← hvalues hmarks]
  have hline := h.line
  clear h hmarks
  dsimp only
  induction ls with
  | nil => rfl
  | cons l ls ih =>
    have hrest := ih fun l hmem => hline l (List.mem_cons_of_mem _ hmem)
    rw [List.map_cons, List.countP_cons, hrest, List.flatMap_cons, List.countP_append,
      Nat.add_comm]
    congr 1
    cases hline l List.mem_cons_self with
    | bare hs =>
      rw [marks_plain, text_plain, hbare _ hs, bne_self_eq_false]
      rfl
    | @around x m y hxy =>
      have hm : marks (plain x ++ .mark m :: plain y) = [m] := by
        rw [marks_append, marks_plain, List.nil_append]
        exact congrArg (m :: ·) (marks_plain y)
      have htext : text (plain x ++ .mark m :: plain y) = x ++ m ++ y := by
        rw [text_append, text_mark, text_plain, text_plain, List.append_assoc]
      rw [hm, htext, haround x m y hxy, List.countP_singleton]
      congr 1
      simp

end

end LocalMind.Switcher
