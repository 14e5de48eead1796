import LocalMind.Plugins.ProjectRm

namespace LocalMind.ProjectRm
open Shell
set_option autoImplicit true

/-- The shell takes the command for one `rm`, and whatever its words stand for, every operand lies
inside the working directory. -/
def RemovesInside (command : String) : Prop :=
  ∃ ws, commandOf command.toList = some ws ∧
    ∀ fs, Expands ws fs → ∃ args, fs = ['r', 'm'] :: args ∧ ∀ p ∈ operands args, Inside p

def spaceMark : Mark → Bool
  | .bare c => isSpace c
  | .kept _ => false
  | .live _ => false
  | .quote => false

/-- The word holds white space that the shell does not part words at. -/
def spaced (w : Word) : Bool := w.any spaceMark

/-- What keeps a word of the command inside: the check looks at no word with a hyphen in front or
with white space in it, and at the others only for their names. -/
def Contained (before : List Word) (w : Word) : Prop :=
  if w.head? = some (.bare '-') then Behind before w → ∀ t, Reads true w t → Inside t
  else if spaced w then ∀ t, Reads true w t → Inside t
  else Named (text w)

/-- The command reads to the shell as it does to the check: outside quotes no newline between its
words, no parenthesis and no parameter, no white space but the shell's around its first word. -/
def Straight (command : String) : Prop :=
  ∃ ms, marks command.toList = some ms ∧
    (∀ m ∈ body ms, m ≠ .bare '\n' ∧ m ≠ .bare '(' ∧ m ≠ .bare ')') ∧
    (∀ w ∈ words ms, unbound w = false) ∧
    (∃ w ws, words ms = w :: ws ∧ spaced w = false) ∧
    ∀ before w after, words ms = before ++ w :: after → Contained before w

theorem pathChar_range (h : pathChar c = true) : c.toNat = 0x2B ∨
    (0x2D ≤ c.toNat ∧ c.toNat ≤ 0x39) ∨ (0x40 ≤ c.toNat ∧ c.toNat ≤ 0x5A) ∨ c.toNat = 0x5F ∨
    (0x61 ≤ c.toNat ∧ c.toNat ≤ 0x7A) := by
  simp only [pathChar, nameChar, Bool.or_eq_true, beq_iff_eq, or_assoc] at h
  rcases h with h | rfl | rfl | rfl | rfl | rfl | rfl
  · simp only [Char.isAlphanum, Char.isAlpha, Char.isUpper, Char.isLower, Char.isDigit,
      Bool.or_eq_true, Bool.and_eq_true, decide_eq_true_eq, UInt32.le_iff_toNat_le, ge_iff_le] at h
    have hc : c.toNat = c.val.toNat := rfl
    have hA : 'A'.val.toNat = 0x41 := rfl
    have hZ : 'Z'.val.toNat = 0x5A := rfl
    have ha : 'a'.val.toNat = 0x61 := rfl
    have hz : 'z'.val.toNat = 0x7A := rfl
    have h0 : '0'.val.toNat = 0x30 := rfl
    have h9 : '9'.val.toNat = 0x39 := rfl
    omega
  all_goals decide

theorem pathChar_isSpace (h : pathChar c = true) : isSpace c = false := by
  have hr := pathChar_range h
  simp only [isSpace, Bool.or_eq_false_iff, decide_eq_false_iff_not, beq_eq_false_iff_ne]
  omega

theorem eq_false_of_all {cs : List Char} {q : Char → Bool} (h : cs.all (!q ·) = true)
    (hc : c ∈ cs) : q c = false := by
  have hn := List.all_eq_true.1 h c hc
  rw [Bool.not_eq_true'] at hn
  exact hn

theorem isPlain_of {q : Char → Bool} (h : special.all (!q ·) = true) (hc : q c = true) :
    isPlain c = true := by
  cases hp : isPlain c with
  | true => rfl
  | false =>
    rw [eq_false_of_all h (mem_special hp)] at hc
    exact absurd hc Bool.false_ne_true

theorem isPattern_of {q : Char → Bool} (h : ['*', '?', '['].all (!q ·) = true) (hc : q c = true) :
    isPattern c = false := by
  cases hp : isPattern c with
  | false => rfl
  | true =>
    rw [eq_false_of_all h (List.contains_iff_mem.1 hp)] at hc
    exact absurd hc Bool.false_ne_true

theorem pathChar_isPlain (h : pathChar c = true) : isPlain c = true :=
  isPlain_of (by rfl) h

theorem pathChar_isPattern (h : pathChar c = true) : isPattern c = false :=
  isPattern_of (by rfl) h

theorem isSpace_isPlain (h : isSpace c = true) (hp : parts c = false) : isPlain c = true := by
  apply isPlain_of (q := fun c => isSpace c && !parts c) (by rfl)
  rw [h, hp]
  rfl

theorem isSpace_isPattern (h : isSpace c = true) : isPattern c = false :=
  isPattern_of (by rfl) h

theorem parts_isSpace (h : parts c = true) : isSpace c = true := by
  simp only [parts, isBlank, Bool.or_eq_true, beq_iff_eq] at h
  rcases h with (rfl | rfl) | rfl
  · rfl
  · rfl
  · rfl

/-- A word of path characters, then white space inside the word. -/
def Glued (w : Word) : Prop :=
  ∃ (r : List Char) (d : Char) (v : Word), w = r.map .bare ++ .bare d :: v ∧
    (∀ c ∈ r, pathChar c = true) ∧ r.head? ≠ some '-' ∧ isSpace d = true

/-- A word of the shell is one that the check skipped, one with white space in it, or a path that
the check passed. -/
inductive Shape (rs : List (List Char)) (w : Word) : Prop where
  | dash : r ∈ rs.head? → r.head? = some '-' → w.head? = some (.bare '-') → Shape rs w
  | glued : Glued w → Shape rs w
  | path : r ∈ rs.head? → inProject r = true → r.head? ≠ some '-' → w = r.map .bare → Shape rs w

theorem shape_of_marks (h : marks (c :: s) = some ms) (hp : parts c = false)
    (hr : ∀ r ∈ Text.runs isSpace (c :: s), r.head? = some '-' ∨ inProject r = true) :
    Shape (Text.runs isSpace (c :: s)) (Text.front Mark.isGap ms) := by
  have hplain : ∀ rest, marksFrom (.plain true) (c :: rest) = some ms → isPlain c = true →
      ∃ v, Text.front Mark.isGap ms = .bare c :: v := by
    intro rest hm hc
    rw [marks_plain_cons hc, Option.map_eq_some_iff] at hm
    obtain ⟨ms', _, rfl⟩ := hm
    exact ⟨_, Text.front_append (w := [Mark.bare c]) (by simpa using isGap_of_isPlain hc) ms'⟩
  by_cases hc : isSpace c = true
  · obtain ⟨v, hv⟩ := hplain s h (isSpace_isPlain hc hp)
    exact .glued ⟨[], c, v, hv, by simp, by simp, hc⟩
  · have hhead : ∃ r, Text.front isSpace (c :: s) = c :: r :=
      ⟨_, Text.front_append (w := [c]) (by simpa using hc) s⟩
    obtain ⟨r, hfront⟩ := hhead
    obtain ⟨rs, hruns⟩ := Text.runs_front (show Text.front isSpace (c :: s) ≠ [] by simp [hfront])
    rw [hfront] at hruns
    rw [hruns] at hr ⊢
    rcases hr _ List.mem_cons_self with hdash | hpath
    · rw [List.head?_cons, Option.some.injEq] at hdash
      subst hdash
      obtain ⟨v, hv⟩ := hplain s h (by decide)
      exact .dash rfl rfl (by rw [hv]; rfl)
    · by_cases hdash : c = '-'
      · subst hdash
        obtain ⟨v, hv⟩ := hplain s h (by decide)
        exact .dash rfl rfl (by rw [hv]; rfl)
      · have hchars := inProject_pathChar hpath
        have hbare : ∀ m ∈ (c :: r).map Mark.bare, m.isGap = false := by
          intro m hm
          obtain ⟨d, hd, rfl⟩ := List.mem_map.1 hm
          exact isGap_of_isPlain (pathChar_isPlain (hchars d hd))
        have hne : (c :: r).head? ≠ some '-' := by simpa using hdash
        rcases Text.front_cases (p := isSpace) (c :: s) with he | ⟨d, rest, he, hd⟩
        · rw [he, hfront, ← List.append_nil (c :: r),
            marks_plain_word (fun d hd => pathChar_isPlain (hchars d hd))
              (List.cons_ne_nil c r)] at h
          rw [marksFrom, Mode.close, Option.map_some, Option.some.injEq] at h
          apply Shape.path rfl hpath hne
          rw [← h, Text.front_append hbare]
          exact List.append_nil _
        · rw [he, hfront, marks_plain_word (fun d hd => pathChar_isPlain (hchars d hd))
            (List.cons_ne_nil c r), Option.map_eq_some_iff] at h
          obtain ⟨ms', hms', rfl⟩ := h
          rw [Text.front_append hbare]
          cases hparts : parts d with
          | true =>
            rw [marks_parts_cons hparts, Option.map_eq_some_iff] at hms'
            obtain ⟨ms'', _, rfl⟩ := hms'
            apply Shape.path rfl hpath hne
            have hf := Text.front_gap (p := Mark.isGap) (m := .bare d) hparts ms''
            rw [hf, List.append_nil]
          | false =>
            have hpd := isSpace_isPlain hd hparts
            rw [marks_plain_cons hpd, Option.map_eq_some_iff] at hms'
            obtain ⟨ms'', _, rfl⟩ := hms'
            have hf := Text.front_append (w := [Mark.bare d])
              (by simpa using isGap_of_isPlain hpd) ms''
            rw [List.singleton_append, List.singleton_append] at hf
            rw [hf]
            exact .glued ⟨c :: r, d, _, rfl, hchars, hne, hd⟩

/-- Every word of the shell has its shape from the check. -/
theorem shape_of_word (hrm : inProjectRm command = true) (h : marks command.toList = some ms)
    (hw : w ∈ words ms) : ∃ rs, Shape rs w := by
  obtain ⟨ws, hruns, hok, _⟩ := inProjectRm_runs hrm
  have hall : ∀ r ∈ Text.runs isSpace command.toList,
      r.head? = some '-' ∨ inProject r = true := by
    rw [hruns]
    intro r hr
    rcases List.mem_cons.1 hr with rfl | hr
    · exact .inr (by decide)
    · exact hok r hr
  obtain ⟨pre, rest, after, hs, hafter, rfl, hne, hpre⟩ := marks_word h hw
  have hrest : ∀ r ∈ Text.runs isSpace rest, r ∈ Text.runs isSpace command.toList := by
    intro r hr
    rw [hs]
    rcases hpre with rfl | ⟨init, d, rfl, hd⟩
    · exact hr
    · rw [List.append_assoc, List.singleton_append, Text.runs_append (parts_isSpace hd)]
      exact List.mem_append_right _ hr
  cases rest with
  | nil =>
    rw [marks, marksFrom, Mode.close, Option.some.injEq] at hafter
    rw [← hafter] at hne
    exact absurd rfl hne
  | cons c s =>
    cases hp : parts c with
    | true =>
      rw [marks, marks_parts_cons hp, Option.map_eq_some_iff] at hafter
      obtain ⟨ms', _, rfl⟩ := hafter
      exact absurd (Text.front_gap (p := Mark.isGap) (m := .bare c) hp ms') hne
    | false => exact ⟨_, shape_of_marks hafter hp fun r hr => hall r (hrest r hr)⟩

theorem Shape.ne_nil (h : Shape rs w) : w ≠ [] := by
  cases h with
  | dash _ _ hw =>
    rintro rfl
    exact absurd hw (by simp)
  | glued hw =>
    obtain ⟨r, d, v, rfl, _⟩ := hw
    simp
  | path _ hp _ hw =>
    rw [hw]
    simpa using inProject_ne_nil hp

theorem Glued.spaced (h : Glued w) : spaced w = true := by
  obtain ⟨r, d, v, rfl, _, _, hd⟩ := h
  rw [ProjectRm.spaced, List.any_append, List.any_cons, spaceMark, hd, Bool.true_or, Bool.or_true]

/-- A first word without white space in it is the `rm` of the check. -/
theorem first_word (hrm : inProjectRm command = true) (h : marks command.toList = some ms)
    (hw : words ms = w :: ws) (hspaced : spaced w = false) : w = [.bare 'r', .bare 'm'] := by
  obtain ⟨rs, hruns, hok, _⟩ := inProjectRm_runs hrm
  have hlead : ∀ d ∈ command.toList.takeWhile parts, parts d = true :=
    fun d hd => List.mem_takeWhile_imp hd
  rw [← List.takeWhile_append_dropWhile (p := parts) (l := command.toList)] at hruns h
  rw [Text.runs_gaps fun d hd => parts_isSpace (hlead d hd)] at hruns
  rw [marks_gaps hlead, Option.map_eq_some_iff] at h
  obtain ⟨ms', hms', rfl⟩ := h
  rw [words, Text.runs_gaps] at hw
  · cases hs : command.toList.dropWhile parts with
    | nil =>
      rw [hs, Text.runs_nil] at hruns
      exact absurd hruns.symm (List.cons_ne_nil _ _)
    | cons c s =>
      have hc : parts c = false := by
        have hn := List.head?_dropWhile_not parts command.toList
        rw [hs] at hn
        exact hn
      rw [hs] at hruns hms'
      have hall : ∀ r ∈ Text.runs isSpace (c :: s), r.head? = some '-' ∨ inProject r = true := by
        rw [hruns]
        intro r hr
        rcases List.mem_cons.1 hr with rfl | hr
        · exact .inr (by decide)
        · exact hok r hr
      have hshape := shape_of_marks hms' hc hall
      have hfront : Text.front Mark.isGap ms' = w := by
        obtain ⟨vs, hvs⟩ := Text.runs_front hshape.ne_nil
        rw [hw, List.cons.injEq] at hvs
        exact hvs.1.symm
      rw [hfront, hruns] at hshape
      cases hshape with
      | dash hr hdash _ =>
        rw [List.head?_cons, Option.mem_some] at hr
        rw [← hr] at hdash
        exact absurd hdash (by decide)
      | glued hg =>
        rw [hg.spaced] at hspaced
        exact absurd hspaced.symm Bool.false_ne_true
      | path hr _ _ hw =>
        rw [List.head?_cons, Option.mem_some] at hr
        rw [hw, ← hr]
        rfl
  · intro m hm
    obtain ⟨d, hd, rfl⟩ := List.mem_map.1 hm
    exact hlead d hd

theorem Glued.reads (h : Glued w) (ht : Reads true w t) :
    ∃ r d u, t = r ++ d :: u ∧ r.head? ≠ some '-' ∧ isSpace d = true := by
  obtain ⟨r, d, v, rfl, hr, hdash, hd⟩ := h
  obtain ⟨u, later, rfl, hu⟩ := Reads.bares_inv (fun c hc => pathChar_isPattern (hr c hc)) ht
  obtain ⟨x, rfl, _⟩ := hu.bare_inv (isSpace_isPattern hd)
  exact ⟨r, d, x, rfl, hdash, hd⟩

theorem Glued.operand (h : Glued w) (ht : Reads true w t) : isOption t = false := by
  obtain ⟨r, d, u, rfl, hdash, hd⟩ := h.reads ht
  apply isOption_of_head
  cases r with
  | nil =>
    intro hc
    rw [List.nil_append, List.head?_cons, Option.some.injEq] at hc
    rw [hc] at hd
    exact absurd hd (by decide)
  | cons c r => exact hdash

theorem text_bares (r : List Char) : text (r.map .bare) = r := by
  induction r with
  | nil => rfl
  | cons c r ih => exact congrArg (c :: ·) ih

theorem spaced_bares {r : List Char} (h : ∀ c ∈ r, pathChar c = true) :
    spaced (r.map .bare) = false := by
  rw [spaced, List.any_eq_false]
  intro m hm
  obtain ⟨c, hc, rfl⟩ := List.mem_map.1 hm
  rw [spaceMark, pathChar_isSpace (h c hc)]
  exact Bool.false_ne_true

theorem dash_reads (h : w.head? = some (.bare '-')) (ht : Reads fresh w t) :
    ∃ u, t = '-' :: u := by
  obtain ⟨v, rfl⟩ := List.head?_eq_some_iff.1 h
  obtain ⟨u, rfl, _⟩ := ht.bare_inv (by decide)
  exact ⟨u, rfl⟩

/-- What the shell can take for an operand is inside where its words are contained. -/
theorem contained_iff (h : Shape rs w) :
    (∀ t, Reads true w t → (isOption t = false ∨ Behind before w) → Inside t) ↔
      Contained before w := by
  rw [Contained]
  cases h with
  | dash _ _ hw =>
    rw [if_pos hw]
    constructor
    · exact fun h hb t ht => h t ht (.inr hb)
    · rintro h t ht (hopt | hb)
      · obtain ⟨u, rfl⟩ := dash_reads hw ht
        have hu : u = [] := by simpa [isOption] using hopt
        rw [hu]
        decide
      · exact h hb t ht
  | glued hw =>
    have hne : w.head? ≠ some (.bare '-') := by
      obtain ⟨r, d, v, rfl, _, hdash, hd⟩ := hw
      cases r with
      | nil =>
        intro hc
        simp at hc
        rw [hc] at hd
        exact absurd hd (by decide)
      | cons c r => simpa using hdash
    rw [if_neg hne, if_pos hw.spaced]
    constructor
    · exact fun h t ht => h t ht (.inl (hw.operand ht))
    · exact fun h t ht _ => h t ht
  | @path r hr hpath hdash hw =>
    subst hw
    have hchars := inProject_pathChar hpath
    have hne : (r.map Mark.bare).head? ≠ some (.bare '-') := by
      rw [List.head?_map]
      intro hc
      obtain ⟨c, hc, he⟩ := Option.map_eq_some_iff.1 hc
      rw [Mark.bare.injEq] at he
      rw [he] at hc
      exact hdash hc
    have hspaced : ¬ spaced (r.map .bare) = true := by
      rw [spaced_bares hchars]
      exact Bool.false_ne_true
    rw [if_neg hne, if_neg hspaced, text_bares, ← inProject_inside hpath]
    constructor
    · intro h
      have hr := reads_text true (r.map .bare)
      rw [text_bares] at hr
      exact h r hr (.inl (isOption_of_head hdash))
    · intro h t ht _
      rw [ht.bares fun c hc => pathChar_isPattern (hchars c hc)]
      exact h

theorem fields_rm (h : Fields [.bare 'r', .bare 'm'] fs) : fs = [['r', 'm']] := by
  have hrm := inProject_pathChar (p := ['r', 'm']) (by decide)
  have hread : ∀ t, Reads true [.bare 'r', .bare 'm'] t → t = ['r', 'm'] :=
    fun t ht => Reads.bares (r := ['r', 'm']) (fun c hc => pathChar_isPattern (hrm c hc)) ht
  cases h with
  | anything h => exact absurd h (by decide)
  | one _ h => rw [hread _ h]
  | files _ h _ _ => exact absurd h (by decide)

theorem operands_rm (args : List (List Char)) :
    (∀ p ∈ operands (['r', 'm'] :: args), Inside p) ↔ ∀ p ∈ operands args, Inside p := by
  have ho : operands (['r', 'm'] :: args) = ['r', 'm'] :: operands args := rfl
  rw [ho, List.forall_mem_cons]
  exact and_iff_right (by decide)

/-- A command with a word of unknown fields has no bound on what it removes. -/
theorem bound_of_inside (h : ∀ fs, Expands ws fs →
    ∃ args, fs = ['r', 'm'] :: args ∧ ∀ p ∈ operands args, Inside p) (hw : w ∈ ws) :
    unbound w = false := by
  cases hu : unbound w with
  | false => rfl
  | true =>
    obtain ⟨pre, post, rfl⟩ := List.append_of_mem hw
    obtain ⟨fs, hfs⟩ := expands_some pre
    obtain ⟨gs, hgs⟩ := expands_some post
    have hroot : Fields w [['/']] := .anything hu
    obtain ⟨args, he, hin⟩ := h _ (hfs.append (.cons hroot hgs))
    cases fs with
    | nil =>
      rw [List.nil_append, List.singleton_append, List.cons.injEq] at he
      exact absurd he.1 (by decide)
    | cons f fs =>
      rw [List.cons_append, List.cons.injEq] at he
      rw [← he.2] at hin
      exact absurd (hin ['/'] (mem_operands.2 ⟨fs, gs, rfl, .inl rfl⟩)) (by decide)

/-- A word that can only stand for `rm` has no white space in it. -/
theorem spaced_of_rm (h : Shape rs w) (ht : text w = ['r', 'm']) : spaced w = false := by
  have hread := reads_text true w
  rw [ht] at hread
  cases h with
  | dash _ _ hw =>
    obtain ⟨u, hu⟩ := dash_reads hw hread
    rw [List.cons.injEq] at hu
    exact absurd hu.1 (by decide)
  | glued hw =>
    obtain ⟨r, d, u, he, _, hd⟩ := hw.reads hread
    have hm : d ∈ ['r', 'm'] := by
      rw [he]
      exact List.mem_append_right r List.mem_cons_self
    rw [pathChar_isSpace (inProject_pathChar (p := ['r', 'm']) (by decide) d hm)] at hd
    exact absurd hd Bool.false_ne_true
  | path _ hp _ hw =>
    rw [hw]
    exact spaced_bares (inProject_pathChar hp)

/-- Beside parentheses and newlines the check leaves the shell nothing to end a command at. -/
theorem ends_of_joins {command : String} (hjoins : joins command.toList = false)
    (h : marks command.toList = some ms)
    (hquiet : ∀ m ∈ body ms, m ≠ .bare '\n' ∧ m ≠ .bare '(' ∧ m ≠ .bare ')') :
    (body ms).any Mark.ends = false := by
  rw [joins, Bool.or_eq_false_iff, List.any_eq_false] at hjoins
  rw [List.any_eq_false]
  intro m hm
  obtain ⟨hline, hopen, hclose⟩ := hquiet m hm
  cases m with
  | bare c =>
    have hc := hjoins.1 c (marks_bare h (Text.mem_of_mem_strip hm))
    simp only [Mark.ends, isOperator, Bool.or_eq_true, beq_iff_eq, not_or] at hc ⊢
    simp only [ne_eq, Mark.bare.injEq] at hline hopen hclose
    obtain ⟨⟨⟨⟨⟨hs, ha⟩, hp⟩, hl⟩, hg⟩, _⟩ := hc
    exact ⟨hline, ⟨⟨⟨⟨⟨hp, ha⟩, hs⟩, hl⟩, hg⟩, hopen⟩, hclose⟩
  | kept c => exact Bool.false_ne_true
  | live c => exact Bool.false_ne_true
  | quote => exact Bool.false_ne_true

/-- A command that the check lets through removes only what lies inside exactly where the shell
reads it as the check does. -/
theorem inProjectRm_exact (hrm : inProjectRm command = true) :
    RemovesInside command ↔ Straight command := by
  constructor
  · rintro ⟨ws, hcmd, hall⟩
    obtain ⟨ms, hms, hends, rfl⟩ := commandOf_eq_some.1 hcmd
    have hbound : ∀ w ∈ words ms, unbound w = false := fun w hw => bound_of_inside hall hw
    have hin : ∀ fs, Expands (words ms) fs → ∀ p ∈ operands fs, Inside p := by
      intro fs hfs
      obtain ⟨args, rfl, hargs⟩ := hall fs hfs
      exact (operands_rm args).2 hargs
    have hcontained := (operands_iff hbound).1 hin
    refine ⟨ms, hms, ?_, hbound, ?_, ?_⟩
    · intro m hm
      have hno := List.any_eq_false.1 hends m hm
      refine ⟨?_, ?_, ?_⟩
      · exact fun he => hno (by rw [he]; rfl)
      · exact fun he => hno (by rw [he]; rfl)
      · exact fun he => hno (by rw [he]; rfl)
    · cases hw : words ms with
      | nil =>
        rw [hw] at hall
        obtain ⟨args, he, _⟩ := hall [] .nil
        exact absurd he.symm (List.cons_ne_nil _ _)
      | cons w ws =>
        refine ⟨w, ws, rfl, ?_⟩
        have hmem : w ∈ words ms := by
          rw [hw]
          exact List.mem_cons_self
        obtain ⟨rs, hshape⟩ := shape_of_word hrm hms hmem
        obtain ⟨gs, hgs⟩ := expands_some ws
        rw [hw] at hall
        obtain ⟨args, he, _⟩ :=
          hall _ (.cons (.one (hbound w hmem) (reads_text true w)) hgs)
        rw [List.singleton_append, List.cons.injEq] at he
        exact spaced_of_rm hshape he.1
    · intro before w after hw
      obtain ⟨rs, hshape⟩ := shape_of_word hrm hms (w := w) (by simp [hw])
      exact (contained_iff hshape).1 fun t ht hopt => hcontained before w after t hw ht hopt
  · rintro ⟨ms, hms, hquiet, hbound, ⟨w, ws, hw, hspaced⟩, hcontained⟩
    obtain ⟨_, _, _, hjoins⟩ := inProjectRm_runs hrm
    have hends := ends_of_joins hjoins hms hquiet
    refine ⟨words ms, commandOf_eq_some.2 ⟨ms, hms, hends, rfl⟩, fun fs hfs => ?_⟩
    have hin : ∀ p ∈ operands fs, Inside p := by
      refine (operands_iff (P := Inside) hbound).2 ?_ fs hfs
      intro before w after t hw ht hopt
      obtain ⟨rs, hshape⟩ := shape_of_word hrm hms (w := w) (by simp [hw])
      exact (contained_iff hshape).2 (hcontained before w after hw) t ht hopt
    have hfirst := first_word hrm hms hw hspaced
    rw [hw, hfirst] at hfs
    cases hfs with
    | cons hf hgs =>
      rw [fields_rm hf] at hin ⊢
      exact ⟨_, rfl, (operands_rm _).1 hin⟩

theorem inProjectRm_exact_target : inProjectRm "rm -rf target/ ./dist" = true ∧
    (RemovesInside "rm -rf target/ ./dist" ↔ Straight "rm -rf target/ ./dist") :=
  ⟨by rfl, inProjectRm_exact (by rfl)⟩

/-- The second line of a command runs as a command of its own. -/
theorem inProjectRm_passes_second_line : inProjectRm "rm a\ngit push --force" = true ∧
    ¬ RemovesInside "rm a\ngit push --force" := by
  constructor
  · rfl
  · rintro ⟨ws, h, _⟩
    have hn : commandOf "rm a\ngit push --force".toList = none := by rfl
    rw [hn] at h
    exact absurd h (by simp)

end LocalMind.ProjectRm
