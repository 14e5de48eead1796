import LocalMind.Json.Commented
import LocalMind.Text.Str

namespace LocalMind.Switcher
open Json Text
set_option autoImplicit true

/-! JSON with comments and trailing commas. -/

/-- Where the first pass stands: outside strings, in a string, or in a comment with the character
before. -/
inductive Mode where
  | code
  | str
  | line
  | block (prev : Char)

/-- The first pass of `strip_jsonc`. -/
def stripComments : Mode → List Char → List Char
  | .str, '\\' :: n :: t => '\\' :: n :: stripComments .str t
  | .str, c :: t => c :: stripComments (if c = '"' then .code else .str) t
  | .code, '/' :: '/' :: t => stripComments .line t
  | .code, '/' :: '*' :: t => stripComments (.block (Char.ofNat 0)) t
  | .code, c :: t => c :: stripComments (if c = '"' then .str else .code) t
  | .line, '\n' :: t => '\n' :: stripComments .code t
  | .line, _ :: t => stripComments .line t
  | .block prev, n :: t =>
    if prev = '*' ∧ n = '/' then ' ' :: stripComments .code t else stripComments (.block n) t
  | .block _, [] => [' ']
  | _, [] => []

/-- The first character that is no whitespace closes a container. -/
def closesNext (t : List Char) : Bool :=
  match t.dropWhile isWhitespace with
  | c :: _ => c == '}' || c == ']'
  | [] => false

def removeTrailingCommas : Bool → List Char → List Char
  | true, '\\' :: n :: t => '\\' :: n :: removeTrailingCommas true t
  | true, c :: t => c :: removeTrailingCommas (c != '"') t
  | false, ',' :: t =>
    if closesNext t then removeTrailingCommas false t else ',' :: removeTrailingCommas false t
  | false, c :: t => c :: removeTrailingCommas (c == '"') t
  | _, [] => []

def stripJsonc (src : List Char) : List Char :=
  removeTrailingCommas false (stripComments .code src)

def parseJsonc (codec : FloatCodec) (src : List Char) : Option Value :=
  fromStr codec (stripJsonc src)

/-- The first pass makes `y` of `x`, whatever follows. -/
def Strips (x y : List Char) : Prop :=
  ∀ r, stripComments .code (x ++ r) = y ++ stripComments .code r

/-- The second pass makes `y` of `x`, whatever follows. -/
def Keeps (x y : List Char) : Prop :=
  ∀ r, removeTrailingCommas false (x ++ r) = y ++ removeTrailingCommas false r

theorem Strips.append (h : Strips x y) (h' : Strips x' y') : Strips (x ++ x') (y ++ y') := by
  intro r
  rw [List.append_assoc, h, h', List.append_assoc]

theorem Keeps.append (h : Keeps x y) (h' : Keeps x' y') : Keeps (x ++ x') (y ++ y') := by
  intro r
  rw [List.append_assoc, h, h', List.append_assoc]

theorem strips_nil : Strips [] [] := fun _ => rfl

theorem keeps_nil : Keeps [] [] := fun _ => rfl

attribute [local simp] stripComments in
theorem stripComments_plain (h : c ≠ '"') (h' : c ≠ '/') (t : List Char) :
    stripComments .code (c :: t) = c :: stripComments .code t := by
  rw [stripComments]
  · rw [if_neg h]
  · intro u he
    exact absurd he h'
  · intro u he
    exact absurd he h'

theorem strips_plain {x : List Char} (h : ∀ c ∈ x, c ≠ '"' ∧ c ≠ '/') : Strips x x := by
  induction x with
  | nil => exact strips_nil
  | cons c x ih =>
    intro r
    obtain ⟨hq, hs⟩ := h c List.mem_cons_self
    rw [List.cons_append, stripComments_plain hq hs, ih fun d hd => h d (List.mem_cons_of_mem c hd)]
    rfl

attribute [local simp] removeTrailingCommas in
theorem removeTrailingCommas_plain (h : c ≠ '"') (h' : c ≠ ',') (t : List Char) :
    removeTrailingCommas false (c :: t) = c :: removeTrailingCommas false t := by
  rw [removeTrailingCommas]
  · rw [beq_false_of_ne h]
  · exact h'

theorem keeps_plain {x : List Char} (h : ∀ c ∈ x, c ≠ '"' ∧ c ≠ ',') : Keeps x x := by
  induction x with
  | nil => exact keeps_nil
  | cons c x ih =>
    intro r
    obtain ⟨hq, hs⟩ := h c List.mem_cons_self
    rw [List.cons_append, removeTrailingCommas_plain hq hs,
      ih fun d hd => h d (List.mem_cons_of_mem c hd)]
    rfl

theorem stripComments_str (h : QuoteFree s) (r : List Char) :
    stripComments .str (s ++ '"' :: r) = s ++ '"' :: stripComments .code r := by
  induction h with
  | nil =>
    rw [List.nil_append, stripComments]
    · rw [if_pos rfl]
      rfl
    · intro n t he
      cases he
  | @plain c s h₁ h₂ _ _ ih =>
    rw [List.cons_append, stripComments]
    · rw [if_neg h₁, ih]
      rfl
    · intro n t he
      exact absurd he h₂
  | escaped c _ ih =>
    rw [List.cons_append, List.cons_append, stripComments, ih]
    rfl

theorem strips_string (h : QuoteFree s) : Strips ('"' :: s ++ ['"']) ('"' :: s ++ ['"']) := by
  intro r
  have happ : '"' :: s ++ ['"'] ++ r = '"' :: (s ++ '"' :: r) := by simp
  rw [happ, stripComments]
  · rw [if_pos rfl, stripComments_str h]
    simp
  · intro t he
    cases he
  · intro t he
    cases he

theorem removeTrailingCommas_str (h : QuoteFree s) (r : List Char) :
    removeTrailingCommas true (s ++ '"' :: r) = s ++ '"' :: removeTrailingCommas false r := by
  induction h with
  | nil =>
    rw [List.nil_append, removeTrailingCommas]
    · rfl
    · intro n t he
      cases he
  | @plain c s h₁ h₂ _ _ ih =>
    rw [List.cons_append, removeTrailingCommas]
    · rw [bne_iff_ne.2 h₁, ih]
      rfl
    · intro n t he
      exact absurd he h₂
  | escaped c _ ih =>
    rw [List.cons_append, List.cons_append, removeTrailingCommas, ih]
    rfl

theorem keeps_string (h : QuoteFree s) : Keeps ('"' :: s ++ ['"']) ('"' :: s ++ ['"']) := by
  intro r
  have happ : '"' :: s ++ ['"'] ++ r = '"' :: (s ++ '"' :: r) := by simp
  rw [happ, removeTrailingCommas]
  · change '"' :: removeTrailingCommas true _ = _
    rw [removeTrailingCommas_str h]
    simp
  · intro he
    cases he

theorem isWs_plain (h : isWs c = true) :
    c ≠ '"' ∧ c ≠ '/' ∧ c ≠ ',' ∧ isWhitespace c = true := by
  simp only [isWs, Bool.or_eq_true, beq_iff_eq] at h
  rcases h with ((rfl | rfl) | rfl) | rfl
  all_goals decide

theorem strips_ws (hw : AllWs w) : Strips w w := by
  apply strips_plain
  intro c hc
  obtain ⟨hq, hs, -⟩ := isWs_plain (hw c hc)
  exact ⟨hq, hs⟩

theorem keeps_ws (hw : AllWs w) : Keeps w w := by
  apply keeps_plain
  intro c hc
  obtain ⟨hq, -, hs, -⟩ := isWs_plain (hw c hc)
  exact ⟨hq, hs⟩

theorem closesNext_ws (hw : AllWs w) (t : List Char) : closesNext (w ++ t) = closesNext t := by
  rw [closesNext, closesNext, List.dropWhile_append_of_pos]
  intro c hc
  exact (isWs_plain (hw c hc)).2.2.2

theorem stripComments_line (h : '\n' ∉ s) (r : List Char) :
    stripComments .line (s ++ '\n' :: r) = '\n' :: stripComments .code r := by
  induction s with
  | nil => rw [List.nil_append, stripComments]
  | cons c s ih =>
    rw [List.cons_append, stripComments]
    · exact ih fun hmem => h (List.mem_cons_of_mem c hmem)
    · rintro rfl
      exact h List.mem_cons_self

theorem stripComments_lastLine (h : '\n' ∉ s) : stripComments .line s = [] := by
  induction s with
  | nil => rfl
  | cons c s ih =>
    rw [stripComments]
    · exact ih fun hmem => h (List.mem_cons_of_mem c hmem)
    · rintro rfl
      exact h List.mem_cons_self

theorem stripComments_block (h : ¬ ['*', '/'] <:+: p :: s) (r : List Char) :
    stripComments (.block p) (s ++ '*' :: '/' :: r) = ' ' :: stripComments .code r := by
  induction s generalizing p with
  | nil =>
    rw [List.nil_append, stripComments, if_neg, stripComments, if_pos ⟨rfl, rfl⟩]
    rintro ⟨-, he⟩
    cases he
  | cons c s ih =>
    rw [List.cons_append, stripComments, if_neg]
    · exact ih fun hin => h (List.infix_cons hin)
    · rintro ⟨rfl, rfl⟩
      exact h ⟨[], s, rfl⟩

/-- Trivia become whitespace. -/
theorem strips_trivia (h : Trivia g) : ∃ w, AllWs w ∧ Strips g w := by
  induction h with
  | nil => exact ⟨[], allWs_nil, strips_nil⟩
  | @space c g hc _ ih =>
    obtain ⟨w, hw, hs⟩ := ih
    have hc' : AllWs [c] := by
      intro d hd
      rw [List.mem_singleton.1 hd]
      exact hc
    exact ⟨[c] ++ w, hc'.append hw, (strips_ws hc').append hs⟩
  | @line s g hs _ ih =>
    obtain ⟨w, hw, hg⟩ := ih
    refine ⟨['\n'] ++ w, ?_, ?_⟩
    · apply AllWs.append _ hw
      intro d hd
      rw [List.mem_singleton.1 hd]
      rfl
    · intro r
      have happ : '/' :: '/' :: s ++ '\n' :: g ++ r = '/' :: '/' :: (s ++ '\n' :: (g ++ r)) := by
        simp
      rw [happ, stripComments, stripComments_line hs, hg]
      rfl
  | @block s g hs _ ih =>
    obtain ⟨w, hw, hg⟩ := ih
    refine ⟨[' '] ++ w, ?_, ?_⟩
    · apply AllWs.append _ hw
      intro d hd
      rw [List.mem_singleton.1 hd]
      rfl
    · intro r
      have happ : '/' :: '*' :: s ++ '*' :: '/' :: g ++ r =
          '/' :: '*' :: (s ++ '*' :: '/' :: (g ++ r)) := by simp
      have hstart : ¬ ['*', '/'] <:+: Char.ofNat 0 :: s := by
        intro hin
        obtain ⟨t, ht⟩ | hin := List.infix_cons_iff.1 hin
        · cases (List.cons.inj ht).1
        · exact hs hin
      rw [happ, stripComments, stripComments_block hstart, hg]
      rfl

/-- A text that neither closes a container nor starts with whitespace. -/
def Opens (m : List Char) : Prop :=
  ∃ c u, m = c :: u ∧ isWhitespace c = false ∧ c ≠ '}' ∧ c ≠ ']'

theorem closesNext_opens (h : Opens m) (hw : AllWs w) (r : List Char) :
    closesNext (w ++ m ++ r) = false := by
  obtain ⟨c, u, rfl, hc, hbrace, hbracket⟩ := h
  rw [List.append_assoc, closesNext_ws hw, closesNext, List.cons_append,
    List.dropWhile_cons_of_neg (by rw [hc]; exact Bool.false_ne_true)]
  dsimp only
  rw [beq_false_of_ne hbrace, beq_false_of_ne hbracket]
  rfl

theorem closesNext_close (hc : IsClose c) (hw : AllWs w) (r : List Char) :
    closesNext (w ++ c :: r) = true := by
  rw [closesNext_ws hw]
  rcases hc with rfl | rfl
  · rfl
  · rfl

/-- The two passes make `s` of `t`. -/
def Stripped (t s : List Char) : Prop := ∃ m, Strips t m ∧ Keeps m s ∧ Opens m

theorem isNumChar_plain (h : isNumChar c = true) :
    c ≠ '"' ∧ c ≠ '/' ∧ c ≠ ',' ∧ c ≠ '}' ∧ c ≠ ']' ∧ isWhitespace c = false := by
  rw [isNumChar] at h
  simp only [Bool.or_eq_true, beq_iff_eq] at h
  rcases h with ((((h | rfl) | rfl) | rfl) | rfl) | rfl
  · have hrange : 48 ≤ c.toNat ∧ c.toNat ≤ 57 := by
      rw [Char.isDigit, Bool.and_eq_true, decide_eq_true_iff, decide_eq_true_iff] at h
      exact h
    refine ⟨?_, ?_, ?_, ?_, ?_, ?_⟩
    · rintro rfl
      revert hrange
      decide
    · rintro rfl
      revert hrange
      decide
    · rintro rfl
      revert hrange
      decide
    · rintro rfl
      revert hrange
      decide
    · rintro rfl
      revert hrange
      decide
    · simp only [isWhitespace, Bool.or_eq_false_iff, decide_eq_false_iff_not, beq_eq_false_iff_ne]
      omega
  all_goals decide

theorem stripped_plain {t : List Char} (h : ∀ c ∈ t, c ≠ '"' ∧ c ≠ '/' ∧ c ≠ ',')
    (ht : Opens t) : Stripped t t := by
  refine ⟨t, ?_, ?_, ht⟩
  · apply strips_plain
    intro c hc
    exact ⟨(h c hc).1, (h c hc).2.1⟩
  · apply keeps_plain
    intro c hc
    exact ⟨(h c hc).1, (h c hc).2.2⟩

theorem stripped_leaf {h : Handlers α} (ht : LeafText h t a) : Stripped t t := by
  cases ht with
  | null => exact stripped_plain (by simp) ⟨_, _, rfl, by decide, by decide, by decide⟩
  | true => exact stripped_plain (by simp) ⟨_, _, rfl, by decide, by decide, by decide⟩
  | false => exact stripped_plain (by simp) ⟨_, _, rfl, by decide, by decide, by decide⟩
  | str hs hf =>
    exact ⟨_, strips_string hf, keeps_string hf, _, _, rfl, by decide, by decide, by decide⟩
  | num hl ha =>
    apply stripped_plain
    · intro c hc
      obtain ⟨hq, hs, hcomma, -⟩ := isNumChar_plain (hl.chars c hc)
      exact ⟨hq, hs, hcomma⟩
    · obtain ⟨c, u, he, -⟩ := hl.head
      obtain ⟨-, -, -, hbrace, hbracket, hw⟩ := isNumChar_plain
        (hl.chars c (by rw [he]; exact List.mem_cons_self))
      exact ⟨c, u, he, hw, hbrace, hbracket⟩

section
variable {R S : List Char → List Char → α → Prop}

/-- The items of a container, before what closes it. -/
theorem stripped_items (hR : ∀ t t' a, R t t' a → ∃ s, Stripped t' s ∧ S t s a)
    (h : PairedItems decorated R b b' as) : ∃ m s, Strips b' m ∧
      (∃ w o u, m = w ++ o ++ u ∧ AllWs w ∧ Opens o) ∧
      (∀ c r, IsClose c → removeTrailingCommas false (m ++ c :: r) =
        s ++ removeTrailingCommas false (c :: r)) ∧
      PairedItems respaced S b s as := by
  induction h with
  | @last w g t t' a k k' x x' hw ht hk hx =>
    obtain ⟨s, ⟨m, hm, hkeep, hopens⟩, hs⟩ := hR _ _ _ ht
    obtain ⟨v, hv, hvs⟩ := strips_trivia hw.2
    obtain ⟨u, hu, hus⟩ := strips_trivia hk.2
    obtain ⟨rfl, rfl | ⟨e, he, rfl⟩⟩ := hx
    · refine ⟨v ++ m ++ u, v ++ s ++ u, ?_, ⟨v, m, u, rfl, hv, hopens⟩, ?_, ?_⟩
      · rw [List.append_nil]
        exact (hvs.append hm).append hus
      · intro c r _
        exact ((keeps_ws hv).append hkeep).append (keeps_ws hu) (c :: r)
      · have hitems : PairedItems respaced S (w ++ t ++ k ++ []) (v ++ s ++ u ++ []) [a] :=
          .last ⟨hw.1, hv⟩ hs ⟨hk.1, hu⟩ ⟨rfl, rfl⟩
        rw [List.append_nil (v ++ s ++ u)] at hitems
        exact hitems
    · obtain ⟨f, hf, hfs⟩ := strips_trivia he
      refine ⟨v ++ m ++ u ++ ',' :: f, v ++ s ++ (u ++ f), ?_,
        ⟨v, m, u ++ ',' :: f, by simp, hv, hopens⟩, ?_, ?_⟩
      · have hcomma : Strips [','] [','] := strips_plain (by simp)
        exact ((hvs.append hm).append hus).append (hcomma.append hfs)
      · intro c r hc
        have hkept := ((keeps_ws hv).append hkeep).append (keeps_ws hu) (',' :: f ++ c :: r)
        rw [List.append_assoc, hkept, List.cons_append, removeTrailingCommas,
          if_pos (closesNext_close hc hf r), keeps_ws hf]
        simp
      · have hitems : PairedItems respaced S (w ++ t ++ k ++ []) (v ++ s ++ (u ++ f) ++ []) [a] :=
          .last ⟨hw.1, hv⟩ hs ⟨hk.1, hu.append hf⟩ ⟨rfl, rfl⟩
        rw [List.append_nil (v ++ s ++ (u ++ f))] at hitems
        exact hitems
  | @cons w g t t' a k k' b b' as hw ht hk _ ih =>
    obtain ⟨s, ⟨m, hm, hkeep, hopens⟩, hs⟩ := hR _ _ _ ht
    obtain ⟨v, hv, hvs⟩ := strips_trivia hw.2
    obtain ⟨u, hu, hus⟩ := strips_trivia hk.2
    obtain ⟨n, s', hn, ⟨w', o, x, rfl, hw', ho⟩, hclose, hrest⟩ := ih
    refine ⟨v ++ m ++ u ++ ',' :: (w' ++ o ++ x), v ++ s ++ u ++ ',' :: s', ?_,
      ⟨v, m, u ++ ',' :: (w' ++ o ++ x), by simp, hv, hopens⟩, ?_,
      .cons ⟨hw.1, hv⟩ hs ⟨hk.1, hu⟩ hrest⟩
    · have hcomma : Strips [','] [','] := strips_plain (by simp)
      exact ((hvs.append hm).append hus).append (hcomma.append hn)
    · intro c r hc
      have hkept := ((keeps_ws hv).append hkeep).append (keeps_ws hu)
        (',' :: (w' ++ o ++ x) ++ c :: r)
      have hnext : closesNext (w' ++ o ++ x ++ c :: r) = false := by
        have := closesNext_opens ho hw' (x ++ c :: r)
        rw [List.append_assoc (w' ++ o)]
        exact this
      rw [List.append_assoc, hkept, List.cons_append, removeTrailingCommas, if_neg, hclose c r hc]
      · simp
      · rw [hnext]
        exact Bool.false_ne_true

theorem stripped_body (hR : ∀ t t' a, R t t' a → ∃ s, Stripped t' s ∧ S t s a)
    (h : PairedBody decorated R b b' as) : ∃ m s, Strips b' m ∧
      (∀ c r, IsClose c → removeTrailingCommas false (m ++ c :: r) =
        s ++ removeTrailingCommas false (c :: r)) ∧
      PairedBody respaced S b s as := by
  cases h with
  | empty hw =>
    obtain ⟨v, hv, hvs⟩ := strips_trivia hw.2
    exact ⟨v, v, hvs, fun c r _ => keeps_ws hv (c :: r), .empty ⟨hw.1, hv⟩⟩
  | items hi =>
    obtain ⟨m, s, hm, -, hclose, hs⟩ := stripped_items hR hi
    exact ⟨m, s, hm, hclose, .items hs⟩

theorem stripped_entry (hR : ∀ t t' a, R t t' a → ∃ s, Stripped t' s ∧ S t s a)
    (h : PairedEntry decorated esc R t t' e) :
    ∃ s, Stripped t' s ∧ PairedEntry respaced esc S t s e := by
  cases h with
  | @mk key x w g k k' t t' v hkey hfree hw hk ht =>
    obtain ⟨s, ⟨m, hm, hkeep, -⟩, hs⟩ := hR _ _ _ ht
    obtain ⟨y, hy, hys⟩ := strips_trivia hw.2
    obtain ⟨z, hz, hzs⟩ := strips_trivia hk.2
    have hcolon : Strips [':'] [':'] := strips_plain (by simp)
    have hcolon' : Keeps [':'] [':'] := keeps_plain (by simp)
    have hstrips := (((strips_string hfree).append hys).append (hcolon.append hzs)).append hm
    have hkeeps := (((keeps_string hfree).append (keeps_ws hy)).append
      (hcolon'.append (keeps_ws hz))).append hkeep
    refine ⟨'"' :: key ++ '"' :: y ++ ':' :: z ++ s,
      ⟨'"' :: key ++ '"' :: y ++ ':' :: z ++ m, ?_, ?_, '"', key ++ '"' :: y ++ ':' :: z ++ m, rfl,
        by decide, by decide, by decide⟩, .mk hkey hfree ⟨hw.1, hy⟩ ⟨hk.1, hz⟩ hs⟩
    · simpa using hstrips
    · simpa using hkeeps

end

theorem stripped_container (hc : IsClose c) (ho : o ≠ '"' ∧ o ≠ '/' ∧ o ≠ ',' ∧ o ≠ '}' ∧ o ≠ ']' ∧
    isWhitespace o = false) {b m s : List Char} (hm : Strips b m)
    (hs : ∀ r, removeTrailingCommas false (m ++ c :: r) =
      s ++ removeTrailingCommas false (c :: r)) :
    Stripped (o :: b ++ [c]) (o :: s ++ [c]) := by
  obtain ⟨hquote, hslash, hcomma, hbrace, hbracket, hspace⟩ := ho
  have hclose : c ≠ '"' ∧ c ≠ '/' ∧ c ≠ ',' := by
    rcases hc with rfl | rfl
    · decide
    · decide
  have hopen : Strips [o] [o] := strips_plain (by simp [hquote, hslash])
  have hend : Strips [c] [c] := strips_plain (by simp [hclose])
  refine ⟨o :: m ++ [c], (hopen.append hm).append hend, ?_, o, m ++ [c], rfl, hspace, hbrace,
    hbracket⟩
  intro r
  have happ : o :: m ++ [c] ++ r = o :: (m ++ c :: r) := by simp
  rw [happ, removeTrailingCommas_plain hquote hcomma, hs,
    removeTrailingCommas_plain hclose.1 hclose.2.2]
  simp

/-- The stripped text of a value has its tokens. -/
theorem stripped_value {h : Handlers α} (ht : Paired decorated h d t t' a) :
    ∃ s, Stripped t' s ∧ Paired respaced h d t s a := by
  induction d generalizing t t' a with
  | zero =>
    obtain ⟨rfl, ht⟩ := ht
    exact ⟨t, stripped_leaf ht, rfl, ht⟩
  | succ d ih =>
    have hvalue : ∀ t t' a, Paired decorated h d t t' a →
        ∃ s, Stripped t' s ∧ Paired respaced h d t s a := fun _ _ _ hv => ih hv
    obtain ⟨rfl, ht⟩ | ⟨b, b', as, hb, rfl, rfl, rfl⟩ | ⟨b, b', es, hb, rfl, rfl, rfl⟩ := ht
    · exact ⟨t, stripped_leaf ht, .inl ⟨rfl, ht⟩⟩
    · obtain ⟨m, s, hm, hclose, hs⟩ := stripped_body hvalue hb
      refine ⟨'[' :: s ++ [']'], ?_, .inr (.inl ⟨b, s, as, hs, rfl, rfl, rfl⟩)⟩
      exact stripped_container (.inl rfl) (by decide) hm fun r => hclose ']' r (.inl rfl)
    · have hentry : ∀ t t' e, PairedEntry decorated h.esc (Paired decorated h d) t t' e →
          ∃ s, Stripped t' s ∧ PairedEntry respaced h.esc (Paired respaced h d) t s e :=
        fun _ _ _ he => stripped_entry hvalue he
      obtain ⟨m, s, hm, hclose, hs⟩ := stripped_body hentry hb
      refine ⟨'{' :: s ++ ['}'], ?_, .inr (.inr ⟨b, s, es, hs, rfl, rfl, rfl⟩)⟩
      exact stripped_container (.inr rfl) (by decide) hm fun r => hclose '}' r (.inr rfl)

theorem stripComments_ending (h : Ending e) : AllWs (stripComments .code e) := by
  cases h with
  | trivia hg =>
    obtain ⟨w, hw, hs⟩ := strips_trivia hg
    have he := hs []
    rw [List.append_nil] at he
    rw [he]
    change AllWs (w ++ [])
    rw [List.append_nil]
    exact hw
  | @line g s hg hs =>
    obtain ⟨w, hw, hgs⟩ := strips_trivia hg
    rw [hgs, stripComments, stripComments_lastLine hs, List.append_nil]
    exact hw

/-- Stripping leaves a text of the same value, with the same tokens and only whitespace between
them. -/
theorem stripJsonc_respaced (h : Decorated codec t t' v) :
    fromStr codec t = some v ∧ Respaced codec t (stripJsonc t') v ∧
      parseJsonc codec t' = some v := by
  have hstripped : Respaced codec t (stripJsonc t') v := by
    obtain ⟨w, tok, k, g, tok', e, rfl, rfl, hw, hk, hg, he, ht⟩ := h
    obtain ⟨s, ⟨m, hm, hkeep, -⟩, hs⟩ := stripped_value ht
    obtain ⟨u, hu, hus⟩ := strips_trivia hg
    have hend := stripComments_ending he
    have hkept := keeps_ws hend []
    refine ⟨w, tok, k, u, s, stripComments .code e, rfl, ?_, hw, hk, hu, hend, hs⟩
    rw [stripJsonc, (hus.append hm), ((keeps_ws hu).append hkeep)]
    rw [List.append_nil] at hkept
    rw [hkept]
    simp [removeTrailingCommas]
  exact ⟨h.fromStr, hstripped, hstripped.fromStr⟩

/-- `{"a":"//,]"}` with a comment before it, one before a trailing comma, and one behind it. -/
theorem stripJsonc_respaced_commented :
    fromStr integersOnly "\x7b\"a\":\"//,]\"\x7d".toList =
        some (.object [("a", .string "//,]")]) ∧
      Respaced integersOnly "\x7b\"a\":\"//,]\"\x7d".toList
        (stripJsonc "//,\n\x7b\"a\":\"//,]\"/*\x7d*/, \x7d//".toList)
        (.object [("a", .string "//,]")]) ∧
      parseJsonc integersOnly "//,\n\x7b\"a\":\"//,]\"/*\x7d*/, \x7d//".toList =
        some (.object [("a", .string "//,]")]) := by
  apply stripJsonc_respaced
  have hkey : Json.Plain ['a'] := by decide
  have hvalue : Json.Plain ['/', '/', ',', ']'] := by decide
  have hspace : Trivia [' '] := .space rfl .nil
  have hblock : Trivia ('/' :: '*' :: ['\x7d'] ++ '*' :: '/' :: []) := .block (by decide) .nil
  have hline : Trivia ('/' :: '/' :: [','] ++ '\n' :: []) := .line (by decide) .nil
  have hleaf : LeafText (valueHandlers integersOnly) ('"' :: ['/', '/', ',', ']'] ++ ['"'])
      (.string (String.ofList ['/', '/', ',', ']'])) := .str hvalue.strBody hvalue.quoteFree
  have hgap : decorated.gap [] [] := ⟨allWs_nil, .nil⟩
  have htok : Paired decorated (valueHandlers integersOnly) 126 _ _ _ := .inl ⟨rfl, hleaf⟩
  have hentry : PairedEntry decorated (valueHandlers integersOnly).esc _ _ _ _ :=
    .mk hkey.strBody hkey.quoteFree hgap hgap htok
  have hitems : PairedItems decorated _ _ _ _ :=
    .last hgap hentry ⟨allWs_nil, hblock⟩ ⟨rfl, .inr ⟨_, hspace, rfl⟩⟩
  refine ⟨[], _, [], _, _, _, ?_, ?_, allWs_nil, allWs_nil, hline, .line (s := []) .nil (by decide),
    .inr (.inr ⟨_, _, _, .items hitems, rfl, rfl, ?_⟩)⟩
  · decide
  · decide
  · rfl

end LocalMind.Switcher
