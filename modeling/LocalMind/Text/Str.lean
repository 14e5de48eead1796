import LocalMind.Text.Utf8

namespace Text
set_option autoImplicit true

/-- The characters with the Unicode property White_Space. -/
def isWhitespace (c : Char) : Bool :=
  let n := c.toNat
  decide (0x09 ≤ n ∧ n ≤ 0x0D) || n == 0x20 || n == 0x85 || n == 0xA0 || n == 0x1680 ||
    decide (0x2000 ≤ n ∧ n ≤ 0x200A) || n == 0x2028 || n == 0x2029 || n == 0x202F ||
    n == 0x205F || n == 0x3000

def trimStart (s : List Char) : List Char := s.dropWhile isWhitespace

def trimEnd (s : List Char) : List Char := s.rdropWhile isWhitespace

def trim (s : List Char) : List Char := trimEnd (trimStart s)

/-- The text before a line feed, less a carriage return right before it. -/
def stripCR (line : List Char) : List Char :=
  if line.getLast? = some '\r' then line.dropLast else line

/-- The lines of a text whose first line starts with `cur`. -/
def linesFrom (cur : List Char) : List Char → List (List Char)
  | [] => if cur.isEmpty then [] else [cur]
  | c :: cs => if c = '\n' then stripCR cur :: linesFrom [] cs else linesFrom (cur ++ [c]) cs

def lines (s : List Char) : List (List Char) := linesFrom [] s

/-- The pieces between blank lines, of a text whose first piece starts with `cur`. -/
def splitBlankFrom (cur : List Char) : List Char → List (List Char)
  | '\n' :: '\n' :: cs => cur :: splitBlankFrom [] cs
  | c :: cs => splitBlankFrom (cur ++ [c]) cs
  | [] => [cur]

/-- `split("\n\n")`. -/
def splitBlank (s : List Char) : List (List Char) := splitBlankFrom [] s

/-- A text occurs in another. -/
def contains (s pat : List Char) : Bool := s.tails.any pat.isPrefixOf

/-- The text before the first place where a pattern stands, and the text after it. -/
def splitOnce (pat : List Char) : List Char → Option (List Char × List Char)
  | [] => if pat.isEmpty then some ([], []) else none
  | c :: t =>
    if pat.isPrefixOf (c :: t) then some ([], (c :: t).drop pat.length)
    else (splitOnce pat t).map fun r => (c :: r.1, r.2)

def toAsciiLower (s : List Char) : List Char := s.map Char.toLower

/-- The windows of `n` symbols. -/
def windows (n : Nat) : List α → List (List α)
  | [] => []
  | a :: as => if n ≤ (a :: as).length then (a :: as).take n :: windows n as else []

theorem splitOnce_eq_some {pat s : List Char} (h : splitOnce pat s = some (before, after)) :
    s = before ++ pat ++ after := by
  induction s generalizing before with
  | nil =>
    rw [splitOnce] at h
    split at h
    · next hp =>
      cases h
      rw [List.isEmpty_iff.1 hp]
      rfl
    · cases h
  | cons c t ih =>
    rw [splitOnce] at h
    split at h
    · next hp =>
      cases h
      exact (List.prefix_iff_eq_append.1 (List.isPrefixOf_iff_prefix.1 hp)).symm
    · obtain ⟨⟨b, a⟩, hr, hq⟩ := Option.map_eq_some_iff.1 h
      cases hq
      rw [ih hr]
      rfl

/-- A text is cut once at its first mark. -/
theorem splitOnce_mark (h : c ∉ s) (t : List Char) : splitOnce [c] (s ++ c :: t) = some (s, t) := by
  induction s with
  | nil =>
    rw [List.nil_append, splitOnce, if_pos (by simp)]
    rfl
  | cons d s ih =>
    obtain ⟨hd, hs⟩ := List.ne_and_not_mem_of_not_mem_cons h
    have hno : ¬ [c].isPrefixOf (d :: (s ++ c :: t)) = true := by simpa using hd
    rw [List.cons_append, splitOnce, if_neg hno, ih hs]
    rfl

/-- A text is cut at a word whose first symbol is not in the rest of the word. -/
theorem splitOnce_led {u s : List Char} (hc : c ∉ u) (h : ¬ (c :: u) <:+: s) (t : List Char) :
    splitOnce (c :: u) (s ++ (c :: u ++ t)) = some (s, t) := by
  induction s with
  | nil =>
    have hword : (c :: u).isPrefixOf (c :: (u ++ t)) = true :=
      List.isPrefixOf_iff_prefix.2 (List.prefix_append (c :: u) t)
    rw [List.nil_append, List.cons_append, splitOnce, if_pos hword, ← List.cons_append,
      List.drop_left]
  | cons d s ih =>
    have hs : ¬ (c :: u) <:+: s := fun hin => h (hin.trans (List.suffix_cons d s).isInfix)
    have hno : ¬ (c :: u).isPrefixOf (d :: (s ++ (c :: u ++ t))) = true := by
      intro hword
      obtain hshort | hlong := List.prefix_or_prefix_of_prefix
        (List.isPrefixOf_iff_prefix.1 hword) (List.prefix_append (d :: s) (c :: u ++ t))
      · exact h hshort.isInfix
      · obtain ⟨v, hv⟩ := hlong
        have hle := (List.isPrefixOf_iff_prefix.1 hword)
        rw [← hv, ← List.cons_append, List.prefix_append_right_inj] at hle
        obtain rfl | ⟨w, rfl⟩ : v = [] ∨ ∃ w, v = c :: w := by
          cases v with
          | nil => exact .inl rfl
          | cons e w =>
            obtain ⟨he, -⟩ := List.cons_prefix_cons.1 hle
            exact .inr ⟨w, congrArg (· :: w) (he.trans (List.cons.inj hv).1)⟩
        · rw [List.append_nil] at hv
          exact h (hv ▸ List.infix_rfl)
        · obtain ⟨-, rfl⟩ := List.cons.inj hv
          exact hc (by simp)
    rw [List.cons_append, splitOnce, if_neg hno, ih hs]
    rfl

theorem splitOnce_mark_notMem (h : splitOnce [c] s = some (before, after)) : c ∉ before := by
  induction s generalizing before with
  | nil => cases h
  | cons d s ih =>
    rw [splitOnce] at h
    split at h
    · cases h
      exact List.not_mem_nil
    · next hno =>
      obtain ⟨⟨b, a⟩, hr, hq⟩ := Option.map_eq_some_iff.1 h
      cases hq
      have hd : c ≠ d := by simpa using hno
      exact List.not_mem_cons_of_ne_of_not_mem hd (ih hr)

theorem trimStart_append (h : ∀ c ∈ w, isWhitespace c = true) (s : List Char) :
    trimStart (w ++ s) = trimStart s := by
  rw [trimStart, List.dropWhile_append, List.dropWhile_eq_nil_iff.2 h]
  rfl

theorem trimStart_cons (h : isWhitespace c = false) (s : List Char) :
    trimStart (c :: s) = c :: s := by
  apply List.dropWhile_cons_of_neg
  rw [h]
  exact Bool.false_ne_true

theorem trimEnd_append (h : isWhitespace c = false) (s t : List Char) :
    trimEnd (s ++ c :: t) = s ++ c :: trimEnd t := by
  rw [trimEnd, trimEnd, List.rdropWhile, List.rdropWhile, List.reverse_append, List.reverse_cons,
    List.append_assoc, List.dropWhile_append]
  split
  · next hnil =>
    rw [List.isEmpty_iff.1 hnil, List.singleton_append, List.dropWhile_cons_of_neg (by simp [h])]
    simp
  · simp

theorem trim_bare (h : ∀ c ∈ s, isWhitespace c = false) : trim s = s := by
  rw [trim]
  cases s with
  | nil => rfl
  | cons c s =>
    rw [trimStart_cons (h c List.mem_cons_self)]
    apply List.rdropWhile_eq_self_iff.2
    intro hne
    rw [h _ (List.getLast_mem hne)]
    exact Bool.false_ne_true

theorem stripCR_isPrefix (s : List Char) : stripCR s <+: s := by
  rw [stripCR]
  split
  · exact List.dropLast_prefix s
  · exact List.prefix_rfl

end Text
