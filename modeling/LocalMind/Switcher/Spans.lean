import LocalMind.Switcher.Lines

namespace LocalMind.Switcher
open Json Text
set_option autoImplicit true

/-! Spans of a line, found by their text. -/

/-- A text cut at a span. -/
structure Cut where
  before : List Char
  span : List Char
  after : List Char
  deriving DecidableEq

/-- The text behind a colon, and what stands up to it. -/
def afterColon (t : List Char) : Option (List Char × List Char) :=
  match trimStart t with
  | ':' :: rest => some (t.take (t.length - rest.length), rest)
  | _ => none

def findKeyFrom (pat : List Char) (skip : Nat) : List Char → Option Cut
  | [] => none
  | c :: t =>
    let next := fun n => (findKeyFrom pat n t).map fun r => { r with before := c :: r.before }
    match skip with
    | n + 1 => next n
    | 0 =>
      if pat.isPrefixOf (c :: t) then
        match afterColon ((c :: t).drop pat.length) with
        | some (colon, rest) => some ⟨[], pat ++ colon, rest⟩
        | none => next (pat.length - 1)
      else next 0

/-- A key in quotes that a colon follows: the text before it, the key with its colon, and the text
after that. -/
def findKey (s key : List Char) : Option Cut := findKeyFrom ('"' :: key ++ ['"']) 0 s

/-- The text up to a closing quote, and the text after it. -/
def closeQuote : List Char → Option (List Char × List Char)
  | [] => none
  | '\\' :: c :: t => (closeQuote t).map fun r => ('\\' :: c :: r.1, r.2)
  | c :: t => if c = '"' then some ([], t) else (closeQuote t).map fun r => (c :: r.1, r.2)

/-- The next string behind a key, without its quotes. -/
def stringAfterKey (line key : List Char) : Option Cut := do
  let found ← findKey line key
  let (gap, rest) ← splitOnce ['"'] found.after
  let (old, after) ← closeQuote rest
  some ⟨found.before ++ found.span ++ gap, old, after⟩

def replaceStringValue (line key value : List Char) : Option (List Char) :=
  (stringAfterKey line key).map fun r => r.before ++ '"' :: value ++ '"' :: r.after

/-- Where the depth scan stands. -/
structure Scan where
  depth : Nat
  inStr : Bool
  inBlock : Bool

def Scan.one (s : Scan) (c : Char) : Scan :=
  if s.inBlock then s
  else if s.inStr then { s with inStr := c != '"' }
  else if c = '"' then { s with inStr := true }
  else if c = '{' ∨ c = '[' then { s with depth := s.depth + 1 }
  else if c = '}' ∨ c = ']' then { s with depth := s.depth - 1 }
  else s

def Scan.line (s : Scan) : List Char → Scan
  | [] => s
  | [c] => s.one c
  | c :: d :: t =>
    if s.inBlock then
      if c = '*' ∧ d = '/' then Scan.line { s with inBlock := false } t else s.line (d :: t)
    else if s.inStr ∧ c = '\\' then s.line t
    else if ¬ s.inStr ∧ c = '/' ∧ d = '/' then s
    else if ¬ s.inStr ∧ c = '/' ∧ d = '*' then Scan.line { s with inBlock := true } t
    else (s.one c).line (d :: t)

def depthsFrom (s : Scan) : List (List Char) → List Nat
  | [] => []
  | l :: ls => s.depth :: depthsFrom (s.line l) ls

def lineStartDepths (content : List Char) : List Nat := depthsFrom ⟨0, false, false⟩ (lines content)

inductive UpdateError where
  | noModelLine
  | badModelLine
  | refused
  deriving DecidableEq

/-- Only a text that parses is written. -/
def writeJsoncChecked (codec : FloatCodec) (content : List Char) :
    Except UpdateError (List Char) :=
  match parseJsonc codec content with
  | some _ => .ok content
  | none => .error .refused

/-- The file after a write that may have failed. -/
def fileAfter (file : List Char) : Except UpdateError (List Char) → List Char
  | .ok content => content
  | .error _ => file

theorem afterColon_eq_some {t : List Char} (h : afterColon t = some (colon, rest)) :
    ∃ w, (∀ c ∈ w, isWhitespace c = true) ∧ colon = w ++ [':'] ∧ t = w ++ ':' :: rest := by
  rw [afterColon] at h
  split at h
  · next r hr =>
    obtain ⟨hcolon, rfl⟩ := Prod.mk.inj (Option.some.inj h)
    obtain ⟨w, hw, ht⟩ : ∃ w, (∀ c ∈ w, isWhitespace c = true) ∧ t = w ++ ':' :: r := by
      refine ⟨t.takeWhile isWhitespace, fun c hc => List.mem_takeWhile_imp hc, ?_⟩
      rw [← hr, trimStart, List.takeWhile_append_dropWhile]
    have hcut : t.length - r.length = w.length + 1 := by
      rw [ht, List.length_append, List.length_cons]
      omega
    refine ⟨w, hw, ?_, ht⟩
    rw [← hcolon, hcut, ht, List.take_append, List.take_of_length_le (Nat.le_succ _),
      Nat.add_sub_cancel_left]
    rfl
  · cases h

theorem findKeyFrom_eq {pat s : List Char} (h : findKeyFrom pat n s = some r) :
    s = r.before ++ r.span ++ r.after := by
  induction s generalizing n r with
  | nil => cases h
  | cons c t ih =>
    have hnext : ∀ {m r}, ((findKeyFrom pat m t).map fun r => { r with before := c :: r.before }) =
        some r → c :: t = r.before ++ r.span ++ r.after := by
      intro m r hr
      obtain ⟨r', hr', rfl⟩ := Option.map_eq_some_iff.1 hr
      rw [ih hr']
      rfl
    cases n with
    | succ n => exact hnext h
    | zero =>
      rw [findKeyFrom] at h
      dsimp only at h
      split at h
      · next hpat =>
        split at h
        · next colon rest hcolon =>
          obtain ⟨w, -, rfl, hdrop⟩ := afterColon_eq_some hcolon
          cases h
          obtain ⟨u, hu⟩ := List.isPrefixOf_iff_prefix.1 hpat
          rw [← hu, List.drop_left] at hdrop
          rw [← hu, hdrop]
          simp
        · exact hnext h
      · exact hnext h

theorem closeQuote_eq {t : List Char} (h : closeQuote t = some (old, after)) :
    t = old ++ '"' :: after := by
  generalize hn : t.length = n
  induction n using Nat.strong_induction_on generalizing t old with
  | _ n ih =>
    rw [closeQuote.eq_def] at h
    split at h
    · cases h
    · next c t =>
      obtain ⟨⟨a, b⟩, hr, hq⟩ := Option.map_eq_some_iff.1 h
      cases hq
      simp only [List.length_cons] at hn
      rw [ih t.length (by omega) hr rfl]
      rfl
    · next c t _ =>
      split at h
      · next hc =>
        cases h
        rw [hc]
        rfl
      · obtain ⟨⟨a, b⟩, hr, hq⟩ := Option.map_eq_some_iff.1 h
        cases hq
        rw [List.length_cons] at hn
        rw [ih t.length (by omega) hr rfl]
        rfl

/-- The line around the string behind a key. -/
theorem stringAfterKey_eq (h : stringAfterKey line key = some cut) :
    line = cut.before ++ '"' :: cut.span ++ '"' :: cut.after := by
  rw [stringAfterKey] at h
  obtain ⟨found, hfound, h⟩ := Option.bind_eq_some_iff.1 h
  obtain ⟨⟨gap, rest⟩, hgap, h⟩ := Option.bind_eq_some_iff.1 h
  obtain ⟨⟨old, after⟩, hold, h⟩ := Option.bind_eq_some_iff.1 h
  cases h
  rw [findKeyFrom_eq hfound, splitOnce_eq_some hgap, closeQuote_eq hold]
  simp

end LocalMind.Switcher
