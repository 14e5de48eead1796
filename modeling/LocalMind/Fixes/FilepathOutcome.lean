import LocalMind.Fixes.BadFilepath

namespace LocalMind
open Json
set_option autoImplicit true

namespace ToolcallBadFilepathFix

/-- The first `filePath` marker and the value after it: the text before the marker, the value
with what leads up to it, and the rest. -/
def FirstValue (args before value rest : List Char) : Prop :=
  ∃ afterColon, Text.splitOnce FILEPATH_KEY args = some (before, afterColon) ∧
    findStringEnd afterColon = some (value, rest)

/-- The marker is followed at once by a character of more than one byte. -/
def WideLead (value : List Char) : Prop := value.head?.any (·.utf8Size == 1) = false

/-- Arguments that the truncation cannot slice. -/
def Splits (codec : FloatCodec) (args : List Char) : Prop :=
  isValid codec args = false ∧ hasForeignDuplicate args = false ∧
    ∃ before value rest, FirstValue args before value rest ∧ WideLead value

/-- Arguments that the truncation cuts to valid ones. -/
def Truncatable (codec : FloatCodec) (args : List Char) : Prop :=
  isValid codec args = false ∧ hasForeignDuplicate args = false ∧
    ∃ before value rest, FirstValue args before value rest ∧ ¬ WideLead value ∧
      swallowsQuote value.tail.dropLast = false ∧ SCHEMA_BODY_KEY ∉ keysAfter rest ∧
      isValid codec (truncated before value) = true

/-- Arguments that do not parse and that the truncation refuses. -/
def Unrepairable (codec : FloatCodec) (args : List Char) : Prop :=
  isValid codec args = false ∧ hasForeignDuplicate args = false ∧ ¬ Splits codec args ∧
    ¬ Truncatable codec args

/-- Valid arguments whose `filePath` alone is duplicated. -/
def Collapsible (codec : FloatCodec) (args : List Char) : Prop :=
  isValid codec args = true ∧ hasForeignDuplicate args = false ∧
    1 < topLevelKeyCount args "filePath"

theorem FirstValue.unique (h : FirstValue args before value rest)
    (h' : FirstValue args before' value' rest') :
    before' = before ∧ value' = value ∧ rest' = rest := by
  obtain ⟨after, hs, hf⟩ := h
  obtain ⟨after', hs', hf'⟩ := h'
  rw [hs] at hs'
  cases hs'
  rw [hf] at hf'
  cases hf'
  exact ⟨rfl, rfl, rfl⟩

theorem Splits.not_truncatable {codec : FloatCodec} (h : Splits codec args) :
    ¬ Truncatable codec args := by
  obtain ⟨-, -, before, value, rest, hfirst, hw⟩ := h
  rintro ⟨-, -, before', value', rest', hfirst', hw', -⟩
  obtain ⟨-, rfl, -⟩ := hfirst.unique hfirst'
  exact hw' hw

theorem closingQuoteFrom_ends (h : closingQuoteFrom n s = some (x, r)) :
    x.getLast? = some '"' := by
  induction s generalizing n x with
  | nil => cases h
  | cons c t ih =>
    have hkeep : ∀ m, keepChar c (closingQuoteFrom m t) = some (x, r) →
        x.getLast? = some '"' := by
      intro m hm
      obtain ⟨⟨y, r'⟩, hy, hq⟩ := Option.map_eq_some_iff.1 hm
      cases hq
      rw [List.getLast?_cons, ih hy]
      rfl
    rw [closingQuoteFrom.eq_def] at h
    dsimp only at h
    split at h
    · exact hkeep _ h
    · split at h
      · exact hkeep _ h
      · split at h
        · cases h
          rfl
        · exact hkeep _ h

theorem findStringEnd_ends (h : findStringEnd s = some (value, rest)) :
    2 ≤ value.length ∧ value.getLast? = some '"' := by
  rw [findStringEnd] at h
  split at h
  · cases h
  · split at h
    · obtain ⟨⟨x, r⟩, hx, hq⟩ := Option.map_eq_some_iff.1 h
      cases hq
      have hlast := closingQuoteFrom_ends hx
      have hpos : 0 < x.length := by
        cases x with
        | nil => cases hlast
        | cons c x => exact Nat.succ_pos _
      refine ⟨?_, ?_⟩
      · simp only [List.length_append, List.length_cons]
        omega
      · rw [List.getLast?_append, List.getLast?_cons, hlast]
        rfl
    · cases h

theorem swallowedQuoteInValue_eq (h : findStringEnd s = some (value, rest)) :
    swallowedQuoteInValue value =
      if value.head?.any (·.utf8Size == 1) then .ok (swallowsQuote value.tail.dropLast)
      else .error ⟨value⟩ := by
  obtain ⟨hlen, hlast⟩ := findStringEnd_ends h
  have hone : value.getLast?.any (·.utf8Size == 1) = true := by
    rw [hlast]
    rfl
  rw [swallowedQuoteInValue, innerSlice]
  by_cases hw : value.head?.any (·.utf8Size == 1) = true
  · rw [if_pos ⟨hlen, hw, hone⟩, if_pos hw]
    rfl
  · rw [if_neg fun hc => hw hc.2.1, if_neg hw]
    rfl

/-- The three ends of the truncation. -/
theorem truncateArguments_cases {codec : FloatCodec} (hv : isValid codec args = false)
    (hd : hasForeignDuplicate args = false) :
    (Truncatable codec args ∧ ∃ b, truncateArguments codec args = .ok b) ∨
    (Splits codec args ∧ ∃ p, truncateArguments codec args = .error (.panic p)) ∨
    (Unrepairable codec args ∧ ∃ e, truncateArguments codec args = .error (.error e)) := by
  have hno : (∀ before value rest, ¬ FirstValue args before value rest) →
      Unrepairable codec args := by
    intro hn
    refine ⟨hv, hd, ?_, ?_⟩
    · rintro ⟨-, -, b, v, r, h, -⟩
      exact hn b v r h
    · rintro ⟨-, -, b, v, r, h, -⟩
      exact hn b v r h
  rw [truncateArguments]
  cases hs : Text.splitOnce FILEPATH_KEY args with
  | none =>
    refine .inr (.inr ⟨hno ?_, _, rfl⟩)
    rintro b v r ⟨a, ha, -⟩
    rw [hs] at ha
    cases ha
  | some p =>
    obtain ⟨before, after⟩ := p
    dsimp only
    cases hf : findStringEnd after with
    | none =>
      refine .inr (.inr ⟨hno ?_, _, rfl⟩)
      rintro b v r ⟨a, ha, hr⟩
      rw [hs] at ha
      cases ha
      rw [hf] at hr
      cases hr
    | some q =>
      obtain ⟨value, rest⟩ := q
      have hfirst : FirstValue args before value rest := ⟨after, hs, hf⟩
      dsimp only
      rw [swallowedQuoteInValue_eq hf]
      by_cases hw : WideLead value
      · rw [WideLead] at hw
        rw [hw]
        exact .inr (.inl ⟨⟨hv, hd, before, value, rest, hfirst, hw⟩, _, rfl⟩)
      · have hone : value.head?.any (·.utf8Size == 1) = true := by
          rwa [WideLead, Bool.not_eq_false] at hw
        have hsplit : ¬ Splits codec args := by
          rintro ⟨-, -, b, v, r, h, hl⟩
          obtain ⟨-, rfl, -⟩ := hfirst.unique h
          exact hw hl
        have hrefuse : ¬ (swallowsQuote value.tail.dropLast = false ∧
            SCHEMA_BODY_KEY ∉ keysAfter rest ∧
            isValid codec (truncated before value) = true) → Unrepairable codec args := by
          intro hn
          refine ⟨hv, hd, hsplit, ?_⟩
          rintro ⟨-, -, b, v, r, h, -, hrest⟩
          obtain ⟨rfl, rfl, rfl⟩ := hfirst.unique h
          exact hn hrest
        rw [if_pos hone]
        cases hq : swallowsQuote value.tail.dropLast with
        | true =>
          refine .inr (.inr ⟨hrefuse fun h => ?_, _, rfl⟩)
          rw [hq] at h
          cases h.1
        | false =>
          dsimp only
          split
          · next hc => exact .inr (.inr ⟨hrefuse fun h => h.2.1 hc, _, rfl⟩)
          · next hc =>
            split
            · next hvalid =>
              exact .inl ⟨⟨hv, hd, before, value, rest, hfirst, hw, hq, hc, hvalid⟩, _, rfl⟩
            · next hvalid =>
              exact .inr (.inr ⟨hrefuse fun h => hvalid h.2.2, _, rfl⟩)

/-- The ends of the repair of some arguments. -/
theorem fixFunction_cases (codec : FloatCodec) (function : Value) (args : List Char) :
    ((Collapsible codec args ∨ Truncatable codec args) ∧
      ∃ b, fixFunction codec function args = .ok (some b)) ∨
    (Splits codec args ∧ ∃ p, fixFunction codec function args = .error (.panic p)) ∨
    (Unrepairable codec args ∧ ∃ e, fixFunction codec function args = .error (.error e)) ∨
    (¬ Collapsible codec args ∧ ¬ Truncatable codec args ∧ ¬ Splits codec args ∧
      ¬ Unrepairable codec args ∧ fixFunction codec function args = .ok none) := by
  rw [fixFunction, isMalformed]
  cases hd : hasForeignDuplicate args with
  | true =>
    refine .inr (.inr (.inr ⟨?_, ?_, ?_, ?_, ?_⟩))
    · rintro ⟨-, h, -⟩
      rw [hd] at h
      cases h
    · rintro ⟨-, h, -⟩
      rw [hd] at h
      cases h
    · rintro ⟨-, h, -⟩
      rw [hd] at h
      cases h
    · rintro ⟨-, h, -⟩
      rw [hd] at h
      cases h
    · rw [Bool.not_true, Bool.and_false]
      rfl
  | false =>
    cases hv : isValid codec args with
    | false =>
      have hj : fromStr codec args = none := by
        rwa [isValid, Option.isSome_eq_false_iff, Option.isNone_iff_eq_none] at hv
      rw [Bool.not_false, Bool.true_or, Bool.true_and, if_pos rfl, fixArguments, hj]
      dsimp only
      obtain ⟨ht, b, hb⟩ | ⟨hs, p, hp⟩ | ⟨hu, e, he⟩ := truncateArguments_cases hv hd
      · rw [hb]
        exact .inl ⟨.inr ht, b, rfl⟩
      · rw [hp]
        exact .inr (.inl ⟨hs, p, rfl⟩)
      · rw [he]
        exact .inr (.inr (.inl ⟨hu, e, rfl⟩))
    | true =>
      have hn : ¬ Truncatable codec args ∧ ¬ Splits codec args ∧ ¬ Unrepairable codec args := by
        refine ⟨?_, ?_, ?_⟩ <;>
        · rintro ⟨h, -⟩
          rw [hv] at h
          cases h
      rw [Bool.not_true, Bool.false_or, Bool.not_false, Bool.and_true]
      by_cases hc : 1 < topLevelKeyCount args "filePath"
      · obtain ⟨json, hj⟩ := Option.isSome_iff_exists.1 hv
        obtain ⟨v, hfix, -⟩ := fixArguments_of_valid hj
        rw [if_pos (decide_eq_true hc), hfix]
        exact .inl ⟨.inl ⟨hv, hd, hc⟩, _, rfl⟩
      · rw [if_neg (by rwa [decide_eq_true_eq])]
        exact .inr (.inr (.inr ⟨fun h => hc h.2.2, hn.1, hn.2.1, hn.2.2, rfl⟩))

/-- A repair changes the arguments it succeeds on. -/
theorem fixFunction_ne {codec : FloatCodec}
    (h : fixFunction codec function args = .ok (some b)) : b ≠ args := by
  rintro rfl
  have hvalid := fixFunction_valid h
  obtain ⟨hc, -⟩ | ⟨hs, -⟩ | ⟨hu, -⟩ | ⟨-, -, -, -, hn⟩ := fixFunction_cases codec function b
  · rcases hc with ⟨-, hd, hc⟩ | ⟨hv, -⟩
    · obtain ⟨json, hj⟩ := Option.isSome_iff_exists.1 hvalid
      obtain ⟨v, hfix, hfit, hobj⟩ := fixArguments_of_valid hj
      rw [fixFunction, isMalformed, hd, decide_eq_true hc, Bool.or_true, Bool.not_false,
        Bool.and_true, if_pos rfl, hfix] at h
      obtain rfl : print codec v = b := by
        cases h
        rfl
      refine absurd hc (Nat.not_lt.2 ?_)
      exact count_print hfit "filePath"
    · rw [hv] at hvalid
      cases hvalid
  · rw [hs.1] at hvalid
    cases hvalid
  · rw [hu.1] at hvalid
    cases hvalid
  · rw [hn] at h
    cases h

end ToolcallBadFilepathFix

end LocalMind
