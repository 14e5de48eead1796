import LocalMind.Fixes.FilepathOutcome
import LocalMind.Fixes.JsonScanAgreement
import LocalMind.Text.ByteSlice
import LocalMind.Text.Quoted

namespace LocalMind
open Json Text
set_option autoImplicit true

/-! The byte slices of the cut after the first `filePath`. -/

/-- `&s[start..]`. -/
def sliceFrom (s : List Char) (start : Nat) : Except SlicePanic (List Char) :=
  match splitAtByte start s with
  | some r => .ok r.2
  | none => .error ⟨s⟩

/-- `&s[..stop]`. -/
def sliceTo (s : List Char) (stop : Nat) : Except SlicePanic (List Char) :=
  match splitAtByte stop s with
  | some r => .ok r.1
  | none => .error ⟨s⟩

/-- `&s[start..stop]`. -/
def sliceBetween (s : List Char) (start stop : Nat) : Except SlicePanic (List Char) :=
  match splitAtByte stop s with
  | some r =>
    match splitAtByte start r.1 with
    | some q => .ok q.2
    | none => .error ⟨s⟩
  | none => .error ⟨s⟩

namespace ToolcallBadFilepathFix

def swallowedQuoteInValueAt (valueRaw : List Char) : Except SlicePanic Bool :=
  (sliceBetween valueRaw 1 (byteLen valueRaw - 1)).map swallowsQuote

/-- The offset after the closing quote. -/
def closingQuoteAt (skip : Nat) : List (Nat × Char) → Option Nat
  | [] => none
  | (pos, c) :: t =>
    match skip with
    | n + 1 => closingQuoteAt n t
    | 0 =>
      if c = '\\' then closingQuoteAt 1 t
      else if c = '"' then some (pos + '"'.utf8Size)
      else closingQuoteAt 0 t

def findStringEndAt (s : List Char) : Option Nat :=
  match (charIndices s).dropWhile fun p => isLead p.2 with
  | [] => none
  | (_, c) :: t => if c = '"' then closingQuoteAt 0 t else none

/-- The cut of arguments that do not parse, by the offsets it takes. -/
def truncateArgumentsAt (codec : FloatCodec) (args : List Char) : Except Fault (List Char) :=
  match find FILEPATH_KEY args with
  | none => .error (.error (.parse
      ("unparseable arguments carry no repairable \"filePath\":\"<value>\" pattern: " ++
        snippet args)))
  | some start =>
    match sliceFrom args (start + byteLen FILEPATH_KEY) with
    | .error p => .error (.panic p)
    | .ok afterColon =>
      match findStringEndAt afterColon with
      | none => .error (.error (.parse
          ("first filePath value has no closing quote: " ++ snippet args)))
      | some valueEnd =>
        match sliceTo afterColon valueEnd with
        | .error p => .error (.panic p)
        | .ok valueRaw =>
          match swallowedQuoteInValueAt valueRaw with
          | .error p => .error (.panic p)
          | .ok true => .error (.error (.parse
              ("first filePath value carries a swallowed quote (dangling backslash before a " ++
                "closing quote) - the value boundary is unknowable: " ++ snippet args)))
          | .ok false =>
            let endPos := start + byteLen FILEPATH_KEY + valueEnd
            if SCHEMA_BODY_KEY ∈ keysAfterAt args endPos then .error (.error (.rebuild
              ("a schema-valid \"" ++ SCHEMA_BODY_KEY ++ "\" entry follows the first filePath " ++
                "value - truncating there would delete the file body: " ++ snippet args)))
            else
              match sliceTo args endPos with
              | .error p => .error (.panic p)
              | .ok kept =>
                if isValid codec (kept ++ ['}']) then .ok (kept ++ ['}'])
                else .error (.error (.rebuild
                  ("schema-truncation candidate is still invalid JSON: " ++
                    snippet (kept ++ ['}']))))

def fixArgumentsAt (codec : FloatCodec) (args : List Char) : Except Fault (List Char) :=
  match fromStr codec args with
  | some json =>
    match firstWinsFilepath codec args with
    | some first => .ok (print codec (json.put "filePath" first))
    | none => .ok (print codec json)
  | none => truncateArgumentsAt codec args

/-- Every slice the repair takes lies within its text, between two characters. -/
def SlicesWhole (codec : FloatCodec) (args : List Char) : Prop :=
  ∀ p, fixArgumentsAt codec args ≠ .error (.panic p)

/-- Between the first marker and its quoted value stands white space that starts with a
character of several bytes. -/
def WideGap (args : List Char) : Prop :=
  ∃ before c lead body rest,
    splitOnce FILEPATH_KEY args = some (before, c :: lead ++ '"' :: (body ++ '"' :: rest)) ∧
    1 < c.utf8Size ∧ (∀ d ∈ c :: lead, isLead d = true) ∧ Unclosed body

/-! The offsets are those of the texts. -/

theorem sliceFrom_append (s t : List Char) : sliceFrom (s ++ t) (byteLen s) = .ok t := by
  rw [sliceFrom, splitAtByte_append]

theorem sliceTo_append (s t : List Char) : sliceTo (s ++ t) (byteLen s) = .ok s := by
  rw [sliceTo, splitAtByte_append]

theorem closingQuoteAt_eq (skip pos : Nat) (s : List Char) :
    closingQuoteAt skip (charIndicesFrom pos s) =
      (closingQuoteFrom skip s).map fun r => pos + byteLen r.1 := by
  induction s generalizing skip pos with
  | nil => rfl
  | cons c t ih =>
    have hkeep : ∀ m, closingQuoteAt m (charIndicesFrom (pos + c.utf8Size) t) =
        (keepChar c (closingQuoteFrom m t)).map fun r => pos + byteLen r.1 := by
      intro m
      rw [ih, keepChar, Option.map_map]
      congr 1
      funext r
      rw [Function.comp_apply, byteLen_cons, Nat.add_assoc]
    rw [charIndicesFrom, closingQuoteAt.eq_def, closingQuoteFrom.eq_def]
    dsimp only
    split
    · exact hkeep _
    · split
      · exact hkeep 1
      · split
        · next hq =>
          subst hq
          rfl
        · exact hkeep 0

theorem charIndicesFrom_dropWhile (pos : Nat) (s : List Char) :
    (charIndicesFrom pos s).dropWhile (fun p => isLead p.2) =
      charIndicesFrom (pos + byteLen (s.takeWhile isLead)) (s.dropWhile isLead) := by
  induction s generalizing pos with
  | nil => rfl
  | cons c t ih =>
    rw [charIndicesFrom, List.dropWhile_cons, List.takeWhile_cons, List.dropWhile_cons]
    cases h : isLead c with
    | true =>
      simp only [if_true]
      rw [ih, byteLen_cons, Nat.add_assoc]
    | false =>
      simp only [Bool.false_eq_true, if_false]
      rfl

theorem findStringEndAt_eq (s : List Char) :
    findStringEndAt s = (findStringEnd s).map fun r => byteLen r.1 := by
  rw [findStringEndAt, charIndices, charIndicesFrom_dropWhile, findStringEnd]
  cases s.dropWhile isLead with
  | nil => rfl
  | cons c t =>
    rw [charIndicesFrom]
    dsimp only
    split
    · next hq =>
      rw [closingQuoteAt_eq, Option.map_map, hq]
      congr 1
      funext r
      rw [Function.comp_apply, byteLen_append, byteLen_cons, Nat.zero_add, Nat.add_assoc]
    · rfl

theorem closingQuoteFrom_append (h : closingQuoteFrom n s = some (x, r)) : s = x ++ r := by
  induction s generalizing n x with
  | nil => cases h
  | cons c t ih =>
    have hkeep : ∀ m, keepChar c (closingQuoteFrom m t) = some (x, r) → c :: t = x ++ r := by
      intro m hm
      obtain ⟨⟨y, r'⟩, hy, hq⟩ := Option.map_eq_some_iff.1 hm
      cases hq
      rw [ih hy]
      rfl
    rw [closingQuoteFrom.eq_def] at h
    dsimp only at h
    split at h
    · exact hkeep _ h
    · split at h
      · exact hkeep _ h
      · split at h
        · next hq =>
          cases h
          rw [hq]
          rfl
        · exact hkeep _ h

theorem findStringEnd_append (h : findStringEnd s = some (value, rest)) : s = value ++ rest := by
  rw [findStringEnd] at h
  split at h
  · cases h
  · next c t hs =>
    split at h
    · next hq =>
      obtain ⟨⟨x, r⟩, hx, hp⟩ := Option.map_eq_some_iff.1 h
      cases hp
      have hsplit := List.takeWhile_append_dropWhile (p := isLead) (l := s)
      rw [hs, hq, closingQuoteFrom_append hx] at hsplit
      rw [List.append_assoc]
      exact hsplit.symm
    · cases h

/-- The slice between the quotes, for a text that ends in one. -/
theorem sliceBetween_inner (hlen : 2 ≤ v.length) (hlast : v.getLast? = some '"') :
    sliceBetween v 1 (byteLen v - 1) = innerSlice v := by
  obtain ⟨w, rfl⟩ := List.getLast?_eq_some_iff.1 hlast
  cases w with
  | nil =>
    simp only [List.nil_append, List.length_singleton] at hlen
    omega
  | cons c w =>
    have hone : (c :: w ++ ['"']).getLast?.any (·.utf8Size == 1) = true := by
      rw [hlast]
      rfl
    have hstop : byteLen (c :: w ++ ['"']) - 1 = byteLen (c :: w) := by
      rw [byteLen_append]
      rfl
    rw [sliceBetween, hstop, splitAtByte_append, innerSlice]
    dsimp only
    rw [splitAtByte_one]
    by_cases hc : c.utf8Size = 1
    · rw [if_pos hc, if_pos ⟨hlen, by simp [hc], hone⟩]
      simp
    · rw [if_neg hc, if_neg]
      rintro ⟨-, hhead, -⟩
      simp [hc] at hhead

/-- The cut by offsets is the cut by texts. -/
theorem truncateArgumentsAt_eq (codec : FloatCodec) (args : List Char) :
    truncateArgumentsAt codec args = truncateArguments codec args := by
  rw [truncateArgumentsAt, truncateArguments, find]
  cases hs : splitOnce FILEPATH_KEY args with
  | none => rfl
  | some p =>
    obtain ⟨before, after⟩ := p
    have hargs := splitOnce_eq_some hs
    have hstart : byteLen before + byteLen FILEPATH_KEY = byteLen (before ++ FILEPATH_KEY) :=
      (byteLen_append _ _).symm
    have hfrom : sliceFrom args (byteLen (before ++ FILEPATH_KEY)) = .ok after := by
      rw [hargs]
      exact sliceFrom_append _ _
    rw [Option.map_some]
    dsimp only
    rw [hstart, hfrom]
    dsimp only
    rw [findStringEndAt_eq]
    cases hf : findStringEnd after with
    | none => rfl
    | some q =>
      obtain ⟨value, rest⟩ := q
      have hafter := findStringEnd_append hf
      obtain ⟨hlen, hlast⟩ := findStringEnd_ends hf
      have hto : sliceTo after (byteLen value) = .ok value := by
        rw [hafter]
        exact sliceTo_append _ _
      have hkept : args = before ++ FILEPATH_KEY ++ value ++ rest := by
        rw [hargs, hafter, List.append_assoc _ value]
      have hend : byteLen (before ++ FILEPATH_KEY) + byteLen value =
          byteLen (before ++ FILEPATH_KEY ++ value) := (byteLen_append _ _).symm
      have hafterEnd : keysAfterAt args (byteLen (before ++ FILEPATH_KEY ++ value)) =
          keysAfter rest := by
        rw [keysAfterAt, hkept]
        exact congrArg keysAfter (restAt_append _ _)
      have htoEnd : sliceTo args (byteLen (before ++ FILEPATH_KEY ++ value)) =
          .ok (before ++ FILEPATH_KEY ++ value) := by
        rw [hkept]
        exact sliceTo_append _ _
      rw [Option.map_some]
      dsimp only
      rw [hto]
      dsimp only
      rw [swallowedQuoteInValueAt, sliceBetween_inner hlen hlast, ← swallowedQuoteInValue]
      cases swallowedQuoteInValue value with
      | error p => rfl
      | ok b =>
        cases b with
        | true => rfl
        | false =>
          dsimp only
          rw [hend, hafterEnd, htoEnd]
          rfl

theorem fixArgumentsAt_eq (codec : FloatCodec) (args : List Char) :
    fixArgumentsAt codec args = fixArguments codec args := by
  cases hj : fromStr codec args with
  | none =>
    simp only [fixArgumentsAt, fixArguments, hj]
    exact truncateArgumentsAt_eq codec args
  | some json =>
    cases hf : firstWinsFilepath codec args with
    | none => simp only [fixArgumentsAt, fixArguments, hj, hf]
    | some first => simp only [fixArgumentsAt, fixArguments, hj, hf]

/-! When the slice between the quotes starts within a character. -/

theorem closingQuoteFrom_unclosed (h : closingQuoteFrom n s = some (x, r)) (hn : n ≤ 1) :
    ∃ body, (n = 0 → Unclosed body) ∧ (n = 1 → Unclosed ('\\' :: body)) ∧
      x = body ++ ['"'] ∧ s = body ++ '"' :: r := by
  induction s generalizing n x with
  | nil => cases h
  | cons c t ih =>
    have hkeep : ∀ m ≤ 1, keepChar c (closingQuoteFrom m t) = some (x, r) →
        ∃ body, (m = 0 → Unclosed body) ∧ (m = 1 → Unclosed ('\\' :: body)) ∧
          x = c :: body ++ ['"'] ∧ c :: t = c :: body ++ '"' :: r := by
      intro m hm hq
      obtain ⟨⟨y, r'⟩, hy, hq⟩ := Option.map_eq_some_iff.1 hq
      cases hq
      obtain ⟨body, h₀, h₁, rfl, rfl⟩ := ih hy hm
      exact ⟨body, h₀, h₁, rfl, rfl⟩
    rw [closingQuoteFrom.eq_def] at h
    dsimp only at h
    split at h
    · next m =>
      obtain rfl : m = 0 := by omega
      obtain ⟨body, hb, -, hx, ht⟩ := hkeep 0 (Nat.zero_le 1) h
      exact ⟨c :: body, fun h => absurd h (Nat.succ_ne_zero 0), fun _ => .escaped (hb rfl), hx, ht⟩
    · split at h
      · next hc =>
        obtain ⟨body, -, hb, hx, ht⟩ := hkeep 1 (Nat.le_refl 1) h
        refine ⟨c :: body, fun _ => ?_, fun h => absurd h.symm (Nat.succ_ne_zero 0), hx, ht⟩
        rw [hc]
        exact hb rfl
      · next hc =>
        split at h
        · next hq =>
          cases h
          rw [hq]
          exact ⟨[], fun _ => .nil, fun h => absurd h.symm (Nat.succ_ne_zero 0), rfl, rfl⟩
        · next hq =>
          obtain ⟨body, hb, -, hx, ht⟩ := hkeep 0 (Nat.zero_le 1) h
          exact ⟨c :: body, fun _ => .plain hq hc (hb rfl),
            fun h => absurd h.symm (Nat.succ_ne_zero 0), hx, ht⟩

theorem closingQuoteFrom_of_unclosed (h : Unclosed body) (r : List Char) :
    closingQuoteFrom 0 (body ++ '"' :: r) = some (body ++ ['"'], r) := by
  induction h with
  | nil => rfl
  | plain h₁ h₂ _ ih =>
    rw [List.cons_append, closingQuoteFrom, if_neg h₂, if_neg h₁, ih]
    rfl
  | escaped _ ih =>
    rw [List.cons_append, List.cons_append, closingQuoteFrom, if_pos rfl, closingQuoteFrom, ih]
    rfl

/-- A value is what leads up to a quoted text, and the text. -/
theorem findStringEnd_iff :
    findStringEnd s = some (value, rest) ↔
      ∃ lead body, (∀ d ∈ lead, isLead d = true) ∧ Unclosed body ∧
        value = lead ++ '"' :: (body ++ ['"']) ∧ s = lead ++ '"' :: (body ++ '"' :: rest) := by
  constructor
  · intro h
    rw [findStringEnd] at h
    split at h
    · cases h
    · next c t hs =>
      split at h
      · next hq =>
        obtain ⟨⟨x, r⟩, hx, hp⟩ := Option.map_eq_some_iff.1 h
        cases hp
        obtain ⟨body, hbody, -, rfl, rfl⟩ := closingQuoteFrom_unclosed hx (Nat.zero_le 1)
        refine ⟨s.takeWhile isLead, body, ?_, hbody rfl, rfl, ?_⟩
        · intro d hd
          exact List.mem_takeWhile_imp hd
        · have hsplit := List.takeWhile_append_dropWhile (p := isLead) (l := s)
          rw [hs, hq] at hsplit
          exact hsplit.symm
      · cases h
  · rintro ⟨lead, body, hlead, hbody, rfl, rfl⟩
    have hquote : ¬ isLead '"' = true := by decide
    have htake : (lead ++ '"' :: (body ++ '"' :: rest)).takeWhile isLead = lead := by
      rw [List.takeWhile_append_of_pos hlead, List.takeWhile_cons_of_neg hquote, List.append_nil]
    have hdrop : (lead ++ '"' :: (body ++ '"' :: rest)).dropWhile isLead =
        '"' :: (body ++ '"' :: rest) := by
      rw [List.dropWhile_append_of_pos hlead, List.dropWhile_cons_of_neg hquote]
    rw [findStringEnd, hdrop, htake]
    dsimp only
    rw [if_pos rfl, closingQuoteFrom_of_unclosed hbody]
    rfl

theorem wideGap_iff :
    WideGap args ↔ ∃ before value rest, FirstValue args before value rest ∧ WideLead value := by
  constructor
  · rintro ⟨before, c, lead, body, rest, hs, hc, hlead, hbody⟩
    refine ⟨before, c :: lead ++ '"' :: (body ++ ['"']), rest, ⟨_, hs, ?_⟩, ?_⟩
    · exact findStringEnd_iff.2 ⟨c :: lead, body, hlead, hbody, rfl, rfl⟩
    · change (c.utf8Size == 1) = false
      exact beq_false_of_ne hc.ne'
  · rintro ⟨before, value, rest, ⟨after, hs, hf⟩, hw⟩
    obtain ⟨lead, body, hlead, hbody, rfl, rfl⟩ := findStringEnd_iff.1 hf
    cases lead with
    | nil =>
      rw [WideLead] at hw
      cases hw
    | cons c lead =>
      refine ⟨before, c, lead, body, rest, hs, ?_, hlead, hbody⟩
      have hne : (c.utf8Size == 1) = false := hw
      have hpos := Char.utf8Size_pos c
      have hc : c.utf8Size ≠ 1 := ne_of_beq_false hne
      omega

theorem truncateArguments_panics_iff {codec : FloatCodec} :
    (∃ p, truncateArguments codec args = .error (.panic p)) ↔ WideGap args := by
  rw [wideGap_iff, truncateArguments]
  cases hs : splitOnce FILEPATH_KEY args with
  | none =>
    constructor
    · rintro ⟨p, hp⟩
      cases hp
    · rintro ⟨before, value, rest, ⟨after, ha, -⟩, -⟩
      rw [hs] at ha
      cases ha
  | some p =>
    obtain ⟨before, after⟩ := p
    dsimp only
    cases hf : findStringEnd after with
    | none =>
      constructor
      · rintro ⟨p, hp⟩
        cases hp
      · rintro ⟨before, value, rest, ⟨after, ha, hv⟩, -⟩
        rw [hs] at ha
        cases ha
        rw [hf] at hv
        cases hv
    | some q =>
      obtain ⟨value, rest⟩ := q
      have hfirst : FirstValue args before value rest := ⟨after, hs, hf⟩
      dsimp only
      rw [swallowedQuoteInValue_eq hf]
      by_cases hw : WideLead value
      · have hwide : value.head?.any (·.utf8Size == 1) = false := hw
        rw [hwide]
        exact ⟨fun _ => ⟨before, value, rest, hfirst, hw⟩, fun _ => ⟨_, rfl⟩⟩
      · have hone : value.head?.any (·.utf8Size == 1) = true := by
          rwa [WideLead, Bool.not_eq_false] at hw
        rw [if_pos hone]
        constructor
        · rintro ⟨p, hp⟩
          split at hp
          · next hok => cases hok
          · cases hp
          · split at hp
            · cases hp
            · split at hp
              · cases hp
              · cases hp
        · rintro ⟨before', value', rest', hfirst', hw'⟩
          obtain ⟨-, rfl, -⟩ := hfirst.unique hfirst'
          exact absurd hw' hw

/-- The slices are whole unless arguments that do not parse have a wide gap. -/
theorem fixArguments_whole_iff (codec : FloatCodec) (args : List Char) :
    SlicesWhole codec args ↔ ¬ (isValid codec args = false ∧ WideGap args) := by
  rw [SlicesWhole, ← truncateArguments_panics_iff, ← not_exists, fixArgumentsAt_eq]
  apply not_congr
  rw [fixArguments, isValid]
  cases fromStr codec args with
  | some json =>
    constructor
    · rintro ⟨p, hp⟩
      dsimp only at hp
      split at hp
      · cases hp
      · cases hp
    · rintro ⟨h, -⟩
      cases h
  | none =>
    exact ⟨fun h => ⟨rfl, h⟩, And.right⟩

/-- A no-break space after the marker. -/
theorem fixArguments_slices_space :
    ¬ SlicesWhole integersOnly "\x7b\"filePath\":\u00a0\"/x\"".toList := by
  intro h
  apply h ⟨"\u00a0\"/x\"".toList⟩
  decide +kernel

end ToolcallBadFilepathFix

end LocalMind
