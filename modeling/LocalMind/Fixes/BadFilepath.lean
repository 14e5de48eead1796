import LocalMind.Fixes.JsonScan
import LocalMind.Fixes.Repair

namespace LocalMind
open Json
set_option autoImplicit true

/-! A duplicated `filePath` keeps its first value; arguments that do not parse are cut after it. -/

namespace ToolcallBadFilepathFix

def SCHEMA_BODY_KEY : String := "content"

/-- An escaped quote, or a lone backslash at the end, walking the escapes in pairs. -/
def swallowsQuote : List Char → Bool
  | [] => false
  | '\\' :: [] => true
  | '\\' :: c :: t => if c = '"' then true else swallowsQuote t
  | _ :: t => swallowsQuote t

/-- `value_raw[1..value_raw.len() - 1]`, in bytes. -/
def innerSlice (valueRaw : List Char) : Except SlicePanic (List Char) :=
  if 2 ≤ valueRaw.length ∧ valueRaw.head?.any (·.utf8Size == 1) ∧
      valueRaw.getLast?.any (·.utf8Size == 1) then .ok valueRaw.tail.dropLast
  else .error ⟨valueRaw⟩

def swallowedQuoteInValue (valueRaw : List Char) : Except SlicePanic Bool :=
  (innerSlice valueRaw).map swallowsQuote

/-- Some key other than `filePath` stands twice among the root's. -/
def hasForeignDuplicate (args : List Char) : Bool :=
  match depth1Keys args with
  | none => false
  | some keys => !decide (keys.filter (· != "filePath")).Nodup

def isMalformed (codec : FloatCodec) (args : List Char) : Bool :=
  !isValid codec args || decide (1 < topLevelKeyCount args "filePath")

/-- The rest of a string up to its closing quote. No character but the quote ends it. -/
def closingQuoteFrom (skip : Nat) : List Char → Option (List Char × List Char)
  | [] => none
  | c :: t =>
    match skip with
    | n + 1 => keepChar c (closingQuoteFrom n t)
    | 0 =>
      if c = '\\' then keepChar c (closingQuoteFrom 1 t)
      else if c = '"' then some (['"'], t)
      else keepChar c (closingQuoteFrom 0 t)

def isLead (c : Char) : Bool := Text.isWhitespace c || c == ':'

/-- The text up to the end of a string value, and the text after it. -/
def findStringEnd (s : List Char) : Option (List Char × List Char) :=
  match s.dropWhile isLead with
  | [] => none
  | c :: t =>
    if c = '"' then
      (closingQuoteFrom 0 t).map fun r => (s.takeWhile isLead ++ '"' :: r.1, r.2)
    else none

def firstWinsFilepath (codec : FloatCodec) (args : List Char) : Option Value :=
  match topLevelKeySpans args "filePath" with
  | [] => none
  | [_] => none
  | first :: _ => fromStr codec first.value

def FILEPATH_KEY : List Char := "\"filePath\":".toList

def snippet (s : List Char) : String := String.ofList (truncateSnippet s 200)

def truncated (before value : List Char) : List Char := before ++ FILEPATH_KEY ++ value ++ ['}']

/-- The cut after the first `filePath` of arguments that do not parse. -/
def truncateArguments (codec : FloatCodec) (args : List Char) : Except Fault (List Char) :=
  match Text.splitOnce FILEPATH_KEY args with
  | none => .error (.error (.parse
      ("unparseable arguments carry no repairable \"filePath\":\"<value>\" pattern: " ++
        snippet args)))
  | some (before, afterColon) =>
    match findStringEnd afterColon with
    | none => .error (.error (.parse
        ("first filePath value has no closing quote: " ++ snippet args)))
    | some (value, rest) =>
      match swallowedQuoteInValue value with
      | .error p => .error (.panic p)
      | .ok true => .error (.error (.parse
          ("first filePath value carries a swallowed quote (dangling backslash before a " ++
            "closing quote) - the value boundary is unknowable: " ++ snippet args)))
      | .ok false =>
        if SCHEMA_BODY_KEY ∈ keysAfter rest then .error (.error (.rebuild
          ("a schema-valid \"" ++ SCHEMA_BODY_KEY ++ "\" entry follows the first filePath " ++
            "value - truncating there would delete the file body: " ++ snippet args)))
        else if isValid codec (truncated before value) then .ok (truncated before value)
        else .error (.error (.rebuild
          ("schema-truncation candidate is still invalid JSON: " ++
            snippet (truncated before value))))

def fixArguments (codec : FloatCodec) (args : List Char) : Except Fault (List Char) :=
  match fromStr codec args with
  | some json =>
    match firstWinsFilepath codec args with
    | some first => .ok (print codec (json.put "filePath" first))
    | none => .ok (print codec json)
  | none => truncateArguments codec args

/-- The repair of one function's arguments: a foreign duplicate is skipped. -/
def fixFunction (codec : FloatCodec) (_function : Value) (args : List Char) :
    Except Fault (Option (List Char)) :=
  if isMalformed codec args && !hasForeignDuplicate args then (fixArguments codec args).map some
  else .ok none

def applyChecked (codec : FloatCodec) (response : Value) : Except Fault (Value × FixAction) :=
  (repairCalls ["message"] (fun _ => repairArguments (fixFunction codec)) response).map
    fun r => (r.1, aggregateRepairs r.2)

def applies (codec : FloatCodec) (response : Value) : Bool :=
  (calls ["message"] response).any fun call =>
    (callArguments call).any fun args => isMalformed codec args.toList

theorem truncateArguments_valid {codec : FloatCodec}
    (h : truncateArguments codec args = .ok b) : isValid codec b = true := by
  rw [truncateArguments] at h
  split at h
  · cases h
  · split at h
    · cases h
    · split at h
      · cases h
      · cases h
      · split at h
        · cases h
        · split at h
          · next hv =>
            cases h
            exact hv
          · cases h

/-- The first value of a duplicated key nests no deeper than the entries of the whole text. -/
theorem firstWinsFilepath_fits {codec : FloatCodec} (h : fromStr codec args = some json)
    (hf : firstWinsFilepath codec args = some first) : Fits codec (MAX_DEPTH - 1) first := by
  rw [firstWinsFilepath] at hf
  split at hf
  · cases hf
  · cases hf
  · next span spans _ hspans =>
    have hmem : span ∈ topLevelKeySpans args "filePath" := by
      rw [hspans]
      exact List.mem_cons_self
    obtain ⟨x, hx, hfit⟩ := span_of_fromStr h hmem
    rw [hx, Option.some.injEq] at hf
    rwa [← hf]

/-- Valid arguments are rewritten to the text of a value of the parser. -/
theorem fixArguments_of_valid {codec : FloatCodec} (h : fromStr codec args = some json) :
    ∃ v, fixArguments codec args = .ok (print codec v) ∧ Fits codec MAX_DEPTH v ∧
      v.isObject = json.isObject := by
  have hj := fits_of_fromStr h
  rw [fixArguments, h]
  dsimp only
  cases hf : firstWinsFilepath codec args with
  | none => exact ⟨json, rfl, hj, rfl⟩
  | some first =>
    exact ⟨json.put "filePath" first, rfl, fits_put hj (firstWinsFilepath_fits h hf) _,
      put_isObject _ _ _⟩

theorem fixArguments_valid {codec : FloatCodec} (h : fixArguments codec args = .ok b) :
    isValid codec b = true := by
  cases hj : fromStr codec args with
  | none =>
    rw [fixArguments, hj] at h
    exact truncateArguments_valid h
  | some json =>
    obtain ⟨v, hv, hfit, -⟩ := fixArguments_of_valid hj
    rw [hv] at h
    cases h
    exact isValid_print hfit

theorem fixFunction_valid {codec : FloatCodec}
    (h : fixFunction codec function args = .ok (some b)) : isValid codec b = true := by
  rw [fixFunction] at h
  split at h
  · obtain ⟨c, hc, hq⟩ := Fallible.map_eq_ok_iff.1 h
    cases hq
    exact fixArguments_valid hc
  · cases h

theorem applyChecked_frame {codec : FloatCodec} {response : Value}
    (h : applyChecked codec response = .ok (fixed, action)) :
    CallsOnly ["message"] (Below ["function"] (FunctionFixed (isValid codec · = true)))
      response fixed := by
  obtain ⟨⟨v, notes⟩, hv, hq⟩ := Fallible.map_eq_ok_iff.1 h
  cases hq
  refine (repairCalls_makes (by decide) ⟨notes, hv⟩).mono ?_
  rintro _ _ ⟨_, hm⟩
  exact repairArguments_makes (fun _ _ _ => fixFunction_valid) hm

end ToolcallBadFilepathFix

end LocalMind
