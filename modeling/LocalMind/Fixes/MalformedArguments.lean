import LocalMind.Fixes.JsonScan
import LocalMind.Fixes.Repair

namespace LocalMind
open Json
set_option autoImplicit true

/-! The slot `{}":` in the place of a property name is filled from the tool's schema. -/

namespace ToolcallMalformedArgumentsFix

/-- A text cut at the matches of the slot pattern, a delimiter and `{}":` and whitespace. -/
inductive Piece where
  | text (c : Char)
  | slot (delim : Char) (space : List Char)
  deriving DecidableEq

def Piece.isSlot : Piece → Bool
  | .text _ => false
  | .slot _ _ => true

/-- The matches from left to right, `skip` characters after the last one's delimiter. -/
def malformedPattern (skip : Nat) : List Char → List Piece
  | [] => []
  | c :: t =>
    match skip with
    | n + 1 => malformedPattern n t
    | 0 =>
      if (c = ',' ∨ c = '{') ∧ ['{', '}', '"', ':'] <+: t then
        let space := (t.drop 4).takeWhile Text.isWhitespace
        .slot c space :: malformedPattern (4 + space.length) t
      else .text c :: malformedPattern 0 t

def pieces (args : List Char) : List Piece := malformedPattern 0 args

def isMatch (args : List Char) : Bool := (pieces args).any Piece.isSlot

def slotCount (args : List Char) : Nat := (pieces args).countP Piece.isSlot

/-- The pieces with the first slots named; a slot without a name stays as it is. -/
def splicePieces : List Piece → List (List Char) → List Char
  | [], _ => []
  | .text c :: ps, missing => c :: splicePieces ps missing
  | .slot delim space :: ps, key :: missing =>
    delim :: '"' :: key ++ '"' :: ':' :: space ++ splicePieces ps missing
  | .slot delim space :: ps, [] =>
    delim :: '{' :: '}' :: '"' :: ':' :: space ++ splicePieces ps []

def spliceEmptyKeySlots (args : List Char) (missing : List (List Char)) : List Char :=
  splicePieces (pieces args) missing

def toolSchema (tool : Value) : Option (String × List String) := do
  let function ← tool.get "function"
  let name := ((function.get "name").bind Value.asStr).getD ""
  let properties := ((function.get "parameters").bind (·.get "properties")).bind Value.asObject
  if name.isEmpty then none else some (name, (properties.map Fields.keys).getD [])

/-- The property names of the request's tools. Of two tools with one name the later counts. -/
def extractToolSchemas (request : Value) : List (String × List String) :=
  Fields.insertAll [] ((itemsAt request "tools").filterMap toolSchema)

def SENTINEL : List Char := "\\u0000llama-proxy-slot".toList

/-- The schema's keys that are not provably present, in schema order. -/
def candidateKeys (args : List Char) (schemaParams : List String) : List String :=
  let masked := spliceEmptyKeySlots args (List.replicate (slotCount args) SENTINEL)
  schemaParams.filter fun k => topLevelKeyCount masked k == 0

def fillInvalid (slots n : Nat) : FixError :=
  .rebuild ("fill invalid: " ++ toString slots ++ " slots, " ++ toString n ++ " candidate" ++
    if n = 1 then "" else "s")

def fixArguments (codec : FloatCodec) (args : List Char) (toolName : String)
    (schemas : List (String × List String)) : Except FixError (Option (List Char)) :=
  if isMatch args then
    match Fields.get schemas toolName with
    | none => .ok none
    | some schemaParams =>
      let candidates := candidateKeys args schemaParams
      let slots := slotCount args
      let n := candidates.length
      if n = 0 then .error (.rebuild "no candidate keys")
      else if n = slots then
        let fixed := spliceEmptyKeySlots args (candidates.map String.toList)
        if isValid codec fixed then .ok (some fixed) else .error (fillInvalid slots n)
      else if n < slots then .error (fillInvalid slots n)
      else .error (.rebuild ("ambiguous: " ++ toString n ++ " candidates for " ++
        toString slots ++ " slots"))
  else .ok none

def hasTrigger (toolCall : Value) : Bool :=
  (callArguments toolCall).any fun args => isMatch args.toList

def anyChoiceTriggers (response : Value) : Bool :=
  (calls ["message", "delta"] response).any hasTrigger

def functionName (function : Value) : String :=
  ((function.get "name").bind Value.asStr).getD ""

/-- The repair of one function's arguments. -/
def fixFunction (codec : FloatCodec) (schemas : List (String × List String)) (function : Value)
    (args : List Char) : Except Fault (Option (List Char)) :=
  (fixArguments codec args (functionName function) schemas).mapError .error

def fixToolCalls (codec : FloatCodec) (schemas : List (String × List String)) :
    Rewrite Fault FixAction Value :=
  repairCalls ["message", "delta"] fun _ => repairArguments (fixFunction codec schemas)

def fixResponseWithContext (codec : FloatCodec) (response request : Value) :
    Except Fault (Value × FixAction) :=
  let schemas := extractToolSchemas request
  if schemas.isEmpty then .ok (response, .notApplicable)
  else (fixToolCalls codec schemas response).map fun r => (r.1, aggregateRepairs r.2)

def appliesWithContext (response request : Value) : Bool :=
  anyChoiceTriggers response && (request.get "tools").isSome

/-- What the fix writes is valid. -/
theorem fixFunction_valid {codec : FloatCodec}
    (h : fixFunction codec schemas function args = .ok (some b)) : isValid codec b = true := by
  rw [fixFunction] at h
  cases hf : fixArguments codec args (functionName function) schemas with
  | error e =>
    rw [hf] at h
    cases h
  | ok r =>
    rw [hf] at h
    cases h
    rw [fixArguments] at hf
    split at hf
    · split at hf
      · cases hf
      · dsimp only at hf
        split at hf
        · cases hf
        · split at hf
          · split at hf
            · next hv =>
              cases hf
              exact hv
            · cases hf
          · split at hf <;> cases hf
    · cases hf

theorem fixResponseWithContext_frame {codec : FloatCodec} {response request : Value}
    (h : fixResponseWithContext codec response request = .ok (fixed, action)) :
    CallsOnly ["message", "delta"] (Below ["function"] (FunctionFixed (isValid codec · = true)))
      response fixed := by
  rw [fixResponseWithContext] at h
  split at h
  · cases h
    exact .refl (.refl (.refl (.refl _))) fixed
  · obtain ⟨⟨v, notes⟩, hv, hq⟩ := Fallible.map_eq_ok_iff.1 h
    cases hq
    refine (repairCalls_makes (by decide) ⟨notes, hv⟩).mono ?_
    rintro _ _ ⟨_, hm⟩
    exact repairArguments_makes (fun _ _ _ => fixFunction_valid) hm

end ToolcallMalformedArgumentsFix

end LocalMind
