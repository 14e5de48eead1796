import LocalMind.Atem.Channels
import LocalMind.Json.Python
import LocalMind.Text.Runs

namespace LocalMind
open Text PyJson
set_option autoImplicit true

/-! The tool calls of an ATEM transcript. -/

namespace Atem

def CALLS_OPEN : List Char := "<atem:function_calls>".toList
def INVOKE_OPEN : List Char := "<atem:invoke".toList
def INVOKE_CLOSE : List Char := "</atem:invoke>".toList
def PARAM_OPEN : List Char := "<atem:parameter".toList
def PARAM_CLOSE : List Char := "</atem:parameter>".toList
def NAME : List Char := "name".toList

/-- `\s*c`, and what is left. -/
def afterMark (c : Char) (s : List Char) : Option (List Char) :=
  match s.dropWhile isSpace with
  | [] => none
  | d :: t => if d = c then some t else none

/-- `"(?P<name>[^\"]*)\"\s*>`, and what is left. -/
def quotedName (s : List Char) : Option (List Char × List Char) :=
  match s.dropWhile (· ≠ '"') with
  | [] => none
  | _ :: t => (afterMark '>' t).map fun rest => (s.takeWhile (· ≠ '"'), rest)

/-- `\s+name\s*=\s*`, and the name in quotes. -/
def nameAttribute (s : List Char) : Option (List Char × List Char) :=
  let t := s.dropWhile isSpace
  if t.length < s.length ∧ NAME.isPrefixOf t then
    ((afterMark '=' (t.drop NAME.length)).bind (afterMark '"')).bind quotedName
  else none

/-- An opening tag at the start of a text: its name, and what is left. -/
def openTag (word s : List Char) : Option (List Char × List Char) :=
  if word.isPrefixOf s then nameAttribute (s.drop word.length) else none

structure Opening where
  before : List Char
  name : List Char
  rest : List Char
deriving DecidableEq

/-- The first opening tag. -/
def findTag (word : List Char) : List Char → Option Opening
  | [] => none
  | c :: s =>
    match openTag word (c :: s) with
    | some r => some ⟨[], r.1, r.2⟩
    | none => (findTag word s).map fun o => { o with before := c :: o.before }

structure Element where
  name : List Char
  body : List Char
  closed : Bool
deriving DecidableEq

/-- The elements that `n` rounds find. -/
def elementsFrom (word close : List Char) : Nat → List Char → List Element
  | 0, _ => []
  | n + 1, s =>
    match findTag word s with
    | none => []
    | some o =>
      match splitOnce close o.rest with
      | none => [⟨o.name, o.rest, false⟩]
      | some r => ⟨o.name, r.1, true⟩ :: elementsFrom word close n r.2

def elements (word close s : List Char) : List Element := elementsFrom word close s.length s

abbrev Param := Element

def parseParams (body : List Char) : List Param := elements PARAM_OPEN PARAM_CLOSE body

structure Invoke where
  name : List Char
  params : List Param
  closed : Bool
deriving DecidableEq

def parseInvokes (text : List Char) : List Invoke :=
  (elements INVOKE_OPEN INVOKE_CLOSE text).map fun e => ⟨e.name, parseParams e.body, e.closed⟩

/-- Where the markup of the tool calls starts. -/
def contentEnd (text : List Char) : Nat :=
  let opened := (splitOnce CALLS_OPEN text).map fun r => r.1.length
  let invoked := (findTag INVOKE_OPEN text).map fun o => o.before.length
  match opened, invoked with
  | some a, some b => min a b
  | some a, none => a
  | none, some b => b
  | none, none => text.length

/-! The types of the parameters. -/

structure Tool (F : Type) where
  name : Option String
  parameters : Option (List (String × PyValue F))

abbrev ParamTypes := List (String × String)

section
variable {F : Type} (f : FloatTexts F)

def isZero (l : Json.NumLit) : Bool := (l.int ++ l.frac).all fun c => c = '0' || c = '.'

def isFalsy : PyValue F → Bool
  | .none => true
  | .bool b => !b
  | .int n => n = 0
  | .float (.finite x) => isZero (f.repr x)
  | .float _ => false
  | .str s => s.isEmpty
  | .list xs => xs.isEmpty
  | .dict m => m.isEmpty

def isNullType : PyValue F → Bool
  | .str s => s = "null"
  | _ => false

def asType : PyValue F → Option String
  | .str s => some s
  | _ => none

/-- The type that a schema declares; of several types, the first that is not `null`. -/
def declaredType : PyValue F → Option String
  | .dict schema =>
    match Json.Fields.get schema "type" with
    | some (.list ts) => (ts.find? fun t => !isNullType t).bind asType
    | some t => asType t
    | none => none
  | _ => none

/-- Nothing is returned where the properties have no items. -/
def paramTypes (tools : List (Tool F)) (name : List Char) : Option ParamTypes :=
  match tools.find? fun t => t.name = some (String.ofList name) with
  | none => some []
  | some tool =>
    match Json.Fields.get (tool.parameters.getD []) "properties" with
    | none => some []
    | some (.dict properties) =>
      some (properties.filterMap fun p => (declaredType p.2).map fun t => (p.1, t))
    | some properties => if isFalsy f properties then some [] else none

def tight (raw : List Char) : List Char :=
  let value := if raw.head? = some '\n' then raw.tail else raw
  if value.getLast? = some '\n' then value.dropLast else value

/-- Nothing is returned for a value that is no text of characters. -/
def coerce (raw : List Char) (declared : Option String) : Option (PyValue F) :=
  if declared = some "string" then some (.str (String.ofList (tight raw)))
  else
    match loads f (strip isSpace (tight raw)) with
    | .value v => some v
    | .surrogates => none
    | .invalid => some (.str (String.ofList (tight raw)))

def readParam (types : ParamTypes) (p : Param) : Option (String × PyValue F) :=
  let key := String.ofList p.name
  (coerce f p.body (Json.Fields.get types key)).map fun v => (key, v)

def arguments (types : ParamTypes) (params : List Param) :
    Option (List (String × PyValue F)) :=
  (params.mapM (readParam f types)).map fun es => Json.Fields.insertAll [] es

structure FunctionCall where
  name : List Char
  arguments : List Char
deriving DecidableEq

structure Extracted where
  toolsCalled : Bool
  toolCalls : List FunctionCall
  content : Option (List Char)
deriving DecidableEq

def toolCall (call : Invoke × ParamTypes) : Option FunctionCall :=
  (arguments f call.2 call.1.params).map fun m => ⟨call.1.name, dumps f (.dict m)⟩

/-- Each call with the types of its tool. -/
def typed (tools : List (Tool F)) (invokes : List Invoke) : Option (List (Invoke × ParamTypes)) :=
  invokes.mapM fun v => (paramTypes f tools v.name).map fun types => (v, types)

/-- Nothing is returned where an argument is no text of characters. -/
def extractToolCalls (tools : List (Tool F)) (modelOutput : List Char) : Option Extracted :=
  let text := contentOf modelOutput
  let invokes := parseInvokes text
  if invokes.isEmpty then some ⟨false, [], orNone text⟩
  else
    match typed f tools invokes with
    | none => some ⟨false, [], orNone text⟩
    | some calls =>
      (calls.mapM (toolCall f)).map fun toolCalls =>
        ⟨true, toolCalls, orNone (strip isSpace (text.take (contentEnd text)))⟩

/-! Streaming. -/

/-- The parameters that are complete, without the closing brace while the call is open. -/
def partialArguments (types : ParamTypes) (v : Invoke) : Option (List Char) :=
  ((v.params.filter fun p => p.closed).mapM (readParam f types)).map fun done =>
    '{' :: joinSpaced (dumpsEntries f done) ++ if v.closed then ['}'] else []

/-- A call that is streamed: its name, the arguments it is recorded with, and those sent. -/
structure StreamedCall where
  name : List Char
  arguments : Option (List Char)
  sent : List Char
deriving DecidableEq

structure CallDelta where
  index : Nat
  name : Option (List Char)
  arguments : Option (List Char)
deriving DecidableEq

def NEW_CALL : StreamedCall := ⟨[], none, []⟩

/-- The calls from `index` on. The deltas are lost where a step fails. -/
def streamCalls (tools : List (Tool F)) :
    Nat → List Invoke → List StreamedCall → Option (List StreamedCall × Option (List CallDelta))
  | _, [], calls => some (calls, some [])
  | index, v :: invokes, calls =>
    let call := calls.headD NEW_CALL
    if call.name.isEmpty ∧ v.name.isEmpty then some (call :: calls.tail, some [])
    else
      let named := if call.name.isEmpty then { call with name := v.name } else call
      let opened := if call.name.isEmpty then [⟨index, some v.name, none⟩] else []
      match paramTypes f tools v.name with
      | none => some (named :: calls.tail, none)
      | some types => do
        let arguments ← partialArguments f types v
        let recorded := if v.closed then arguments else arguments ++ ['}']
        let rest ← streamCalls tools (index + 1) invokes calls.tail
        if call.sent.isPrefixOf arguments ∧ arguments.length ≠ call.sent.length then
          let delta := ⟨index, none, some (arguments.drop call.sent.length)⟩
          some ({ named with arguments := some recorded, sent := arguments } :: rest.1,
            rest.2.map fun deltas => opened ++ delta :: deltas)
        else
          some ({ named with arguments := some recorded } :: rest.1,
            rest.2.map fun deltas => opened ++ deltas)

structure StreamState where
  sentContentIdx : Nat
  calls : List StreamedCall

def StreamState.init : StreamState := ⟨0, []⟩

structure ToolDelta where
  content : Option (List Char)
  toolCalls : List CallDelta
deriving DecidableEq

/-- The plain text that is not sent, less what may become markup. -/
def contentDelta (sentContentIdx : Nat) (text : List Char) : Option (List Char) × Nat :=
  let ready := if contentEnd text = text.length then holdBack text else text
  let stop := if contentEnd text = text.length then ready.length else contentEnd text
  if stop ≤ sentContentIdx then (none, sentContentIdx)
  else (orNone ((ready.take stop).drop sentContentIdx), stop)

def extractToolCallsStreaming (tools : List (Tool F)) (st : StreamState)
    (currentText : List Char) : Option (StreamState × Option ToolDelta) := do
  let text := contentOf currentText
  let content := contentDelta st.sentContentIdx text
  let streamed ← streamCalls f tools 0 (parseInvokes text) st.calls
  let delta := streamed.2.bind fun deltas =>
    if content.1.isSome ∨ !deltas.isEmpty then some ⟨content.1, deltas⟩ else none
  some (⟨content.2, streamed.1⟩, delta)

/-- The states and deltas of a stream, one text after another. -/
def streamTexts (tools : List (Tool F)) :
    StreamState → List (List Char) → Option (StreamState × List ToolDelta)
  | st, [] => some (st, [])
  | st, text :: texts => do
    let r ← extractToolCallsStreaming f tools st text
    let rest ← streamTexts tools r.1 texts
    some (rest.1, r.2.toList ++ rest.2)

end

end Atem

end LocalMind
