import LocalMind.Proxy.Merge

namespace LocalMind
set_option autoImplicit true
open Json

/-! Reading a response. -/

def firstChoice (response : Value) : Option Value :=
  ((response.get "choices").bind Value.asArray).bind List.head?

def hasToolCalls (choice : Value) : Bool :=
  (((choice.get "message").bind fun m => m.get "tool_calls").bind Value.asArray).any
    fun calls => !calls.isEmpty

/-- A stop without tool calls. -/
def shouldTrigger (response : Value) : Bool :=
  match firstChoice response with
  | some first =>
    (first.get "finish_reason").bind Value.asStr == some "stop" && !hasToolCalls first
  | none => false

/-- Tool calls, or a finish reason that is no stop. -/
def hasContinuation (response : Value) : Bool :=
  match firstChoice response with
  | some first =>
    hasToolCalls first || ((first.get "finish_reason").bind Value.asStr).getD "stop" != "stop"
  | none => false

def hasAssistantMessage (response : Value) : Bool :=
  ((firstChoice response).bind fun c => c.get "message").any Value.isObject

def contentText (message : Value) : String :=
  match message.get "content" with
  | some (.string s) => s
  | some (.array parts) => String.join (parts.filterMap fun p => (p.get "text").bind Value.asStr)
  | _ => ""

def isBlank (text : String) : Bool := (Text.trim text.toList).isEmpty

/-- The text of the content, or of the reasoning where the content is blank. -/
def extractAssistantText (response : Value) : String :=
  match (firstChoice response).bind fun c => c.get "message" with
  | some message =>
    if !isBlank (contentText message) then contentText message
    else
      (((message.get "reasoning_content").or (message.get "reasoning_text")).bind
        Value.asStr).getD ""
  | none => ""

/-- The names of tools that can change something. -/
def MUTATING_TOOL_NAMES : List String :=
  ["apply_patch", "applypatch", "bash", "edit", "multiedit", "notebookedit", "patch",
    "run_command", "shell", "str_replace_editor", "task", "todowrite", "write"]

def toolName (tool : Value) : List Char :=
  (((((tool.get "function").bind fun f => f.get "name").or (tool.get "name")).bind
    Value.asStr).getD "").toList

def isMutating (tool : Value) : Bool :=
  MUTATING_TOOL_NAMES.any fun keyword =>
    Text.contains (Text.toAsciiLower (toolName tool)) keyword.toList

/-- The request offers tools, and none that can change anything. -/
def requestIsReadOnly (request : Value) : Bool :=
  match (request.get "tools").bind Value.asArray with
  | some tools => !tools.isEmpty && !tools.any isMutating
  | none => false

/-! Writing a response. -/

/-- Overwrite the content of the first message; refused where no object or null is there. -/
def setAssistantText (response : Value) (text : String) : Except Panic (Option Value) :=
  match response.get "choices" with
  | some (.array (choice :: rest)) =>
    match choice.get "message" with
    | some message =>
      if !message.isObject && !message.isNull then .ok none
      else do
        let message ← message.indexAssign "content" (.string text)
        .ok (some (response.put "choices" (.array (choice.put "message" message :: rest))))
    | none => .ok none
  | _ => .ok none

def assistantMessage (text : String) : Value :=
  .object [("role", .string "assistant"), ("content", .string text)]

/-- Install an assistant message, whatever the body looked like. -/
def forceAssistantText (response : Value) (text : String) : Except Panic Value :=
  let response := if response.isObject then response else .object []
  match response.get "choices" with
  | some (.array (choice :: rest)) => do
    let choice ← choice.indexAssign "message" (assistantMessage text)
    .ok (response.put "choices" (.array (choice :: rest)))
  | _ =>
    response.indexAssign "choices" (.array [.object [("finish_reason", .string "stop"),
      ("message", assistantMessage text)]])

def pushText (collected : List String) (text : String) : List String :=
  if !isBlank text then collected ++ [text] else collected

def joinTexts (collected : List String) : String := String.intercalate "\n\n" collected

/-- The stopped turn carrying every text collected along the way. -/
def finishStop (cleanStop : Value) (collected : List String) : Except Panic Value :=
  let text := joinTexts collected
  if text ≠ "" then do
    match ← setAssistantText cleanStop text with
    | some body => .ok body
    | none => forceAssistantText cleanStop text
  else if !hasAssistantMessage cleanStop then forceAssistantText cleanStop ""
  else .ok cleanStop

/-! The loop. -/

/-- The overrides of a backend node that a follow-up takes over. -/
structure BackendNode where
  model : Option String
  /-- the bits of a binary64 -/
  temperature : Option UInt64

/-- A float is a number where it is finite. -/
def valueOfF64 (bits : UInt64) : Value :=
  if (bits >>> 52) &&& 0x7FF = 0x7FF then .null else .number (.float bits)

structure RepromptEngine where
  maxRetries : Nat
  doneSentinels : List String
  skipReadOnlyRequests : Bool

def assignSome (v : Value) (key : String) (x : Option Value) : Except Panic Value :=
  match x with
  | some x => v.indexAssign key x
  | none => .ok v

def removeKey (v : Value) (key : String) : Value :=
  match v with
  | .object obj => .object (Fields.remove obj key)
  | v => v

/-- The follow-up request: the original, the stopped turn and the prompt. There is none for a
request without a conversation. -/
def buildFollowUp (prompt : String) (original stopped : Value) (backend : BackendNode) :
    Except Panic (Option Value) := do
  let req ← original.indexAssign "stream" (.bool false)
  let req ← assignSome (removeKey req "stream_options") "model" (backend.model.map .string)
  let req ← assignSome req "temperature" (backend.temperature.map valueOfF64)
  match req.get "messages" with
  | some (.array (m :: msgs)) =>
    .ok (some (req.put "messages" (.array (m :: msgs ++
      [assistantMessage (extractAssistantText stopped),
        .object [("role", .string "user"), ("content", .string prompt)]]))))
  | _ => .ok none

/-- What comes back for a follow-up. -/
inductive Outcome where
  | response (v : Value)
  | failed
  | timedOut

/-- What the loop meets: whether time is left before a round, and what a request brings. -/
structure Rounds where
  timeLeft : Nat → Bool
  send : Nat → Value → Outcome

/-- What a run returns, with the follow-ups it sent and the responses it received. -/
structure Run where
  body : Value
  sent : List Value
  received : List Value

/-- A run on its way. -/
structure Progress where
  current : Value
  collected : List String
  sent : List Value
  received : List Value

def Progress.finish (p : Progress) (cleanStop : Value) : Except Panic Run :=
  (finishStop cleanStop p.collected).map fun body => ⟨body, p.sent, p.received⟩

def anthropicHasContinuation (text sentinel : String) : Bool :=
  !Text.contains text.toList sentinel.toList

/-- A follow-up that brings nothing. -/
def Progress.lose (p : Progress) (req : Value) : Progress := { p with sent := p.sent ++ [req] }

/-- The response with its text, taken into a run. -/
def Progress.receive (p : Progress) (req newResp : Value) : Progress where
  current := newResp
  collected := pushText p.collected (extractAssistantText newResp)
  sent := p.sent ++ [req]
  received := p.received ++ [newResp]

/-- A response ends the run with itself, ends it with the stopped turn, or leaves it going. -/
def receiveRound (engine : RepromptEngine) (cleanStop : Value) (p : Progress)
    (req newResp : Value) : Except Panic (Run ⊕ Progress) :=
  let q := p.receive req newResp
  -- a continuation outranks the sentinel
  if hasContinuation newResp then do
    match ← setAssistantText newResp (joinTexts q.collected) with
    | some merged => .ok (.inl ⟨merged, q.sent, q.received⟩)
    | none => (q.finish cleanStop).map .inl
  else if engine.doneSentinels.any fun s =>
      !anthropicHasContinuation (extractAssistantText newResp) s then
    (q.finish cleanStop).map .inl
  else .ok (.inr q)

def repromptRound (engine : RepromptEngine) (prompt : String) (backend : BackendNode)
    (rounds : Rounds) (request cleanStop : Value) (attempt : Nat) (p : Progress) :
    Except Panic (Run ⊕ Progress) :=
  if !rounds.timeLeft attempt then (p.finish cleanStop).map .inl
  else do
    match ← buildFollowUp prompt request p.current backend with
    | none => (p.finish cleanStop).map .inl
    | some req =>
      match rounds.send attempt req with
      | .failed | .timedOut => ((p.lose req).finish cleanStop).map .inl
      | .response newResp => receiveRound engine cleanStop p req newResp

/-- The rounds of a run, for the retries left. -/
def repromptLoop (engine : RepromptEngine) (prompt : String) (backend : BackendNode)
    (rounds : Rounds) (request cleanStop : Value) : Nat → Nat → Progress → Except Panic Run
  | 0, _, p => p.finish cleanStop
  | n + 1, attempt, p => do
    match ← repromptRound engine prompt backend rounds request cleanStop attempt p with
    | .inl run => .ok run
    | .inr q => repromptLoop engine prompt backend rounds request cleanStop n (attempt + 1) q

def maybeReprompt (engine : RepromptEngine) (prompt : String) (backend : BackendNode)
    (rounds : Rounds) (original request : Value) : Except Panic Run :=
  if !shouldTrigger original then .ok ⟨original, [], []⟩
  else if engine.skipReadOnlyRequests && requestIsReadOnly request then .ok ⟨original, [], []⟩
  else
    repromptLoop engine prompt backend rounds request original engine.maxRetries 0
      ⟨original, pushText [] (extractAssistantText original), [], []⟩

end LocalMind
