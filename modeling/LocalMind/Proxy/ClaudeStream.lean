import LocalMind.Proxy.ClaudeFrames

namespace LocalMind
set_option autoImplicit true
open Json

/-! An OpenAI completion as an Anthropic stream. -/

/-- A finish reason in Anthropic's words. -/
def mapOpenaiFinishToStop (finish : String) : String :=
  if finish = "stop" then "end_turn"
  else if finish = "length" then "max_tokens"
  else if finish = "tool_calls" then "tool_use"
  else finish

/-- The usage of a body with the counts also under Anthropic's names. -/
def claudeUsage : Option Value → Value
  | some u =>
    putSome (putSome u "input_tokens" (u.get "prompt_tokens")) "output_tokens"
      (u.get "completion_tokens")
  | none => .object [("input_tokens", .number (.posInt 0)), ("output_tokens", .number (.posInt 0))]

/-- The loop over the choices: the frames so far, the next index, and whether there was a tool
call, and whether the choice at hand has a block. -/
structure BlockLoop where
  frames : List SseFrame
  idx : Nat
  hasToolUse : Bool
  emitted : Bool

namespace BlockLoop

/-- The frames of one block, whose index is then taken. -/
def emit (l : BlockLoop) (start : Value) (deltas : List Value) : BlockLoop :=
  { l with
    frames := l.frames ++ (startFrame start :: deltas.map deltaFrame ++ [stopFrame l.idx])
    idx := l.idx + 1
    emitted := true }

def reasoning (l : BlockLoop) (message : Value) (size : Nat) : BlockLoop :=
  match (message.get "reasoning_text").bind Value.asStr with
  | some reasoning =>
    if reasoning = "" then l
    else l.emit (buildThinkingBlockStartEvent l.idx none)
      ((splitChars reasoning.toList size).map (buildThinkingBlockDeltaEvent l.idx))
  | none => l

def content (l : BlockLoop) (message : Value) (size : Nat) : BlockLoop :=
  match message.get "content" with
  | some (.string text) =>
    if text = "" then l
    else l.emit (buildContentBlockStartEvent l.idx "text")
      ((splitChars text.toList size).map (buildContentBlockDeltaEvent l.idx "text_delta"))
  | some .null => l
  -- content of another shape passes through verbatim
  | some other => l.emit (blockStart l.idx other) []
  | none => l

def toolField (tc : Value) (field : String) : String :=
  (((tc.get "function").bind (·.get field)).bind Value.asStr).getD ""

/-- A tool call without an id gets a fresh one. -/
def toolUse (newId : Nat → String) (l : BlockLoop) (tc : Value) : BlockLoop :=
  let id := ((tc.get "id").bind Value.asStr).getD (newId l.idx)
  { l.emit (buildToolUseBlockStartEvent l.idx id (toolField tc "name"))
      [buildToolUseBlockDeltaEvent l.idx (toolField tc "arguments").toList] with
    hasToolUse := true }

def toolCalls (newId : Nat → String) (l : BlockLoop) (message : Value) : BlockLoop :=
  (((message.get "tool_calls").bind Value.asArray).getD []).foldl (toolUse newId) l

/-- The blocks of one choice; a choice without any gets an empty text. -/
def choice (newId : Nat → String) (size : Nat) (l : BlockLoop) (choice : Value) :
    Option BlockLoop :=
  match choice.get "message" with
  | some (.object fields) =>
    let message := Value.object fields
    let l := toolCalls newId
      (({ l with emitted := false }.reasoning message size).content message size) message
    some (if l.emitted then l else l.emit (buildContentBlockStartEvent l.idx "text") [])
  | _ => none

end BlockLoop

def messageRole (message : Value) : String :=
  ((message.get "role").bind Value.asStr).getD "assistant"

/-- The message that opens the stream, under the unknown top-level fields. -/
def claudeMessage (info : StreamMeta) (role : String) (usage : Value) : Value :=
  .object (Fields.insertAll
    [("id", .string info.id), ("type", .string "message"), ("role", .string role),
      ("model", .string info.model), ("content", .array []), ("stop_reason", .null),
      ("stop_sequence", .null), ("usage", usage)] info.extras)

def stopReasonOf (choices : List Value) (hasToolUse : Bool) : String :=
  match (choices.getLast?.bind (·.get "finish_reason")).bind Value.asStr with
  | some finish => mapOpenaiFinishToStop finish
  | none => if hasToolUse then "tool_use" else "end_turn"

def messageDeltaEvent (stopReason usage : Value) : Value :=
  .object [("type", .string "message_delta"), ("delta", .object [("stop_reason", stopReason),
    ("stop_sequence", .null)]), ("usage", usage)]

/-- The stream of a body; no frames at all for a body that is rejected. -/
def convertOpenaiToClaudeSse (now : Int64) (newId : Nat → String) (raw : Value)
    (chunkSizeChars : Nat) : List SseFrame :=
  match parseRawCompletion now raw with
  | .error _ => []
  | .ok parsed =>
    let usage := claudeUsage parsed.usage
    match parsed.choices.head?.bind (·.get "message") with
    | none => []
    | some firstMsg =>
      let message := claudeMessage parsed.streamMeta (messageRole firstMsg) usage
      let first : SseFrame := ⟨"message_start",
        .object [("type", .string "message_start"), ("message", message)]⟩
      match parsed.choices.foldlM (BlockLoop.choice newId chunkSizeChars)
        ⟨[first], 0, false, false⟩ with
      | none => []
      | some l =>
        l.frames ++ [⟨"message_delta", messageDeltaEvent
          (.string (stopReasonOf parsed.choices l.hasToolUse)) usage⟩,
          ⟨"message_stop", buildMessageStopEvent⟩]

end LocalMind
