import LocalMind.Text.Str

namespace LocalMind
set_option autoImplicit true
open Json

/-- The cap on indices that make the accumulator grow. -/
def MAX_TRACKED_BLOCK_INDEX : Nat := 100

/-! Accumulating OpenAI chunks. -/

def seedMessage : Value :=
  .object [("role", .string "assistant"), ("content", .null), ("tool_calls", .null)]

/-- The choice that later deltas accumulate into. -/
def seedChoice (choice : Value) : Value :=
  match choice with
  | .object obj =>
    let obj' := Fields.remove obj "delta"
    if (Fields.get obj "delta").isSome || (Fields.get obj' "message").isNone then
      .object (Fields.insert obj' "message" seedMessage)
    else .object obj'
  | choice => choice

/-- A name lands on a nameless function or completes a split name; a resend is skipped. -/
def mergeFunctionName (accFunc : List (String × Value)) (newFunc : Value) :
    List (String × Value) :=
  match (newFunc.get "name").bind Value.asStr with
  | some name =>
    if name = "" then accFunc
    else
      match Fields.get accFunc "name" with
      | some (.string existing) =>
        if existing = "" then Fields.insert accFunc "name" (.string name)
        else if existing = name then accFunc
        else Fields.insert accFunc "name" (.string (existing ++ name))
      | _ => Fields.insert accFunc "name" (.string name)
  | none => accFunc

def mergeFunctionArguments (accFunc : List (String × Value)) (newFunc : Value) :
    List (String × Value) :=
  match (newFunc.get "arguments").bind Value.asStr with
  | some args =>
    match Fields.get accFunc "arguments" with
    | some (.string existing) => Fields.insert accFunc "arguments" (.string (existing ++ args))
    | _ => Fields.insert accFunc "arguments" (.string args)
  | none => accFunc

/-- Merge a fragment into the slot of a call. -/
def mergeToolCallSlot (slot newCall : Value) : Except Panic Value :=
  match newCall.get "function" with
  | none => .ok slot
  | some newFunc =>
    match slot.get "function" with
    | none => slot.indexAssign "function" newFunc
    | some (.object accFunc) =>
      .ok (slot.put "function"
        (.object (mergeFunctionArguments (mergeFunctionName accFunc newFunc) newFunc)))
    | some _ => .ok slot

/-- Grow an array with nulls until an index is in it. -/
def padTo (arr : List Value) (idx : Nat) : List Value :=
  arr ++ List.replicate (idx + 1 - arr.length) .null

/-- A fragment without an index continues the last slot that is not null. -/
def mergeLast (arr : List Value) (newCall : Value) : Except Panic (List Value) :=
  match (arr.rdropWhile Value.isNull).getLast? with
  | some last => do
    let merged ← mergeToolCallSlot last newCall
    .ok ((arr.rdropWhile Value.isNull).dropLast ++ merged :: arr.rtakeWhile Value.isNull)
  | none => .ok (arr ++ [newCall])

def mergeToolCall (arr : List Value) (newCall : Value) : Except Panic (List Value) :=
  match (newCall.get "index").bind Value.asU64 with
  | some idx =>
    if idx.toNat > MAX_TRACKED_BLOCK_INDEX then .ok arr
    else
      let arr := padTo arr idx.toNat
      let slot := arr.getD idx.toNat .null
      if slot.isNull then .ok (arr.set idx.toNat newCall)
      else do
        let merged ← mergeToolCallSlot slot newCall
        .ok (arr.set idx.toNat merged)
  | none => mergeLast arr newCall

def mergeToolCalls (toolCalls accTc : Value) : Except Panic Value :=
  match accTc, toolCalls with
  | .null, _ => .ok toolCalls
  | .array accArr, .array newArr => (newArr.foldlM mergeToolCall accArr).map .array
  | _, _ => .ok accTc

/-- Append a text fragment to a field of the message. -/
def appendText (field text : String) (accMsg : Value) : Except Panic Value :=
  match accMsg.get field with
  | some (.string existing) => .ok (accMsg.put field (.string (existing ++ text)))
  | _ => accMsg.indexAssign field (.string text)

def mergeRole (accChoice delta : Value) : Except Panic Value :=
  match delta.get "role" with
  | some (.string role) => accChoice.updateM "message" fun m => m.indexAssign "role" (.string role)
  | _ => .ok accChoice

def mergeText (field : String) (accChoice delta : Value) : Except Panic Value :=
  match (delta.get field).bind Value.asStr with
  | some text => accChoice.updateM "message" (appendText field text)
  | none => .ok accChoice

def mergeOpaque (accChoice delta : Value) : Except Panic Value :=
  match delta.get "reasoning_opaque" with
  | some blob => accChoice.updateM "message" fun m => m.indexAssign "reasoning_opaque" blob
  | none => .ok accChoice

def mergeDeltaToolCalls (accChoice delta : Value) : Except Panic Value :=
  match delta.get "tool_calls" with
  | some toolCalls =>
    accChoice.updateM "message" fun m => m.updateM "tool_calls" (mergeToolCalls toolCalls)
  | none => .ok accChoice

def mergeDelta (accChoice delta : Value) : Except Panic Value := do
  let c ← mergeRole accChoice delta
  let c ← mergeText "content" c delta
  let c ← mergeText "reasoning_text" c delta
  let c ← mergeOpaque c delta
  mergeDeltaToolCalls c delta

def mergeFinish (accChoice choice : Value) : Except Panic Value :=
  match choice.get "finish_reason" with
  | some finish =>
    if finish.isNull then .ok accChoice else accChoice.indexAssign "finish_reason" finish
  | none => .ok accChoice

def mergeChoice (accChoice choice : Value) : Except Panic Value := do
  let c ← match choice.get "delta" with
    | some delta => mergeDelta accChoice delta
    | none => .ok accChoice
  mergeFinish c choice

/-- The loop over the choices of a chunk: the slot of a choice is its place in the chunk. -/
def mergeChoices (accChoices : List Value) (i : Nat) : List Value → Except Panic (List Value)
  | [] => .ok accChoices
  | choice :: rest => do
    let accChoices :=
      if accChoices.length = i then accChoices ++ [seedChoice choice] else accChoices
    let accChoices ← match accChoices[i]? with
      | some c => do
        let merged ← mergeChoice c choice
        .ok (accChoices.set i merged)
      | none => .ok accChoices
    mergeChoices accChoices (i + 1) rest

/-- A stats field of a chunk replaces the accumulated one. -/
def mergeStat (key : String) (skipNull : Bool) (chunk acc : Value) : Except Panic Value :=
  match chunk.get key with
  | some x => if skipNull && x.isNull then .ok acc else acc.indexAssign key x
  | none => .ok acc

/-- A null model or metrics never replaces a measured one. -/
def mergeStreamStats (acc chunk : Value) : Except Panic Value := do
  let acc ← mergeStat "usage" false chunk acc
  let acc ← mergeStat "model" true chunk acc
  let acc ← mergeStat "timings" false chunk acc
  mergeStat "metrics" true chunk acc

def mergeChunkChoices (acc chunk : Value) : Except Panic Value :=
  acc.updateM "choices" fun c =>
    match c, chunk.get "choices" with
    | .array accChoices, some (.array chunkChoices) =>
      (mergeChoices accChoices 0 chunkChoices).map .array
    | c, _ => .ok c

def mergeInto (acc chunk : Value) : Except Panic Value := do
  let acc ← mergeChunkChoices acc chunk
  mergeStreamStats acc chunk

/-- The accumulator a first chunk starts: its envelope without choices. -/
def envelope (chunk : Value) : Except Panic Value :=
  match chunk.get "choices" with
  | some (.array _) => .ok (chunk.put "choices" (.array []))
  | _ => chunk.indexAssign "choices" (.array [])

def mergeChunk (acc : Option Value) (chunk : Value) : Except Panic Value :=
  match acc with
  | none => do
    let acc ← envelope chunk
    mergeInto acc chunk
  | some acc => mergeInto acc chunk

def mergeChunks (acc : Option Value) (chunks : List Value) : Except Panic (Option Value) :=
  chunks.foldlM (fun acc chunk => (mergeChunk acc chunk).map some) acc

/-! Accumulating Anthropic events. -/

structure SseEvent where
  eventType : Option String
  data : Value

/-- The type of an event: its `event:` line, else the `type` of its data. -/
def SseEvent.kind (e : SseEvent) : String :=
  match e.eventType with
  | some t => t
  | none => ((e.data.get "type").bind Value.asStr).getD ""

def SseEvent.index (e : SseEvent) : Nat :=
  match (e.data.get "index").bind Value.asU64 with
  | some i => i.toNat
  | none => 0

def messageStart (message data : Value) : Except Panic Value :=
  match data.get "message" with
  | some msg =>
    if (msg.get "content").isNone then msg.indexAssign "content" (.array []) else .ok msg
  | none => .ok message

/-- Rewrite the content array of the message, where it has one. -/
def updateContent (message : Value) (f : List Value → List Value) : Value :=
  message.update "content" fun c =>
    match c with
    | .array content => .array (f content)
    | c => c

def contentBlockStart (message : Value) (e : SseEvent) : Value :=
  if e.index > MAX_TRACKED_BLOCK_INDEX then message
  else
    match e.data.get "content_block" with
    | some block => updateContent message fun content => (padTo content e.index).set e.index block
    | none => message

/-- The block a delta creates where none was started. -/
def blockOfDelta (delta : Value) : Value :=
  let deltaType := ((delta.get "type").bind Value.asStr).getD "text_delta"
  let blockType :=
    if deltaType = "thinking_delta" then "thinking"
    else if deltaType = "input_json_delta" then "tool_use"
    else "text"
  .object [("type", .string blockType)]

/-- Append a delta's text to the field of a block that collects it. -/
def appendField (obj : List (String × Value)) (delta : Value) (source field : String) :
    List (String × Value) :=
  match (delta.get source).bind Value.asStr with
  | some text =>
    match Fields.get obj field with
    | some (.string existing) => Fields.insert obj field (.string (existing ++ text))
    | _ => Fields.insert obj field (.string text)
  | none => obj

def mergeBlockDelta (block delta : Value) : Value :=
  let block := if block.isNull then blockOfDelta delta else block
  match block with
  | .object obj =>
    let obj := appendField obj delta "text" "text"
    let obj := appendField obj delta "thinking" "thinking"
    .object (appendField obj delta "partial_json" "input")
  | block => block

def contentBlockDelta (message : Value) (e : SseEvent) : Value :=
  if e.index > MAX_TRACKED_BLOCK_INDEX then message
  else
    match e.data.get "delta" with
    | some delta =>
      updateContent message fun content =>
        let content := padTo content e.index
        content.set e.index (mergeBlockDelta (content.getD e.index .null) delta)
    | none => message

def messageStop (message data : Value) : Except Panic Value :=
  match (data.get "delta").bind fun d => (d.get "stop_reason").bind Value.asStr with
  | some stop => message.indexAssign "stop_reason" (.string stop)
  | none => .ok message

/-- The usage of the message takes the output tokens of a later one. -/
def messageUsage (message data : Value) : Except Panic Value :=
  match data.get "usage" with
  | some usage =>
    match message.get "usage" with
    | some (.object obj) =>
      match usage.get "output_tokens" with
      | some outputTokens =>
        .ok (message.put "usage" (.object (Fields.insert obj "output_tokens" outputTokens)))
      | none => .ok message
    | some _ => .ok message
    | none => message.indexAssign "usage" usage
  | none => .ok message

def messageDelta (message data : Value) : Except Panic Value := do
  let message ← messageStop message data
  messageUsage message data

def mergeAnthropicEvent (message : Value) (e : SseEvent) : Except Panic Value :=
  match e.kind with
  | "message_start" => messageStart message e.data
  | "content_block_start" => .ok (contentBlockStart message e)
  | "content_block_delta" => .ok (contentBlockDelta message e)
  | "message_delta" => messageDelta message e.data
  -- stops, pings, errors and unknown events carry nothing to merge
  | _ => .ok message

def mergeAnthropicEvents (events : List SseEvent) : Except Panic Value :=
  events.foldlM mergeAnthropicEvent (.object [("content", .array [])])

end LocalMind
