import LocalMind.Proxy.Merge

namespace LocalMind
set_option autoImplicit true
open Json

/-! Streaming a complete response. -/

/-- What every synthesized chunk of one response carries. -/
structure StreamMeta where
  id : String
  created : Int64
  model : String
  /-- the top-level fields the proxy does not know -/
  extras : List (String × Value)

structure RawCompletion where
  streamMeta : StreamMeta
  choices : List Value
  usage : Option Value
  timings : Option Value

/-- The data of an event: a JSON payload or the terminator. -/
inductive Event where
  | json (v : Value)
  | done

def asI64 : Value → Option Int64
  | .number (.posInt n) => if n.toNat < 2 ^ 63 then some (Int64.ofNat n.toNat) else none
  | .number (.negInt n) => some n
  | _ => none

def numberOfI64 (n : Int64) : Value :=
  if n < 0 then .number (.negInt n) else .number (.posInt n.toUInt64)

def isU64 (v : Value) : Bool := v.asU64.isSome

def requireSome (x : Option α) (msg : String) : Except String α :=
  match x with
  | some a => .ok a
  | none => .error msg

def require (ok : Bool) (msg : String) : Except String Unit := if ok then .ok () else .error msg

def checkChoice (c : Value) : Except String Unit := do
  let co ← requireSome c.asObject "choices[] entry is not an object"
  let _ ← requireSome ((Fields.get co "message").bind Value.asObject)
    "choices[] entry has no message object"
  require ((Fields.get co "index").all isU64)
    "choices[].index is present but not a non-negative integer"
  require ((Fields.get co "finish_reason").all fun f => f.isNull || f.isString)
    "choices[].finish_reason is present but not a string or null"

/-- The top-level fields a completion is known by. -/
def knownFields : List String :=
  ["id", "object", "created", "model", "choices", "usage", "timings"]

def extrasOf (obj : List (String × Value)) : List (String × Value) :=
  Fields.insertAll [] (obj.filter fun e => !knownFields.contains e.1)

def parseRawCompletion (now : Int64) (raw : Value) : Except String RawCompletion := do
  let obj ← requireSome raw.asObject "response is not a JSON object"
  let id ← requireSome ((Fields.get obj "id").bind Value.asStr) "response has no string id"
  let model ← requireSome ((Fields.get obj "model").bind Value.asStr)
    "response has no string model"
  let choices ← requireSome ((Fields.get obj "choices").bind Value.asArray)
    "response has no choices array"
  require (!choices.isEmpty) "response has an empty choices array"
  choices.forM checkChoice
  .ok {
    streamMeta := {
      id
      created := ((Fields.get obj "created").bind asI64).getD now
      model
      extras := extrasOf obj
    }
    choices
    usage := (Fields.get obj "usage").filter Value.isObject
    timings := (Fields.get obj "timings").filter Value.isObject
  }

def chunkEnvelope (info : StreamMeta) (delta finishReason : Value) (idx : UInt64) : Value :=
  .object (Fields.insertAll
    [("id", .string info.id), ("object", .string "chat.completion.chunk"),
      ("created", numberOfI64 info.created), ("model", .string info.model),
      ("choices", .array [.object [("index", .number (.posInt idx)), ("delta", delta),
        ("finish_reason", finishReason)]])] info.extras)

def FINISH_EVENT : String := "finish_reason"

/-- The one envelope of a chunk: the data goes into the delta, a finish reason beside it. -/
def sseEnvelope (info : StreamMeta) (event : String) (data : Value) (idx : UInt64) : Value :=
  if event = FINISH_EVENT then chunkEnvelope info (.object []) data idx
  else chunkEnvelope info (.object [(event, data)]) .null idx

/-- The first piece of a text: up to `n` characters, cut after the last whitespace among them
where the text goes on. -/
def nextPiece (n : Nat) (rest : List Char) : List Char :=
  if n < rest.length then
    match (rest.take n).rdropWhile fun c => !Text.isWhitespace c with
    | [] => rest.take n
    | w => w
  else rest

def splitFrom (n : Nat) : Nat → List Char → List (List Char)
  | 0, _ => []
  | fuel + 1, rest =>
    if rest.isEmpty then []
    else nextPiece n rest :: splitFrom n fuel (rest.drop (nextPiece n rest).length)

/-- A budget of zero still moves one character at a time. -/
def splitChars (text : List Char) (maxSize : Nat) : List (List Char) :=
  if text.length ≤ maxSize then [text] else splitFrom (max maxSize 1) text.length text

/-- A chunk for a field of the message, where it is a string. -/
def stringChunk (info : StreamMeta) (event : String) (message : Value) (idx : UInt64) :
    List Value :=
  match (message.get event).bind Value.asStr with
  | some s => [sseEnvelope info event (.string s) idx]
  | none => []

def contentChunks (info : StreamMeta) (message : Value) (idx : UInt64) (chunkSizeChars : Nat) :
    List Value :=
  match message.get "content" with
  | some (.string text) =>
    if text = "" then []
    else (splitChars text.toList chunkSizeChars).map fun piece =>
      sseEnvelope info "content" (.string (String.ofList piece)) idx
  | some .null => []
  -- content of another shape rides one frame verbatim
  | some other => [sseEnvelope info "content" other idx]
  | none => []

/-- The tool calls of a message, where there are any. -/
def toolCallsOf (message : Value) : Option (List Value) :=
  ((message.get "tool_calls").bind Value.asArray).filter fun tools => !tools.isEmpty

def toolCallsChunk (info : StreamMeta) (message : Value) (idx : UInt64) : List Value :=
  match toolCallsOf message with
  | some tools => [sseEnvelope info "tool_calls" (.array tools) idx]
  | none => []

/-- The finish reason of a choice, or an honest one where it has none. -/
def finishReasonOf (choice message : Value) : String :=
  ((choice.get "finish_reason").bind Value.asStr).getD
    (if (toolCallsOf message).isSome then "tool_calls" else "stop")

def putSome (v : Value) (k : String) (x : Option Value) : Value :=
  match x with
  | some x => v.put k x
  | none => v

def finalChunk (info : StreamMeta) (choice message : Value) (idx : UInt64)
    (usage timings : Option Value) : Value :=
  putSome (putSome (sseEnvelope info FINISH_EVENT (.string (finishReasonOf choice message)) idx)
    "usage" usage) "timings" timings

def synthesizeChoiceChunks (info : StreamMeta) (choice : Value) (idx : UInt64)
    (usage timings : Option Value) (chunkSizeChars : Nat) : List Value :=
  match choice.get "message" with
  | some (.object fields) =>
    let message := Value.object fields
    stringChunk info "role" message idx ++ stringChunk info "reasoning_text" message idx ++
      stringChunk info "reasoning_opaque" message idx ++
      contentChunks info message idx chunkSizeChars ++ toolCallsChunk info message idx ++
      [finalChunk info choice message idx usage timings]
  | _ => []

/-- The chunks of the choices from a place on; the stats ride the last one. -/
def synthesizeFrom (parsed : RawCompletion) (chunkSizeChars pos : Nat) :
    List Value → List Value
  | [] => []
  | choice :: rest =>
    let idx := ((choice.get "index").bind Value.asU64).getD (UInt64.ofNat pos)
    let isLast := rest.isEmpty
    synthesizeChoiceChunks parsed.streamMeta choice idx (if isLast then parsed.usage else none)
      (if isLast then parsed.timings else none) chunkSizeChars ++
      synthesizeFrom parsed chunkSizeChars (pos + 1) rest

def synthesizeOpenaiChunks (parsed : RawCompletion) (chunkSizeChars : Nat) : List Event :=
  (synthesizeFrom parsed chunkSizeChars 0 parsed.choices).map .json ++ [.done]

/-- What the accumulator is fed: the payloads, without the terminator. -/
def payloads (events : List Event) : List Value :=
  events.filterMap fun e =>
    match e with
    | .json v => some v
    | .done => none

/-! Splitting a text. -/

theorem nextPiece_isPrefix (n : Nat) (rest : List Char) : nextPiece n rest <+: rest := by
  rw [nextPiece]
  split
  · have ht := List.take_prefix n rest
    split
    · exact ht
    · exact (List.rdropWhile_prefix _ _).trans ht
  · exact List.prefix_rfl

theorem nextPiece_ne_nil (hn : 0 < n) (h : rest ≠ []) : nextPiece n rest ≠ [] := by
  rw [nextPiece]
  split
  · split
    · simp [h, Nat.ne_of_gt hn]
    · next hw => exact hw
  · exact h

theorem splitFrom_flatten (hn : 0 < n) (h : rest.length ≤ fuel) :
    (splitFrom n fuel rest).flatten = rest := by
  induction fuel generalizing rest with
  | zero =>
    rw [splitFrom, List.eq_nil_of_length_eq_zero (Nat.le_zero.1 h)]
    rfl
  | succ fuel ih =>
    rw [splitFrom]
    by_cases hr : rest = []
    · rw [hr]
      rfl
    · have hp := nextPiece_isPrefix n rest
      have hpos := List.length_pos_iff.2 (nextPiece_ne_nil hn hr)
      rw [if_neg (by simpa using hr), List.flatten_cons, ih (by rw [List.length_drop]; omega)]
      exact List.prefix_iff_eq_append.1 hp

/-- The pieces of a text are the text, whatever the budget. -/
theorem splitChars_flatten (text : List Char) (maxSize : Nat) :
    (splitChars text maxSize).flatten = text := by
  rw [splitChars]
  split
  · exact List.append_nil text
  · exact splitFrom_flatten (by omega) (Nat.le_refl _)

end LocalMind
