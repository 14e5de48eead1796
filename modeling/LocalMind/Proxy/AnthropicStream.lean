import LocalMind.Api.Anthropic
import LocalMind.Json.Print
import LocalMind.Proxy.ClaudeFrames

namespace LocalMind
set_option autoImplicit true
open Json

/-! Streaming a complete Anthropic message. -/

/-- The message that opens the stream. -/
def opened (msg : AnthropicMessage) : Value :=
  .object [("id", .string msg.id), ("type", .string "message"), ("role", .string msg.role),
    ("model", .string msg.model), ("content", .array []), ("stop_reason", .null),
    ("stop_sequence", .null), ("usage", .object [("input_tokens", u64 msg.usage.inputTokens),
      ("output_tokens", u64 0)])]

def buildMessageStartEvent (msg : AnthropicMessage) : Value :=
  .object [("type", .string "message_start"), ("message", opened msg)]

/-- The stop reason of a message whose backend gave none. -/
def deriveStopReason (msg : AnthropicMessage) : String :=
  if msg.content.any AnthropicContentBlock.isToolUse then "tool_use" else "end_turn"

def buildMessageDeltaEvent (msg : AnthropicMessage) : Value :=
  .object [("type", .string "message_delta"),
    ("delta", .object [
      ("stop_reason", orNull .string (msg.stopReason.or (some (deriveStopReason msg)))),
      ("stop_sequence", orNull .string msg.stopSequence)]),
    ("usage", .object [("output_tokens", u64 msg.usage.outputTokens)])]

def toolResultBlock (toolUseId : String) (content : Value) (isError : Option Bool) : Value :=
  putSome (.object [("type", .string "tool_result"), ("tool_use_id", .string toolUseId),
    ("content", content)]) "is_error" (isError.map .bool)

/-- The frames of one block. -/
def synthesizeBlock (codec : FloatCodec) (chunkSizeChars idx : Nat) :
    AnthropicContentBlock → List SseFrame
  | .text text =>
    startFrame (buildContentBlockStartEvent idx "text") ::
      ((splitChars text.toList chunkSizeChars).map fun textChunk =>
        deltaFrame (buildContentBlockDeltaEvent idx "text_delta" textChunk)) ++ [stopFrame idx]
  | .thinking thinking signature =>
    startFrame (buildThinkingBlockStartEvent idx signature) ::
      ((splitChars thinking.toList chunkSizeChars).map fun thinkingChunk =>
        deltaFrame (buildThinkingBlockDeltaEvent idx thinkingChunk)) ++
      (match signature with
        | some sig => [deltaFrame (buildSignatureDeltaEvent idx sig.toList)]
        | none => []) ++ [stopFrame idx]
  | .toolUse id name input =>
    [startFrame (buildToolUseBlockStartEvent idx id name),
      deltaFrame (buildToolUseBlockDeltaEvent idx (print codec input)), stopFrame idx]
  -- tool results and unknown blocks pass through verbatim, without deltas
  | .toolResult toolUseId content isError =>
    [startFrame (blockStart idx (toolResultBlock toolUseId content isError)), stopFrame idx]
  | .other value => [startFrame (blockStart idx value), stopFrame idx]

/-- The frames of the blocks from a place on. -/
def synthesizeBlocks (codec : FloatCodec) (chunkSizeChars idx : Nat) :
    List AnthropicContentBlock → List SseFrame
  | [] => []
  | block :: rest =>
    synthesizeBlock codec chunkSizeChars idx block ++
      synthesizeBlocks codec chunkSizeChars (idx + 1) rest

def synthesizeAnthropicChunks (codec : FloatCodec) (msg : AnthropicMessage)
    (chunkSizeChars : Nat) : List SseFrame :=
  ⟨"message_start", buildMessageStartEvent msg⟩ ::
    synthesizeBlocks codec chunkSizeChars 0 msg.content ++
    [⟨"message_delta", buildMessageDeltaEvent msg⟩, ⟨"message_stop", buildMessageStopEvent⟩]

/-! The stream of a block. -/

/-- How a block opens, and its deltas. -/
def streamBlock (codec : FloatCodec) (size : Nat) : AnthropicContentBlock → StreamBlock
  | .text text =>
    ⟨textBlock "text", (splitChars text.toList size).map (stringDelta "text_delta" "text")⟩
  | .thinking thinking signature =>
    ⟨thinkingBlock signature,
      (splitChars thinking.toList size).map (stringDelta "thinking_delta" "thinking") ++
        (signature.map fun s => stringDelta "signature_delta" "signature" s.toList).toList⟩
  | .toolUse id name input =>
    ⟨toolUseBlock id name, [stringDelta "input_json_delta" "partial_json" (print codec input)]⟩
  | .toolResult toolUseId content isError => ⟨toolResultBlock toolUseId content isError, []⟩
  | .other value => ⟨value, []⟩

theorem synthesizeBlock_eq (codec : FloatCodec) (size idx : Nat) (block : AnthropicContentBlock) :
    synthesizeBlock codec size idx block = blockFrames idx (streamBlock codec size block) := by
  cases block with
  | text text =>
    rw [blockFrames, streamBlock, List.map_map]
    rfl
  | thinking thinking signature =>
    cases signature with
    | none =>
      rw [blockFrames, streamBlock, List.map_append, List.map_map]
      rfl
    | some sig =>
      rw [blockFrames, streamBlock, List.map_append, List.map_map]
      rfl
  | toolUse id name input => rfl
  | toolResult toolUseId content isError => rfl
  | other value => rfl

theorem synthesizeBlocks_eq (codec : FloatCodec) (size idx : Nat)
    (content : List AnthropicContentBlock) :
    synthesizeBlocks codec size idx content =
      numberedBlocks idx (content.map (streamBlock codec size)) := by
  induction content generalizing idx with
  | nil => rfl
  | cons block rest ih =>
    rw [synthesizeBlocks, List.map_cons, numberedBlocks, synthesizeBlock_eq, ih]

end LocalMind
