import LocalMind.Proxy.Synthesis

namespace LocalMind
set_option autoImplicit true
open Json

/-! The frames of an Anthropic stream. -/

structure SseFrame where
  event : String
  data : Value
  deriving DecidableEq

def blockIndex (index : Nat) : Value := .number (.posInt (UInt64.ofNat index))

def blockStart (index : Nat) (contentBlock : Value) : Value :=
  .object [("type", .string "content_block_start"), ("index", blockIndex index),
    ("content_block", contentBlock)]

def blockDelta (index : Nat) (delta : Value) : Value :=
  .object [("type", .string "content_block_delta"), ("index", blockIndex index),
    ("delta", delta)]

def buildContentBlockStopEvent (index : Nat) : Value :=
  .object [("type", .string "content_block_stop"), ("index", blockIndex index)]

def textBlock (blockType : String) : Value :=
  .object [("type", .string blockType), ("text", .string "")]

def buildContentBlockStartEvent (index : Nat) (blockType : String) : Value :=
  blockStart index (textBlock blockType)

def thinkingBlock (signature : Option String) : Value :=
  putSome (.object [("type", .string "thinking"), ("thinking", .string "")]) "signature"
    (signature.map .string)

def buildThinkingBlockStartEvent (index : Nat) (signature : Option String) : Value :=
  blockStart index (thinkingBlock signature)

def toolUseBlock (id name : String) : Value :=
  .object [("type", .string "tool_use"), ("id", .string id), ("name", .string name),
    ("input", .object [])]

def buildToolUseBlockStartEvent (index : Nat) (id name : String) : Value :=
  blockStart index (toolUseBlock id name)

/-- A delta of one string. -/
def stringDelta (kind field : String) (s : List Char) : Value :=
  .object [("type", .string kind), (field, .string (String.ofList s))]

def buildSignatureDeltaEvent (index : Nat) (signature : List Char) : Value :=
  blockDelta index (stringDelta "signature_delta" "signature" signature)

def buildContentBlockDeltaEvent (index : Nat) (deltaType : String) (text : List Char) : Value :=
  blockDelta index (stringDelta deltaType "text" text)

def buildThinkingBlockDeltaEvent (index : Nat) (thinking : List Char) : Value :=
  blockDelta index (stringDelta "thinking_delta" "thinking" thinking)

def buildToolUseBlockDeltaEvent (index : Nat) (partialJson : List Char) : Value :=
  blockDelta index (stringDelta "input_json_delta" "partial_json" partialJson)

def buildMessageStopEvent : Value := .object [("type", .string "message_stop")]

def startFrame (data : Value) : SseFrame := ⟨"content_block_start", data⟩

def deltaFrame (data : Value) : SseFrame := ⟨"content_block_delta", data⟩

def stopFrame (index : Nat) : SseFrame :=
  ⟨"content_block_stop", buildContentBlockStopEvent index⟩

/-! The grammar of the blocks. -/

/-- A block as a stream carries it: how it opens, and the deltas that follow. -/
structure StreamBlock where
  content : Value
  deltas : List Value

/-- One start, the deltas, one stop, all under one index. -/
def blockFrames (index : Nat) (b : StreamBlock) : List SseFrame :=
  startFrame (blockStart index b.content) ::
    (b.deltas.map fun d => deltaFrame (blockDelta index d)) ++ [stopFrame index]

/-- Whole blocks one after the other, with consecutive indices. -/
def numberedBlocks : Nat → List StreamBlock → List SseFrame
  | _, [] => []
  | index, b :: bs => blockFrames index b ++ numberedBlocks (index + 1) bs

theorem numberedBlocks_append (index : Nat) (xs ys : List StreamBlock) :
    numberedBlocks index (xs ++ ys) =
      numberedBlocks index xs ++ numberedBlocks (index + xs.length) ys := by
  induction xs generalizing index with
  | nil => rfl
  | cons b xs ih =>
    rw [List.cons_append, numberedBlocks, numberedBlocks, ih, List.append_assoc,
      List.length_cons, Nat.add_right_comm, Nat.add_assoc]

/-- The deltas of a block spell out a text. -/
def StreamBlock.Spells (b : StreamBlock) (kind field : String) (text : String) : Prop :=
  ∃ pieces : List (List Char), b.deltas = pieces.map (stringDelta kind field) ∧
    pieces.flatten = text.toList

end LocalMind
