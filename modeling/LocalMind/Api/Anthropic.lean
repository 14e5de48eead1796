import LocalMind.Json.Codec

namespace LocalMind
set_option autoImplicit true
open Json

/-! The messages of the Anthropic API. -/

/-- A content block. An unknown one, or a known one of another shape, is kept whole. -/
inductive AnthropicContentBlock where
  | text (text : String)
  | thinking (thinking : String) (signature : Option String)
  | toolUse (id name : String) (input : Value)
  | toolResult (toolUseId : String) (content : Value) (isError : Option Bool)
  | other (raw : Value)

structure AnthropicUsage where
  inputTokens : UInt64
  outputTokens : UInt64

structure AnthropicMessage where
  id : String
  messageType : String
  role : String
  content : List AnthropicContentBlock
  model : String
  stopReason : Option String
  stopSequence : Option String
  usage : AnthropicUsage

def AnthropicContentBlock.isToolUse : AnthropicContentBlock → Bool
  | .toolUse .. => true
  | _ => false

/-! Content blocks on the wire. -/

def stringAt (v : Value) (field : String) : String := ((v.get field).bind Value.asStr).getD ""

/-- The tag of a block, and what its fields are read from. -/
def wireTag : Value → Option (String × Value)
  | .object m => ((Fields.get m "type").bind Value.asStr).map (·, .object m)
  | .array (tag :: rest) => tag.asStr.map (·, .array rest)
  | _ => none

/-- The fields of the known shapes. -/
def wireFields (tag : String) : List String :=
  match tag with
  | "text" => ["text"]
  | "thinking" => ["thinking", "signature"]
  | "tool_use" => ["id", "name", "input"]
  | "tool_result" => ["tool_use_id", "content", "is_error"]
  | _ => []

def wireShape (tag : String) (field : String → Option Value) : Option AnthropicContentBlock :=
  match tag with
  | "text" => do
    let text ← required Value.asStr (field "text")
    some (.text text)
  | "thinking" => do
    let thinking ← required Value.asStr (field "thinking")
    let signature ← orDefault (nullable Value.asStr) none (field "signature")
    some (.thinking thinking signature)
  | "tool_use" => do
    let id ← required Value.asStr (field "id")
    let name ← required Value.asStr (field "name")
    let input ← required some (field "input")
    some (.toolUse id name input)
  | "tool_result" => do
    let toolUseId ← required Value.asStr (field "tool_use_id")
    let content ← required some (field "content")
    let isError ← orDefault (nullable Value.asBool) none (field "is_error")
    some (.toolResult toolUseId content isError)
  | _ => none

/-- A block of a known shape. -/
def wireBlock (raw : Value) : Option AnthropicContentBlock := do
  let (tag, content) ← wireTag raw
  if shaped (wireFields tag) content then wireShape tag (member (wireFields tag) content)
  else none

def AnthropicContentBlock.deserialize (raw : Value) : AnthropicContentBlock :=
  (wireBlock raw).getD (.other raw)

def AnthropicContentBlock.serialize : AnthropicContentBlock → Value
  | .text s => .object [("type", .string "text"), ("text", .string s)]
  | .thinking s signature => .object [("type", .string "thinking"), ("thinking", .string s),
      ("signature", orNull .string signature)]
  | .toolUse id name input => .object [("type", .string "tool_use"), ("id", .string id),
      ("name", .string name), ("input", input)]
  | .toolResult toolUseId content isError => .object [("type", .string "tool_result"),
      ("tool_use_id", .string toolUseId), ("content", content), ("is_error", orNull .bool isError)]
  | .other raw => raw

/-! Messages on the wire. -/

def usageFields : List String := ["input_tokens", "output_tokens"]

def AnthropicUsage.deserialize (v : Value) : Option AnthropicUsage :=
  if shaped usageFields v then do
    let inputTokens ← orDefault Value.asU64 0 (member usageFields v "input_tokens")
    let outputTokens ← orDefault Value.asU64 0 (member usageFields v "output_tokens")
    some ⟨inputTokens, outputTokens⟩
  else none

def messageFields : List String :=
  ["id", "type", "role", "content", "model", "stop_reason", "stop_sequence", "usage"]

def deserializeContent (v : Value) : Option (List AnthropicContentBlock) :=
  v.asArray.map (·.map AnthropicContentBlock.deserialize)

def AnthropicMessage.deserialize (v : Value) : Option AnthropicMessage :=
  let field := member messageFields v
  if shaped messageFields v then do
    let id ← required Value.asStr (field "id")
    let messageType ← required Value.asStr (field "type")
    let role ← required Value.asStr (field "role")
    let content ← orDefault deserializeContent [] (field "content")
    let model ← required Value.asStr (field "model")
    let stopReason ← orDefault (nullable Value.asStr) none (field "stop_reason")
    let stopSequence ← orDefault (nullable Value.asStr) none (field "stop_sequence")
    let usage ← orDefault AnthropicUsage.deserialize ⟨0, 0⟩ (field "usage")
    some { id, messageType, role, content, model, stopReason, stopSequence, usage }
  else none

/-! What a block was read from. -/

theorem stringAt_of_get {v : Value} (h : v.get field = some (.string s)) :
    stringAt v field = s := by
  rw [stringAt, h]
  rfl

/-- The fields of an object that reads as a block of a known shape. -/
inductive WireOf (m : List (String × Value)) : AnthropicContentBlock → Prop
  | text (htag : Fields.get m "type" = some (.string "text"))
      (htext : Fields.get m "text" = some (.string text)) : WireOf m (.text text)
  | thinking (htag : Fields.get m "type" = some (.string "thinking"))
      (hthinking : Fields.get m "thinking" = some (.string thinking))
      (hsignature : orDefault (nullable Value.asStr) none (Fields.get m "signature") =
        some signature) : WireOf m (.thinking thinking signature)
  | toolUse {id : String} (htag : Fields.get m "type" = some (.string "tool_use"))
      (hid : Fields.get m "id" = some (.string id))
      (hname : Fields.get m "name" = some (.string name))
      (hinput : Fields.get m "input" = some input) : WireOf m (.toolUse id name input)
  | toolResult (htag : Fields.get m "type" = some (.string "tool_result"))
      (hid : Fields.get m "tool_use_id" = some (.string toolUseId))
      (hcontent : Fields.get m "content" = some content)
      (herror : orDefault (nullable Value.asBool) none (Fields.get m "is_error") = some isError) :
      WireOf m (.toolResult toolUseId content isError)

theorem wireOf_of_shape (htag : Fields.get m "type" = some (.string tag))
    (h : wireShape tag (Fields.get m) = some block) : WireOf m block := by
  unfold wireShape at h
  split at h
  · obtain ⟨text, htext, h⟩ := Option.bind_eq_some_iff.1 h
    cases h
    exact .text htag (required_asStr.1 htext)
  · obtain ⟨thinking, hthinking, h⟩ := Option.bind_eq_some_iff.1 h
    obtain ⟨signature, hsignature, h⟩ := Option.bind_eq_some_iff.1 h
    cases h
    exact .thinking htag (required_asStr.1 hthinking) hsignature
  · obtain ⟨id, hid, h⟩ := Option.bind_eq_some_iff.1 h
    obtain ⟨name, hname, h⟩ := Option.bind_eq_some_iff.1 h
    obtain ⟨input, hinput, h⟩ := Option.bind_eq_some_iff.1 h
    cases h
    exact .toolUse htag (required_asStr.1 hid) (required_asStr.1 hname) (required_some.1 hinput)
  · obtain ⟨id, hid, h⟩ := Option.bind_eq_some_iff.1 h
    obtain ⟨content, hcontent, h⟩ := Option.bind_eq_some_iff.1 h
    obtain ⟨isError, herror, h⟩ := Option.bind_eq_some_iff.1 h
    cases h
    exact .toolResult htag (required_asStr.1 hid) (required_some.1 hcontent) herror
  · cases h

theorem wireOf_of_wireBlock (h : wireBlock (.object m) = some block) : WireOf m block := by
  obtain ⟨⟨tag, content⟩, htag, h⟩ := Option.bind_eq_some_iff.1 h
  obtain ⟨t, ht, heq⟩ := Option.map_eq_some_iff.1 htag
  cases heq
  obtain ⟨v, hv, hstr⟩ := Option.bind_eq_some_iff.1 ht
  rw [Value.asStr_eq_some.1 hstr] at hv
  exact wireOf_of_shape hv h

theorem wireShape_known (h : wireShape tag field = some block) : ∀ raw, block ≠ .other raw := by
  intro raw hraw
  subst hraw
  unfold wireShape at h
  split at h
  · obtain ⟨text, -, h⟩ := Option.bind_eq_some_iff.1 h
    cases h
  · obtain ⟨thinking, -, h⟩ := Option.bind_eq_some_iff.1 h
    obtain ⟨signature, -, h⟩ := Option.bind_eq_some_iff.1 h
    cases h
  · obtain ⟨id, -, h⟩ := Option.bind_eq_some_iff.1 h
    obtain ⟨name, -, h⟩ := Option.bind_eq_some_iff.1 h
    obtain ⟨input, -, h⟩ := Option.bind_eq_some_iff.1 h
    cases h
  · obtain ⟨id, -, h⟩ := Option.bind_eq_some_iff.1 h
    obtain ⟨content, -, h⟩ := Option.bind_eq_some_iff.1 h
    obtain ⟨isError, -, h⟩ := Option.bind_eq_some_iff.1 h
    cases h
  · cases h

theorem wireBlock_known (h : wireBlock raw = some block) : ∀ v, block ≠ .other v := by
  obtain ⟨⟨tag, content⟩, -, h⟩ := Option.bind_eq_some_iff.1 h
  dsimp only at h
  split at h
  · exact wireShape_known h
  · cases h

end LocalMind
