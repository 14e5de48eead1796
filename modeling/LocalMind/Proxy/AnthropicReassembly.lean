import LocalMind.Proxy.AnthropicStream
import LocalMind.Proxy.MergeSafety

namespace LocalMind
set_option autoImplicit true
open Json

/-! What an Anthropic client makes of a synthesized stream. -/

/-- Clients differ in whether a signature delta follows the signature of the start or replaces
it. -/
inductive SignatureRule where
  | appended
  | replaced
  deriving DecidableEq

def SignatureRule.join (rule : SignatureRule) (start delta : String) : String :=
  match rule with
  | .appended => start ++ delta
  | .replaced => delta

/-- A block that a client is receiving: its value, and the signature and the partial JSON that
its deltas have brought. -/
structure OpenBlock where
  value : Value
  signature : Option String
  partialJson : Option (List Char)

namespace OpenBlock

def ofStart (value : Value) : OpenBlock := ⟨value, none, none⟩

def appendText (b : OpenBlock) (delta : Value) (field : String) : OpenBlock :=
  { b with value := b.value.put field (.string (stringAt b.value field ++ stringAt delta field)) }

def receive (b : OpenBlock) (delta : Value) : OpenBlock :=
  match stringAt delta "type" with
  | "text_delta" => b.appendText delta "text"
  | "thinking_delta" => b.appendText delta "thinking"
  | "signature_delta" =>
    let signature := b.signature.getD "" ++ stringAt delta "signature"
    { b with signature := some signature }
  | "input_json_delta" =>
    let partialJson := b.partialJson.getD [] ++ (stringAt delta "partial_json").toList
    { b with partialJson := some partialJson }
  | _ => b

/-- The block once all its deltas are in. -/
def close (rule : SignatureRule) (parse : List Char → Option Value) (b : OpenBlock) : Value :=
  putSome (putSome b.value "signature" (b.signature.map fun s =>
    .string (rule.join (stringAt b.value "signature") s))) "input" (b.partialJson.bind parse)

end OpenBlock

structure Client where
  message : Value
  blocks : List OpenBlock

namespace Client

def fieldsOf (v : Option Value) : List (String × Value) := (v.bind Value.asObject).getD []

def putAll (v : Value) (fields : List (String × Value)) : Value :=
  fields.foldl (fun v e => v.put e.1 e.2) v

/-- The stop reason and the usage of the end of the stream. -/
def messageDelta (c : Client) (data : Value) : Client :=
  let message := putAll c.message (fieldsOf (data.get "delta"))
  { c with message := message.update "usage" (putAll · (fieldsOf (data.get "usage"))) }

def frameIndex (f : SseFrame) : Nat :=
  (((f.data.get "index").bind Value.asU64).getD 0).toNat

def receive (c : Client) (f : SseFrame) : Client :=
  match f.event with
  | "message_start" => { c with message := (f.data.get "message").getD .null }
  | "content_block_start" =>
    { c with blocks := c.blocks ++ [.ofStart ((f.data.get "content_block").getD .null)] }
  | "content_block_delta" =>
    let delta := (f.data.get "delta").getD .null
    { c with blocks := c.blocks.modify (frameIndex f) (·.receive delta) }
  | "message_delta" => c.messageDelta f.data
  | _ => c

def content (rule : SignatureRule) (parse : List Char → Option Value) (c : Client) : List Value :=
  c.blocks.map (OpenBlock.close rule parse)

end Client

/-- A client that reads a stream from its start. -/
def reassemble (frames : List SseFrame) : Client := frames.foldl Client.receive ⟨.null, []⟩

/-- A client has the content of a body, its stop reason and sequence and its usage. -/
structure Reproduced (rule : SignatureRule) (parse : List Char → Option Value) (body : Value)
    (c : Client) : Prop where
  content : Same (.array (c.content rule parse))
    ((member messageFields body "content").getD (.array []))
  stopReason : ∀ x, member messageFields body "stop_reason" = some x →
    c.message.get "stop_reason" = some x
  stopSequence : ∀ x, member messageFields body "stop_sequence" = some x →
    c.message.get "stop_sequence" = some x
  usage : ∀ usage k x, member messageFields body "usage" = some usage → usage.get k = some x →
    (c.message.get "usage").bind (·.get k) = some x

/-- A block of a known shape that has no field beside those of the shape, no null in place of a
missing one and no signature that would come twice. -/
structure BlockStreams (rule : SignatureRule) (raw : Value) : Prop where
  object : raw.isObject = true
  keys : ∀ k x, raw.get k = some x → k = "type" ∨ k ∈ wireFields (stringAt raw "type")
  signature : raw.get "signature" ≠ some .null
  isError : raw.get "is_error" ≠ some .null
  once : rule = .appended → ∀ s, raw.get "signature" = some (.string s) → s = ""

/-- A body of blocks that are carried whole or are of no known shape, without a null stop reason
and with no more in its usage than the two counts. -/
structure BodyStreams (rule : SignatureRule) (body : Value) : Prop where
  blocks : ∀ blocks, member messageFields body "content" = some (.array blocks) →
    ∀ b ∈ blocks, (wireBlock b).isSome = true → BlockStreams rule b
  stopReason : member messageFields body "stop_reason" ≠ some .null
  usage : ∀ usage k x, member messageFields body "usage" = some usage → usage.get k = some x →
    k ∈ usageFields

/-! The blocks as they come in. -/

theorem modify_concat (as : List α) (a : α) (f : α → α) :
    (as ++ [a]).modify as.length f = as ++ [f a] := by
  induction as with
  | nil => rfl
  | cons b as ih => exact congrArg (b :: ·) ih

theorem receive_start (c : Client) (index : Nat) (value : Value) :
    c.receive (startFrame (blockStart index value)) =
      { c with blocks := c.blocks ++ [.ofStart value] } := rfl

theorem receive_stop (c : Client) (index : Nat) : c.receive (stopFrame index) = c := rfl

theorem receive_delta (message : Value) (blocks : List OpenBlock) (b : OpenBlock)
    (hi : blocks.length < 2 ^ 64) (delta : Value) :
    Client.receive ⟨message, blocks ++ [b]⟩ (deltaFrame (blockDelta blocks.length delta)) =
      ⟨message, blocks ++ [b.receive delta]⟩ := by
  have hindex : Client.frameIndex (deltaFrame (blockDelta blocks.length delta)) =
      blocks.length := UInt64.toNat_ofNat_of_lt' hi
  change Client.mk message (List.modify _ _ _) = _
  rw [hindex, modify_concat]
  rfl

theorem receive_deltas (message : Value) (blocks : List OpenBlock) (b : OpenBlock)
    (hi : blocks.length < 2 ^ 64) (deltas : List Value) :
    (deltas.map fun d => deltaFrame (blockDelta blocks.length d)).foldl Client.receive
      ⟨message, blocks ++ [b]⟩ = ⟨message, blocks ++ [deltas.foldl OpenBlock.receive b]⟩ := by
  induction deltas generalizing b with
  | nil => rfl
  | cons d deltas ih => rw [List.map_cons, List.foldl_cons, receive_delta _ _ _ hi, ih,
      List.foldl_cons]

/-- The block of a stream before it is closed. -/
def StreamBlock.received (b : StreamBlock) : OpenBlock :=
  b.deltas.foldl OpenBlock.receive (.ofStart b.content)

theorem receive_blocks (message : Value) (blocks : List OpenBlock) (bs : List StreamBlock)
    (hlen : blocks.length + bs.length ≤ 2 ^ 64) :
    (numberedBlocks blocks.length bs).foldl Client.receive ⟨message, blocks⟩ =
      ⟨message, blocks ++ bs.map StreamBlock.received⟩ := by
  induction bs generalizing blocks with
  | nil =>
    rw [List.map_nil, List.append_nil]
    rfl
  | cons b bs ih =>
    rw [List.length_cons] at hlen
    have hi : blocks.length < 2 ^ 64 := by omega
    have hstart := receive_start ⟨message, blocks⟩ blocks.length b.content
    have hrest := ih (blocks ++ [b.received]) (by
      rw [List.length_append, List.length_singleton]
      omega)
    rw [List.length_append, List.length_singleton] at hrest
    rw [numberedBlocks, List.foldl_append, blockFrames, List.cons_append, List.foldl_cons,
      hstart, List.foldl_append, receive_deltas _ _ _ hi, List.foldl_cons, receive_stop,
      List.foldl_nil]
    refine hrest.trans ?_
    rw [List.append_assoc]
    rfl

/-! The blocks once they are closed. -/

/-- A delta of one string is put after a field. -/
def Extends (kind field : String) : Prop :=
  ∀ (b : OpenBlock) p, b.receive (stringDelta kind field p) =
    { b with value := b.value.put field (.string (stringAt b.value field ++ String.ofList p)) }

theorem extends_text : Extends "text_delta" "text" := fun _ _ => rfl

theorem extends_thinking : Extends "thinking_delta" "thinking" := fun _ _ => rfl

theorem receive_pieces (he : Extends kind field) (b : OpenBlock)
    (h : b.value.get field = some (.string s)) (pieces : List (List Char)) :
    (pieces.map (stringDelta kind field)).foldl OpenBlock.receive b =
      { b with value := b.value.put field (.string (s ++ String.ofList pieces.flatten)) } := by
  induction pieces generalizing b s with
  | nil =>
    have hs : s ++ String.ofList [].flatten = s := by simp
    rw [hs, Value.put_get h]
    rfl
  | cons p pieces ih =>
    have hat : stringAt b.value field = s := by
      rw [stringAt, h]
      rfl
    rw [List.map_cons, List.foldl_cons, he, hat, ih _ (Value.get_put_of_get h _), Value.put_put,
      String.append_assoc, ← String.ofList_append, List.flatten_cons]

theorem receive_text (he : Extends kind field) (b : OpenBlock)
    (h : b.value.get field = some (.string "")) (text : String) (size : Nat) :
    ((splitChars text.toList size).map (stringDelta kind field)).foldl OpenBlock.receive b =
      { b with value := b.value.put field (.string text) } := by
  rw [receive_pieces he b h, splitChars_flatten, String.ofList_toList, String.empty_append]

/-- The block of a message as a client has it, where the client reads the input back. -/
def rebuilt (rule : SignatureRule) : AnthropicContentBlock → Value
  | .text text => .object [("type", .string "text"), ("text", .string text)]
  | .thinking thinking signature =>
    putSome (.object [("type", .string "thinking"), ("thinking", .string thinking)]) "signature"
      (signature.map fun s => .string (rule.join s s))
  | .toolUse id name input => .object [("type", .string "tool_use"), ("id", .string id),
      ("name", .string name), ("input", input)]
  | .toolResult toolUseId content isError => toolResultBlock toolUseId content isError
  | .other raw => raw

/-- A client's parser reads the text of an input back. -/
def ReadsBack (codec : FloatCodec) (parse : List Char → Option Value) :
    AnthropicContentBlock → Prop
  | .toolUse _ _ input => parse (print codec input) = some input
  | _ => True

theorem close_received (rule : SignatureRule) (size : Nat)
    (hread : ReadsBack codec parse block) :
    OpenBlock.close rule parse (streamBlock codec size block).received = rebuilt rule block := by
  cases block with
  | text text =>
    have htext := receive_text extends_text (.ofStart (textBlock "text")) rfl text size
    rw [StreamBlock.received]
    exact congrArg (OpenBlock.close rule parse) htext
  | thinking thinking signature =>
    cases signature with
    | none =>
      have htext := receive_text extends_thinking (.ofStart (thinkingBlock none)) rfl thinking size
      rw [StreamBlock.received, streamBlock, Option.map_none, Option.toList_none, List.append_nil]
      exact congrArg (OpenBlock.close rule parse) htext
    | some sig =>
      have htext := receive_text extends_thinking (.ofStart (thinkingBlock (some sig))) rfl
        thinking size
      have hsig : stringAt (stringDelta "signature_delta" "signature" sig.toList) "signature" =
          sig := by
        change String.ofList sig.toList = sig
        exact String.ofList_toList
      rw [StreamBlock.received, streamBlock, List.foldl_append, htext]
      change OpenBlock.close rule parse ⟨_, some ("" ++ stringAt _ "signature"), none⟩ = _
      rw [hsig, String.empty_append]
      rfl
  | toolUse id name input =>
    have hjson : (stringAt (stringDelta "input_json_delta" "partial_json" (print codec input))
        "partial_json").toList = print codec input := by
      change (String.ofList (print codec input)).toList = _
      exact String.toList_ofList
    change OpenBlock.close rule parse ⟨_, none, some ([] ++ (stringAt _ "partial_json").toList)⟩
      = _
    rw [hjson, List.nil_append, OpenBlock.close]
    change putSome _ "input" (parse (print codec input)) = _
    rw [hread]
    rfl
  | toolResult toolUseId content isError => rfl
  | other raw => rfl

/-! A block and the one a client has. -/

theorem blockStreams_iff (htag : Fields.get m "type" = some (.string tag)) (rule : SignatureRule) :
    BlockStreams rule (.object m) ↔ KeysIn m ("type" :: wireFields tag) ∧
      Fields.get m "signature" ≠ some .null ∧ Fields.get m "is_error" ≠ some .null ∧
      (rule = .appended → ∀ s, Fields.get m "signature" = some (.string s) → s = "") := by
  have htype : stringAt (.object m) "type" = tag := stringAt_of_get htag
  constructor
  · intro h
    refine ⟨?_, h.signature, h.isError, h.once⟩
    intro k x hk
    have hkey := h.keys k x hk
    rw [htype] at hkey
    exact List.mem_cons.2 hkey
  · rintro ⟨hkeys, hsignature, herror, honce⟩
    refine ⟨rfl, ?_, hsignature, herror, honce⟩
    intro k x hk
    rw [htype]
    exact List.mem_cons.1 (hkeys k x hk)

/-- A shape without optional fields. -/
theorem blockStreams_plain (htag : Fields.get m "type" = some (.string tag))
    (hsignature : "signature" ∉ "type" :: wireFields tag)
    (herror : "is_error" ∉ "type" :: wireFields tag) (rule : SignatureRule) :
    BlockStreams rule (.object m) ↔ KeysIn m ("type" :: wireFields tag) := by
  rw [blockStreams_iff htag]
  constructor
  · intro h
    exact h.1
  · intro h
    rw [h.absent hsignature, h.absent herror]
    exact ⟨h, by simp, by simp, by simp⟩

theorem rebuilt_text (htag : Fields.get m "type" = some (.string "text"))
    (htext : Fields.get m "text" = some (.string text)) (rule : SignatureRule) :
    Same (rebuilt rule (.text text)) (.object m) ↔ BlockStreams rule (.object m) := by
  rw [blockStreams_plain htag (by decide) (by decide)]
  exact Same.object_iff_of_entries (.cons htag (.cons htext .nil)) (by decide) rfl

theorem rebuilt_toolUse (htag : Fields.get m "type" = some (.string "tool_use"))
    {id : String} (hid : Fields.get m "id" = some (.string id))
    (hname : Fields.get m "name" = some (.string name))
    (hinput : Fields.get m "input" = some input) (rule : SignatureRule) :
    Same (rebuilt rule (.toolUse id name input)) (.object m) ↔ BlockStreams rule (.object m) := by
  rw [blockStreams_plain htag (by decide) (by decide)]
  exact Same.object_iff_of_entries (.cons htag (.cons hid (.cons hname (.cons hinput .nil))))
    (by decide) rfl

/-- An optional field that is missing keeps the others the same; a null one does not. -/
theorem same_without {r : List (String × Value)} (h : EntriesIn m r)
    (hk : Fields.get m k = none ∨ Fields.get m k = some .null) (hks : (ks ++ [k]).Nodup)
    (hkeys : Fields.keys r = ks) :
    Same (.object r) (.object m) ↔ KeysIn m (ks ++ [k]) ∧ Fields.get m k ≠ some .null := by
  obtain ⟨hnodup, -, hdisjoint⟩ := List.nodup_append.1 hks
  rw [Same.object_iff_of_entries h hnodup hkeys]
  obtain hk | hk := hk
  · rw [hk]
    exact ⟨fun hin => ⟨hin.append [k], by simp⟩, fun hin => hin.1.without hk⟩
  · constructor
    · intro hin
      exact absurd rfl (hdisjoint k (hin k .null hk) k (List.mem_singleton_self k))
    · rintro ⟨-, hne⟩
      exact absurd hk hne

theorem rebuilt_thinking (htag : Fields.get m "type" = some (.string "thinking"))
    (hthinking : Fields.get m "thinking" = some (.string thinking))
    (hsignature : orDefault (nullable Value.asStr) none (Fields.get m "signature") =
      some signature) (rule : SignatureRule) :
    Same (rebuilt rule (.thinking thinking signature)) (.object m) ↔
      BlockStreams rule (.object m) := by
  have hks : (["type", "thinking"] ++ ["signature"]).Nodup := by decide
  have herror : ∀ h : KeysIn m (["type", "thinking"] ++ ["signature"]),
      Fields.get m "is_error" ≠ some .null := by
    intro h
    rw [h.absent (by decide)]
    simp
  rw [blockStreams_iff htag]
  obtain ⟨rfl, hnone⟩ | ⟨v, s, hv, -, hs, rfl⟩ := nullable_cases hsignature
  · apply (same_without (.cons htag (.cons hthinking .nil)) hnone hks rfl).trans
    constructor
    · rintro ⟨hkeys, hnull⟩
      refine ⟨hkeys, hnull, herror hkeys, ?_⟩
      intro _ s hs
      obtain hnone | hnone := hnone
      · rw [hnone] at hs
        cases hs
      · rw [hnone] at hs
        cases hs
    · rintro ⟨hkeys, hnull, -, -⟩
      exact ⟨hkeys, hnull⟩
  · rw [Value.asStr_eq_some.1 hs] at hv
    have hnull : Fields.get m "signature" ≠ some .null := by
      rw [hv]
      simp
    by_cases honce : rule = .appended → s = ""
    · have hjoin : rule.join s s = s := by
        cases rule with
        | appended => rw [honce rfl]; rfl
        | replaced => rfl
      have hentry : Fields.get m "signature" = some (.string (rule.join s s)) := by rw [hjoin, hv]
      apply (Same.object_iff_of_entries (.cons htag (.cons hthinking (.cons hentry .nil))) hks
        rfl).trans
      constructor
      · intro hkeys
        refine ⟨hkeys, hnull, herror hkeys, ?_⟩
        intro hrule t ht
        rw [hv] at ht
        cases ht
        exact honce hrule
      · intro h
        exact h.1
    · constructor
      · intro hsame
        have hvalue := hsame.get_of_object
          (rfl : Fields.get _ "signature" = some (.string (rule.join s s))) hv
        rw [Same.string_iff] at hvalue
        refine absurd ?_ honce
        rintro rfl
        have hlength := congrArg String.length hvalue
        rw [SignatureRule.join, String.length_append] at hlength
        exact String.length_eq_zero_iff.1 (by omega)
      · rintro ⟨-, -, -, h⟩
        exact absurd (fun hrule => h hrule s hv) honce

theorem rebuilt_toolResult (htag : Fields.get m "type" = some (.string "tool_result"))
    (hid : Fields.get m "tool_use_id" = some (.string toolUseId))
    (hcontent : Fields.get m "content" = some content)
    (herror : orDefault (nullable Value.asBool) none (Fields.get m "is_error") = some isError)
    (rule : SignatureRule) :
    Same (rebuilt rule (.toolResult toolUseId content isError)) (.object m) ↔
      BlockStreams rule (.object m) := by
  have hks : (["type", "tool_use_id", "content"] ++ ["is_error"]).Nodup := by decide
  have hsignature : ∀ h : KeysIn m (["type", "tool_use_id", "content"] ++ ["is_error"]),
      Fields.get m "signature" = none := fun h => h.absent (by decide)
  rw [blockStreams_iff htag]
  have hstreams : (KeysIn m (["type", "tool_use_id", "content"] ++ ["is_error"]) ∧
      Fields.get m "is_error" ≠ some .null) ↔
      (KeysIn m ("type" :: wireFields "tool_result") ∧ Fields.get m "signature" ≠ some .null ∧
        Fields.get m "is_error" ≠ some .null ∧
        (rule = .appended → ∀ s, Fields.get m "signature" = some (.string s) → s = "")) := by
    constructor
    · rintro ⟨hkeys, hnull⟩
      rw [hsignature hkeys]
      exact ⟨hkeys, by simp, hnull, by simp⟩
    · rintro ⟨hkeys, -, hnull, -⟩
      exact ⟨hkeys, hnull⟩
  rw [← hstreams]
  obtain ⟨rfl, hnone⟩ | ⟨v, b, hv, hne, hb, rfl⟩ := nullable_cases herror
  · exact same_without (.cons htag (.cons hid (.cons hcontent .nil))) hnone hks rfl
  · have hvalue : v = .bool b := by cases v <;> cases hb; rfl
    rw [hvalue] at hv
    apply (Same.object_iff_of_entries (.cons htag (.cons hid (.cons hcontent (.cons hv .nil))))
      hks rfl).trans
    constructor
    · intro hkeys
      refine ⟨hkeys, ?_⟩
      rw [hv]
      simp
    · intro h
      exact h.1

theorem rebuilt_isObject (hknown : ∀ v, block ≠ .other v) (rule : SignatureRule) :
    (rebuilt rule block).isObject = true := by
  cases block with
  | text text => rfl
  | thinking thinking signature => cases signature <;> rfl
  | toolUse id name input => rfl
  | toolResult toolUseId content isError => cases isError <;> rfl
  | other raw => exact absurd rfl (hknown raw)

/-- A block comes back the same exactly when it is of no known shape or is carried whole. -/
theorem rebuilt_iff (rule : SignatureRule) (raw : Value) :
    Same (rebuilt rule (.deserialize raw)) raw ↔
      ((wireBlock raw).isSome = true → BlockStreams rule raw) := by
  rw [AnthropicContentBlock.deserialize]
  cases hw : wireBlock raw with
  | none =>
    constructor
    · intro _ h
      cases h
    · intro _
      exact Same.refl raw
  | some block =>
    have hsome : ((some block).isSome = true → BlockStreams rule raw) ↔ BlockStreams rule raw :=
      ⟨fun h => h rfl, fun h _ => h⟩
    rw [Option.getD_some, hsome]
    by_cases hobj : raw.isObject = true
    · obtain ⟨m, rfl⟩ := Value.isObject_iff.1 hobj
      cases wireOf_of_wireBlock hw with
      | text htag htext => exact rebuilt_text htag htext rule
      | thinking htag hthinking hsignature =>
        exact rebuilt_thinking htag hthinking hsignature rule
      | toolUse htag hid hname hinput => exact rebuilt_toolUse htag hid hname hinput rule
      | toolResult htag hid hcontent herror =>
        exact rebuilt_toolResult htag hid hcontent herror rule
    · constructor
      · intro h
        have hsame := h.isObject
        rw [rebuilt_isObject (wireBlock_known hw)] at hsame
        exact absurd hsame.symm hobj
      · intro h
        exact absurd h.object hobj

/-! The whole message. -/

/-- A message that was read, field by field. -/
structure ReadFrom (body : Value) (msg : AnthropicMessage) : Prop where
  content : orDefault deserializeContent [] (member messageFields body "content") =
    some msg.content
  stopReason : orDefault (nullable Value.asStr) none (member messageFields body "stop_reason") =
    some msg.stopReason
  stopSequence : orDefault (nullable Value.asStr) none
    (member messageFields body "stop_sequence") = some msg.stopSequence
  usage : orDefault AnthropicUsage.deserialize ⟨0, 0⟩ (member messageFields body "usage") =
    some msg.usage

theorem readFrom_of_deserialize (h : AnthropicMessage.deserialize body = some msg) :
    ReadFrom body msg := by
  rw [AnthropicMessage.deserialize] at h
  split at h
  · obtain ⟨id, -, h⟩ := Option.bind_eq_some_iff.1 h
    obtain ⟨messageType, -, h⟩ := Option.bind_eq_some_iff.1 h
    obtain ⟨role, -, h⟩ := Option.bind_eq_some_iff.1 h
    obtain ⟨content, hcontent, h⟩ := Option.bind_eq_some_iff.1 h
    obtain ⟨model, -, h⟩ := Option.bind_eq_some_iff.1 h
    obtain ⟨stopReason, hreason, h⟩ := Option.bind_eq_some_iff.1 h
    obtain ⟨stopSequence, hsequence, h⟩ := Option.bind_eq_some_iff.1 h
    obtain ⟨usage, husage, h⟩ := Option.bind_eq_some_iff.1 h
    cases h
    exact ⟨hcontent, hreason, hsequence, husage⟩
  · cases h

/-- The message that a client holds at the end. -/
def closed (msg : AnthropicMessage) : Value :=
  .object [("id", .string msg.id), ("type", .string "message"), ("role", .string msg.role),
    ("model", .string msg.model), ("content", .array []),
    ("stop_reason", orNull .string (msg.stopReason.or (some (deriveStopReason msg)))),
    ("stop_sequence", orNull .string msg.stopSequence),
    ("usage", .object [("input_tokens", u64 msg.usage.inputTokens),
      ("output_tokens", u64 msg.usage.outputTokens)])]

theorem reassemble_synthesized (codec : FloatCodec) (msg : AnthropicMessage)
    (hlen : msg.content.length ≤ 2 ^ 64) (size : Nat) :
    reassemble (synthesizeAnthropicChunks codec msg size) =
      ⟨closed msg, msg.content.map fun block => (streamBlock codec size block).received⟩ := by
  have hstart : Client.receive ⟨.null, []⟩ ⟨"message_start", buildMessageStartEvent msg⟩ =
      ⟨opened msg, []⟩ := rfl
  have hblocks : (numberedBlocks 0 (msg.content.map (streamBlock codec size))).foldl
      Client.receive ⟨opened msg, []⟩ =
      ⟨opened msg, (msg.content.map (streamBlock codec size)).map StreamBlock.received⟩ := by
    apply receive_blocks
    rw [List.length_map]
    exact Nat.le_trans (Nat.le_of_eq (Nat.zero_add _)) hlen
  rw [reassemble, synthesizeAnthropicChunks, List.cons_append, List.foldl_cons,
    List.foldl_append, synthesizeBlocks_eq, hstart, hblocks, List.map_map]
  rfl

theorem content_synthesized {rule : SignatureRule} (codec : FloatCodec) (msg : AnthropicMessage)
    (hlen : msg.content.length ≤ 2 ^ 64) (hread : ∀ b ∈ msg.content, ReadsBack codec parse b)
    (size : Nat) :
    (reassemble (synthesizeAnthropicChunks codec msg size)).content rule parse =
      msg.content.map (rebuilt rule) := by
  rw [reassemble_synthesized codec msg hlen, Client.content, List.map_map]
  exact List.map_congr_left fun b hb => close_received rule size (hread b hb)

theorem content_iff (h : ReadFrom body msg) (rule : SignatureRule) :
    Same (.array (msg.content.map (rebuilt rule)))
        ((member messageFields body "content").getD (.array [])) ↔
      ∀ blocks, member messageFields body "content" = some (.array blocks) →
        ∀ b ∈ blocks, (wireBlock b).isSome = true → BlockStreams rule b := by
  have hcontent := h.content
  cases hm : member messageFields body "content" with
  | none =>
    rw [hm] at hcontent
    have hnil : msg.content = [] := (Option.some.inj hcontent).symm
    rw [hnil]
    constructor
    · intro _ blocks hblocks
      cases hblocks
    · intro _
      exact Same.refl _
  | some v =>
    rw [hm] at hcontent
    obtain ⟨raws, hraws, heq⟩ := Option.map_eq_some_iff.1 hcontent
    obtain rfl := Value.asArray_eq_some.1 hraws
    rw [Option.getD_some, ← heq, List.map_map, Same.array_iff, List.forall₂_map_left_iff,
      List.forall₂_same]
    constructor
    · intro hsame blocks hblocks b hb
      cases hblocks
      exact (rebuilt_iff rule b).1 (hsame b hb)
    · intro hstreams b hb
      exact (rebuilt_iff rule b).2 (hstreams raws rfl b hb)

theorem stopReason_iff (h : ReadFrom body msg) :
    (∀ x, member messageFields body "stop_reason" = some x →
      (closed msg).get "stop_reason" = some x) ↔
      member messageFields body "stop_reason" ≠ some .null := by
  have hclosed : (closed msg).get "stop_reason" =
      some (orNull .string (msg.stopReason.or (some (deriveStopReason msg)))) := rfl
  rw [hclosed]
  obtain ⟨hnone, hmissing | hnull⟩ | ⟨v, s, hv, hne, hs, hsome⟩ := nullable_cases h.stopReason
  · rw [hmissing]
    exact ⟨fun _ => by simp, fun _ x hx => by cases hx⟩
  · rw [hnull, hnone]
    constructor
    · intro hx
      cases hx .null rfl
    · intro hne
      exact absurd rfl hne
  · rw [hv, hsome, Value.asStr_eq_some.1 hs]
    constructor
    · intro _ hnull
      cases hnull
    · intro _ x hx
      cases hx
      rfl

theorem stopSequence_kept (h : ReadFrom body msg) :
    ∀ x, member messageFields body "stop_sequence" = some x →
      (closed msg).get "stop_sequence" = some x := by
  have hclosed : (closed msg).get "stop_sequence" = some (orNull .string msg.stopSequence) := rfl
  intro x hx
  rw [hclosed]
  obtain ⟨hnone, hmissing | hnull⟩ | ⟨v, s, hv, -, hs, hsome⟩ := nullable_cases h.stopSequence
  · rw [hmissing] at hx
    cases hx
  · rw [hnull] at hx
    cases hx
    rw [hnone]
    rfl
  · rw [hv] at hx
    cases hx
    rw [hsome, Value.asStr_eq_some.1 hs]
    rfl

/-- A count of a usage that was read. -/
theorem count_of_read (h : orDefault Value.asU64 0 (Fields.get m k) = some n)
    (hx : Fields.get m k = some x) : x = u64 n := by
  rw [hx] at h
  exact Value.asU64_eq_some.1 h

theorem usage_of_read (h : AnthropicUsage.deserialize (.object m) = some usage) :
    (∀ x, Fields.get m "input_tokens" = some x → x = u64 usage.inputTokens) ∧
      ∀ x, Fields.get m "output_tokens" = some x → x = u64 usage.outputTokens := by
  obtain ⟨input, hinput, h⟩ := Option.bind_eq_some_iff.1 h
  obtain ⟨output, houtput, h⟩ := Option.bind_eq_some_iff.1 h
  cases h
  exact ⟨fun x hx => count_of_read hinput hx, fun x hx => count_of_read houtput hx⟩

theorem usage_iff (h : ReadFrom body msg) :
    (∀ usage k x, member messageFields body "usage" = some usage → usage.get k = some x →
      ((closed msg).get "usage").bind (·.get k) = some x) ↔
      ∀ usage k x, member messageFields body "usage" = some usage → usage.get k = some x →
        k ∈ usageFields := by
  have hclosed : ∀ k, ((closed msg).get "usage").bind (·.get k) =
      Fields.get [("input_tokens", u64 msg.usage.inputTokens),
        ("output_tokens", u64 msg.usage.outputTokens)] k := fun _ => rfl
  constructor
  · intro hkept usage k x husage hx
    have hget := hkept usage k x husage hx
    rw [hclosed] at hget
    have hkey := Fields.get_isSome_iff.1 (by rw [hget]; rfl)
    exact hkey
  · intro hkeys usage k x husage hx
    obtain ⟨m, rfl⟩ := Value.object_of_get hx
    have hread := h.usage
    rw [husage] at hread
    obtain ⟨hinput, houtput⟩ := usage_of_read hread
    rw [hclosed]
    obtain rfl | hk := List.mem_cons.1 (hkeys _ k x husage hx)
    · rw [hinput x hx]
      rfl
    · obtain rfl := List.mem_singleton.1 hk
      rw [houtput x hx]
      rfl

/-- A client has the message of a body exactly when the stream carries all of it. -/
theorem reassemble_reproduces_iff (hd : AnthropicMessage.deserialize body = some msg)
    (hlen : msg.content.length ≤ 2 ^ 64) (hread : ∀ b ∈ msg.content, ReadsBack codec parse b)
    (rule : SignatureRule) (size : Nat) :
    Reproduced rule parse body (reassemble (synthesizeAnthropicChunks codec msg size)) ↔
      BodyStreams rule body := by
  have h := readFrom_of_deserialize hd
  have hmessage : (reassemble (synthesizeAnthropicChunks codec msg size)).message = closed msg :=
    congrArg Client.message (reassemble_synthesized codec msg hlen size)
  constructor
  · intro hr
    have hcontent := hr.content
    have hreason := hr.stopReason
    have husage := hr.usage
    rw [content_synthesized codec msg hlen hread size] at hcontent
    rw [hmessage] at hreason husage
    exact ⟨(content_iff h rule).1 hcontent, (stopReason_iff h).1 hreason, (usage_iff h).1 husage⟩
  · intro hs
    constructor
    · rw [content_synthesized codec msg hlen hread size]
      exact (content_iff h rule).2 hs.blocks
    · rw [hmessage]
      exact (stopReason_iff h).2 hs.stopReason
    · rw [hmessage]
      exact stopSequence_kept h
    · rw [hmessage]
      exact (usage_iff h).2 hs.usage

/-- A body with this content and this usage. -/
def anthropicBody (content : List Value) (usage : List (String × Value)) : Value :=
  .object [("id", .string "m"), ("type", .string "message"), ("role", .string "assistant"),
    ("model", .string "x"), ("content", .array content), ("stop_reason", .string "end_turn"),
    ("usage", .object usage)]

/-- A call of a tool without arguments. -/
def callFields : List (String × Value) :=
  [("type", .string "tool_use"), ("id", .string "t"), ("name", .string "ls"),
    ("input", .object [])]

def callBody : Value := anthropicBody [.object callFields] [("output_tokens", u64 5)]

theorem callBody_streams : BodyStreams .appended callBody := by
  have htag : Fields.get callFields "type" = some (.string "tool_use") := rfl
  constructor
  · intro blocks hblocks b hb _
    cases hblocks
    rw [List.mem_singleton.1 hb]
    apply (blockStreams_plain htag (by decide) (by decide) .appended).2
    intro k x hk
    exact Fields.get_isSome_iff.1 (by rw [hk]; rfl)
  · intro hnull
    cases hnull
  · intro usage k x husage hk
    cases husage
    have hmem := Fields.mem_of_get hk
    rw [List.mem_singleton, Prod.mk.injEq] at hmem
    rw [hmem.1]
    decide

theorem reassemble_reproduces_call : ∃ msg, AnthropicMessage.deserialize callBody = some msg ∧
    Reproduced .appended (fromStr integersOnly) callBody
      (reassemble (synthesizeAnthropicChunks integersOnly msg 4)) := by
  have hd : AnthropicMessage.deserialize callBody = some ⟨"m", "message", "assistant",
    [.toolUse "t" "ls" (.object [])], "x", some "end_turn", none, ⟨0, 5⟩⟩ := rfl
  refine ⟨_, hd, (reassemble_reproduces_iff hd (by decide) ?_ .appended 4).2 callBody_streams⟩
  intro b hb
  rw [List.mem_singleton.1 hb]
  rfl

/-- A body that reports tokens read from a cache. -/
def cachedBody : Value := anthropicBody [] [("cache_read_input_tokens", u64 7)]

/-- The tokens read from a cache do not reach a client. -/
theorem reassemble_drops_cache : ∃ msg, AnthropicMessage.deserialize cachedBody = some msg ∧
    ∀ rule parse, ¬ Reproduced rule parse cachedBody
      (reassemble (synthesizeAnthropicChunks integersOnly msg 4)) := by
  have hd : AnthropicMessage.deserialize cachedBody =
    some ⟨"m", "message", "assistant", [], "x", some "end_turn", none, ⟨0, 0⟩⟩ := rfl
  refine ⟨_, hd, ?_⟩
  intro rule parse h
  cases h.usage _ "cache_read_input_tokens" (u64 7) rfl rfl

end LocalMind
