import LocalMind.Api.Anthropic
import LocalMind.Json.Record

namespace LocalMind
set_option autoImplicit true
open Json

/-! The requests of the Anthropic API. -/

structure AnthropicMessageContent where
  role : String
  content : List AnthropicContentBlock

structure AnthropicTool where
  name : String
  description : Option String
  inputSchema : Value

structure AnthropicMessageRequest where
  model : Option String
  messages : List AnthropicMessageContent
  system : Option String
  maxTokens : UInt32
  stream : Option Bool
  temperature : Option UInt32
  topP : Option UInt32
  tools : Option (List AnthropicTool)
  toolChoice : Option Value
  extra : List (String × Value)

/-! Content blocks. -/

/-- A block of a known shape with all fields of the shape and no other. -/
structure BlockWhole (raw : Value) : Prop where
  object : raw.isObject = true
  keys : ∀ k x, raw.get k = some x → k = "type" ∨ k ∈ wireFields (stringAt raw "type")
  fields : ∀ k ∈ wireFields (stringAt raw "type"), (raw.get k).isSome = true

theorem blockWhole_iff (htag : Fields.get m "type" = some (.string tag)) :
    BlockWhole (.object m) ↔ KeysIn m ("type" :: wireFields tag) ∧
      ∀ k ∈ wireFields tag, (Fields.get m k).isSome = true := by
  have htype : stringAt (.object m) "type" = tag := stringAt_of_get htag
  constructor
  · intro h
    have hkeys := h.keys
    have hfields := h.fields
    rw [htype] at hkeys hfields
    exact ⟨fun k x hk => List.mem_cons.2 (hkeys k x hk), hfields⟩
  · rintro ⟨hkeys, hfields⟩
    refine ⟨rfl, ?_, ?_⟩
    · intro k x hk
      rw [htype]
      exact List.mem_cons.1 (hkeys k x hk)
    · rw [htype]
      exact hfields

/-- A block that has all entries that are written of it. -/
theorem whole_of_entries {r : List (String × Value)}
    (htag : Fields.get m "type" = some (.string tag)) (h : EntriesIn m r)
    (hks : ("type" :: wireFields tag).Nodup) (hkeys : Fields.keys r = "type" :: wireFields tag) :
    Same (.object r) (.object m) ↔ BlockWhole (.object m) := by
  rw [Same.object_iff_of_entries h hks hkeys, blockWhole_iff htag]
  constructor
  · intro hin
    refine ⟨hin, ?_⟩
    intro k hk
    have hmem : k ∈ Fields.keys r := by
      rw [hkeys]
      exact List.mem_cons_of_mem _ hk
    obtain ⟨e, he, rfl⟩ := List.mem_map.1 hmem
    rw [h.get e he]
    rfl
  · intro hwhole
    exact hwhole.1

/-- A block without an optional field, which is written as null. -/
theorem whole_of_missing {r : List (String × Value)}
    (htag : Fields.get m "type" = some (.string tag)) (hk : Fields.get m k = none)
    (hmem : k ∈ wireFields tag) (hr : Fields.get r k = some x) :
    Same (.object r) (.object m) ↔ BlockWhole (.object m) := by
  constructor
  · intro hs
    have hsome := hs.keys_of_object k
    rw [hk, hr] at hsome
    cases hsome
  · intro hwhole
    have hsome := ((blockWhole_iff htag).1 hwhole).2 k hmem
    rw [hk] at hsome
    cases hsome

theorem serialize_iff (h : WireOf m block) :
    Same block.serialize (.object m) ↔ BlockWhole (.object m) := by
  cases h with
  | text htag htext => exact whole_of_entries htag (.cons htag (.cons htext .nil)) (by decide) rfl
  | toolUse htag hid hname hinput =>
    exact whole_of_entries htag (.cons htag (.cons hid (.cons hname (.cons hinput .nil))))
      (by decide) rfl
  | thinking htag hthinking hsignature =>
    obtain ⟨rfl, hmissing | hnull⟩ | ⟨v, s, hv, -, hs, rfl⟩ := nullable_cases hsignature
    · exact whole_of_missing htag hmissing (by decide) rfl
    · exact whole_of_entries htag (.cons htag (.cons hthinking (.cons hnull .nil))) (by decide) rfl
    · rw [Value.asStr_eq_some.1 hs] at hv
      exact whole_of_entries htag (.cons htag (.cons hthinking (.cons hv .nil))) (by decide) rfl
  | toolResult htag hid hcontent herror =>
    obtain ⟨rfl, hmissing | hnull⟩ | ⟨v, b, hv, -, hb, rfl⟩ := nullable_cases herror
    · exact whole_of_missing htag hmissing (by decide) rfl
    · exact whole_of_entries htag (.cons htag (.cons hid (.cons hcontent (.cons hnull .nil))))
        (by decide) rfl
    · have hvalue : v = .bool b := by cases v <;> cases hb; rfl
      rw [hvalue] at hv
      exact whole_of_entries htag (.cons htag (.cons hid (.cons hcontent (.cons hv .nil))))
        (by decide) rfl

theorem serialize_isObject {block : AnthropicContentBlock} (hknown : ∀ v, block ≠ .other v) :
    block.serialize.isObject = true := by
  cases block with
  | text text => rfl
  | thinking thinking signature => rfl
  | toolUse id name input => rfl
  | toolResult toolUseId content isError => rfl
  | other raw => exact absurd rfl (hknown raw)

theorem block_kept_iff (raw : Value) :
    Same (AnthropicContentBlock.deserialize raw).serialize raw ↔
      ((wireBlock raw).isSome = true → BlockWhole raw) := by
  rw [AnthropicContentBlock.deserialize]
  cases hw : wireBlock raw with
  | none =>
    constructor
    · intro _ h
      cases h
    · intro _
      exact Same.refl raw
  | some block =>
    have hsome : ((some block).isSome = true → BlockWhole raw) ↔ BlockWhole raw :=
      ⟨fun h => h rfl, fun h _ => h⟩
    rw [Option.getD_some, hsome]
    by_cases hobj : raw.isObject = true
    · obtain ⟨m, rfl⟩ := Value.isObject_iff.1 hobj
      exact serialize_iff (wireOf_of_wireBlock hw)
    · constructor
      · intro h
        have hsame := h.isObject
        rw [serialize_isObject (wireBlock_known hw)] at hsame
        exact absurd hsame.symm hobj
      · intro h
        exact absurd h.object hobj

/-! The codecs. -/

def contentBlockCodec : Codec AnthropicContentBlock where
  decode raw := some (.deserialize raw)
  encode := AnthropicContentBlock.serialize
  Kept raw := (wireBlock raw).isSome = true → BlockWhole raw
  kept_iff raw block h := by
    cases h
    exact block_kept_iff raw

def messageContentCodec : Codec AnthropicMessageContent :=
  (Record.cons (.required "role" .string) <|
    .cons (.required "content" (.list contentBlockCodec)) .nil).codec.iso
    (fun ⟨role, content, _⟩ => { role, content }) (fun m => (m.role, m.content, ())) fun _ => rfl

def toolCodec : Codec AnthropicTool :=
  (Record.cons (.required "name" .string) <|
    .cons (.defaulted "description" (.nullable .string) none) <|
    .cons (.required "input_schema" .value) .nil).codec.iso
    (fun ⟨name, description, inputSchema, _⟩ => { name, description, inputSchema })
    (fun t => (t.name, t.description, t.inputSchema, ())) fun _ => rfl

def requestCodec (single : SingleCodec) : Codec AnthropicMessageRequest :=
  (Record.cons (.defaulted "model" (.nullable .string) none) <|
    .cons (.required "messages" (.list messageContentCodec)) <|
    .cons (.defaulted "system" (.nullable .string) none) <|
    .cons (.defaulted "max_tokens" .uint32 0) <|
    .cons (.defaulted "stream" (.nullable .bool) none) <|
    .cons (.defaulted "temperature" (.nullable (.single single)) none) <|
    .cons (.defaulted "top_p" (.nullable (.single single)) none) <|
    .cons (.defaulted "tools" (.nullable (.list toolCodec)) none) <|
    .cons (.defaulted "tool_choice" (.nullable .value) none) .nil).flattened.iso
    (fun ⟨⟨model, messages, system, maxTokens, stream, temperature, topP, tools, toolChoice, _⟩,
      extra⟩ => ⟨model, messages, system, maxTokens, stream, temperature, topP, tools, toolChoice,
        extra⟩)
    (fun r => ((r.model, r.messages, r.system, r.maxTokens, r.stream, r.temperature, r.topP,
      r.tools, r.toolChoice, ()), r.extra))
    fun _ => rfl

end LocalMind
