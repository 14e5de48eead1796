import LocalMind.Json.Print
import LocalMind.Json.Rereads

namespace LocalMind.Openai
set_option autoImplicit true
open Json Json.Codec

/-! The requests of the OpenAI API. -/

structure ImageUrl where
  url : String
  detail : Option String

structure ContentPart where
  contentType : String
  text : Option String
  imageUrl : Option ImageUrl

inductive MessageContent where
  | text (text : String)
  | parts (parts : List ContentPart)

structure FunctionCall where
  name : String
  arguments : String

structure ToolCall where
  id : Option String
  callType : Option String
  index : Option UInt32
  function : FunctionCall

structure Message where
  role : String
  content : Option MessageContent
  name : Option String
  toolCalls : Option (List ToolCall)
  toolCallId : Option String

structure FunctionDef where
  name : String
  description : Option String
  parameters : Value

structure Tool where
  toolType : String
  function : FunctionDef

structure FunctionRef where
  name : String

structure ToolChoiceObject where
  choiceType : String
  function : Option FunctionRef

inductive ToolChoice where
  | string (s : String)
  | object (o : ToolChoiceObject)

structure ChatCompletionRequest where
  model : String
  messages : List Message
  temperature : Option UInt32
  topP : Option UInt32
  maxTokens : Option UInt32
  stream : Option Bool
  tools : Option (List Tool)
  toolChoice : Option ToolChoice
  stop : Option (List String)
  frequencyPenalty : Option UInt32
  presencePenalty : Option UInt32
  user : Option String
  reasoningEffort : Option String
  verbosity : Option String
  thinkingBudget : Option UInt64
  extra : List (String × Value)

def imageUrlCodec : Codec ImageUrl :=
  (Record.cons (.required "url" .string) <|
    .cons (.defaulted "detail" (.nullable .string) none) .nil).codec.iso
    (fun ⟨url, detail, _⟩ => { url, detail }) (fun i => (i.url, i.detail, ())) fun _ => rfl

def contentPartRecord : Record ["type", "text", "image_url"]
    (String × Option String × Option ImageUrl × Unit) :=
  .cons (.required "type" .string) <|
    .cons (.defaulted "text" (.nullable .string) none) <|
    .cons (.defaulted "image_url" (.nullable imageUrlCodec) none) .nil

def contentPartCodec : Codec ContentPart :=
  contentPartRecord.codec.iso
    (fun ⟨contentType, text, imageUrl, _⟩ => { contentType, text, imageUrl })
    (fun p => (p.contentType, p.text, p.imageUrl, ())) fun _ => rfl

def messageContentCodec : Codec MessageContent :=
  (Codec.untagged .string (.list contentPartCodec)).iso
    (Sum.elim MessageContent.text MessageContent.parts)
    (fun
      | .text s => .inl s
      | .parts ps => .inr ps)
    (fun s => by cases s <;> rfl)

/-- `deserialize_arguments`: null is the empty object, anything but a string is printed. -/
def argumentsCodec (codec : FloatCodec) : Codec String where
  decode v :=
    match v with
    | .string s => some s
    | .null => some "\x7b\x7d"
    | v => some (String.ofList (print codec v))
  encode := .string
  Kept v := v.isString = true
  kept_iff v a h := by
    cases v with
    | string s =>
      cases h
      exact ⟨fun _ => rfl, fun _ => Same.refl _⟩
    | _ =>
      constructor
      · intro hs
        cases hs
      · intro hk
        cases hk

def functionCallCodec (codec : FloatCodec) : Codec FunctionCall :=
  (Record.cons (.required "name" .string) <|
    .cons (.defaulted "arguments" (argumentsCodec codec) "\x7b\x7d") .nil).codec.iso
    (fun ⟨name, arguments, _⟩ => { name, arguments }) (fun f => (f.name, f.arguments, ()))
    fun _ => rfl

def toolCallCodec (codec : FloatCodec) : Codec ToolCall :=
  (Record.cons (.skipped "id" .string) <| .cons (.skipped "type" .string) <|
    .cons (.skipped "index" .uint32) <|
    .cons (.required "function" (functionCallCodec codec)) .nil).codec.iso
    (fun ⟨id, callType, index, function, _⟩ => { id, callType, index, function })
    (fun t => (t.id, t.callType, t.index, t.function, ())) fun _ => rfl

/-- The fields behind the role and the content. -/
def callsRecord (codec : FloatCodec) : Record ["name", "tool_calls", "tool_call_id"]
    (Option String × Option (List ToolCall) × Option String × Unit) :=
  .cons (.skipped "name" .string) <|
    .cons (.skipped "tool_calls" (.list (toolCallCodec codec))) <|
    .cons (.skipped "tool_call_id" .string) .nil

def messageRecord (codec : FloatCodec) :
    Record ["role", "content", "name", "tool_calls", "tool_call_id"]
      (String × Option MessageContent × Option String × Option (List ToolCall) ×
        Option String × Unit) :=
  .cons (.required "role" .string) <|
    .cons (.skipped "content" messageContentCodec) (callsRecord codec)

def messageCodec (codec : FloatCodec) : Codec Message :=
  (messageRecord codec).codec.iso
    (fun ⟨role, content, name, toolCalls, toolCallId, _⟩ =>
      { role, content, name, toolCalls, toolCallId })
    (fun m => (m.role, m.content, m.name, m.toolCalls, m.toolCallId, ())) fun _ => rfl

def functionDefCodec : Codec FunctionDef :=
  (Record.cons (.required "name" .string) <|
    .cons (.defaulted "description" (.nullable .string) none) <|
    .cons (.required "parameters" .value) .nil).codec.iso
    (fun ⟨name, description, parameters, _⟩ => { name, description, parameters })
    (fun f => (f.name, f.description, f.parameters, ())) fun _ => rfl

def toolCodec : Codec Tool :=
  (Record.cons (.required "type" .string) <|
    .cons (.required "function" functionDefCodec) .nil).codec.iso
    (fun ⟨toolType, function, _⟩ => { toolType, function })
    (fun t => (t.toolType, t.function, ())) fun _ => rfl

def functionRefCodec : Codec FunctionRef :=
  (Record.cons (.required "name" .string) .nil).codec.iso (fun ⟨name, _⟩ => { name })
    (fun f => (f.name, ())) fun _ => rfl

/-- The function has no default, so an array must hold both fields. -/
def toolChoiceObjectCodec : Codec ToolChoiceObject :=
  ((Record.cons (.required "type" .string) <|
    .cons (.defaulted "function" (.nullable functionRefCodec) none) .nil).codec.atLeast 2).iso
    (fun ⟨choiceType, function, _⟩ => { choiceType, function })
    (fun o => (o.choiceType, o.function, ())) fun _ => rfl

def toolChoiceCodec : Codec ToolChoice :=
  (Codec.untagged .string toolChoiceObjectCodec).iso
    (Sum.elim ToolChoice.string ToolChoice.object)
    (fun
      | .string s => .inl s
      | .object o => .inr o)
    (fun s => by cases s <;> rfl)

def requestFields : List String :=
  ["model", "messages", "temperature", "top_p", "max_tokens", "stream", "tools", "tool_choice",
    "stop", "frequency_penalty", "presence_penalty", "user", "reasoning_effort", "verbosity",
    "thinking_budget"]

/-- The fields behind the model and the messages. -/
def parametersRecord (single : SingleCodec) : Record (requestFields.drop 2)
    (Option UInt32 × Option UInt32 × Option UInt32 × Option Bool × Option (List Tool) ×
      Option ToolChoice × Option (List String) × Option UInt32 × Option UInt32 × Option String ×
      Option String × Option String × Option UInt64 × Unit) :=
  .cons (.skipped "temperature" (.single single)) <|
    .cons (.skipped "top_p" (.single single)) <|
    .cons (.skipped "max_tokens" .uint32) <|
    .cons (.skipped "stream" .bool) <|
    .cons (.skipped "tools" (.list toolCodec)) <|
    .cons (.skipped "tool_choice" toolChoiceCodec) <|
    .cons (.skipped "stop" (.list .string)) <|
    .cons (.skipped "frequency_penalty" (.single single)) <|
    .cons (.skipped "presence_penalty" (.single single)) <|
    .cons (.skipped "user" .string) <|
    .cons (.skipped "reasoning_effort" .string) <|
    .cons (.skipped "verbosity" .string) <|
    .cons (.skipped "thinking_budget" .uint64) .nil

def requestRecord (codec : FloatCodec) (single : SingleCodec) : Record requestFields
    (String × List Message × Option UInt32 × Option UInt32 × Option UInt32 × Option Bool ×
      Option (List Tool) × Option ToolChoice × Option (List String) × Option UInt32 ×
      Option UInt32 × Option String × Option String × Option String × Option UInt64 × Unit) :=
  .cons (.required "model" .string) <|
    .cons (.required "messages" (.list (messageCodec codec))) (parametersRecord single)

/-- The fields of a request as they are laid out for its codec. -/
def ChatCompletionRequest.fields (r : ChatCompletionRequest) :=
  (r.model, r.messages, r.temperature, r.topP, r.maxTokens, r.stream, r.tools, r.toolChoice,
    r.stop, r.frequencyPenalty, r.presencePenalty, r.user, r.reasoningEffort, r.verbosity,
    r.thinkingBudget, ())

def requestCodec (codec : FloatCodec) (single : SingleCodec) : Codec ChatCompletionRequest :=
  (requestRecord codec single).flattened.iso
    (fun ⟨⟨model, messages, temperature, topP, maxTokens, stream, tools, toolChoice, stop,
      frequencyPenalty, presencePenalty, user, reasoningEffort, verbosity, thinkingBudget, _⟩,
      extra⟩ => ⟨model, messages, temperature, topP, maxTokens, stream, tools, toolChoice, stop,
        frequencyPenalty, presencePenalty, user, reasoningEffort, verbosity, thinkingBudget, extra⟩)
    (fun r => (r.fields, r.extra)) fun _ => rfl

/-! What was written is read again. -/

theorem imageUrl_rereads : imageUrlCodec.Rereads id := by
  apply Rereads.congr
  · apply iso_rereads
    apply Record.codec_rereads
    apply Record.cons_rereads (Field.required_rereads _ string_rereads)
    apply Record.cons_rereads
      (Field.defaulted_rereads _ _ (nullable_rereads string_rereads string_solid))
    exact Record.nil_rereads
  · intro i
    simp

theorem contentPart_rereads : contentPartCodec.Rereads id := by
  apply Rereads.congr
  · apply iso_rereads
    apply Record.codec_rereads
    apply Record.cons_rereads (Field.required_rereads _ string_rereads)
    apply Record.cons_rereads
      (Field.defaulted_rereads _ _ (nullable_rereads string_rereads string_solid))
    apply Record.cons_rereads (Field.defaulted_rereads _ _
      (nullable_rereads imageUrl_rereads (iso_solid (Record.codec_solid _))))
    exact Record.nil_rereads
  · intro p
    simp

theorem messageContent_rereads : messageContentCodec.Rereads id := by
  apply Rereads.congr
  · apply iso_rereads
    apply untagged_rereads string_rereads (list_rereads contentPart_rereads)
    exact fun _ => rfl
  · intro c
    cases c with
    | text s => rfl
    | parts ps => simp

theorem messageContent_solid : messageContentCodec.Solid :=
  iso_solid (untagged_solid string_solid (list_solid _))

theorem functionCall_rereads (codec : FloatCodec) : (functionCallCodec codec).Rereads id := by
  apply Rereads.congr
  · apply iso_rereads
    apply Record.codec_rereads
    apply Record.cons_rereads (Field.required_rereads _ string_rereads)
    have harguments : (argumentsCodec codec).Rereads id := fun _ => rfl
    apply Record.cons_rereads (Field.defaulted_rereads _ _ harguments)
    exact Record.nil_rereads
  · intro f
    simp

theorem toolCall_rereads (codec : FloatCodec) : (toolCallCodec codec).Rereads id := by
  apply Rereads.congr
  · apply iso_rereads
    apply Record.codec_rereads
    apply Record.cons_rereads (Field.skipped_rereads _ string_rereads string_solid)
    apply Record.cons_rereads (Field.skipped_rereads _ string_rereads string_solid)
    apply Record.cons_rereads (Field.skipped_rereads _ uint32_rereads uint32_solid)
    apply Record.cons_rereads (Field.required_rereads _ (functionCall_rereads codec))
    exact Record.nil_rereads
  · intro t
    simp

theorem callsRecord_rereads (codec : FloatCodec) : (callsRecord codec).Rereads
    (Prod.map (Option.map id) <| Prod.map (Option.map (List.map id)) <|
      Prod.map (Option.map id) id) := by
  apply Record.cons_rereads (Field.skipped_rereads _ string_rereads string_solid)
  apply Record.cons_rereads
    (Field.skipped_rereads _ (list_rereads (toolCall_rereads codec)) (list_solid _))
  apply Record.cons_rereads (Field.skipped_rereads _ string_rereads string_solid)
  exact Record.nil_rereads

theorem message_rereads (codec : FloatCodec) : (messageCodec codec).Rereads id := by
  apply Rereads.congr
  · apply iso_rereads
    apply Record.codec_rereads
    apply Record.cons_rereads (Field.required_rereads _ string_rereads)
    apply Record.cons_rereads
      (Field.skipped_rereads _ messageContent_rereads messageContent_solid)
    exact callsRecord_rereads codec
  · intro m
    simp

theorem functionDef_rereads : functionDefCodec.Rereads id := by
  apply Rereads.congr
  · apply iso_rereads
    apply Record.codec_rereads
    apply Record.cons_rereads (Field.required_rereads _ string_rereads)
    apply Record.cons_rereads
      (Field.defaulted_rereads _ _ (nullable_rereads string_rereads string_solid))
    apply Record.cons_rereads (Field.required_rereads _ value_rereads)
    exact Record.nil_rereads
  · intro f
    simp

theorem tool_rereads : toolCodec.Rereads id := by
  apply Rereads.congr
  · apply iso_rereads
    apply Record.codec_rereads
    apply Record.cons_rereads (Field.required_rereads _ string_rereads)
    apply Record.cons_rereads (Field.required_rereads _ functionDef_rereads)
    exact Record.nil_rereads
  · intro t
    simp

theorem functionRef_rereads : functionRefCodec.Rereads id := by
  apply Rereads.congr
  · apply iso_rereads
    apply Record.codec_rereads
    apply Record.cons_rereads (Field.required_rereads _ string_rereads)
    exact Record.nil_rereads
  · intro f
    simp

theorem toolChoiceObject_rereads : toolChoiceObjectCodec.Rereads id := by
  apply Rereads.congr
  · apply iso_rereads
    apply Record.atLeast_rereads
    apply Record.cons_rereads (Field.required_rereads _ string_rereads)
    apply Record.cons_rereads (Field.defaulted_rereads _ _
      (nullable_rereads functionRef_rereads (iso_solid (Record.codec_solid _))))
    exact Record.nil_rereads
  · intro o
    simp

theorem toolChoiceObject_solid : toolChoiceObjectCodec.Solid := by
  intro o h
  cases h

theorem toolChoice_rereads : toolChoiceCodec.Rereads id := by
  apply Rereads.congr
  · apply iso_rereads
    apply untagged_rereads string_rereads toolChoiceObject_rereads
    exact fun _ => rfl
  · intro c
    cases c with
    | string s => rfl
    | object o => rfl

theorem toolChoice_solid : toolChoiceCodec.Solid :=
  iso_solid (untagged_solid string_solid toolChoiceObject_solid)

/-- The request without its numbers that are not finite. -/
def ChatCompletionRequest.settle (s : SingleCodec) (r : ChatCompletionRequest) :
    ChatCompletionRequest :=
  { r with
    temperature := s.settle r.temperature
    topP := s.settle r.topP
    frequencyPenalty := s.settle r.frequencyPenalty
    presencePenalty := s.settle r.presencePenalty }

/-- The parameters are read again wherever they stand as they were written. -/
theorem parameters_reread (s : SingleCodec) (r : ChatCompletionRequest)
    (h : ∀ k ∈ requestFields.drop 2,
      field k = Fields.get ((parametersRecord s.widened).encode r.fields.2.2) k) :
    (parametersRecord s.widened).decode field = some (r.settle s).fields.2.2 := by
  have hparameters : (parametersRecord s.widened).Rereads
      (Prod.map s.settle <| Prod.map s.settle <| Prod.map (Option.map id) <|
        Prod.map (Option.map id) <| Prod.map (Option.map (List.map id)) <|
        Prod.map (Option.map id) <| Prod.map (Option.map (List.map id)) <| Prod.map s.settle <|
        Prod.map s.settle <| Prod.map (Option.map id) <| Prod.map (Option.map id) <|
        Prod.map (Option.map id) <| Prod.map (Option.map id) id) := by
    apply Record.cons_rereads (Field.single_rereads s _)
    apply Record.cons_rereads (Field.single_rereads s _)
    apply Record.cons_rereads (Field.skipped_rereads _ uint32_rereads uint32_solid)
    apply Record.cons_rereads (Field.skipped_rereads _ bool_rereads bool_solid)
    apply Record.cons_rereads
      (Field.skipped_rereads _ (list_rereads tool_rereads) (list_solid _))
    apply Record.cons_rereads (Field.skipped_rereads _ toolChoice_rereads toolChoice_solid)
    apply Record.cons_rereads
      (Field.skipped_rereads _ (list_rereads string_rereads) (list_solid _))
    apply Record.cons_rereads (Field.single_rereads s _)
    apply Record.cons_rereads (Field.single_rereads s _)
    apply Record.cons_rereads (Field.skipped_rereads _ string_rereads string_solid)
    apply Record.cons_rereads (Field.skipped_rereads _ string_rereads string_solid)
    apply Record.cons_rereads (Field.skipped_rereads _ string_rereads string_solid)
    apply Record.cons_rereads (Field.skipped_rereads _ uint64_rereads uint64_solid)
    exact Record.nil_rereads
  have hread := hparameters r.fields.2.2 field h
  simpa [ChatCompletionRequest.fields, ChatCompletionRequest.settle] using hread

theorem request_get (codec : FloatCodec) (s : SingleCodec) (r : ChatCompletionRequest) :
    Fields.get ((requestRecord codec s).encode r.fields) "model" = some (.string r.model) ∧
      Fields.get ((requestRecord codec s).encode r.fields) "messages" =
        some (.array (r.messages.map (messageCodec codec).encode)) ∧
      ∀ k ∈ requestFields.drop 2, Fields.get ((requestRecord codec s).encode r.fields) k =
        Fields.get ((parametersRecord s).encode r.fields.2.2) k := by
  obtain ⟨hmodel, hrest⟩ := Record.get_cons_encode (g := .required "model" .string)
    (r := .cons (.required "messages" (.list (messageCodec codec))) (parametersRecord s))
    (by decide) r.fields
  obtain ⟨hmessages, hparameters⟩ := Record.get_cons_encode
    (g := .required "messages" (.list (messageCodec codec))) (r := parametersRecord s)
    (by decide) r.fields.2
  refine ⟨hmodel, (hrest "messages" (by decide)).trans hmessages, fun k hk => ?_⟩
  exact (hrest k (List.mem_cons_of_mem _ hk)).trans (hparameters k hk)

/-- A request with other messages, as it is read. -/
theorem request_decode {codec : FloatCodec} {s : SingleCodec} {r : ChatCompletionRequest}
    (hmodel : Fields.get m "model" = some (.string r.model))
    (hmessages : Fields.get m "messages" = some (.array vs))
    (hvs : vs.mapM (messageCodec codec).decode = some messages)
    (hparameters : ∀ k ∈ requestFields.drop 2,
      Fields.get m k = Fields.get ((parametersRecord s.widened).encode r.fields.2.2) k)
    (hextra : m.filter (fun e => !requestFields.contains e.1) = r.extra) :
    (requestCodec codec s.widened).decode (.object m) =
      some { r.settle s with messages := messages } := by
  have hrecord : (requestRecord codec s.widened).decode (Fields.get m) =
      some (r.model, messages, (r.settle s).fields.2.2) := by
    apply Record.cons_decode_iff.2
    constructor
    · rw [hmodel]
      rfl
    · apply Record.cons_decode_iff.2
      constructor
      · rw [hmessages]
        exact hvs
      · exact parameters_reread s r hparameters
  have hread := Record.flattened_decode hrecord
  rw [hextra] at hread
  have hd : (requestCodec codec s.widened).decode (.object m) =
      ((requestRecord codec s.widened).flattened.decode (.object m)).map _ := rfl
  rw [hd, hread]
  rfl

theorem request_extra {codec : FloatCodec} {s : SingleCodec} {r : ChatCompletionRequest}
    (h : (requestCodec codec s).decode v = some r) : Record.Beside requestFields r.extra := by
  obtain ⟨p, hp, rfl⟩ := Option.map_eq_some_iff.1 h
  exact Record.flattened_extra hp

/-- Whatever the body, its request is read again from what is written of it. -/
theorem request_rereads {codec : FloatCodec} {s : SingleCodec} {r : ChatCompletionRequest}
    (h : (requestCodec codec s.widened).decode v = some r) :
    (requestCodec codec s.widened).decode ((requestCodec codec s.widened).encode r) =
      some (r.settle s) := by
  obtain ⟨hmodel, hmessages, hparameters⟩ := request_get codec s.widened r
  obtain ⟨hfields, hfilter⟩ := Record.flattened_apart (r := requestRecord codec s.widened)
    (p := (r.fields, r.extra)) (request_extra h)
  have hvs := mapM_encode (message_rereads codec) r.messages
  rw [List.map_id] at hvs
  apply request_decode (m := (requestRecord codec s.widened).encode r.fields ++ r.extra)
    ((hfields _ (by decide)).trans hmodel) ((hfields _ (by decide)).trans hmessages) hvs
  · intro k hk
    exact (hfields k (List.mem_of_mem_drop hk)).trans (hparameters k hk)
  · exact hfilter

/-- A codec of binary32 numbers for requests with none but zeros. -/
def zerosOnly : SingleCodec where
  round _ := 0
  write b := if b = 0 then some (.posInt 0) else none
  widen b := if b = 0 then some (.posInt 0) else none
  round_widen b n h := by
    by_cases hb : b = 0
    · exact hb.symm
    · rw [if_neg hb] at h
      cases h
  finite _ := rfl

/-- A body with a field that the request does not name. -/
def bodyWithTopK : Value :=
  .object [("model", .string "m"),
    ("messages", .array [.object [("role", .string "user"), ("content", .string "hi")]]),
    ("top_k", u64 5)]

def requestWithTopK : ChatCompletionRequest :=
  ⟨"m", [⟨"user", some (.text "hi"), none, none, none⟩], none, none, none, none, none, none, none,
    none, none, none, none, none, none, [("top_k", u64 5)]⟩

end LocalMind.Openai
