import LocalMind.Api.OpenaiRequest
import LocalMind.Proxy.Inject

namespace LocalMind.Openai
set_option autoImplicit true
open Json Json.Codec

/-! Injecting an augmentation into a request of the OpenAI API. -/

/-- The request is written, injected into and read again. -/
def injectAugmentation (codec : FloatCodec) (s : SingleCodec) (request : ChatCompletionRequest)
    (requestPrompt augmentation : String) : Except InjectFault (Option ChatCompletionRequest) :=
  (injectAugmentationValue codec ((requestCodec codec s.widened).encode request) requestPrompt
    augmentation).map (requestCodec codec s.widened).decode

/-! What it does to a request. -/

def ContentPart.isText (p : ContentPart) : Bool := p.contentType == "text"

/-- The block goes to the last text part, if that has a text, or into a part of its own. -/
def withBlockInParts (block : String) (parts : List ContentPart) : List ContentPart :=
  match splitLast ContentPart.isText parts with
  | some (pre, part, post) =>
    match part.text with
    | some text => pre ++ { part with text := some (text ++ block) } :: post
    | none => parts ++ [⟨"text", some block, none⟩]
  | none => parts ++ [⟨"text", some block, none⟩]

def Message.withBlock (block : String) (m : Message) : Message :=
  { m with
    content := some <|
      match m.content with
      | none => .text block
      | some (.text text) => .text (text ++ block)
      | some (.parts parts) => .parts (withBlockInParts block parts) }

def Message.isUser (m : Message) : Bool := m.role == "user"

/-- The block goes to the last message of the user, or into a message of its own. -/
def withBlockInMessages (block : String) (messages : List Message) : List Message :=
  match splitLast Message.isUser messages with
  | some (pre, m, post) => pre ++ m.withBlock block :: post
  | none =>
    if messages.isEmpty then []
    else messages ++ [⟨"system", some (.text block), none, none, none⟩]

def ChatCompletionRequest.withBlock (block : String) (r : ChatCompletionRequest) :
    ChatCompletionRequest :=
  { r with messages := withBlockInMessages block r.messages }

/-! Parts. -/

theorem splitLast_map (f : α → β) (p : β → Bool) (as : List α) :
    splitLast p (as.map f) =
      (splitLast (fun a => p (f a)) as).map fun r => (r.1.map f, f r.2.1, r.2.2.map f) := by
  induction as with
  | nil => rfl
  | cons a as ih =>
    rw [List.map_cons, splitLast, splitLast, ih]
    cases splitLast (fun a => p (f a)) as with
    | some r => rfl
    | none =>
      dsimp only [Option.map_none]
      split <;> rfl

theorem contentPart_get (p : ContentPart) :
    (contentPartCodec.encode p).get "type" = some (.string p.contentType) ∧
      (contentPartCodec.encode p).get "text" = some (orNull .string p.text) := ⟨rfl, rfl⟩

theorem contentPart_put (p : ContentPart) (t : String) :
    (contentPartCodec.encode p).put "text" (.string t) =
      contentPartCodec.encode { p with text := some t } := rfl

theorem contentPart_isText (p : ContentPart) :
    isTextPart (contentPartCodec.encode p) = p.isText := by
  rw [Bool.eq_iff_iff, isTextPart_iff, (contentPart_get p).1, ContentPart.isText, beq_iff_eq]
  simp

theorem textPart_decode (block : String) :
    contentPartCodec.decode (textPart block) = some ⟨"text", some block, none⟩ := rfl

theorem parts_append_decode (block : String) (parts : List ContentPart) :
    (parts.map contentPartCodec.encode ++ [textPart block]).mapM contentPartCodec.decode =
      some (parts ++ [⟨"text", some block, none⟩]) := by
  rw [List.mapM_append, mapM_encode contentPart_rereads, List.mapM_cons, textPart_decode,
    List.map_id]
  rfl

theorem appendToLastText_decode (block : String) (parts : List ContentPart) :
    ((appendToLastText block (parts.map contentPartCodec.encode)).getD
        (parts.map contentPartCodec.encode ++ [textPart block])).mapM contentPartCodec.decode =
      some (withBlockInParts block parts) := by
  rw [appendToLastText, withBlockInParts, splitLast_map]
  simp only [contentPart_isText]
  cases hs : splitLast (fun p => p.isText) parts with
  | none => exact parts_append_decode block parts
  | some r =>
    obtain ⟨pre, part, post⟩ := r
    simp only [Option.map_some, (contentPart_get part).2]
    cases ht : part.text with
    | none => exact parts_append_decode block parts
    | some t =>
      have hlist : pre.map contentPartCodec.encode ++
          (contentPartCodec.encode part).put "text" (.string (t ++ block)) ::
            post.map contentPartCodec.encode =
          (pre ++ { part with text := some (t ++ block) } :: post).map
            contentPartCodec.encode := by
        rw [contentPart_put, List.map_append, List.map_cons]
      have hread := mapM_encode contentPart_rereads
        (pre ++ { part with text := some (t ++ block) } :: post)
      rw [← hlist, List.map_id] at hread
      exact hread

/-! Messages. -/

def Message.fields (m : Message) :=
  (m.role, m.content, m.name, m.toolCalls, m.toolCallId, ())

theorem message_get (codec : FloatCodec) (m : Message) :
    Fields.get ((messageRecord codec).encode m.fields) "role" = some (.string m.role) ∧
      Fields.get ((messageRecord codec).encode m.fields) "content" =
        m.content.map messageContentCodec.encode ∧
      ∀ k ∈ ["name", "tool_calls", "tool_call_id"],
        Fields.get ((messageRecord codec).encode m.fields) k =
          Fields.get ((callsRecord codec).encode (m.name, m.toolCalls, m.toolCallId, ())) k := by
  obtain ⟨hrole, hrest⟩ := Record.get_cons_encode (g := .required "role" .string)
    (r := .cons (.skipped "content" messageContentCodec) (callsRecord codec)) (by decide) m.fields
  obtain ⟨hcontent, hcalls⟩ := Record.get_cons_encode
    (g := .skipped "content" messageContentCodec) (r := callsRecord codec) (by decide) m.fields.2
  refine ⟨hrole, (hrest "content" (by decide)).trans hcontent, fun k hk => ?_⟩
  exact (hrest k (List.mem_cons_of_mem _ hk)).trans (hcalls k hk)

theorem message_put_content (codec : FloatCodec) (m : Message) (content : Option MessageContent)
    (h : (Field.skipped "content" messageContentCodec).decode (some x) = some content) :
    (messageCodec codec).decode (((messageCodec codec).encode m).put "content" x) =
      some { m with content := content } := by
  obtain ⟨hrole, -, hcalls⟩ := message_get codec m
  have hread : (messageRecord codec).decode
      (Fields.get (Fields.insert ((messageRecord codec).encode m.fields) "content" x)) =
      some (m.role, content, m.name, m.toolCalls, m.toolCallId, ()) := by
    apply Record.cons_decode_iff.2
    constructor
    · rw [Fields.get_insert_of_ne (by decide), hrole]
      rfl
    · apply Record.cons_decode_iff.2
      constructor
      · rw [Fields.get_insert_self]
        exact h
      · have hrest := callsRecord_rereads codec (m.name, m.toolCalls, m.toolCallId, ())
          (Fields.get (Fields.insert ((messageRecord codec).encode m.fields) "content" x))
        rw [hrest]
        · simp
        · intro k hk
          rw [Fields.get_insert_of_ne, hcalls k hk]
          rintro rfl
          exact absurd hk (by decide)
  exact congrArg (Option.map _) hread

theorem message_isUser (codec : FloatCodec) (m : Message) :
    isUserMessage ((messageCodec codec).encode m) = m.isUser := by
  have hrole : ((messageCodec codec).encode m).get "role" = some (.string m.role) :=
    (message_get codec m).1
  rw [Bool.eq_iff_iff, isUserMessage_iff, hrole, Message.isUser, beq_iff_eq]
  simp

theorem content_decode_array (h : xs.mapM contentPartCodec.decode = some parts) :
    (Field.skipped "content" messageContentCodec).decode (some (.array xs)) =
      some (some (.parts parts)) := by
  have hd : messageContentCodec.decode (.array xs) =
      ((xs.mapM contentPartCodec.decode).map Sum.inr).map (Sum.elim .text .parts) := rfl
  rw [h] at hd
  exact congrArg (Option.map some) hd

/-- A message takes the block. -/
theorem appendBlockToMessage_decode (codec : FloatCodec) (m : Message) (block : String) :
    ∃ msg, appendBlockToMessage codec ((messageCodec codec).encode m) block = .ok msg ∧
      (messageCodec codec).decode msg = some (m.withBlock block) := by
  have hget : ((messageCodec codec).encode m).get "content" =
      m.content.map messageContentCodec.encode := (message_get codec m).2.1
  rw [appendBlockToMessage, hget, Message.withBlock]
  cases hcontent : m.content with
  | none =>
    refine ⟨_, rfl, ?_⟩
    exact message_put_content codec m (some (.text block)) rfl
  | some content =>
    cases content with
    | text t =>
      refine ⟨_, rfl, ?_⟩
      exact message_put_content codec m (some (.text (t ++ block))) rfl
    | parts parts =>
      refine ⟨_, rfl, ?_⟩
      apply message_put_content codec m (some (.parts (withBlockInParts block parts)))
      exact content_decode_array (appendToLastText_decode block parts)

/-! Requests. -/

theorem request_put_messages {codec : FloatCodec} {s : SingleCodec} {r : ChatCompletionRequest}
    (hextra : Record.Beside requestFields r.extra)
    (hvs : vs.mapM (messageCodec codec).decode = some messages) :
    (requestCodec codec s.widened).decode
        (((requestCodec codec s.widened).encode r).put "messages" (.array vs)) =
      some { r.settle s with messages := messages } := by
  obtain ⟨hmodel, -, hparameters⟩ := request_get codec s.widened r
  obtain ⟨hfields, hfilter⟩ := Record.flattened_apart (r := requestRecord codec s.widened)
    (p := (r.fields, r.extra)) hextra
  apply request_decode (m := Fields.insert
    ((requestRecord codec s.widened).encode r.fields ++ r.extra) "messages" (.array vs))
  · rw [Fields.get_insert_of_ne (by decide), hfields _ (by decide)]
    exact hmodel
  · exact Fields.get_insert_self _ _ _
  · exact hvs
  · intro k hk
    rw [Fields.get_insert_of_ne, hfields k (List.mem_of_mem_drop hk)]
    · exact hparameters k hk
    · rintro rfl
      exact absurd hk (by decide)
  · rw [Fields.filter_insert fun k => !requestFields.contains k]
    exact hfilter

theorem request_field {codec : FloatCodec} {s : SingleCodec} {r : ChatCompletionRequest}
    (hextra : Record.Beside requestFields r.extra) (hk : k ∈ requestFields) :
    ((requestCodec codec s).encode r).get k =
      Fields.get ((requestRecord codec s).encode r.fields) k :=
  (Record.flattened_apart (r := requestRecord codec s) (p := (r.fields, r.extra)) hextra).1 k hk

/-- A request is written without a string as its stop. -/
theorem request_stop {codec : FloatCodec} {s : SingleCodec} {r : ChatCompletionRequest}
    (hextra : Record.Beside requestFields r.extra) :
    normalizeStop ((requestCodec codec s.widened).encode r) =
      (requestCodec codec s.widened).encode r := by
  have hread := parameters_reread s r fun k _ => rfl
  have hstop := (Record.cons_decode_iff.1 (Record.cons_decode_iff.1 (Record.cons_decode_iff.1
    (Record.cons_decode_iff.1 (Record.cons_decode_iff.1 (Record.cons_decode_iff.1
      (Record.cons_decode_iff.1 hread).2).2).2).2).2).2).1
  rw [normalizeStop, request_field hextra (by decide),
    (request_get codec s.widened r).2.2 "stop" (by decide)]
  split
  · next t ht =>
    rw [ht] at hstop
    cases hstop
  · rfl

theorem block_in_messages (codec : FloatCodec) (messages pre post : List Message) (m : Message)
    (hs : splitLast (fun m => m.isUser) messages = some (pre, m, post)) (block : String)
    (hmsg : (messageCodec codec).decode msg = some (m.withBlock block)) :
    (pre.map (messageCodec codec).encode ++ msg :: post.map (messageCodec codec).encode).mapM
      (messageCodec codec).decode = some (withBlockInMessages block messages) := by
  have hpre := mapM_encode (message_rereads codec) pre
  have hpost := mapM_encode (message_rereads codec) post
  rw [List.map_id] at hpre hpost
  rw [List.mapM_append, hpre, List.mapM_cons, hmsg, hpost, withBlockInMessages, hs]
  rfl

/-- Whatever the body, its request takes the block where it belongs, and nothing else of it is
changed but for numbers that are not finite. -/
theorem injectAugmentation_eq {codec : FloatCodec} {s : SingleCodec} {r : ChatCompletionRequest}
    (h : (requestCodec codec s.widened).decode v = some r) (requestPrompt augmentation : String) :
    injectAugmentation codec s r requestPrompt augmentation = .ok (some
      ((r.settle s).withBlock (augmentationBlock requestPrompt augmentation))) := by
  have hextra := request_extra h
  have hmessages := (request_field (s := s.widened) hextra (by decide)).trans
    (request_get codec s.widened r).2.1
  have hobject : (!((requestCodec codec s.widened).encode r).isObject) = false := rfl
  rw [injectAugmentation, injectAugmentationValue, hobject, if_neg Bool.false_ne_true,
    request_stop hextra]
  generalize augmentationBlock requestPrompt augmentation = block
  simp only [hmessages, Option.bind_some, Value.asArray]
  rw [splitLast_map]
  simp only [message_isUser]
  cases hs : splitLast (fun m => m.isUser) r.messages with
  | some split =>
    obtain ⟨pre, m, post⟩ := split
    obtain ⟨msg, happend, hmsg⟩ := appendBlockToMessage_decode codec m block
    simp only [Option.map_some, happend]
    have hread := request_put_messages (s := s) hextra
      (block_in_messages codec r.messages pre post m hs block hmsg)
    exact congrArg Except.ok hread
  | none =>
    simp only [Option.map_none, List.isEmpty_map]
    rw [ChatCompletionRequest.withBlock, withBlockInMessages, ChatCompletionRequest.settle, hs]
    dsimp only
    split
    · next hempty =>
      have hread := request_rereads h
      rw [ChatCompletionRequest.settle, List.isEmpty_iff.1 hempty] at hread
      exact congrArg Except.ok hread
    · have hsystem : (messageCodec codec).decode (systemMessage block) =
          some ⟨"system", some (.text block), none, none, none⟩ := rfl
      have hvs := mapM_encode (message_rereads codec) r.messages
      rw [List.map_id] at hvs
      have hadded : (r.messages.map (messageCodec codec).encode ++ [systemMessage block]).mapM
          (messageCodec codec).decode =
            some (r.messages ++ [⟨"system", some (.text block), none, none, none⟩]) := by
        rw [List.mapM_append, hvs, List.mapM_cons, hsystem]
        rfl
      have hread := request_put_messages (s := s) hextra hadded
      exact congrArg Except.ok hread

theorem injectAugmentation_eq_top_k :
    injectAugmentation integersOnly zerosOnly requestWithTopK "p" "a" = .ok (some
      ((requestWithTopK.settle zerosOnly).withBlock (augmentationBlock "p" "a"))) :=
  injectAugmentation_eq (v := bodyWithTopK) rfl "p" "a"

end LocalMind.Openai
