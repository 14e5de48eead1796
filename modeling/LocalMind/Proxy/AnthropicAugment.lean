import LocalMind.Api.AnthropicRequest
import LocalMind.Proxy.Augment
import LocalMind.Proxy.MergeSafety

namespace LocalMind
set_option autoImplicit true
open Json

/-! Augmenting an Anthropic request. -/

def injectIntoAnthropic (request : AnthropicMessageRequest)
    (requestPrompt augmentation : String) : AnthropicMessageRequest :=
  if augmentation = "" then request
  else
    let suffix := AnthropicContentBlock.text (augmentationBlock requestPrompt augmentation)
    match lastIndex (fun m => m.role == "user") request.messages with
    | some idx =>
      { request with messages := request.messages.modify idx fun m =>
          { m with content := m.content ++ [suffix] } }
    | none =>
      { request with messages := request.messages.modify 0 fun m =>
          { m with content := suffix :: m.content } }

/-- The block at the end of the last user message, or at the start of the first message where
there is no user message. -/
def addBlock (block : Value) (messages : List Value) : List Value :=
  match lastIndex (fun m => decide (m.get "role" = some (.string "user"))) messages with
  | some idx => messages.modify idx fun m => updateContent m (· ++ [block])
  | none => messages.modify 0 fun m => updateContent m (block :: ·)

/-- A body is another with the block added to its messages. -/
def AddsBlock (block body out : Value) : Prop :=
  ∃ messages, body.get "messages" = some (.array messages) ∧ messages ≠ [] ∧
    Same out (body.put "messages" (.array (addBlock block messages)))

def suffixBlock (requestPrompt augmentation : String) : Value :=
  .object [("type", .string "text"),
    ("text", .string (augmentationBlock requestPrompt augmentation))]

/-- A message of a role and of blocks that are whole or of no known shape. -/
structure MessageWhole (message : Value) : Prop where
  object : message.isObject = true
  keys : ∀ k x, message.get k = some x → k = "role" ∨ k = "content"
  content : ∀ blocks, message.get "content" = some (.array blocks) → ∀ b ∈ blocks,
    (wireBlock b).isSome = true → BlockWhole b

/-- A tool with all of its fields and no other. -/
structure ToolWhole (tool : Value) : Prop where
  object : tool.isObject = true
  keys : ∀ k x, tool.get k = some x → k = "name" ∨ k = "description" ∨ k = "input_schema"
  description : (tool.get "description").isSome = true

def requestFields : List String :=
  ["model", "messages", "system", "max_tokens", "stream", "temperature", "top_p", "tools",
    "tool_choice"]

/-- A request that names every known field, whose messages and tools are whole and whose
temperatures are written as they were read. -/
structure RequestWhole (single : SingleCodec) (body : Value) : Prop where
  present : ∀ k ∈ requestFields, (body.get k).isSome = true
  messages : ∀ messages, body.get "messages" = some (.array messages) →
    messages ≠ [] ∧ ∀ m ∈ messages, MessageWhole m
  temperature : ∀ n, body.get "temperature" = some (.number n) →
    single.write (single.round n) = some n
  topP : ∀ n, body.get "top_p" = some (.number n) → single.write (single.round n) = some n
  tools : ∀ tools, body.get "tools" = some (.array tools) → ∀ t ∈ tools, ToolWhole t

/-! The parts of a request. -/

theorem messageWhole_iff (v : Value) : messageContentCodec.Kept v ↔ MessageWhole v := by
  constructor
  · rintro ⟨m, rfl, hkeys, hrole, hcontent, -⟩
    refine ⟨rfl, ?_, ?_⟩
    · intro k x hk
      simpa using hkeys k x hk
    · intro blocks hblocks b hb
      exact hcontent _ hblocks blocks rfl b hb
  · intro hw
    obtain ⟨m, rfl⟩ := Value.isObject_iff.1 hw.object
    refine ⟨m, rfl, ?_, fun _ _ => trivial, ?_, trivial⟩
    · intro k x hk
      simpa using hw.keys k x hk
    · intro v hv blocks hblocks b hb
      subst hblocks
      exact hw.content blocks hv b hb

theorem toolWhole_iff (v : Value) : toolCodec.Kept v ↔ ToolWhole v := by
  constructor
  · rintro ⟨m, rfl, hkeys, -, ⟨d, hd, -⟩, -, -⟩
    refine ⟨rfl, ?_, ?_⟩
    · intro k x hk
      simpa using hkeys k x hk
    · rw [Value.get_object, hd]
      rfl
  · intro hw
    obtain ⟨m, rfl⟩ := Value.isObject_iff.1 hw.object
    obtain ⟨d, hd⟩ := Option.isSome_iff_exists.1 hw.description
    refine ⟨m, rfl, ?_, fun _ _ => trivial, ⟨d, hd, fun _ => trivial⟩, fun _ _ => trivial,
      trivial⟩
    intro k x hk
    simpa using hw.keys k x hk

/-! The messages. -/

theorem mapM_deserialize (vs : List Value) :
    vs.mapM contentBlockCodec.decode = some (vs.map AnthropicContentBlock.deserialize) := by
  induction vs with
  | nil => rfl
  | cons v vs ih =>
    rw [List.mapM_cons, ih]
    rfl

/-- A message that was read from an object. -/
theorem message_decode (h : messageContentCodec.decode (.object m) = some message) :
    Fields.get m "role" = some (.string message.role) ∧
      ∃ vs, Fields.get m "content" = some (.array vs) ∧
        message.content = vs.map AnthropicContentBlock.deserialize := by
  obtain ⟨p, hp, rfl⟩ := Option.map_eq_some_iff.1 h
  obtain ⟨role, hrole, hp⟩ := Option.bind_eq_some_iff.1 hp
  obtain ⟨rest, hrest, hp⟩ := Option.bind_eq_some_iff.1 hp
  obtain ⟨content, hcontent, hrest⟩ := Option.bind_eq_some_iff.1 hrest
  cases hp
  cases hrest
  obtain ⟨v, hv, hvec⟩ := required_eq_some.1 hcontent
  refine ⟨required_asStr.1 hrole, ?_⟩
  cases v with
  | array vs =>
    refine ⟨vs, hv, ?_⟩
    exact (Option.some.inj ((mapM_deserialize vs).symm.trans hvec)).symm
  | _ => cases hvec

def writtenBlocks (blocks : List AnthropicContentBlock) : Value :=
  .array (blocks.map AnthropicContentBlock.serialize)

def writtenMessage (message : AnthropicMessageContent) : List (String × Value) :=
  [("role", .string message.role), ("content", writtenBlocks message.content)]

theorem encode_message (message : AnthropicMessageContent) :
    messageContentCodec.encode message = .object (writtenMessage message) := rfl

theorem forall₂_concat_iff {R : α → β → Prop} :
    List.Forall₂ R (as ++ [a]) (bs ++ [b]) ↔ List.Forall₂ R as bs ∧ R a b := by
  rw [← List.forall₂_reverse_iff, List.reverse_concat, List.reverse_concat, List.forall₂_cons,
    List.forall₂_reverse_iff, and_comm]

/-- Blocks that are put into the content on both sides. -/
theorem content_iff_of {f : List AnthropicContentBlock → List AnthropicContentBlock}
    {g : List Value → List Value}
    (hfg : ∀ blocks vs, Same (writtenBlocks (f blocks)) (.array (g vs)) ↔
      Same (writtenBlocks blocks) (.array vs))
    (h : messageContentCodec.decode v = some message) :
    Same (messageContentCodec.encode { message with content := f message.content })
        (updateContent v g) ↔ Same (messageContentCodec.encode message) v := by
  by_cases hobj : v.isObject = true
  · obtain ⟨m, rfl⟩ := Value.isObject_iff.1 hobj
    obtain ⟨-, vs, hvs, -⟩ := message_decode h
    have hcontent : Fields.get (writtenMessage message) "content" =
        some (writtenBlocks message.content) := rfl
    have hget : (Value.object m).get "content" = some (.array vs) := hvs
    rw [updateContent_of_get hget, encode_message, encode_message]
    exact Same.insert_iff hcontent hvs (hfg message.content vs)
  · constructor
    · intro hs
      have hsame := hs.isObject
      rw [updateContent_isObject] at hsame
      exact absurd hsame.symm hobj
    · intro hs
      exact absurd hs.isObject.symm hobj

theorem pushed_iff (text : String) (blocks : List AnthropicContentBlock) (vs : List Value) :
    Same (writtenBlocks (blocks ++ [.text text]))
        (.array (vs ++ [AnthropicContentBlock.serialize (.text text)])) ↔
      Same (writtenBlocks blocks) (.array vs) := by
  rw [writtenBlocks, writtenBlocks, Same.array_iff, Same.array_iff, List.map_append,
    List.map_singleton, forall₂_concat_iff]
  exact and_iff_left (Same.refl _)

theorem unshifted_iff (text : String) (blocks : List AnthropicContentBlock) (vs : List Value) :
    Same (writtenBlocks (.text text :: blocks))
        (.array (AnthropicContentBlock.serialize (.text text) :: vs)) ↔
      Same (writtenBlocks blocks) (.array vs) := by
  rw [writtenBlocks, writtenBlocks, Same.array_iff, Same.array_iff, List.map_cons,
    List.forall₂_cons]
  exact and_iff_right (Same.refl _)

/-- Messages that are all written as objects come from objects. -/
theorem objects_of_same {messages : List AnthropicMessageContent}
    (h : Same (.array (messages.map messageContentCodec.encode)) (.array vs)) :
    ∀ v ∈ vs, v.isObject = true := by
  rw [Same.array_iff, List.forall₂_map_left_iff] at h
  induction h with
  | nil => exact List.forall_mem_nil _
  | cons hv _ ih => exact List.forall_mem_cons.2 ⟨hv.isObject.symm, ih⟩

theorem addBlock_objects (block : Value) (vs : List Value) :
    (∀ v ∈ addBlock block vs, v.isObject = true) ↔ ∀ v ∈ vs, v.isObject = true := by
  have hupdate : ∀ (f : List Value → List Value) v,
      (updateContent v f).isObject = true ↔ v.isObject = true := by
    intro f v
    rw [updateContent_isObject]
  rw [addBlock]
  split
  · exact forall_mem_modify (hupdate _) _ vs
  · exact forall_mem_modify (hupdate _) _ vs

/-- The messages with the block in its place. -/
def injectedMessages (suffix : AnthropicContentBlock) (messages : List AnthropicMessageContent) :
    List AnthropicMessageContent :=
  match lastIndex (fun m => m.role == "user") messages with
  | some idx => messages.modify idx fun m => { m with content := m.content ++ [suffix] }
  | none => messages.modify 0 fun m => { m with content := suffix :: m.content }

theorem injectIntoAnthropic_eq (h : augmentation ≠ "") (request : AnthropicMessageRequest)
    (requestPrompt : String) :
    let suffix := AnthropicContentBlock.text (augmentationBlock requestPrompt augmentation)
    injectIntoAnthropic request requestPrompt augmentation =
      { request with messages := injectedMessages suffix request.messages } := by
  intro suffix
  rw [injectIntoAnthropic, if_neg h, injectedMessages]
  cases lastIndex (fun m => m.role == "user") request.messages <;> rfl

def writtenMessages (messages : List AnthropicMessageContent) : Value :=
  .array (messages.map messageContentCodec.encode)

/-- Messages as they were read. -/
def ReadMessages (vs : List Value) (messages : List AnthropicMessageContent) : Prop :=
  List.Forall₂ (fun m v => messageContentCodec.decode v = some m) messages vs

theorem sameUser (h : ReadMessages vs messages) (hall : ∀ v ∈ vs, v.isObject = true) :
    lastIndex (fun m => m.role == "user") messages =
      lastIndex (fun m => decide (m.get "role" = some (.string "user"))) vs := by
  apply lastIndex_congr
  induction h with
  | nil => exact .nil
  | cons hm _ ih =>
    obtain ⟨hv, hvs⟩ := List.forall_mem_cons.1 hall
    refine .cons ?_ (ih hvs)
    obtain ⟨m, rfl⟩ := Value.isObject_iff.1 hv
    have hrole : (Value.object m).get "role" = some (.string _) := (message_decode hm).1
    rw [hrole, Bool.eq_iff_iff, beq_iff_eq, decide_eq_true_iff, Option.some.injEq,
      Value.string.injEq]

theorem injectedMessages_iff (h : ReadMessages vs messages) (text : String) :
    Same (writtenMessages (injectedMessages (.text text) messages))
        (.array (addBlock (AnthropicContentBlock.serialize (.text text)) vs)) ↔
      Same (writtenMessages messages) (.array vs) := by
  by_cases hall : ∀ v ∈ vs, v.isObject = true
  · rw [injectedMessages, addBlock, sameUser h hall, writtenMessages, writtenMessages]
    cases lastIndex (fun m => decide (m.get "role" = some (.string "user"))) vs with
    | some idx =>
      rw [Same.array_iff, Same.array_iff, List.forall₂_map_left_iff, List.forall₂_map_left_iff]
      exact forall₂_modify_iff h (fun _ _ hm => content_iff_of (pushed_iff text) hm) idx
    | none =>
      rw [Same.array_iff, Same.array_iff, List.forall₂_map_left_iff, List.forall₂_map_left_iff]
      exact forall₂_modify_iff h (fun _ _ hm => content_iff_of (unshifted_iff text) hm) 0
  · constructor
    · intro hs
      exact absurd ((addBlock_objects _ vs).1 (objects_of_same hs)) hall
    · intro hs
      exact absurd (objects_of_same hs) hall

/-! The request. -/

theorem request_decode (h : (requestCodec single).decode body = some request) :
    ∃ m vs, body = .object m ∧ Fields.get m "messages" = some (.array vs) ∧
      ReadMessages vs request.messages := by
  obtain ⟨p, hp, rfl⟩ := Option.map_eq_some_iff.1 h
  obtain ⟨m, hm, hp⟩ := Option.bind_eq_some_iff.1 hp
  obtain ⟨fields, hfields, hp⟩ := Option.bind_eq_some_iff.1 hp
  cases hp
  obtain ⟨model, -, hfields⟩ := Option.bind_eq_some_iff.1 hfields
  obtain ⟨rest, hrest, hfields⟩ := Option.bind_eq_some_iff.1 hfields
  cases hfields
  obtain ⟨messages, hmessages, hrest⟩ := Option.bind_eq_some_iff.1 hrest
  obtain ⟨others, -, hrest⟩ := Option.bind_eq_some_iff.1 hrest
  cases hrest
  obtain ⟨v, hv, hvec⟩ := required_eq_some.1 hmessages
  cases v with
  | array vs =>
    exact ⟨m, vs, Value.asObject_eq_some.1 hm, hv, (Codec.mapM_eq_some hvec).flip⟩
  | _ => cases hvec

theorem request_encode (single : SingleCodec) (request : AnthropicMessageRequest)
    (messages : List AnthropicMessageContent) : ∃ fields,
    (requestCodec single).encode request = .object fields ∧
      Fields.get fields "messages" = some (writtenMessages request.messages) ∧
      (requestCodec single).encode { request with messages } =
        .object (Fields.insert fields "messages" (writtenMessages messages)) :=
  ⟨_, rfl, rfl, rfl⟩

/-- A field that is written as it was read once it is there. -/
theorem present_of {x : Option Value} (h : x.isSome = true) :
    ∃ v, x = some v ∧ (v ≠ .null → True) := by
  obtain ⟨v, hv⟩ := Option.isSome_iff_exists.1 h
  exact ⟨v, hv, fun _ => trivial⟩

theorem requestWhole_iff (hm : Fields.get m "messages" = some (.array vs)) :
    RequestWhole single (.object m) ↔ vs ≠ [] ∧ (requestCodec single).Kept (.object m) := by
  constructor
  · intro hw
    have hat : ∀ k ∈ requestFields, (Fields.get m k).isSome = true := hw.present
    refine ⟨(hw.messages vs hm).1, ?_⟩
    intro n hn
    cases hn
    refine ⟨present_of (hat _ (by decide)), ?_, present_of (hat _ (by decide)), ?_,
      present_of (hat _ (by decide)), ?_, ?_, ?_, present_of (hat _ (by decide)), trivial⟩
    · intro v hv us hus
      subst hus
      rw [hm] at hv
      cases hv
      intro v hv
      exact (messageWhole_iff v).2 ((hw.messages vs hm).2 v hv)
    · obtain ⟨v, hv⟩ := Option.isSome_iff_exists.1 (hat "max_tokens" (by decide))
      exact ⟨v, hv, trivial⟩
    · obtain ⟨v, hv⟩ := Option.isSome_iff_exists.1 (hat "temperature" (by decide))
      refine ⟨v, hv, ?_⟩
      intro _ n hn
      subst hn
      exact hw.temperature n hv
    · obtain ⟨v, hv⟩ := Option.isSome_iff_exists.1 (hat "top_p" (by decide))
      refine ⟨v, hv, ?_⟩
      intro _ n hn
      subst hn
      exact hw.topP n hv
    · obtain ⟨v, hv⟩ := Option.isSome_iff_exists.1 (hat "tools" (by decide))
      refine ⟨v, hv, ?_⟩
      intro _ ts hts t ht
      subst hts
      exact (toolWhole_iff t).2 (hw.tools ts hv t ht)
  · rintro ⟨hne, hk⟩
    obtain ⟨⟨_, hmodel, -⟩, hmessages, ⟨_, hsystem, -⟩, ⟨_, hmax, -⟩, ⟨_, hstream, -⟩,
      ⟨t, htemperature, htkept⟩, ⟨p, htop, hpkept⟩, ⟨ts, htools, htskept⟩, ⟨_, hchoice, -⟩, -⟩ :=
      hk m rfl
    constructor
    · intro k hk
      rw [Value.get_object]
      simp only [requestFields, List.mem_cons, List.not_mem_nil, or_false] at hk
      obtain rfl | rfl | rfl | rfl | rfl | rfl | rfl | rfl | rfl := hk
      all_goals simp [*]
    · intro us hus
      rw [Value.get_object, hm] at hus
      cases hus
      refine ⟨hne, ?_⟩
      intro v hv
      exact (messageWhole_iff v).1 (hmessages _ hm vs rfl v hv)
    · intro n hn
      rw [Value.get_object, htemperature] at hn
      cases hn
      exact htkept (by simp) n rfl
    · intro n hn
      rw [Value.get_object, htop] at hn
      cases hn
      exact hpkept (by simp) n rfl
    · intro us hus u hu
      rw [Value.get_object, htools] at hus
      cases hus
      exact (toolWhole_iff u).1 (htskept (by simp) us rfl u hu)

/-- Injecting a block adds it and nothing else exactly when the request is whole. -/
theorem injected_addsBlock_iff (h : (requestCodec single).decode body = some request)
    (ha : augmentation ≠ "") (requestPrompt : String) :
    AddsBlock (suffixBlock requestPrompt augmentation) body ((requestCodec single).encode
        (injectIntoAnthropic request requestPrompt augmentation)) ↔
      RequestWhole single body := by
  have hkept := (requestCodec single).kept_iff body request h
  obtain ⟨m, vs, rfl, hm, hread⟩ := request_decode h
  have hmessages := injectedMessages_iff hread (augmentationBlock requestPrompt augmentation)
  rw [injectIntoAnthropic_eq ha, requestWhole_iff hm, ← hkept]
  obtain ⟨fields, hfields, hold, hnew⟩ := request_encode single request (injectedMessages
    (.text (augmentationBlock requestPrompt augmentation)) request.messages)
  rw [hnew, hfields, ← Same.insert_iff hold hm hmessages]
  constructor
  · rintro ⟨us, hus, hne, hs⟩
    rw [Value.get_object, hm] at hus
    cases hus
    exact ⟨hne, hs⟩
  · rintro ⟨hne, hs⟩
    exact ⟨vs, hm, hne, hs⟩

/-- A codec of binary32 numbers that knows the zero alone. -/
def zeroSingle : SingleCodec where
  round _ := 0
  write _ := none
  widen _ := none
  round_widen _ _ h := by cases h
  finite _ := rfl

theorem injected_addsBlock_request :
    AddsBlock (suffixBlock "p" "a")
      (.object [("model", .null),
        ("messages", .array [.object [("role", .string "user"), ("content", .array [])]]),
        ("system", .null), ("max_tokens", u64 1), ("stream", .null), ("temperature", .null),
        ("top_p", .null), ("tools", .null), ("tool_choice", .null)])
      ((requestCodec zeroSingle).encode (injectIntoAnthropic
        { model := none, messages := [{ role := "user", content := [] }], system := none,
          maxTokens := 1, stream := none, temperature := none, topP := none, tools := none,
          toolChoice := none, extra := [] } "p" "a")) := by
  apply (injected_addsBlock_iff rfl (by decide) "p").2
  constructor
  · decide
  · intro vs hvs
    cases hvs
    refine ⟨List.cons_ne_nil _ _, ?_⟩
    intro v hv
    obtain rfl := List.mem_singleton.1 hv
    rw [← messageWhole_iff, ← messageContentCodec.kept_iff _ _ rfl]
    exact Same.refl _
  · intro n hn
    cases hn
  · intro n hn
    cases hn
  · intro ts hts
    cases hts

theorem injected_addsBlock_drops :
    ∃ body request, (requestCodec zeroSingle).decode body = some request ∧
      ¬ AddsBlock (suffixBlock "p" "a") body
        ((requestCodec zeroSingle).encode (injectIntoAnthropic request "p" "a")) := by
  refine ⟨.object [("messages", .array
    [.object [("role", .string "user"), ("content", .array [])]])], _, rfl, ?_⟩
  rintro ⟨vs, -, -, hs⟩
  have hkeys := hs.keys_of_object "max_tokens"
  cases hkeys

end LocalMind
