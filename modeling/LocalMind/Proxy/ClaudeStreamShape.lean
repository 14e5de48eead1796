import LocalMind.Proxy.ClaudeStream
import LocalMind.Proxy.SynthesisDecode

namespace LocalMind
set_option autoImplicit true
open Json

/-! The blocks that a choice gives to the stream. -/

/-- A thinking block for a reasoning text that is not empty. -/
inductive ThinkingPart (message : Value) : List StreamBlock → Prop where
  | block : message.get "reasoning_text" = some (.string s) → s ≠ "" →
      b.content = .object [("type", .string "thinking"), ("thinking", .string "")] →
      b.Spells "thinking_delta" "thinking" s → ThinkingPart message [b]
  | none : (∀ s, message.get "reasoning_text" = some (.string s) → s = "") →
      ThinkingPart message []

/-- A block for content that is neither absent, null nor empty. -/
inductive ContentPart (message : Value) : List StreamBlock → Prop where
  | text : message.get "content" = some (.string s) → s ≠ "" →
      b.content = .object [("type", .string "text"), ("text", .string "")] →
      b.Spells "text_delta" "text" s → ContentPart message [b]
  | verbatim : message.get "content" = some v → v.isNull = false → v.isString = false →
      ContentPart message [⟨v, []⟩]
  | none : message.get "content" = none ∨ message.get "content" = some .null ∨
      message.get "content" = some (.string "") → ContentPart message []

/-- The block of a tool call, with its arguments as they are. -/
structure ToolBlock (tc : Value) (b : StreamBlock) : Prop where
  content : ∃ id, (∀ s, tc.get "id" = some (.string s) → id = s) ∧
    b.content = .object [("type", .string "tool_use"), ("id", .string id),
      ("name", .string (BlockLoop.toolField tc "name")), ("input", .object [])]
  spelled : b.Spells "input_json_delta" "partial_json" (BlockLoop.toolField tc "arguments")

def callsOf (message : Value) : List Value :=
  ((message.get "tool_calls").bind Value.asArray).getD []

/-- What a choice contributes: its thinking, its content and its tool calls in this order, or an
empty text where it has none of them. -/
structure ChoiceBlocks (choice : Value) (blocks : List StreamBlock) : Prop where
  parts : ∃ message thinking content tools, choice.get "message" = some message ∧
    ThinkingPart message thinking ∧ ContentPart message content ∧
    List.Forall₂ ToolBlock (callsOf message) tools ∧
    blocks = if (thinking ++ content ++ tools).isEmpty then
        [⟨.object [("type", .string "text"), ("text", .string "")], []⟩]
      else thinking ++ content ++ tools

/-- The fields that the protocol fixes on the message that opens a stream. -/
structure EnvelopeKept (raw firstMsg message : Value) : Prop where
  type : message.get "type" = some (.string "message")
  content : message.get "content" = some (.array [])
  stopReason : message.get "stop_reason" = some .null
  id : message.get "id" = raw.get "id"
  model : message.get "model" = raw.get "model"
  role : message.get "role" = some (.string (messageRole firstMsg))

/-- A well-formed stream for a body: one start, the choices' blocks, one delta, one stop. -/
structure ClaudeStreamOk (raw : Value) (choices : List Value) (frames : List SseFrame) : Prop where
  stream : ∃ firstMsg message parts delta,
    (choices.head?.bind (·.get "message")) = some firstMsg ∧
    frames = ⟨"message_start",
        .object [("type", .string "message_start"), ("message", message)]⟩ ::
      numberedBlocks 0 parts.flatten ++ [⟨"message_delta", delta⟩,
        ⟨"message_stop", .object [("type", .string "message_stop")]⟩] ∧
    List.Forall₂ ChoiceBlocks choices parts ∧
    delta.get "type" = some (.string "message_delta") ∧
    EnvelopeKept raw firstMsg message

/-! The loop. -/

namespace BlockLoop

/-- A part of the loop appends whole blocks. -/
structure Emits (l l' : BlockLoop) (blocks : List StreamBlock) : Prop where
  frames : l'.frames = l.frames ++ numberedBlocks l.idx blocks
  idx : l'.idx = l.idx + blocks.length
  emitted : l'.emitted = (l.emitted || !blocks.isEmpty)

theorem Emits.refl (l : BlockLoop) : Emits l l [] :=
  ⟨(List.append_nil _).symm, rfl, (Bool.or_false _).symm⟩

theorem Emits.trans (h : Emits l₁ l₂ xs) (h' : Emits l₂ l₃ ys) : Emits l₁ l₃ (xs ++ ys) := by
  refine ⟨?_, ?_, ?_⟩
  · rw [h'.frames, h.frames, h.idx, numberedBlocks_append, List.append_assoc]
  · rw [h'.idx, h.idx, List.length_append, Nat.add_assoc]
  · rw [h'.emitted, h.emitted, Bool.or_assoc]
    cases xs <;> rfl

theorem emit_emits (l : BlockLoop) (b : StreamBlock)
    (hs : start = blockStart l.idx b.content) (hd : deltas = b.deltas.map (blockDelta l.idx)) :
    Emits l (l.emit start deltas) [b] := by
  refine ⟨?_, rfl, (Bool.or_true _).symm⟩
  rw [emit, numberedBlocks, numberedBlocks, blockFrames, List.append_nil, hs, hd, List.map_map]
  rfl

theorem spells_splitChars (content : Value) (kind field s : String) (size : Nat) :
    StreamBlock.Spells ⟨content, (splitChars s.toList size).map (stringDelta kind field)⟩ kind field
      s :=
  ⟨_, rfl, splitChars_flatten s.toList size⟩

theorem reasoning_emits (l : BlockLoop) (message : Value) (size : Nat) :
    ∃ blocks, Emits l (l.reasoning message size) blocks ∧ ThinkingPart message blocks := by
  rw [reasoning]
  cases hr : (message.get "reasoning_text").bind Value.asStr with
  | none =>
    refine ⟨[], .refl l, .none fun s hs => ?_⟩
    rw [hs] at hr
    cases hr
  | some s =>
    obtain ⟨v, hv, hstr⟩ := Option.bind_eq_some_iff.1 hr
    obtain rfl := Value.asStr_eq_some.1 hstr
    dsimp only
    split
    · next he =>
      refine ⟨[], .refl l, .none fun s' hs => ?_⟩
      rw [hv] at hs
      cases hs
      exact he
    · next he =>
      refine ⟨[⟨thinkingBlock none, (splitChars s.toList size).map
        (stringDelta "thinking_delta" "thinking")⟩], ?_, .block hv he rfl (spells_splitChars ..)⟩
      refine emit_emits l _ rfl ?_
      rw [List.map_map]
      rfl

theorem content_emits (l : BlockLoop) (message : Value) (size : Nat) :
    ∃ blocks, Emits l (l.content message size) blocks ∧ ContentPart message blocks := by
  rw [content]
  cases hc : message.get "content" with
  | none => exact ⟨[], .refl l, .none (.inl hc)⟩
  | some v =>
    cases v with
    | string s =>
      dsimp only
      split
      · next he =>
        rw [he] at hc
        exact ⟨[], .refl l, .none (.inr (.inr hc))⟩
      · next he =>
        refine ⟨[⟨textBlock "text", (splitChars s.toList size).map
          (stringDelta "text_delta" "text")⟩], ?_, .text hc he rfl (spells_splitChars ..)⟩
        refine emit_emits l _ rfl ?_
        rw [List.map_map]
        rfl
    | null => exact ⟨[], .refl l, .none (.inr (.inl hc))⟩
    | bool b => exact ⟨_, emit_emits l ⟨.bool b, []⟩ rfl rfl, .verbatim hc rfl rfl⟩
    | number n => exact ⟨_, emit_emits l ⟨.number n, []⟩ rfl rfl, .verbatim hc rfl rfl⟩
    | array xs => exact ⟨_, emit_emits l ⟨.array xs, []⟩ rfl rfl, .verbatim hc rfl rfl⟩
    | object m => exact ⟨_, emit_emits l ⟨.object m, []⟩ rfl rfl, .verbatim hc rfl rfl⟩

theorem toolUse_emits (newId : Nat → String) (l : BlockLoop) (tc : Value) :
    ∃ b, Emits l (toolUse newId l tc) [b] ∧ ToolBlock tc b := by
  have hemit := emit_emits l ⟨toolUseBlock (((tc.get "id").bind Value.asStr).getD (newId l.idx))
    (toolField tc "name"), [stringDelta "input_json_delta" "partial_json"
      (toolField tc "arguments").toList]⟩ rfl rfl
  refine ⟨_, ⟨hemit.frames, hemit.idx, hemit.emitted⟩, ⟨_, ?_, rfl⟩, [_], rfl, List.append_nil _⟩
  intro s hs
  rw [hs]
  rfl

theorem toolCalls_emits (newId : Nat → String) (l : BlockLoop) (message : Value) :
    ∃ blocks, Emits l (l.toolCalls newId message) blocks ∧
      List.Forall₂ ToolBlock (callsOf message) blocks := by
  rw [toolCalls, ← callsOf]
  induction callsOf message generalizing l with
  | nil => exact ⟨[], .refl l, .nil⟩
  | cons tc tcs ih =>
    obtain ⟨b, hb, htool⟩ := toolUse_emits newId l tc
    obtain ⟨blocks, hblocks, htools⟩ := ih (toolUse newId l tc)
    exact ⟨b :: blocks, hb.trans hblocks, .cons htool htools⟩

/-- One choice appends its blocks. -/
theorem choice_emits (newId : Nat → String) (size : Nat) (l : BlockLoop)
    (hc : c.get "message" = some (.object fields)) : ∃ l' blocks,
      choice newId size l c = some l' ∧ l'.frames = l.frames ++ numberedBlocks l.idx blocks ∧
      l'.idx = l.idx + blocks.length ∧ ChoiceBlocks c blocks := by
  obtain ⟨xs, hx, hthink⟩ := reasoning_emits { l with emitted := false } (.object fields) size
  obtain ⟨ys, hy, hcontent⟩ := content_emits _ (.object fields) size
  obtain ⟨zs, hz, htools⟩ := toolCalls_emits newId _ (.object fields)
  have hall := (hx.trans hy).trans hz
  rw [choice, hc]
  dsimp only
  have hemitted := hall.emitted
  rw [Bool.false_or] at hemitted
  rw [hemitted]
  cases he : (xs ++ ys ++ zs).isEmpty with
  | true =>
    have hnil := List.isEmpty_iff.1 he
    have hempty := hall.trans (emit_emits _ ⟨textBlock "text", []⟩ rfl rfl)
    rw [hnil] at hempty
    refine ⟨_, _, rfl, hempty.frames, hempty.idx, .object fields, xs, ys, zs, hc, hthink,
      hcontent, htools, ?_⟩
    rw [he]
    rfl
  | false =>
    refine ⟨_, _, rfl, hall.frames, hall.idx, .object fields, xs, ys, zs, hc, hthink,
      hcontent, htools, ?_⟩
    rw [he]
    rfl

/-- The loop over the choices appends the blocks of each, numbered on. -/
theorem choices_emit (newId : Nat → String) (size : Nat) (l : BlockLoop) {choices : List Value}
    (h : ∀ c ∈ choices, ∃ fields, c.get "message" = some (.object fields)) : ∃ l' parts,
      choices.foldlM (choice newId size) l = some l' ∧
      l'.frames = l.frames ++ numberedBlocks l.idx parts.flatten ∧
      List.Forall₂ ChoiceBlocks choices parts := by
  induction choices generalizing l with
  | nil => exact ⟨l, [], rfl, (List.append_nil _).symm, .nil⟩
  | cons c cs ih =>
    obtain ⟨fields, hc⟩ := h c List.mem_cons_self
    obtain ⟨l', blocks, hl', hframes, hidx, hblocks⟩ := choice_emits newId size l hc
    obtain ⟨l'', parts, hl'', hframes', hparts⟩ :=
      ih l' fun d hd => h d (List.mem_cons_of_mem c hd)
    refine ⟨l'', blocks :: parts, ?_, ?_, .cons hblocks hparts⟩
    · rw [List.foldlM_cons, hl']
      exact hl''
    · rw [hframes', hframes, hidx, List.flatten_cons, numberedBlocks_append, List.append_assoc]

end BlockLoop

/-! The envelope. -/

/-- The fields that the envelope owns and that the body may name as well. -/
def ownedFields (firstMsg : Value) : List (String × Value) :=
  [("type", .string "message"), ("content", .array []), ("stop_reason", .null),
    ("role", .string (messageRole firstMsg))]

/-- A top-level field of the body that the envelope owns has the envelope's value. -/
def EnvelopeFree (raw firstMsg : Value) : Prop :=
  ∀ e ∈ ownedFields firstMsg, ∀ v, raw.get e.1 = some v → v = e.2

/-- The fields of the opening message: those of the body that the proxy does not know go over
those of the envelope. -/
theorem get_claudeMessage (info : StreamMeta) (hx : (Fields.keys info.extras).Nodup)
    (role : String) (usage : Value) (k : String) :
    (claudeMessage info role usage).get k = (Fields.get info.extras k).or (Fields.get
      [("id", .string info.id), ("type", .string "message"), ("role", .string role),
        ("model", .string info.model), ("content", .array []), ("stop_reason", .null),
        ("stop_sequence", .null), ("usage", usage)] k) :=
  Fields.get_insertAll hx k

/-- The stream of an accepted body: the opening message, then the blocks of the choices. -/
theorem convert_eq (newId : Nat → String) (size : Nat)
    (h : parseRawCompletion now raw = .ok parsed) : ∃ firstMsg parts delta,
      (parsed.choices.head?.bind (·.get "message")) = some firstMsg ∧
      convertOpenaiToClaudeSse now newId raw size = ⟨"message_start",
        .object [("type", .string "message_start"), ("message", claudeMessage parsed.streamMeta
          (messageRole firstMsg) (claudeUsage parsed.usage))]⟩ ::
        numberedBlocks 0 parts.flatten ++ [⟨"message_delta", delta⟩,
          ⟨"message_stop", .object [("type", .string "message_stop")]⟩] ∧
      List.Forall₂ ChoiceBlocks parsed.choices parts ∧
      delta.get "type" = some (.string "message_delta") := by
  obtain ⟨-, -, hmsg, -, -⟩ := parseRawCompletion_ok h
  obtain ⟨obj, -, -, -, -, hne⟩ := parseRawCompletion_meta h
  obtain ⟨first, rest, hcons⟩ := List.exists_cons_of_ne_nil hne
  obtain ⟨fields, hfirst⟩ := hmsg first (by rw [hcons]; exact List.mem_cons_self)
  have hhead : (parsed.choices.head?.bind (·.get "message")) = some (.object fields) := by
    rw [hcons]
    exact hfirst
  obtain ⟨l, parts, hl, hframes, hparts⟩ := BlockLoop.choices_emit newId size
    ⟨[⟨"message_start", .object [("type", .string "message_start"), ("message", claudeMessage
      parsed.streamMeta (messageRole (.object fields)) (claudeUsage parsed.usage))]⟩], 0, false,
      false⟩ hmsg
  refine ⟨.object fields, parts, messageDeltaEvent
    (.string (stopReasonOf parsed.choices l.hasToolUse)) (claudeUsage parsed.usage), hhead, ?_,
    hparts, rfl⟩
  rw [convertOpenaiToClaudeSse, h]
  dsimp only
  rw [hhead]
  dsimp only
  rw [hl]
  dsimp only
  rw [hframes]
  rfl

theorem or_some_iff (x : Option α) (d : α) :
    x.or (some d) = some d ↔ ∀ v, x = some v → v = d := by
  cases x with
  | none => exact ⟨fun _ v hv => (by cases hv), fun _ => rfl⟩
  | some w =>
    rw [Option.some_or, Option.some.injEq]
    constructor
    · rintro rfl v hv
      exact (Option.some.inj hv).symm
    · exact fun h => h w rfl

/-- The opening message keeps the envelope's fields exactly where the body leaves them alone. -/
theorem envelopeKept_iff (hd : Distinct raw) (h : parseRawCompletion now raw = .ok parsed)
    (firstMsg usage : Value) :
    EnvelopeKept raw firstMsg
        (claudeMessage parsed.streamMeta (messageRole firstMsg) usage) ↔
      EnvelopeFree raw firstMsg := by
  obtain ⟨obj, rfl, hid, hmodel, hextras, -⟩ := parseRawCompletion_meta h
  have hdistinct := hd obj rfl
  have hx : (Fields.keys parsed.streamMeta.extras).Nodup := by
    rw [hextras]
    exact Fields.keys_nodup_insertAll List.nodup_nil
  have hget := get_claudeMessage parsed.streamMeta hx (messageRole firstMsg) usage
  have hextra : ∀ k, Fields.get parsed.streamMeta.extras k =
      if knownFields.contains k then none else Fields.get obj k := by
    rw [hextras]
    exact get_extrasOf hdistinct
  have hown : ∀ k d, knownFields.contains k = false → Fields.get
      [("id", .string parsed.streamMeta.id), ("type", .string "message"),
        ("role", .string (messageRole firstMsg)), ("model", .string parsed.streamMeta.model),
        ("content", .array []), ("stop_reason", .null), ("stop_sequence", .null),
        ("usage", usage)] k = some d →
      ((claudeMessage parsed.streamMeta (messageRole firstMsg) usage).get k = some d ↔
        ∀ v, (Value.object obj).get k = some v → v = d) := by
    intro k d hk hd
    rw [hget, hextra, hk, hd]
    exact or_some_iff _ d
  have hsame : ∀ k, knownFields.contains k = true →
      (claudeMessage parsed.streamMeta (messageRole firstMsg) usage).get k = Fields.get
      [("id", .string parsed.streamMeta.id), ("type", .string "message"),
        ("role", .string (messageRole firstMsg)), ("model", .string parsed.streamMeta.model),
        ("content", .array []), ("stop_reason", .null), ("stop_sequence", .null),
        ("usage", usage)] k := by
    intro k hk
    rw [hget, hextra, hk]
    rfl
  have htype := hown "type" _ (by decide) rfl
  have hcontent := hown "content" _ (by decide) rfl
  have hstop := hown "stop_reason" _ (by decide) rfl
  have hrole := hown "role" _ (by decide) rfl
  constructor
  · intro hk e he
    simp only [ownedFields, List.mem_cons, List.not_mem_nil, or_false] at he
    obtain rfl | rfl | rfl | rfl := he
    · exact htype.1 hk.type
    · exact hcontent.1 hk.content
    · exact hstop.1 hk.stopReason
    · exact hrole.1 hk.role
  · intro hf
    refine ⟨htype.2 ?_, hcontent.2 ?_, hstop.2 ?_, ?_, ?_, hrole.2 ?_⟩
    · exact hf ("type", .string "message") (by simp [ownedFields])
    · exact hf ("content", .array []) (by simp [ownedFields])
    · exact hf ("stop_reason", .null) (by simp [ownedFields])
    · rw [hsame "id" (by decide), hid]
      rfl
    · rw [hsame "model" (by decide), hmodel]
      rfl
    · exact hf ("role", .string (messageRole firstMsg)) (by simp [ownedFields])

/-- What a stream for a body must be: none for a body that is rejected, else a well-formed one. -/
def ConvertsWell (now : Int64) (newId : Nat → String) (raw : Value) (size : Nat) : Prop :=
  (convertOpenaiToClaudeSse now newId raw size = [] ↔
    ∃ e, parseRawCompletion now raw = .error e) ∧
  ∀ parsed, parseRawCompletion now raw = .ok parsed →
    ClaudeStreamOk raw parsed.choices (convertOpenaiToClaudeSse now newId raw size)

/-- A well-formed stream opens with a message whose own fields the body left alone. -/
theorem ConvertsWell.envelopeFree (hd : Distinct raw) (h : ConvertsWell now newId raw size)
    (hp : parseRawCompletion now raw = .ok parsed)
    (hfirst : (parsed.choices.head?.bind (·.get "message")) = some firstMsg) :
    EnvelopeFree raw firstMsg := by
  obtain ⟨firstMsg', parts, delta, hfirst', heq, -, -⟩ := convert_eq newId size hp
  obtain ⟨first, message, parts', delta', hhead, heq', -, -, hkept⟩ := h.2 parsed hp
  rw [hfirst, Option.some.injEq] at hfirst' hhead
  subst hfirst' hhead
  rw [heq, List.cons_append, List.cons_append, List.cons.injEq, SseFrame.mk.injEq] at heq'
  have hmessage : claudeMessage parsed.streamMeta (messageRole firstMsg)
      (claudeUsage parsed.usage) = message := by
    have hdata := heq'.1.2
    simp only [Value.object.injEq, List.cons.injEq, Prod.mk.injEq, and_true, true_and] at hdata
    exact hdata
  rw [← hmessage] at hkept
  exact (envelopeKept_iff hd hp firstMsg _).1 hkept

theorem convertsWell_of_envelopeFree (newId : Nat → String) (size : Nat) (hd : Distinct raw)
    (h : ∀ parsed firstMsg, parseRawCompletion now raw = .ok parsed →
      (parsed.choices.head?.bind (·.get "message")) = some firstMsg →
        EnvelopeFree raw firstMsg) : ConvertsWell now newId raw size := by
  refine ⟨⟨fun hnil => ?_, ?_⟩, fun parsed hp => ?_⟩
  · cases hp : parseRawCompletion now raw with
    | error e => exact ⟨e, rfl⟩
    | ok parsed =>
      obtain ⟨_, _, _, -, heq, -, -⟩ := convert_eq newId size hp
      rw [heq] at hnil
      cases hnil
  · rintro ⟨e, he⟩
    rw [convertOpenaiToClaudeSse, he]
  · obtain ⟨firstMsg, parts, delta, hfirst, heq, hparts, hdelta⟩ := convert_eq newId size hp
    exact ⟨firstMsg, _, parts, delta, hfirst, heq, hparts, hdelta,
      (envelopeKept_iff hd hp firstMsg _).2 (h parsed firstMsg hp hfirst)⟩

/-- The stream is well formed exactly when no top-level field of the body takes the place of one
that the envelope owns. -/
theorem convert_wellFormed_iff (now : Int64) (newId : Nat → String) (hd : Distinct raw)
    (size : Nat) : ConvertsWell now newId raw size ↔
      ∀ parsed firstMsg, parseRawCompletion now raw = .ok parsed →
        (parsed.choices.head?.bind (·.get "message")) = some firstMsg →
          EnvelopeFree raw firstMsg :=
  ⟨fun h _ _ hp hfirst => h.envelopeFree hd hp hfirst,
    convertsWell_of_envelopeFree newId size hd⟩

/-- A body of one choice with a text, and one more top-level field. -/
def bodyWith (field : String) (x : Value) : Value :=
  .object [("id", .string "c"), ("model", .string "m"), (field, x),
    ("choices", .array [.object [("message", .object [("content", .string "hi")])]])]

theorem distinct_bodyWith (h : field ∉ ["id", "model", "choices"]) (x : Value) :
    Distinct (bodyWith field x) := by
  rintro m ⟨⟩
  simp only [List.mem_cons, List.not_mem_nil, or_false, not_or] at h
  simp [Fields.keys, h, Ne.symm h.1, Ne.symm h.2.1]

theorem convert_wellFormed_iff_fingerprint :
    ConvertsWell 0 (fun _ => "") (bodyWith "system_fingerprint" (.string "fp")) 4 ↔
      ∀ parsed firstMsg,
        parseRawCompletion 0 (bodyWith "system_fingerprint" (.string "fp")) = .ok parsed →
        (parsed.choices.head?.bind (·.get "message")) = some firstMsg →
          EnvelopeFree (bodyWith "system_fingerprint" (.string "fp")) firstMsg :=
  convert_wellFormed_iff 0 _ (distinct_bodyWith (by decide) _) 4

/-- A top-level type of the body is the type of the opening message. -/
theorem convert_replaces_type :
    ¬ ConvertsWell 0 (fun _ => "") (bodyWith "type" (.string "chat")) 4 := by
  intro h
  have hfree := h.envelopeFree (distinct_bodyWith (by decide) _) rfl rfl
  have htype := hfree ("type", .string "message") (by simp [ownedFields]) (.string "chat") rfl
  exact absurd htype (by decide)

end LocalMind
