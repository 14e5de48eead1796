import LocalMind.Proxy.AnthropicStream
import LocalMind.Proxy.MergeSafety

namespace LocalMind
set_option autoImplicit true
open Json

/-! The accumulator on a synthesized Anthropic stream. -/

/-- A frame as the accumulator reads it back. -/
def SseFrame.toEvent (f : SseFrame) : SseEvent := ⟨some f.event, f.data⟩

def mergeFrames (message : Value) (frames : List SseFrame) : Except Panic Value :=
  (frames.map SseFrame.toEvent).foldlM mergeAnthropicEvent message

theorem mergeFrames_append (message : Value) (xs ys : List SseFrame) :
    mergeFrames message (xs ++ ys) = (mergeFrames message xs >>= (mergeFrames · ys)) := by
  rw [mergeFrames, List.map_append, List.foldlM_append]
  rfl

theorem mergeFrames_cons (message : Value) (f : SseFrame) (fs : List SseFrame) :
    mergeFrames message (f :: fs) =
      (mergeAnthropicEvent message f.toEvent >>= (mergeFrames · fs)) := rfl

theorem mergeFrames_nil (message : Value) : mergeFrames message [] = .ok message := rfl

/-! The content while the blocks come in. -/

/-- The value a block of the stream leaves. -/
def collect (b : StreamBlock) : Value := b.deltas.foldl mergeBlockDelta b.content

theorem blockIndex_toNat (h : index < 2 ^ 64) (e : SseEvent)
    (he : e.data.get "index" = some (blockIndex index)) : e.index = index := by
  rw [SseEvent.index, he]
  exact UInt64.toNat_ofNat_of_lt' h

theorem merge_start {message : Value} (h : message.get "content" = some (.array content))
    (hi : content.length ≤ MAX_TRACKED_BLOCK_INDEX) (block : Value) :
    mergeAnthropicEvent message (startFrame (blockStart content.length block)).toEvent =
      .ok (message.put "content" (.array (content ++ [block]))) := by
  have hlt : content.length < 2 ^ 64 := Nat.lt_of_le_of_lt hi (by decide)
  have hindex := blockIndex_toNat hlt (startFrame (blockStart content.length block)).toEvent rfl
  have hpad : (padTo content content.length).set content.length block = content ++ [block] := by
    rw [padTo, Nat.add_sub_cancel_left]
    simp
  change Except.ok (contentBlockStart message _) = _
  rw [contentBlockStart, hindex, if_neg (Nat.not_lt.2 hi)]
  change Except.ok (updateContent message _) = _
  rw [updateContent_of_get h, hpad]

theorem merge_delta {message : Value} {content : List Value}
    (h : message.get "content" = some (.array (content ++ [block])))
    (hi : content.length ≤ MAX_TRACKED_BLOCK_INDEX) (delta : Value) :
    mergeAnthropicEvent message (deltaFrame (blockDelta content.length delta)).toEvent =
      .ok (message.put "content" (.array (content ++ [mergeBlockDelta block delta]))) := by
  have hlt : content.length < 2 ^ 64 := Nat.lt_of_le_of_lt hi (by decide)
  have hindex := blockIndex_toNat hlt (deltaFrame (blockDelta content.length delta)).toEvent rfl
  have hpad : padTo (content ++ [block]) content.length = content ++ [block] := by
    rw [padTo, List.length_append, List.length_singleton, Nat.sub_self]
    exact List.append_nil _
  change Except.ok (contentBlockDelta message _) = _
  rw [contentBlockDelta, hindex, if_neg (Nat.not_lt.2 hi)]
  change Except.ok (updateContent message _) = _
  rw [updateContent_of_get h, hpad]
  simp

theorem merge_stop (message : Value) (index : Nat) :
    mergeAnthropicEvent message (stopFrame index).toEvent = .ok message := rfl

theorem merge_deltas {message : Value} {content : List Value}
    (h : message.get "content" = some (.array (content ++ [block])))
    (hi : content.length ≤ MAX_TRACKED_BLOCK_INDEX) (deltas : List Value) :
    mergeFrames message (deltas.map fun d => deltaFrame (blockDelta content.length d)) =
      .ok (message.put "content" (.array (content ++ [deltas.foldl mergeBlockDelta block]))) := by
  induction deltas generalizing message block with
  | nil =>
    rw [List.foldl_nil, Value.put_get h]
    exact mergeFrames_nil message
  | cons d deltas ih =>
    rw [List.map_cons, mergeFrames_cons, merge_delta h hi, Fallible.ok_bind,
      ih (Value.get_put_of_get h _), Value.put_put, List.foldl_cons]

/-- A block within the cap is added as its start and deltas make it. -/
theorem merge_block {message : Value} (h : message.get "content" = some (.array content))
    (hi : content.length ≤ MAX_TRACKED_BLOCK_INDEX) (b : StreamBlock) :
    mergeFrames message (blockFrames content.length b) =
      .ok (message.put "content" (.array (content ++ [collect b]))) := by
  have hstart := Value.get_put_of_get h (.array (content ++ [b.content]))
  rw [blockFrames, List.cons_append, mergeFrames_cons, merge_start h hi, Fallible.ok_bind,
    mergeFrames_append, merge_deltas hstart hi, Fallible.ok_bind, Value.put_put, mergeFrames_cons,
    merge_stop]
  rfl

/-- A block beyond the cap is skipped. -/
theorem skip_block (message : Value) (hi : MAX_TRACKED_BLOCK_INDEX < index)
    (hlt : index < 2 ^ 64) (b : StreamBlock) :
    mergeFrames message (blockFrames index b) = .ok message := by
  have hstart : mergeAnthropicEvent message (startFrame (blockStart index b.content)).toEvent =
      .ok message := by
    change Except.ok (contentBlockStart message _) = _
    rw [contentBlockStart, blockIndex_toNat hlt _ rfl, if_pos hi]
  have hdelta : ∀ d, mergeAnthropicEvent message (deltaFrame (blockDelta index d)).toEvent =
      .ok message := by
    intro d
    change Except.ok (contentBlockDelta message _) = _
    rw [contentBlockDelta, blockIndex_toNat hlt _ rfl, if_pos hi]
  have hdeltas : ∀ ds : List Value,
      mergeFrames message (ds.map fun d => deltaFrame (blockDelta index d)) = .ok message := by
    intro ds
    induction ds with
    | nil => rfl
    | cons d ds ih => rw [List.map_cons, mergeFrames_cons, hdelta, Fallible.ok_bind, ih]
  rw [blockFrames, List.cons_append, mergeFrames_cons, hstart, Fallible.ok_bind,
    mergeFrames_append, hdeltas, Fallible.ok_bind]
  rfl

/-- A run of blocks is collected up to the cap. -/
theorem merge_blocks {message : Value} (h : message.get "content" = some (.array content))
    (hlen : content.length = min index (MAX_TRACKED_BLOCK_INDEX + 1)) (blocks : List StreamBlock)
    (hlt : index + blocks.length ≤ 2 ^ 64) :
    mergeFrames message (numberedBlocks index blocks) = .ok (message.put "content" (.array
      (content ++ (blocks.take (MAX_TRACKED_BLOCK_INDEX + 1 - index)).map collect))) := by
  induction blocks generalizing message content index with
  | nil =>
    rw [List.take_nil, List.map_nil, List.append_nil, Value.put_get h]
    rfl
  | cons b blocks ih =>
    rw [List.length_cons] at hlt
    rw [numberedBlocks, mergeFrames_append]
    by_cases hi : index ≤ MAX_TRACKED_BLOCK_INDEX
    · obtain rfl : content.length = index := by omega
      rw [merge_block h hi, Fallible.ok_bind, ih (Value.get_put_of_get h _) ?_ ?_, Value.put_put,
        List.append_assoc, Nat.succ_sub hi, List.take_succ_cons]
      · rw [Nat.add_sub_add_right]
        rfl
      · rw [List.length_append, List.length_singleton]
        omega
      · omega
    · have hskip := skip_block message (Nat.lt_of_not_le hi) (by omega) b
      rw [hskip, Fallible.ok_bind, ih h (by omega) (by omega),
        Nat.sub_eq_zero_of_le (by omega), Nat.sub_eq_zero_of_le (by omega), List.take_zero,
        List.take_zero]

/-! The blocks that are collected. -/

/-- The field of a block with a text put after what it holds. -/
def appendTo (obj : List (String × Value)) (field text : String) : List (String × Value) :=
  match Fields.get obj field with
  | some (.string existing) => Fields.insert obj field (.string (existing ++ text))
  | _ => Fields.insert obj field (.string text)

/-- A delta of one string appends it to a field. -/
def Appends (kind source field : String) : Prop :=
  ∀ obj p, mergeBlockDelta (.object obj) (stringDelta kind source p) =
    .object (appendTo obj field (String.ofList p))

theorem appends_text : Appends "text_delta" "text" "text" := fun _ _ => rfl

theorem appends_thinking : Appends "thinking_delta" "thinking" "thinking" := fun _ _ => rfl

theorem appends_input : Appends "input_json_delta" "partial_json" "input" := fun _ _ => rfl

theorem collect_pieces (ha : Appends kind source field)
    (h : Fields.get obj field = some (.string s))
    (pieces : List (List Char)) :
    (pieces.map (stringDelta kind source)).foldl mergeBlockDelta (.object obj) =
      .object (Fields.insert obj field (.string (s ++ String.ofList pieces.flatten))) := by
  induction pieces generalizing obj s with
  | nil =>
    have hs : s ++ String.ofList [].flatten = s := by simp
    rw [hs, Fields.insert_get h]
    rfl
  | cons p pieces ih =>
    have happend : appendTo obj field (String.ofList p) =
        Fields.insert obj field (.string (s ++ String.ofList p)) := by rw [appendTo, h]
    have hget := Fields.get_insert obj field field (.string (s ++ String.ofList p))
    rw [if_pos rfl] at hget
    rw [List.map_cons, List.foldl_cons, ha, happend, ih hget, Fields.insert_insert,
      String.append_assoc, ← String.ofList_append, List.flatten_cons]

/-- A text through its pieces. -/
theorem collect_text (ha : Appends kind source field) (obj : List (String × Value))
    (h : Fields.get obj field = some (.string "")) (text : String) (size : Nat) :
    ((splitChars text.toList size).map (stringDelta kind source)).foldl mergeBlockDelta
      (.object obj) = .object (Fields.insert obj field (.string text)) := by
  rw [collect_pieces ha h, splitChars_flatten, String.ofList_toList, String.empty_append]

/-- The block of the message as the accumulator has it: the input of a tool call is text. -/
def keptBlock (codec : FloatCodec) : AnthropicContentBlock → Value
  | .text text => .object [("type", .string "text"), ("text", .string text)]
  | .thinking thinking signature =>
    putSome (.object [("type", .string "thinking"), ("thinking", .string thinking)]) "signature"
      (signature.map .string)
  | .toolUse id name input => .object [("type", .string "tool_use"), ("id", .string id),
      ("name", .string name), ("input", .string (String.ofList (print codec input)))]
  | .toolResult toolUseId content isError => toolResultBlock toolUseId content isError
  | .other raw => raw

theorem collect_streamBlock (codec : FloatCodec) (size : Nat) (block : AnthropicContentBlock) :
    collect (streamBlock codec size block) = keptBlock codec block := by
  cases block with
  | text text => exact collect_text appends_text _ rfl text size
  | thinking thinking signature =>
    cases signature with
    | none =>
      change (_ ++ []).foldl _ _ = _
      rw [List.append_nil]
      exact collect_text appends_thinking _ rfl thinking size
    | some sig =>
      have htext := collect_text appends_thinking [("type", .string "thinking"),
        ("thinking", .string ""), ("signature", .string sig)] rfl thinking size
      change (_ ++ [_]).foldl _ _ = _
      rw [List.foldl_append]
      exact congrArg (fun v => [stringDelta "signature_delta" "signature" sig.toList].foldl
        mergeBlockDelta v) htext
  | toolUse id name input =>
    change [stringDelta "input_json_delta" "partial_json" (print codec input)].foldl
      mergeBlockDelta (toolUseBlock id name) = _
    rw [List.foldl_cons, toolUseBlock, appends_input]
    rfl
  | toolResult toolUseId content isError => rfl
  | other raw => rfl

/-! The whole stream. -/

/-- What a block has to keep. -/
def BlockKept (codec : FloatCodec) : AnthropicContentBlock → Value → Prop
  | .text text, v => v.get "text" = some (.string text)
  | .thinking thinking _, v => v.get "thinking" = some (.string thinking)
  | .toolUse id name input, v => v.get "id" = some (.string id) ∧
      v.get "name" = some (.string name) ∧
      v.get "input" = some (.string (String.ofList (print codec input)))
  | .toolResult toolUseId content isError, v => v = toolResultBlock toolUseId content isError
  | .other raw, v => v = raw

theorem blockKept_keptBlock (codec : FloatCodec) (block : AnthropicContentBlock) :
    BlockKept codec block (keptBlock codec block) := by
  cases block with
  | text text => exact rfl
  | thinking thinking signature => cases signature <;> exact rfl
  | toolUse id name input => exact ⟨rfl, rfl, rfl⟩
  | toolResult toolUseId content isError => exact rfl
  | other raw => exact rfl

/-- A message that holds these blocks, and the stop reason and the usage of the original. -/
structure Holds (codec : FloatCodec) (msg : AnthropicMessage)
    (blocks : List AnthropicContentBlock) (out : Value) : Prop where
  content : ∃ vs, out.get "content" = some (.array vs) ∧
    List.Forall₂ (BlockKept codec) blocks vs
  stopReason : ∀ s, msg.stopReason = some s → out.get "stop_reason" = some (.string s)
  usage : ∃ usage, out.get "usage" = some usage ∧
    usage.get "input_tokens" = some (u64 msg.usage.inputTokens) ∧
    usage.get "output_tokens" = some (u64 msg.usage.outputTokens)

/-- The message of `message_start` once the stream is over. -/
def finished (msg : AnthropicMessage) (content : List Value) : Value :=
  .object [("id", .string msg.id), ("type", .string "message"), ("role", .string msg.role),
    ("model", .string msg.model), ("content", .array content),
    ("stop_reason", .string (msg.stopReason.getD (deriveStopReason msg))),
    ("stop_sequence", .null), ("usage", .object [("input_tokens", u64 msg.usage.inputTokens),
      ("output_tokens", u64 msg.usage.outputTokens)])]

theorem merge_messageDelta (msg : AnthropicMessage) (content : List Value) :
    mergeFrames ((opened msg).put "content" (.array content))
      [⟨"message_delta", buildMessageDeltaEvent msg⟩, ⟨"message_stop", buildMessageStopEvent⟩] =
      .ok (finished msg content) := by
  rw [buildMessageDeltaEvent, finished]
  cases msg.stopReason with
  | none => rfl
  | some s => rfl

theorem merge_synthesized (codec : FloatCodec) (msg : AnthropicMessage)
    (hlen : msg.content.length ≤ 2 ^ 64) (size : Nat) :
    mergeAnthropicEvents ((synthesizeAnthropicChunks codec msg size).map SseFrame.toEvent) =
      .ok (finished msg ((msg.content.take (MAX_TRACKED_BLOCK_INDEX + 1)).map
        (keptBlock codec))) := by
  have hopen : mergeAnthropicEvent (.object [("content", .array [])])
      (SseFrame.toEvent ⟨"message_start", buildMessageStartEvent msg⟩) = .ok (opened msg) := rfl
  have hblocks := merge_blocks (rfl : (opened msg).get "content" = some (.array []))
    (Nat.zero_min _).symm (msg.content.map (streamBlock codec size))
    (by rwa [List.length_map, Nat.zero_add])
  have hcollect : ((msg.content.map (streamBlock codec size)).take
      (MAX_TRACKED_BLOCK_INDEX + 1 - 0)).map collect =
      (msg.content.take (MAX_TRACKED_BLOCK_INDEX + 1)).map (keptBlock codec) := by
    rw [← List.map_take, List.map_map]
    exact List.map_congr_left fun block _ => collect_streamBlock codec size block
  rw [List.nil_append, hcollect] at hblocks
  change mergeFrames (.object [("content", .array [])]) (synthesizeAnthropicChunks codec msg size)
    = _
  rw [synthesizeAnthropicChunks, List.cons_append, mergeFrames_cons, hopen, Fallible.ok_bind,
    mergeFrames_append, synthesizeBlocks_eq, hblocks, Fallible.ok_bind]
  exact merge_messageDelta msg _

theorem forall₂_map_right {R : α → β → Prop} {f : α → β} (h : ∀ a, R a (f a)) (as : List α) :
    List.Forall₂ R as (as.map f) := by
  induction as with
  | nil => exact .nil
  | cons a as ih => exact .cons (h a) ih

/-- The accumulator takes a synthesized stream back to its message, up to the cap on blocks. -/
theorem merge_synthesized_holds (codec : FloatCodec) (msg : AnthropicMessage)
    (hlen : msg.content.length ≤ 2 ^ 64) (size : Nat) :
    ∃ out, mergeAnthropicEvents ((synthesizeAnthropicChunks codec msg size).map SseFrame.toEvent)
        = .ok out ∧
      Holds codec msg (msg.content.take (MAX_TRACKED_BLOCK_INDEX + 1)) out := by
  refine ⟨_, merge_synthesized codec msg hlen size, ⟨_, rfl, ?_⟩, ?_, _, rfl, rfl, rfl⟩
  · exact forall₂_map_right (blockKept_keptBlock codec) _
  · intro s hs
    rw [finished, hs]
    rfl

def plainMessage (content : List AnthropicContentBlock) : AnthropicMessage :=
  ⟨"m", "message", "assistant", content, "x", some "end_turn", none, ⟨3, 5⟩⟩

theorem merge_synthesized_holds_two : ∃ out, mergeAnthropicEvents
      ((synthesizeAnthropicChunks integersOnly (plainMessage [.text "Hello", .other .null])
        2).map SseFrame.toEvent) = .ok out ∧
      Holds integersOnly (plainMessage [.text "Hello", .other .null])
        [.text "Hello", .other .null] out :=
  merge_synthesized_holds integersOnly (plainMessage [.text "Hello", .other .null]) (by decide) 2

/-- The last of a hundred and two blocks is lost. -/
theorem merge_synthesized_skips : ∃ out blocks, mergeAnthropicEvents
      ((synthesizeAnthropicChunks integersOnly (plainMessage (List.replicate 102 (.text "a")))
        2).map SseFrame.toEvent) = .ok out ∧
      out.get "content" = some (.array blocks) ∧ blocks.length = 101 := by
  have hlen : (plainMessage (List.replicate 102 (.text "a"))).content.length ≤ 2 ^ 64 := by
    change (List.replicate 102 _).length ≤ _
    rw [List.length_replicate]
    decide
  refine ⟨_, _, merge_synthesized integersOnly _ hlen 2, rfl, ?_⟩
  rw [List.length_map, List.length_take]
  change min _ (List.replicate 102 _).length = _
  rw [List.length_replicate]
  rfl

end LocalMind
