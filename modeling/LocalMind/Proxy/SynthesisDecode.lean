import LocalMind.Proxy.MergeSafety
import LocalMind.Proxy.Synthesis
import LocalMind.Json.Entries

namespace LocalMind
set_option autoImplicit true
open Json

theorem putSome_isObject {v : Value} (h : v.isObject = true) (k : String) (x : Option Value) :
    (putSome v k x).isObject = true := by
  cases x with
  | none => exact h
  | some x => exact (Value.put_isObject v k x).trans h

theorem get_putSome {v : Value} (h : v.isObject = true) (k l : String) (x : Option Value) :
    (putSome v k x).get l = if k = l then x.or (v.get l) else v.get l := by
  cases x with
  | none => exact (ite_self _).symm
  | some x => exact Value.get_put h k l x

/-! The deltas of a synthesized stream, on a message. -/

theorem mergeMessage_empty (m : Value) : mergeMessage (.object []) m = .ok m := rfl

theorem mergeMessage_role (r : String) (m : Value) :
    mergeMessage (.object [("role", .string r)]) m = m.indexAssign "role" (.string r) := by
  change (m.indexAssign "role" (.string r) >>= _) = _
  cases m.indexAssign "role" (.string r) <;> rfl

theorem mergeMessage_content (s : String) (m : Value) :
    mergeMessage (.object [("content", .string s)]) m = appendText "content" s m := by
  change (appendText "content" s m >>= _) = _
  cases appendText "content" s m <;> rfl

theorem mergeMessage_reasoning (s : String) (m : Value) :
    mergeMessage (.object [("reasoning_text", .string s)]) m =
      appendText "reasoning_text" s m := by
  change (appendText "reasoning_text" s m >>= _) = _
  cases appendText "reasoning_text" s m <;> rfl

theorem mergeMessage_reasoningOpaque (x m : Value) :
    mergeMessage (.object [("reasoning_opaque", x)]) m = m.indexAssign "reasoning_opaque" x := by
  change (m.indexAssign "reasoning_opaque" x >>= _) = _
  cases m.indexAssign "reasoning_opaque" x <;> rfl

theorem mergeMessage_toolCalls (x m : Value) :
    mergeMessage (.object [("tool_calls", x)]) m = m.updateM "tool_calls" (mergeToolCalls x) :=
  rfl

theorem appendText_of_string {m : Value} (h : m.get field = some (.string s)) (text : String) :
    appendText field text m = .ok (m.put field (.string (s ++ text))) := by
  rw [appendText, h]

theorem appendText_of_blank {m : Value} (h : (m.get field).all Value.isNull = true)
    (hm : m.isObject = true) (text : String) :
    appendText field text m = .ok (m.put field (.string text)) := by
  rw [appendText]
  cases hg : m.get field with
  | none => exact Value.indexAssign_of_isObject hm _ _
  | some v =>
    rw [hg, Option.all_some, Value.isNull_iff] at h
    rw [h]
    exact Value.indexAssign_of_isObject hm _ _

/-! One chunk. -/

/-- The accumulator of a stream of one choice, before its final chunk: the message so far. -/
def Holding (acc : Option Value) (m : Value) : Prop :=
  m.isObject = true ∧
  match acc with
  | none => m = seedMessage
  | some a => ∃ slot, a.get "choices" = some (.array [slot]) ∧ slot.get "message" = some m ∧
    a.get "usage" = none ∧ a.get "timings" = none

/-- A chunk of one choice with its delta and finish reason. -/
def HasDelta (chunk delta finish : Value) : Prop :=
  ∃ i, chunk.get "choices" = some (.array [.object
    [("index", i), ("delta", delta), ("finish_reason", finish)]])

theorem mergeChoice_delta {slot m m' delta : Value} (hs : slot.get "message" = some m)
    (hm : mergeMessage delta m = .ok m') (i finish : Value) :
    ∃ merged, mergeChoice slot
        (.object [("index", i), ("delta", delta), ("finish_reason", finish)]) = .ok merged ∧
      merged.get "message" = some m' ∧
      (finish.isNull = false → merged.get "finish_reason" = some finish) := by
  have hput := Value.get_put_of_get hs m'
  have hobj : (slot.put "message" m').isObject = true :=
    Value.isObject_iff.2 (Value.object_of_get hput)
  have hc : mergeChoice slot (.object [("index", i), ("delta", delta), ("finish_reason", finish)])
      = if finish.isNull then .ok (slot.put "message" m')
        else (slot.put "message" m').indexAssign "finish_reason" finish := by
    change (mergeDelta slot delta >>= _) = _
    rw [mergeDelta_eq, Value.updateM_of_get hs, hm]
    rfl
  rw [hc]
  cases hf : finish.isNull with
  | true => exact ⟨_, rfl, hput, nofun⟩
  | false =>
    have ha := Value.indexAssign_of_isObject hobj "finish_reason" finish
    obtain ⟨-, -, hg, hl⟩ := Value.indexAssign_ok ha
    exact ⟨_, ha, (hl "message" (by decide)).trans hput, fun _ => hg⟩

theorem mergeChunk_delta (h : Holding acc m) (hc : HasDelta chunk delta finish)
    (hm : mergeMessage delta m = .ok m') :
    ∃ out slot, mergeChunk acc chunk = .ok out ∧ out.get "choices" = some (.array [slot]) ∧
      slot.get "message" = some m' ∧
      (finish.isNull = false → slot.get "finish_reason" = some finish) ∧
      out.get "usage" = chunk.get "usage" ∧ out.get "timings" = chunk.get "timings" := by
  obtain ⟨i, hc⟩ := hc
  obtain ⟨-, h⟩ := h
  cases acc with
  | none =>
    obtain rfl : m = seedMessage := h
    obtain ⟨slot, hs, hmsg, hf⟩ := mergeChoice_delta
      (rfl : (seedChoice (.object [("index", i), ("delta", delta), ("finish_reason", finish)])).get
        "message" = some seedMessage) hm i finish
    have he : envelope chunk = .ok (chunk.put "choices" (.array [])) := by rw [envelope, hc]
    obtain ⟨out, ho, hout⟩ := ((mergeInto_eq (envelope_ok he) _).2 _ hc).2 [slot] (by
      rw [mergeEach, hs]
      rfl)
    refine ⟨out, slot, ?_, hout.choices, hmsg, hf, ?_, ?_⟩
    · rw [mergeChunk, he]
      exact ho
    · rw [hout.usage, Value.get_put_of_ne (by decide), Option.or_self]
    · rw [hout.timings, Value.get_put_of_ne (by decide), Option.or_self]
  | some a =>
    obtain ⟨slot₀, ha, hm₀, hu, ht⟩ := h
    obtain ⟨slot, hs, hmsg, hf⟩ := mergeChoice_delta hm₀ hm i finish
    obtain ⟨out, ho, hout⟩ := ((mergeInto_eq ha _).2 _ hc).2 [slot] (by
      rw [mergeEach, hs]
      rfl)
    refine ⟨out, slot, ho, hout.choices, hmsg, hf, ?_, ?_⟩
    · rw [hout.usage, hu, Option.or_none]
    · rw [hout.timings, ht, Option.or_none]

/-! The envelope. -/

/-- The unknown fields leave the known ones alone. -/
def Unknown (extras : List (String × Value)) : Prop :=
  ∀ k ∈ Fields.keys extras, k ∉ knownFields

theorem unknown_extrasOf (obj : List (String × Value)) : Unknown (extrasOf obj) := by
  intro k hk
  rcases Fields.mem_keys_insertAll.1 hk with h | h
  · obtain ⟨e, he, rfl⟩ := List.mem_map.1 h
    simpa using (List.mem_filter.1 he).2
  · cases h

theorem get_chunkEnvelope {info : StreamMeta} (hx : Unknown info.extras)
    (hk : k ∈ knownFields) (delta finish : Value) (idx : UInt64) :
    (chunkEnvelope info delta finish idx).get k = Fields.get
      [("id", .string info.id), ("object", .string "chat.completion.chunk"),
        ("created", numberOfI64 info.created), ("model", .string info.model),
        ("choices", .array [.object [("index", .number (.posInt idx)), ("delta", delta),
          ("finish_reason", finish)]])] k :=
  Fields.get_insertAll_of_notMem fun h => hx k h hk

theorem sseEnvelope_hasDelta {info : StreamMeta} (hx : Unknown info.extras)
    (he : event ≠ FINISH_EVENT) (data : Value) (idx : UInt64) :
    HasDelta (sseEnvelope info event data idx) (.object [(event, data)]) .null := by
  rw [sseEnvelope, if_neg he]
  exact ⟨_, (get_chunkEnvelope hx (by decide) _ _ _).trans rfl⟩

theorem sseEnvelope_stats {info : StreamMeta} (hx : Unknown info.extras) (event : String)
    (data : Value) (idx : UInt64) :
    (sseEnvelope info event data idx).get "usage" = none ∧
      (sseEnvelope info event data idx).get "timings" = none := by
  rw [sseEnvelope]
  split
  · exact ⟨get_chunkEnvelope hx (by decide) _ _ _, get_chunkEnvelope hx (by decide) _ _ _⟩
  · exact ⟨get_chunkEnvelope hx (by decide) _ _ _, get_chunkEnvelope hx (by decide) _ _ _⟩

theorem sseEnvelope_isObject (info : StreamMeta) (event : String) (data : Value)
    (idx : UInt64) : (sseEnvelope info event data idx).isObject = true := by
  rw [sseEnvelope]
  split <;> rfl

theorem finalChunk_hasDelta {info : StreamMeta} (hx : Unknown info.extras)
    (choice message : Value) (idx : UInt64) (usage timings : Option Value) :
    HasDelta (finalChunk info choice message idx usage timings) (.object [])
      (.string (finishReasonOf choice message)) := by
  have ho := sseEnvelope_isObject info FINISH_EVENT
    (.string (finishReasonOf choice message)) idx
  refine ⟨.number (.posInt idx), ?_⟩
  rw [finalChunk, get_putSome (putSome_isObject ho _ _), if_neg (by decide), get_putSome ho,
    if_neg (by decide), sseEnvelope, if_pos rfl, get_chunkEnvelope hx (by decide)]
  rfl

theorem finalChunk_stats {info : StreamMeta} (hx : Unknown info.extras)
    (choice message : Value) (idx : UInt64) (usage timings : Option Value) :
    (finalChunk info choice message idx usage timings).get "usage" = usage ∧
      (finalChunk info choice message idx usage timings).get "timings" = timings := by
  have ho := sseEnvelope_isObject info FINISH_EVENT
    (.string (finishReasonOf choice message)) idx
  have hs := sseEnvelope_stats hx FINISH_EVENT (.string (finishReasonOf choice message)) idx
  rw [finalChunk, get_putSome (putSome_isObject ho _ _), get_putSome (putSome_isObject ho _ _),
    get_putSome ho, get_putSome ho, hs.1, hs.2]
  simp

/-! Runs of chunks. -/

theorem mergeChunks_append (acc : Option Value) (xs ys : List Value) :
    mergeChunks acc (xs ++ ys) = mergeChunks acc xs >>= fun acc => mergeChunks acc ys :=
  List.foldlM_append

/-- The chunks bring the accumulated message from one value to another. -/
def Carry (chunks : List Value) (m m' : Value) : Prop :=
  ∀ acc, Holding acc m → ∃ out, mergeChunks acc chunks = .ok out ∧ Holding out m'

theorem carry_nil (m : Value) : Carry [] m m := fun acc h => ⟨acc, rfl, h⟩

theorem Carry.append (h : Carry xs m₁ m₂) (h' : Carry ys m₂ m₃) : Carry (xs ++ ys) m₁ m₃ := by
  intro acc ha
  obtain ⟨out, ho, hout⟩ := h acc ha
  obtain ⟨out', ho', hout'⟩ := h' out hout
  refine ⟨out', ?_, hout'⟩
  rw [mergeChunks_append, ho]
  exact ho'

theorem carry_envelope {info : StreamMeta} (hx : Unknown info.extras)
    (he : event ≠ FINISH_EVENT) (data : Value) (idx : UInt64)
    (hm : mergeMessage (.object [(event, data)]) m = .ok m') (hobj : m'.isObject = true) :
    Carry [sseEnvelope info event data idx] m m' := by
  intro acc h
  obtain ⟨out, slot, ho, hc, hmsg, -, hu, ht⟩ :=
    mergeChunk_delta h (sseEnvelope_hasDelta hx he data idx) hm
  obtain ⟨hsu, hst⟩ := sseEnvelope_stats hx event data idx
  refine ⟨some out, ?_, hobj, slot, hc, hmsg, hu.trans hsu, ht.trans hst⟩
  rw [mergeChunks, List.foldlM_cons, ho]
  rfl

/-- The string field of a message, as a value. -/
def stringField (message : Value) (field : String) : Option Value :=
  ((message.get field).bind Value.asStr).map .string

theorem carry_stringChunk {info : StreamMeta} (hx : Unknown info.extras)
    (he : event ≠ FINISH_EVENT) (message : Value) (idx : UInt64)
    (hm : ∀ s, mergeMessage (.object [(event, .string s)]) m = .ok (m.put event (.string s)))
    (hobj : m.isObject = true) :
    Carry (stringChunk info event message idx) m
      (putSome m event (stringField message event)) := by
  rw [stringChunk, stringField]
  cases (message.get event).bind Value.asStr with
  | none => exact carry_nil m
  | some s =>
    exact carry_envelope hx he _ idx (hm s) ((Value.put_isObject m event _).trans hobj)

theorem carry_pieces {info : StreamMeta} (hx : Unknown info.extras) (idx : UInt64)
    (hm : m.get "content" = some (.string s)) (pieces : List (List Char)) :
    Carry (pieces.map fun piece => sseEnvelope info "content" (.string (String.ofList piece)) idx)
      m (m.put "content" (.string (s ++ String.ofList pieces.flatten))) := by
  induction pieces generalizing m s with
  | nil =>
    have hs : s ++ String.ofList [].flatten = s := by simp
    rw [hs, Value.put_get hm]
    exact carry_nil m
  | cons p pieces ih =>
    have hobj : (m.put "content" (.string (s ++ String.ofList p))).isObject = true :=
      (Value.put_isObject _ _ _).trans (Value.isObject_iff.2 (Value.object_of_get hm))
    have hfirst := carry_envelope hx (by decide) (.string (String.ofList p)) idx
      ((mergeMessage_content _ m).trans (appendText_of_string hm _)) hobj
    have := hfirst.append (ih (Value.get_put_of_get hm _))
    rw [Value.put_put, String.append_assoc, ← String.ofList_append] at this
    exact this

/-- The text that the content chunks carry, where there is any. -/
def contentField (message : Value) : Option Value :=
  match (message.get "content").bind Value.asStr with
  | some text => if text = "" then none else some (.string text)
  | none => none

/-- Content that is a string, null or absent. -/
def PlainContent (message : Value) : Prop :=
  ∀ v, message.get "content" = some v → v.isString = true ∨ v.isNull = true

theorem splitChars_ne_nil (h : text ≠ []) (size : Nat) : splitChars text size ≠ [] := by
  intro hn
  have := splitChars_flatten text size
  rw [hn] at this
  exact h this.symm

theorem carry_contentChunks {info : StreamMeta} (hx : Unknown info.extras)
    (hp : PlainContent message) (idx : UInt64) (size : Nat)
    (hm : m.get "content" = some .null) :
    Carry (contentChunks info message idx size) m
      (putSome m "content" (contentField message)) := by
  have hobj : m.isObject = true := Value.isObject_iff.2 (Value.object_of_get hm)
  rw [contentChunks, contentField]
  cases hc : message.get "content" with
  | none => exact carry_nil m
  | some v =>
    rcases hp v hc with hv | hv
    · cases v with
      | string text =>
        by_cases ht : text = ""
        · simp only [ht, if_true, Option.bind_some, Value.asStr]
          exact carry_nil m
        · have hne : text.toList ≠ [] := by simpa using ht
          obtain ⟨p, pieces, hs⟩ := List.exists_cons_of_ne_nil (splitChars_ne_nil hne size)
          have hflat := splitChars_flatten text.toList size
          simp only [if_neg ht, Option.bind_some, Value.asStr]
          rw [hs] at hflat ⊢
          have hfirst := carry_envelope hx (by decide) (.string (String.ofList p)) idx
            ((mergeMessage_content _ m).trans
              (appendText_of_blank (by rw [hm]; rfl) hobj _))
            ((Value.put_isObject _ _ _).trans hobj)
          have := hfirst.append (carry_pieces hx idx (Value.get_put_of_get hm _) pieces)
          rw [Value.put_put, ← String.ofList_append, ← List.flatten_cons, hflat,
            String.ofList_toList] at this
          exact this
      | _ => cases hv
    · rw [Value.isNull_iff] at hv
      rw [hv]
      exact carry_nil m

theorem carry_toolCallsChunk {info : StreamMeta} (hx : Unknown info.extras) (message : Value)
    (idx : UInt64) (hm : m.get "tool_calls" = some .null) :
    Carry (toolCallsChunk info message idx) m
      (putSome m "tool_calls" ((toolCallsOf message).map .array)) := by
  have hobj : m.isObject = true := Value.isObject_iff.2 (Value.object_of_get hm)
  rw [toolCallsChunk]
  cases toolCallsOf message with
  | none => exact carry_nil m
  | some tools =>
    refine carry_envelope hx (by decide) _ idx ?_ ((Value.put_isObject _ _ _).trans hobj)
    rw [mergeMessage_toolCalls, Value.updateM_of_get hm]
    rfl

/-! The whole stream. -/

theorem requireSome_ok {x : Option α} (h : requireSome x msg = .ok a) : x = some a := by
  cases x with
  | none => cases h
  | some b =>
    cases h
    rfl

theorem forM_ok {f : α → Except ε Unit} {as : List α} (h : as.forM f = .ok u) :
    ∀ a ∈ as, f a = .ok () := by
  induction as with
  | nil => exact List.forall_mem_nil _
  | cons a as ih =>
    obtain ⟨⟨⟩, ha, has⟩ := Fallible.bind_eq_ok_iff.1 h
    exact List.forall_mem_cons.2 ⟨ha, ih has⟩

theorem checkChoice_ok {c : Value} (h : checkChoice c = .ok u) :
    ∃ fields, c.get "message" = some (.object fields) := by
  rw [checkChoice] at h
  obtain ⟨co, hco, h⟩ := Fallible.bind_eq_ok_iff.1 h
  obtain ⟨fields, hf, -⟩ := Fallible.bind_eq_ok_iff.1 h
  obtain rfl := Value.asObject_eq_some.1 (requireSome_ok hco)
  obtain ⟨message, hmsg, hobj⟩ := Option.bind_eq_some_iff.1 (requireSome_ok hf)
  rw [Value.asObject_eq_some.1 hobj] at hmsg
  exact ⟨fields, hmsg⟩

theorem checkChoice_index {c : Value} (h : checkChoice c = .ok u)
    (hi : c.get "index" = some i) : isU64 i = true := by
  rw [checkChoice] at h
  obtain ⟨co, hco, h⟩ := Fallible.bind_eq_ok_iff.1 h
  obtain ⟨fields, -, h⟩ := Fallible.bind_eq_ok_iff.1 h
  obtain ⟨_, hindex, -⟩ := Fallible.bind_eq_ok_iff.1 h
  obtain rfl := Value.asObject_eq_some.1 (requireSome_ok hco)
  have hfield : Fields.get co "index" = some i := hi
  rw [hfield, Option.all_some, require] at hindex
  split at hindex
  · assumption
  · cases hindex

theorem parseRawCompletion_checked (h : parseRawCompletion now body = .ok parsed) :
    ∀ c ∈ parsed.choices, checkChoice c = .ok () := by
  rw [parseRawCompletion] at h
  obtain ⟨obj, -, h⟩ := Fallible.bind_eq_ok_iff.1 h
  obtain ⟨id, -, h⟩ := Fallible.bind_eq_ok_iff.1 h
  obtain ⟨model, -, h⟩ := Fallible.bind_eq_ok_iff.1 h
  obtain ⟨choices, -, h⟩ := Fallible.bind_eq_ok_iff.1 h
  obtain ⟨_, -, h⟩ := Fallible.bind_eq_ok_iff.1 h
  obtain ⟨_, hcheck, h⟩ := Fallible.bind_eq_ok_iff.1 h
  cases h
  exact forM_ok hcheck

/-- A body that is accepted, and what is kept of it. -/
theorem parseRawCompletion_ok (h : parseRawCompletion now body = .ok parsed) :
    Unknown parsed.streamMeta.extras ∧ body.get "choices" = some (.array parsed.choices) ∧
      (∀ c ∈ parsed.choices, ∃ fields, c.get "message" = some (.object fields)) ∧
      parsed.usage = (body.get "usage").filter Value.isObject ∧
      parsed.timings = (body.get "timings").filter Value.isObject := by
  rw [parseRawCompletion] at h
  obtain ⟨obj, hobj, h⟩ := Fallible.bind_eq_ok_iff.1 h
  obtain ⟨id, -, h⟩ := Fallible.bind_eq_ok_iff.1 h
  obtain ⟨model, -, h⟩ := Fallible.bind_eq_ok_iff.1 h
  obtain ⟨choices, hch, h⟩ := Fallible.bind_eq_ok_iff.1 h
  obtain ⟨_, -, h⟩ := Fallible.bind_eq_ok_iff.1 h
  obtain ⟨_, hcheck, h⟩ := Fallible.bind_eq_ok_iff.1 h
  cases h
  obtain rfl := Value.asObject_eq_some.1 (requireSome_ok hobj)
  obtain ⟨v, hv, harr⟩ := Option.bind_eq_some_iff.1 (requireSome_ok hch)
  obtain rfl := Value.asArray_eq_some.1 harr
  exact ⟨unknown_extrasOf obj, hv, fun c hc => checkChoice_ok (forM_ok hcheck c hc), rfl, rfl⟩

theorem get_extrasOf {obj : List (String × Value)} (h : (Fields.keys obj).Nodup) (k : String) :
    Fields.get (extrasOf obj) k = if knownFields.contains k then none else Fields.get obj k := by
  have hfilter := Fields.get_filter (fun l => !knownFields.contains l) obj k
  rw [extrasOf, Fields.get_insertAll (Fields.nodup_filter h _), Fields.get_nil, Option.or_none]
  refine hfilter.trans ?_
  cases knownFields.contains k <;> rfl

theorem parseRawCompletion_meta (h : parseRawCompletion now raw = .ok parsed) :
    ∃ obj, raw = .object obj ∧ raw.get "id" = some (.string parsed.streamMeta.id) ∧
      raw.get "model" = some (.string parsed.streamMeta.model) ∧
      parsed.streamMeta.extras = extrasOf obj ∧ parsed.choices ≠ [] := by
  rw [parseRawCompletion] at h
  obtain ⟨obj, hobj, h⟩ := Fallible.bind_eq_ok_iff.1 h
  obtain ⟨id, hid, h⟩ := Fallible.bind_eq_ok_iff.1 h
  obtain ⟨model, hmodel, h⟩ := Fallible.bind_eq_ok_iff.1 h
  obtain ⟨choices, -, h⟩ := Fallible.bind_eq_ok_iff.1 h
  obtain ⟨_, hne, h⟩ := Fallible.bind_eq_ok_iff.1 h
  obtain ⟨_, -, h⟩ := Fallible.bind_eq_ok_iff.1 h
  cases h
  obtain rfl := Value.asObject_eq_some.1 (requireSome_ok hobj)
  obtain ⟨v, hv, hstr⟩ := Option.bind_eq_some_iff.1 (requireSome_ok hid)
  obtain ⟨w, hw, hstr'⟩ := Option.bind_eq_some_iff.1 (requireSome_ok hmodel)
  rw [Value.asStr_eq_some.1 hstr] at hv
  rw [Value.asStr_eq_some.1 hstr'] at hw
  refine ⟨obj, rfl, hv, hw, rfl, ?_⟩
  intro hnil
  rw [show choices = [] from hnil] at hne
  cases hne

theorem payloads_synthesize (h : parsed.choices = [choice]) (size : Nat) :
    ∃ idx, payloads (synthesizeOpenaiChunks parsed size) = synthesizeChoiceChunks
      parsed.streamMeta choice idx parsed.usage parsed.timings size := by
  refine ⟨((choice.get "index").bind Value.asU64).getD (UInt64.ofNat 0), ?_⟩
  rw [synthesizeOpenaiChunks, h, synthesizeFrom, synthesizeFrom, List.append_nil, payloads,
    List.filterMap_append, List.filterMap_map]
  simp

/-- What the accumulator holds of a body of one choice. -/
structure Decodes (acc body choice message : Value) : Prop where
  slot : ∃ slot m, acc.get "choices" = some (.array [slot]) ∧ slot.get "message" = some m ∧
    m.get "role" = some ((stringField message "role").getD (.string "assistant")) ∧
    m.get "content" = some ((contentField message).getD .null) ∧
    m.get "reasoning_text" = stringField message "reasoning_text" ∧
    m.get "reasoning_opaque" = stringField message "reasoning_opaque" ∧
    m.get "tool_calls" = some (((toolCallsOf message).map .array).getD .null) ∧
    slot.get "finish_reason" = some (.string (finishReasonOf choice message))
  usage : acc.get "usage" = (body.get "usage").filter Value.isObject
  timings : acc.get "timings" = (body.get "timings").filter Value.isObject

/-- The message that the chunks before the final one leave. -/
def decodedMessage (message : Value) : Value :=
  let m := putSome seedMessage "role" (stringField message "role")
  let m := putSome m "reasoning_text" (stringField message "reasoning_text")
  let m := putSome m "reasoning_opaque" (stringField message "reasoning_opaque")
  let m := putSome m "content" (contentField message)
  putSome m "tool_calls" ((toolCallsOf message).map .array)

theorem get_decodedMessage (message : Value) (l : String) :
    (decodedMessage message).get l =
      let x := if "role" = l then (stringField message "role").or (seedMessage.get l)
        else seedMessage.get l
      let x := if "reasoning_text" = l then (stringField message "reasoning_text").or x else x
      let x := if "reasoning_opaque" = l then (stringField message "reasoning_opaque").or x else x
      let x := if "content" = l then (contentField message).or x else x
      if "tool_calls" = l then ((toolCallsOf message).map .array).or x else x := by
  have o₀ : seedMessage.isObject = true := rfl
  have o₁ := putSome_isObject o₀ "role" (stringField message "role")
  have o₂ := putSome_isObject o₁ "reasoning_text" (stringField message "reasoning_text")
  have o₃ := putSome_isObject o₂ "reasoning_opaque" (stringField message "reasoning_opaque")
  have o₄ := putSome_isObject o₃ "content" (contentField message)
  rw [decodedMessage, get_putSome o₄, get_putSome o₃, get_putSome o₂, get_putSome o₁,
    get_putSome o₀]

theorem carry_message {info : StreamMeta} (hx : Unknown info.extras)
    (hp : PlainContent message) (idx : UInt64) (size : Nat) :
    Carry (stringChunk info "role" message idx ++ stringChunk info "reasoning_text" message idx ++
      stringChunk info "reasoning_opaque" message idx ++
      contentChunks info message idx size ++ toolCallsChunk info message idx)
      seedMessage (decodedMessage message) := by
  have o₀ : seedMessage.isObject = true := rfl
  have o₁ := putSome_isObject o₀ "role" (stringField message "role")
  have o₂ := putSome_isObject o₁ "reasoning_text" (stringField message "reasoning_text")
  have o₃ := putSome_isObject o₂ "reasoning_opaque" (stringField message "reasoning_opaque")
  have o₄ := putSome_isObject o₃ "content" (contentField message)
  refine ((((carry_stringChunk hx (by decide) message idx ?_ o₀).append
    (carry_stringChunk hx (by decide) message idx ?_ o₁)).append
    (carry_stringChunk hx (by decide) message idx ?_ o₂)).append
    (carry_contentChunks hx hp idx size ?_)).append (carry_toolCallsChunk hx message idx ?_)
  · exact fun s => mergeMessage_role s _
  · intro s
    rw [mergeMessage_reasoning, appendText_of_blank _ o₁]
    rw [get_putSome o₀, if_neg (by decide)]
    rfl
  · intro s
    rw [mergeMessage_reasoningOpaque, Value.indexAssign_of_isObject o₂]
  · rw [get_putSome o₂, if_neg (by decide), get_putSome o₁, if_neg (by decide),
      get_putSome o₀, if_neg (by decide)]
    rfl
  · rw [get_putSome o₃, if_neg (by decide), get_putSome o₂, if_neg (by decide), get_putSome o₁,
      if_neg (by decide), get_putSome o₀, if_neg (by decide)]
    rfl

/-- A synthesized stream of one choice decodes back to its body, whatever the chunk size. -/
theorem synthesize_decodes (hp : parseRawCompletion now body = .ok parsed)
    (hb : body.get "choices" = some (.array [choice]))
    (hm : choice.get "message" = some message) (hc : PlainContent message) (size : Nat) :
    ∃ acc, mergeChunks none (payloads (synthesizeOpenaiChunks parsed size)) = .ok (some acc) ∧
      Decodes acc body choice message := by
  obtain ⟨hx, hch, hmsg, hu, ht⟩ := parseRawCompletion_ok hp
  have hone : parsed.choices = [choice] := by
    rw [hb, Option.some.injEq, Value.array.injEq] at hch
    exact hch.symm
  obtain ⟨idx, hpay⟩ := payloads_synthesize hone size
  obtain ⟨fields, hf⟩ := hmsg choice (by rw [hone]; exact List.mem_singleton_self choice)
  obtain rfl : message = .object fields := by
    rw [hm, Option.some.injEq] at hf
    exact hf
  obtain ⟨acc, hacc, hhold⟩ := carry_message hx hc idx size none ⟨rfl, rfl⟩
  obtain ⟨out, slot, ho, hs, hsm, hfin, hou, hot⟩ := mergeChunk_delta hhold
    (finalChunk_hasDelta hx choice (.object fields) idx parsed.usage parsed.timings)
    (mergeMessage_empty _)
  have hstats := finalChunk_stats hx choice (.object fields) idx parsed.usage parsed.timings
  refine ⟨out, ?_, ⟨slot, _, hs, hsm, ?_, ?_, ?_, ?_, ?_, hfin rfl⟩, ?_, ?_⟩
  · rw [hpay, synthesizeChoiceChunks, hm]
    dsimp only
    rw [mergeChunks_append, hacc, Fallible.ok_bind, mergeChunks, List.foldlM_cons, ho]
    rfl
  · exact (get_decodedMessage _ "role").trans Option.or_some
  · exact (get_decodedMessage _ "content").trans Option.or_some
  · exact (get_decodedMessage _ "reasoning_text").trans Option.or_none
  · exact (get_decodedMessage _ "reasoning_opaque").trans Option.or_none
  · exact (get_decodedMessage _ "tool_calls").trans Option.or_some
  · rw [hou, hstats.1, hu]
  · rw [hot, hstats.2, ht]

/-- A body of one choice with a role and a text. -/
def answerBody (role : Value) (text : String) : Value :=
  .object [("id", .string "c"), ("model", .string "m"),
    ("choices", .array [.object [("message", .object [("role", role),
      ("content", .string text)])]])]

theorem plainContent_answer (role : Value) (text : String) :
    PlainContent (.object [("role", role), ("content", .string text)]) := by
  rintro v ⟨⟩
  exact .inl rfl

theorem synthesize_decodes_answer : ∃ acc parsed,
    parseRawCompletion 0 (answerBody (.string "assistant") "Hello world") = .ok parsed ∧
      mergeChunks none (payloads (synthesizeOpenaiChunks parsed 4)) = .ok (some acc) ∧
      Decodes acc (answerBody (.string "assistant") "Hello world")
        (.object [("message", .object [("role", .string "assistant"),
          ("content", .string "Hello world")])])
        (.object [("role", .string "assistant"), ("content", .string "Hello world")]) := by
  have hp : parseRawCompletion 0 (answerBody (.string "assistant") "Hello world") = .ok _ := rfl
  obtain ⟨acc, hacc, hd⟩ := synthesize_decodes hp rfl rfl (plainContent_answer _ _) 4
  exact ⟨acc, _, hp, hacc, hd⟩

/-- A role that is no string does not come back. -/
theorem synthesize_replaces_role : ∃ parsed acc slot m,
    parseRawCompletion 0 (answerBody (.number (.posInt 7)) "x") = .ok parsed ∧
      mergeChunks none (payloads (synthesizeOpenaiChunks parsed 1)) = .ok (some acc) ∧
      acc.get "choices" = some (.array [slot]) ∧ slot.get "message" = some m ∧
      m.get "role" = some (.string "assistant") :=
  ⟨_, _, _, _, rfl, rfl, rfl, rfl, rfl⟩

end LocalMind
