import LocalMind.Proxy.PassThrough
import LocalMind.Proxy.MergeSafety
import LocalMind.Json.Text

namespace LocalMind
set_option autoImplicit true
open Json

/-! Reading the accumulated text of a stream. -/

inductive StreamFormat where
  | openAI
  | anthropic
  | unknown
  deriving DecidableEq

/-- The names the Messages API puts in a root-level `type`. -/
def isAnthropicEvent (name : String) : Bool :=
  name ∈ ["message_start", "content_block_start", "content_block_delta", "content_block_stop",
    "message_delta", "message_stop", "ping", "error"]

/-- The format one line gives away. -/
def lineFormat (codec : FloatCodec) (line : List Char) : Option StreamFormat :=
  if (stripField line "event:".toList).any fun t =>
      t == "message_start".toList || t == "content_block_delta".toList then
    some .anthropic
  else
    match (stripField line "data:".toList).bind (fromStr codec) with
    | some json =>
      -- an OpenAI chunk is OpenAI even with a `type` on it
      if (json.get "choices").isSome then some .openAI
      else if ((json.get "type").bind Value.asStr).any isAnthropicEvent then some .anthropic
      else none
    | none => none

def detectFormat (codec : FloatCodec) (data : List Char) : StreamFormat :=
  ((Text.lines data).findSome? (lineFormat codec)).getD .unknown

/-- One line of the stream: a blank one ends the event and with it the type. -/
def parseSseLine (codec : FloatCodec) (r : Option String × List SseEvent) (line : List Char) :
    Option String × List SseEvent :=
  if line.isEmpty then (none, r.2)
  else
    match stripField line "event:".toList with
    | some v => (some (String.ofList v), r.2)
    | none =>
      match stripField line "data:".toList with
      | some jsonStr =>
        if Text.trim jsonStr = "[DONE]".toList then r
        else
          match fromStr codec jsonStr with
          | some json => (r.1, r.2 ++ [⟨r.1, json⟩])
          | none => r
      | none => r

def parseSseEvents (codec : FloatCodec) (data : List Char) : List SseEvent :=
  ((Text.lines data).foldl (parseSseLine codec) (none, [])).2

def parseAccumulatedSse (codec : FloatCodec) (data : List Char) :
    Except Panic (Option Value) :=
  match detectFormat codec data with
  | .anthropic => (mergeAnthropicEvents (parseSseEvents codec data)).map some
  | .openAI => mergeChunks none ((parseSseEvents codec data).map SseEvent.data)
  | .unknown => .ok none

/-! When the Anthropic merge is safe. -/

/-- A start event brings a message that is an object or null, or none. -/
def EventFits (e : SseEvent) : Prop :=
  e.kind = "message_start" → ∀ msg, e.data.get "message" = some msg → msg.isObjectOrNull = true

theorem messageStart_isOk_iff (message data : Value) :
    (messageStart message data).isOk = true ↔
      ∀ msg, data.get "message" = some msg → msg.isObjectOrNull = true := by
  rw [messageStart]
  cases data.get "message" with
  | none => exact ⟨nofun, fun _ => rfl⟩
  | some msg =>
    dsimp only
    split
    · rw [Value.indexAssign_isOk_iff]
      simp
    · next hc =>
      rw [Option.isNone_iff_eq_none, ← ne_eq, Option.ne_none_iff_exists'] at hc
      obtain ⟨x, hx⟩ := hc
      simp [Value.isObjectOrNull_of_get hx]

theorem messageStart_isObject {message : Value} (hm : message.isObject = true)
    (h : messageStart message data = .ok out) : out.isObject = true := by
  rw [messageStart] at h
  cases hd : data.get "message" with
  | none =>
    rw [hd] at h
    cases h
    exact hm
  | some msg =>
    rw [hd] at h
    dsimp only at h
    split at h
    · exact (Value.indexAssign_ok h).2.1
    · next hc =>
      cases h
      rw [Option.isNone_iff_eq_none, ← ne_eq, Option.ne_none_iff_exists'] at hc
      obtain ⟨x, hx⟩ := hc
      exact Value.isObject_iff.2 (Value.object_of_get hx)

theorem contentBlockStart_isObject (message : Value) (e : SseEvent) :
    (contentBlockStart message e).isObject = message.isObject := by
  rw [contentBlockStart]
  split
  · rfl
  · split
    · exact updateContent_isObject _ _
    · rfl

theorem contentBlockDelta_isObject (message : Value) (e : SseEvent) :
    (contentBlockDelta message e).isObject = message.isObject := by
  rw [contentBlockDelta]
  split
  · rfl
  · split
    · exact updateContent_isObject _ _
    · rfl

theorem messageDelta_ok {message : Value} (hm : message.isObject = true) (data : Value) :
    ∃ out, messageDelta message data = .ok out ∧ out.isObject = true := by
  have hassign : ∀ (m : Value) k x, m.isObject = true →
      ∃ out, m.indexAssign k x = .ok out ∧ out.isObject = true := by
    intro m k x h
    exact ⟨_, Value.indexAssign_of_isObject h k x, (Value.put_isObject m k x).trans h⟩
  have hstop : ∃ m, messageStop message data = .ok m ∧ m.isObject = true := by
    rw [messageStop]
    split
    · exact hassign _ _ _ hm
    · exact ⟨message, rfl, hm⟩
  obtain ⟨m, hs, ho⟩ := hstop
  rw [messageDelta, hs, Fallible.ok_bind, messageUsage]
  split
  · split
    · split
      · exact ⟨_, rfl, (Value.put_isObject _ _ _).trans ho⟩
      · exact ⟨m, rfl, ho⟩
    · exact ⟨m, rfl, ho⟩
    · exact hassign _ _ _ ho
  · exact ⟨m, rfl, ho⟩

/-- The accumulated message is an object before and after every event. -/
theorem mergeAnthropicEvent_isObject {message : Value} (hm : message.isObject = true)
    (h : mergeAnthropicEvent message e = .ok out) : out.isObject = true := by
  rw [mergeAnthropicEvent] at h
  split at h
  · exact messageStart_isObject hm h
  · cases h
    exact (contentBlockStart_isObject message e).trans hm
  · cases h
    exact (contentBlockDelta_isObject message e).trans hm
  · obtain ⟨out', ho, hobj⟩ := messageDelta_ok hm e.data
    rw [ho] at h
    cases h
    exact hobj
  · cases h
    exact hm

theorem mergeAnthropicEvent_isOk_iff {message : Value} (hm : message.isObject = true)
    (e : SseEvent) : (mergeAnthropicEvent message e).isOk = true ↔ EventFits e := by
  rw [mergeAnthropicEvent, EventFits]
  split
  · next hk =>
    rw [messageStart_isOk_iff]
    simp [hk]
  · next hk => simp [hk]
  · next hk => simp [hk]
  · next hk =>
    obtain ⟨out, ho, -⟩ := messageDelta_ok hm e.data
    rw [ho]
    simp [hk]
  · next hk _ _ _ => exact ⟨fun _ h => absurd h hk, fun _ => rfl⟩

theorem mergeAnthropicEvents_isOk_iff (events : List SseEvent) :
    (mergeAnthropicEvents events).isOk = true ↔ ∀ e ∈ events, EventFits e := by
  rw [mergeAnthropicEvents]
  exact Fallible.foldlM_isOk_iff_forall (fun _ _ _ => mergeAnthropicEvent_isObject)
    (fun _ e hm => mergeAnthropicEvent_isOk_iff hm e)
    (show (Value.object [("content", .array [])]).isObject = true from rfl) events

/-! When the whole parse is safe. -/

/-- The events of a text meet states that can take them. -/
def StreamFits (codec : FloatCodec) (data : List Char) : Prop :=
  match detectFormat codec data with
  | .anthropic => ∀ e ∈ parseSseEvents codec data, EventFits e
  | .openAI => RunFits none ((parseSseEvents codec data).map SseEvent.data)
  | .unknown => True

theorem parseAccumulatedSse_isOk_iff (codec : FloatCodec) (data : List Char) :
    (parseAccumulatedSse codec data).isOk = true ↔ StreamFits codec data := by
  rw [parseAccumulatedSse, StreamFits]
  cases detectFormat codec data with
  | anthropic =>
    dsimp only
    rw [Fallible.isOk_map, mergeAnthropicEvents_isOk_iff]
  | openAI => exact mergeChunks_isOk_iff _
  | unknown => exact ⟨fun _ => trivial, fun _ => rfl⟩

/-- A scalar payload before the first chunk with choices reaches the merge. -/
theorem parseAccumulatedSse_panics : ∃ codec data,
    parseAccumulatedSse codec data = .error ⟨"choices", "number"⟩ :=
  ⟨⟨fun _ => none, fun _ => ⟨false, [], [], []⟩, fun _ _ h => by cases h⟩,
    "data: 5\n\ndata: \x7b\"choices\":[]\x7d\n\n".toList, by decide +kernel⟩

end LocalMind
