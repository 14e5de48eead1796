import LocalMind.Proxy.SynthesisShape

namespace LocalMind
set_option autoImplicit true
open Json

/-! What a client makes of a synthesized stream: the deltas up to a finish reason are one choice,
strings are joined, and other values are set. -/

def choiceOf (chunk : Value) : Value :=
  match chunk.get "choices" with
  | some (.array [choice]) => choice
  | _ => .null

def endsRun (chunk : Value) : Bool := (finishIndex chunk).isSome

/-- The chunks of the choices, each up to its finish reason. -/
def splitRuns : List Value → List (List Value)
  | [] => []
  | c :: cs =>
    if endsRun c then [c] :: splitRuns cs
    else
      match splitRuns cs with
      | [] => [[c]]
      | run :: runs => (c :: run) :: runs

def foldField (acc : Value) (e : String × Value) : Value :=
  match acc.get e.1, e.2 with
  | some (.string s), .string t => acc.put e.1 (.string (s ++ t))
  | _, v => acc.put e.1 v

def foldChunk (acc chunk : Value) : Value :=
  ((((choiceOf chunk).get "delta").bind Value.asObject).getD []).foldl foldField acc

/-- A choice as the client has it: the chunk that ends it, with the message in the place of the
delta. -/
def foldRun (run : List Value) : Value :=
  let last := ((run.getLast?.map choiceOf).bind Value.asObject).getD []
  (Value.object (last.filter fun e => e.1 != "delta")).put "message"
    (run.foldl foldChunk (.object []))

def receivedChoices (chunks : List Value) : List Value := (splitRuns chunks).map foldRun

/-- Every field of one object is in another. -/
def FieldsIn (v w : Value) (except : String) : Prop :=
  ∀ k x, k ≠ except → v.get k = some x → w.get k = some x

/-- A received choice has every field of the choice and of its message. -/
def ChoiceReceived (choice received : Value) : Prop :=
  FieldsIn choice received "message" ∧ ∃ message message', choice.get "message" = some message ∧
    received.get "message" = some message' ∧ ∀ k x, message.get k = some x →
      message'.get k = some x

/-- A field of a message that has a delta. -/
def FieldStreams (k : String) (x : Value) : Prop :=
  ((k = "role" ∨ k = "reasoning_text" ∨ k = "reasoning_opaque") ∧ x.isString = true) ∨
  (k = "content" ∧ x ≠ .null ∧ x ≠ .string "") ∨
  (k = "tool_calls" ∧ ∃ tools, x = .array tools ∧ tools ≠ [])

/-- A choice of nothing but an index, a finish reason and a message whose fields have deltas. -/
structure ChoiceStreams (choice : Value) : Prop where
  fields : ∀ k x, choice.get k = some x → k = "message" ∨ k = "index" ∨
    k = "finish_reason" ∧ x.isString = true
  message : ∀ m, choice.get "message" = some m → ∀ k x, m.get k = some x → FieldStreams k x

/-! Chunks under the fold. -/

theorem choiceOf_envelope {info : StreamMeta} (hx : Unknown info.extras) (delta finish : Value)
    (idx : UInt64) : choiceOf (chunkEnvelope info delta finish idx) =
      .object [("index", .number (.posInt idx)), ("delta", delta), ("finish_reason", finish)] := by
  rw [choiceOf, get_chunkEnvelope hx (by decide)]
  rfl

theorem finishIndex_envelope {info : StreamMeta} (hx : Unknown info.extras) (delta finish : Value)
    (idx : UInt64) : finishIndex (chunkEnvelope info delta finish idx) =
      if finish.isNull then none else some idx := by
  rw [finishIndex, get_chunkEnvelope hx (by decide)]
  rfl

theorem choiceOf_final {info : StreamMeta} (hx : Unknown info.extras) (choice message : Value)
    (idx : UInt64) (usage timings : Option Value) :
    choiceOf (finalChunk info choice message idx usage timings) =
      .object [("index", .number (.posInt idx)), ("delta", .object []),
        ("finish_reason", .string (finishReasonOf choice message))] ∧
    endsRun (finalChunk info choice message idx usage timings) = true := by
  have hobj := sseEnvelope_isObject info FINISH_EVENT
    (.string (finishReasonOf choice message)) idx
  have hchoices : (finalChunk info choice message idx usage timings).get "choices" =
      (chunkEnvelope info (.object []) (.string (finishReasonOf choice message)) idx).get
        "choices" := by
    rw [finalChunk, get_putSome (putSome_isObject hobj _ _), if_neg (by decide),
      get_putSome hobj, if_neg (by decide), sseEnvelope, if_pos rfl]
  have hchoice := choiceOf_envelope hx (.object []) (.string (finishReasonOf choice message)) idx
  have hfinish := finishIndex_envelope hx (.object []) (.string (finishReasonOf choice message)) idx
  rw [choiceOf] at hchoice
  rw [finishIndex] at hfinish
  rw [choiceOf, endsRun, finishIndex, hchoices]
  refine ⟨hchoice, ?_⟩
  rw [hfinish]
  rfl

theorem foldChunk_delta {info : StreamMeta} (hx : Unknown info.extras) (he : event ≠ FINISH_EVENT)
    (x : Value) (idx : UInt64) (acc : Value) :
    foldChunk acc (sseEnvelope info event x idx) = foldField acc (event, x) := by
  rw [foldChunk, sseEnvelope, if_neg he, choiceOf_envelope hx]
  rfl

theorem endsRun_delta {info : StreamMeta} (hx : Unknown info.extras) (he : event ≠ FINISH_EVENT)
    (x : Value) (idx : UInt64) : endsRun (sseEnvelope info event x idx) = false := by
  rw [endsRun, sseEnvelope, if_neg he, finishIndex_envelope hx]
  rfl

theorem foldField_new {acc : Value} (h : acc.get k = none) (x : Value) :
    foldField acc (k, x) = acc.put k x := by
  rw [foldField, h]

theorem foldField_string {acc : Value} (h : acc.get k = some (.string s)) (t : String) :
    foldField acc (k, .string t) = acc.put k (.string (s ++ t)) := by
  rw [foldField, h]

theorem fold_stringChunk {info : StreamMeta} (hx : Unknown info.extras)
    (he : event ≠ FINISH_EVENT) (message : Value) (idx : UInt64) {acc : Value}
    (h : acc.get event = none) : (stringChunk info event message idx).foldl foldChunk acc =
      putSome acc event (stringField message event) := by
  rw [stringChunk, stringField]
  cases (message.get event).bind Value.asStr with
  | none => rfl
  | some s =>
    change foldChunk acc (sseEnvelope info event (.string s) idx) = _
    rw [foldChunk_delta hx he, foldField_new h]
    rfl

theorem fold_pieces {info : StreamMeta} (hx : Unknown info.extras) (idx : UInt64) {acc : Value}
    (h : acc.get "content" = some (.string s)) (pieces : List (List Char)) :
    (pieces.map fun piece =>
      sseEnvelope info "content" (.string (String.ofList piece)) idx).foldl foldChunk acc =
      acc.put "content" (.string (s ++ String.ofList pieces.flatten)) := by
  induction pieces generalizing acc s with
  | nil =>
    have hs : s ++ String.ofList [].flatten = s := by simp
    rw [hs, Value.put_get h]
    rfl
  | cons p pieces ih =>
    rw [List.map_cons, List.foldl_cons, foldChunk_delta hx (by decide), foldField_string h,
      ih (Value.get_put_of_get h _), Value.put_put, String.append_assoc, ← String.ofList_append,
      List.flatten_cons]

/-- The content that the chunks bring. -/
def contentSent (message : Value) : Option Value :=
  (message.get "content").filter fun x => decide (x ≠ .null ∧ x ≠ .string "")

theorem fold_contentChunks {info : StreamMeta} (hx : Unknown info.extras) (message : Value)
    (idx : UInt64) (size : Nat) {acc : Value} (hobj : acc.isObject = true)
    (h : acc.get "content" = none) :
    (contentChunks info message idx size).foldl foldChunk acc =
      putSome acc "content" (contentSent message) := by
  have hone : ∀ x, foldChunk acc (sseEnvelope info "content" x idx) = acc.put "content" x := by
    intro x
    rw [foldChunk_delta hx (by decide), foldField_new h]
  rw [contentChunks, contentSent]
  cases hc : message.get "content" with
  | none => rfl
  | some v =>
    cases v with
    | string text =>
      dsimp only
      by_cases ht : text = ""
      · rw [if_pos ht, ht]
        rfl
      · have hne : text.toList ≠ [] := by simpa using ht
        obtain ⟨p, pieces, hs⟩ := List.exists_cons_of_ne_nil (splitChars_ne_nil hne size)
        have hflat := splitChars_flatten text.toList size
        have hkeep : (some (Value.string text)).filter
            (fun x => decide (x ≠ .null ∧ x ≠ .string "")) = some (.string text) := by
          simp [ht]
        have hget : (acc.put "content" (.string (String.ofList p))).get "content" =
            some (.string (String.ofList p)) := by
          rw [Value.get_put hobj, if_pos rfl]
        rw [hs] at hflat
        rw [if_neg ht, hs, hkeep, List.map_cons, List.foldl_cons, hone, fold_pieces hx idx hget,
          Value.put_put, ← String.ofList_append, ← List.flatten_cons, hflat, String.ofList_toList]
        rfl
    | null => rfl
    | bool b => exact hone _
    | number n => exact hone _
    | array xs => exact hone _
    | object m => exact hone _

theorem fold_toolCallsChunk {info : StreamMeta} (hx : Unknown info.extras) (message : Value)
    (idx : UInt64) {acc : Value} (h : acc.get "tool_calls" = none) :
    (toolCallsChunk info message idx).foldl foldChunk acc =
      putSome acc "tool_calls" ((toolCallsOf message).map .array) := by
  rw [toolCallsChunk]
  cases toolCallsOf message with
  | none => rfl
  | some tools =>
    change foldChunk acc (sseEnvelope info "tool_calls" (.array tools) idx) = _
    rw [foldChunk_delta hx (by decide), foldField_new h]
    rfl

/-- The message that the deltas of a choice bring. -/
def sentMessage (message : Value) : Value :=
  let m := putSome (.object []) "role" (stringField message "role")
  let m := putSome m "reasoning_text" (stringField message "reasoning_text")
  let m := putSome m "reasoning_opaque" (stringField message "reasoning_opaque")
  let m := putSome m "content" (contentSent message)
  putSome m "tool_calls" ((toolCallsOf message).map .array)

theorem get_sentMessage (message : Value) (l : String) : (sentMessage message).get l =
    let x := if "role" = l then (stringField message "role").or none else none
    let x := if "reasoning_text" = l then (stringField message "reasoning_text").or x else x
    let x := if "reasoning_opaque" = l then (stringField message "reasoning_opaque").or x else x
    let x := if "content" = l then (contentSent message).or x else x
    if "tool_calls" = l then ((toolCallsOf message).map .array).or x else x := by
  have o₀ : (Value.object []).isObject = true := rfl
  have o₁ := putSome_isObject o₀ "role" (stringField message "role")
  have o₂ := putSome_isObject o₁ "reasoning_text" (stringField message "reasoning_text")
  have o₃ := putSome_isObject o₂ "reasoning_opaque" (stringField message "reasoning_opaque")
  have o₄ := putSome_isObject o₃ "content" (contentSent message)
  rw [sentMessage, get_putSome o₄, get_putSome o₃, get_putSome o₂, get_putSome o₁,
    get_putSome o₀]
  rfl

theorem fold_bodyChunks {info : StreamMeta} (hx : Unknown info.extras) (message : Value)
    (idx : UInt64) (size : Nat) :
    (bodyChunks info message idx size).foldl foldChunk (.object []) = sentMessage message := by
  have o₀ : (Value.object []).isObject = true := rfl
  have o₁ := putSome_isObject o₀ "role" (stringField message "role")
  have o₂ := putSome_isObject o₁ "reasoning_text" (stringField message "reasoning_text")
  have o₃ := putSome_isObject o₂ "reasoning_opaque" (stringField message "reasoning_opaque")
  have o₄ := putSome_isObject o₃ "content" (contentSent message)
  have role := fold_stringChunk hx (by decide : "role" ≠ FINISH_EVENT) message idx
    (rfl : (Value.object []).get "role" = none)
  have reasoning := fold_stringChunk hx (by decide : "reasoning_text" ≠ FINISH_EVENT) message idx
    (by rw [get_putSome o₀]; rfl :
      (putSome (.object []) "role" (stringField message "role")).get "reasoning_text" = none)
  have sealed := fold_stringChunk hx (by decide : "reasoning_opaque" ≠ FINISH_EVENT) message idx
    (by rw [get_putSome o₁, get_putSome o₀]; rfl :
      (putSome (putSome (.object []) "role" (stringField message "role")) "reasoning_text"
        (stringField message "reasoning_text")).get "reasoning_opaque" = none)
  rw [bodyChunks, List.foldl_append, List.foldl_append, List.foldl_append, List.foldl_append, role,
    reasoning, sealed, fold_contentChunks hx message idx size o₃,
    fold_toolCallsChunk hx message idx]
  · rfl
  · rw [get_putSome o₃, get_putSome o₂, get_putSome o₁, get_putSome o₀]
    rfl
  · rw [get_putSome o₂, get_putSome o₁, get_putSome o₀]
    rfl

/-! The runs. -/

theorem bodyChunks_go_on {info : StreamMeta} (hx : Unknown info.extras) (message : Value)
    (idx : UInt64) (size : Nat) : ∀ c ∈ bodyChunks info message idx size, endsRun c = false := by
  intro c hc
  simp only [bodyChunks, List.mem_append] at hc
  obtain (((hc | hc) | hc) | hc) | hc := hc
  · obtain ⟨x, rfl⟩ := stringChunk_envelope info _ message idx c hc
    exact endsRun_delta hx (by decide) x idx
  · obtain ⟨x, rfl⟩ := stringChunk_envelope info _ message idx c hc
    exact endsRun_delta hx (by decide) x idx
  · obtain ⟨x, rfl⟩ := stringChunk_envelope info _ message idx c hc
    exact endsRun_delta hx (by decide) x idx
  · obtain ⟨x, rfl⟩ := contentChunks_envelope info message idx size c hc
    exact endsRun_delta hx (by decide) x idx
  · obtain ⟨x, rfl⟩ := toolCallsChunk_envelope info message idx c hc
    exact endsRun_delta hx (by decide) x idx

theorem splitRuns_append {body : List Value} (hbody : ∀ c ∈ body, endsRun c = false)
    (hlast : endsRun last = true) (rest : List Value) :
    splitRuns (body ++ [last] ++ rest) = (body ++ [last]) :: splitRuns rest := by
  induction body with
  | nil =>
    change splitRuns (last :: rest) = _
    rw [splitRuns, if_pos hlast]
    rfl
  | cons c body ih =>
    obtain ⟨hc, hbody⟩ := List.forall_mem_cons.1 hbody
    change splitRuns (c :: (body ++ [last] ++ rest)) = _
    rw [splitRuns, hc, ih hbody]
    rfl

/-- What a client has of a choice. -/
def received (choice message : Value) (idx : UInt64) : Value :=
  .object [("index", .number (.posInt idx)),
    ("finish_reason", .string (finishReasonOf choice message)), ("message", sentMessage message)]

theorem foldRun_choice {info : StreamMeta} (hx : Unknown info.extras) (choice message : Value)
    (idx : UInt64) (usage timings : Option Value) (size : Nat) :
    foldRun (bodyChunks info message idx size ++
      [finalChunk info choice message idx usage timings]) = received choice message idx := by
  have hfinal := (choiceOf_final hx choice message idx usage timings).1
  have hstays : foldChunk (sentMessage message)
      (finalChunk info choice message idx usage timings) = sentMessage message := by
    rw [foldChunk, hfinal]
    rfl
  rw [foldRun, List.foldl_append, fold_bodyChunks hx, List.foldl_cons, hstays,
    List.getLast?_concat, Option.map_some, hfinal]
  rfl

/-- A choice that was checked, and what the client has of it. -/
structure Streamed (choice out : Value) : Prop where
  sent : ∃ fields idx, choice.get "message" = some (.object fields) ∧
    (∀ i, choice.get "index" = some i → i = .number (.posInt idx)) ∧
    out = received choice (.object fields) idx

theorem streamed_of_checked {choice : Value} (h : checkChoice choice = .ok ()) (pos : Nat)
    (hm : choice.get "message" = some (.object fields)) :
    Streamed choice (received choice (.object fields)
      ((namedIndex choice).getD (UInt64.ofNat pos))) := by
  refine ⟨fields, _, hm, ?_, rfl⟩
  intro i hi
  have hu := checkChoice_index h hi
  rw [namedIndex, hi, Option.bind_some]
  rw [isU64] at hu
  obtain ⟨n, hn⟩ := Option.isSome_iff_exists.1 hu
  rw [hn]
  exact Value.asU64_eq_some.1 hn

/-- The runs of a synthesized stream are the choices, in their order. -/
theorem receivedChoices_from {parsed : RawCompletion} (hx : Unknown parsed.streamMeta.extras)
    (size pos : Nat) {choices : List Value} (hc : ∀ c ∈ choices, checkChoice c = .ok ()) :
    List.Forall₂ Streamed choices (receivedChoices (synthesizeFrom parsed size pos choices)) := by
  induction choices generalizing pos with
  | nil => exact .nil
  | cons c cs ih =>
    obtain ⟨hcheck, hc⟩ := List.forall_mem_cons.1 hc
    obtain ⟨fields, hm⟩ := checkChoice_ok hcheck
    rw [synthesizeFrom, synthesizeChoiceChunks_eq _ hm, receivedChoices,
      splitRuns_append (bodyChunks_go_on hx _ _ size) (choiceOf_final hx _ _ _ _ _).2,
      List.map_cons, foldRun_choice hx]
    exact .cons (streamed_of_checked hcheck pos hm) (ih (pos + 1) hc)

/-! A message through its deltas. -/

theorem stringField_sent (h : message.get k = some x) :
    stringField message k = some x ↔ x.isString = true := by
  rw [stringField, h]
  cases x <;> simp [Value.asStr, Value.isString]

theorem contentSent_sent (h : message.get "content" = some x) :
    contentSent message = some x ↔ x ≠ .null ∧ x ≠ .string "" := by
  rw [contentSent, h, Option.filter_eq_some_iff]
  simp

theorem toolCalls_sent (h : message.get "tool_calls" = some x) :
    (toolCallsOf message).map .array = some x ↔ ∃ tools, x = .array tools ∧ tools ≠ [] := by
  rw [toolCallsOf, h]
  cases x with
  | array tools => cases tools <;> simp [Value.asArray]
  | _ => simp [Value.asArray]

theorem sent_iff_fieldStreams (h : message.get k = some x) :
    (sentMessage message).get k = some x ↔ FieldStreams k x := by
  rw [get_sentMessage, FieldStreams]
  by_cases hrole : k = "role"
  · subst k
    simpa using stringField_sent h
  by_cases hreasoning : k = "reasoning_text"
  · subst k
    simpa using stringField_sent h
  by_cases hsealed : k = "reasoning_opaque"
  · subst k
    simpa using stringField_sent h
  by_cases hcontent : k = "content"
  · subst k
    simpa using contentSent_sent h
  by_cases htools : k = "tool_calls"
  · subst k
    simpa using toolCalls_sent h
  simp [hrole, hreasoning, hsealed, hcontent, htools, Ne.symm hrole, Ne.symm hreasoning,
    Ne.symm hsealed, Ne.symm hcontent, Ne.symm htools]

theorem received_iff_streams (h : Streamed choice out) :
    ChoiceReceived choice out ↔ ChoiceStreams choice := by
  obtain ⟨fields, idx, hm, hi, rfl⟩ := h
  have hmessage : (received choice (.object fields) idx).get "message" =
      some (sentMessage (.object fields)) := rfl
  constructor
  · rintro ⟨hfields, message, message', hm₁, hm₂, hin⟩
    obtain rfl : Value.object fields = message := Option.some.inj (hm.symm.trans hm₁)
    obtain rfl : sentMessage (.object fields) = message' :=
      Option.some.inj (hmessage.symm.trans hm₂)
    refine ⟨?_, ?_⟩
    · intro k x hk
      by_cases hkm : k = "message"
      · exact .inl hkm
      · have hget := hfields k x hkm hk
        by_cases hki : k = "index"
        · exact .inr (.inl hki)
        · by_cases hkf : k = "finish_reason"
          · subst k
            have hx : some (Value.string (finishReasonOf choice (.object fields))) = some x := hget
            cases hx
            exact .inr (.inr ⟨rfl, rfl⟩)
          · have hnone : (received choice (.object fields) idx).get k = none := by
              apply Fields.get_eq_none_iff.2
              simp [Fields.keys, hki, hkf, hkm]
            rw [hnone] at hget
            cases hget
    · intro m hm' k x hk
      obtain rfl : Value.object fields = m := Option.some.inj (hm.symm.trans hm')
      exact (sent_iff_fieldStreams hk).1 (hin k x hk)
  · intro hs
    refine ⟨?_, _, _, hm, hmessage, ?_⟩
    · intro k x hkm hk
      obtain rfl | rfl | ⟨rfl, hx⟩ := hs.fields k x hk
      · exact absurd rfl hkm
      · rw [hi x hk]
        rfl
      · obtain ⟨s, rfl⟩ := Value.isString_iff.1 hx
        have hreason : finishReasonOf choice (.object fields) = s := by
          rw [finishReasonOf, hk]
          rfl
        rw [← hreason]
        rfl
    · intro k x hk
      exact (sent_iff_fieldStreams hk).2 (hs.message _ hm k x hk)

/-! The claim of a whole body. -/

theorem forall₂_iff_forall {R S : α → β → Prop} {P : α → Prop} (h : ∀ a b, R a b → (S a b ↔ P a))
    (hr : List.Forall₂ R as bs) : List.Forall₂ S as bs ↔ ∀ a ∈ as, P a := by
  induction hr with
  | nil => exact ⟨fun _ => List.forall_mem_nil _, fun _ => .nil⟩
  | cons hab _ ih => rw [List.forall₂_cons, List.forall_mem_cons, h _ _ hab, ih]

/-- A client of the stream has the choices of the body exactly when they are all of fields that
have deltas. -/
theorem fold_synthesized_iff (hp : parseRawCompletion now raw = .ok parsed) (size : Nat) :
    List.Forall₂ ChoiceReceived parsed.choices
        (receivedChoices (payloads (synthesizeOpenaiChunks parsed size))) ↔
      ∀ c ∈ parsed.choices, ChoiceStreams c := by
  have hx := (parseRawCompletion_ok hp).1
  have hstreamed := receivedChoices_from hx size 0 (parseRawCompletion_checked hp)
  rw [payloads_openai]
  exact forall₂_iff_forall (fun _ _ => received_iff_streams) hstreamed

theorem answer_streams (role text : String) (h : text ≠ "") : ChoiceStreams
    (.object [("message", .object [("role", .string role), ("content", .string text)])]) := by
  constructor
  · intro k x hk
    have hmem := Fields.mem_of_get hk
    rw [List.mem_singleton, Prod.mk.injEq] at hmem
    exact .inl hmem.1
  · intro m hm k x hk
    cases hm
    have hmem := Fields.mem_of_get hk
    rw [List.mem_cons, List.mem_singleton, Prod.mk.injEq, Prod.mk.injEq] at hmem
    obtain ⟨rfl, rfl⟩ | ⟨rfl, rfl⟩ := hmem
    · exact .inl ⟨.inl rfl, rfl⟩
    · exact .inr (.inl ⟨rfl, by simp, by simpa using h⟩)

theorem fold_synthesized_answer : ∃ parsed,
    parseRawCompletion 0 (answerBody (.string "assistant") "Hello world") = .ok parsed ∧
      List.Forall₂ ChoiceReceived parsed.choices
        (receivedChoices (payloads (synthesizeOpenaiChunks parsed 4))) := by
  have hp : parseRawCompletion 0 (answerBody (.string "assistant") "Hello world") = .ok _ := rfl
  refine ⟨_, hp, (fold_synthesized_iff hp 4).2 fun c hc => ?_⟩
  rw [List.mem_singleton.1 hc]
  exact answer_streams "assistant" "Hello world" (by decide)

/-- A body of one choice that reasons. -/
def reasoningBody (text : String) : Value :=
  .object [("id", .string "c"), ("model", .string "m"),
    ("choices", .array [.object [("message", .object [("content", .string "x"),
      ("reasoning_content", .string text)])]])]

/-- The reasoning of a body does not reach a client of the stream. -/
theorem fold_synthesized_drops_reasoning : ∃ parsed,
    parseRawCompletion 0 (reasoningBody "why") = .ok parsed ∧
      ¬ List.Forall₂ ChoiceReceived parsed.choices
        (receivedChoices (payloads (synthesizeOpenaiChunks parsed 4))) := by
  have hreceived : ∃ parsed choice message out message',
      parseRawCompletion 0 (reasoningBody "why") = .ok parsed ∧ parsed.choices = [choice] ∧
      receivedChoices (payloads (synthesizeOpenaiChunks parsed 4)) = [out] ∧
      choice.get "message" = some message ∧ out.get "message" = some message' ∧
      message.get "reasoning_content" = some (.string "why") ∧
      message'.get "reasoning_content" = none :=
    ⟨_, _, _, _, _, rfl, rfl, rfl, rfl, rfl, rfl, rfl⟩
  obtain ⟨parsed, choice, message, out, message', hp, hchoices, hout, hm, hm', hk, hk'⟩ :=
    hreceived
  refine ⟨parsed, hp, ?_⟩
  rw [hchoices, hout, List.forall₂_cons]
  rintro ⟨⟨-, m, m', hget, hget', hin⟩, -⟩
  obtain rfl : message = m := Option.some.inj (hm.symm.trans hget)
  obtain rfl : message' = m' := Option.some.inj (hm'.symm.trans hget')
  have hsent := hin _ _ hk
  rw [hk'] at hsent
  cases hsent

end LocalMind
