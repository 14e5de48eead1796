import LocalMind.Atem.ToolsWire

namespace LocalMind
open Text PyJson
set_option autoImplicit true

namespace Atem

/-! The arguments that a client gets. -/

section
variable {F : Type} (f : FloatTexts F) (tools : List (Tool F))

/-- No parameter is read with a constant that JSON does not have. -/
def FiniteCalls (invokes : List Invoke) : Prop :=
  ∀ v ∈ invokes, ∀ types, paramTypes f tools v.name = some types →
    ∀ p ∈ v.params, ∀ e, readParam f types p = some e → PyJson.Finite e.2

def ReadsFinite (text : List Char) : Prop := FiniteCalls f tools (parseInvokes (contentOf text))

end

section
variable {F : Type} {f : FloatTexts F} {tools : List (Tool F)}

theorem finite_read {params : List Param}
    (h : ∀ p ∈ params, ∀ e, readParam f types p = some e → PyJson.Finite e.2)
    (hread : params.mapM (readParam f types) = some es) : ∀ e ∈ es, PyJson.Finite e.2 := by
  intro e he
  obtain ⟨p, hp, hpe⟩ := Fallible.exists_left_of_forall₂ (Json.Codec.mapM_eq_some hread) he
  exact h p hp e hpe

theorem isJson_arguments (h : ∀ p ∈ params, ∀ e, readParam f types p = some e → PyJson.Finite e.2)
    (hread : arguments f types params = some m) : IsJson (dumps f (.dict m)) := by
  obtain ⟨es, hes, rfl⟩ := Option.map_eq_some_iff.1 hread
  have hfinite := finite_read h hes
  apply isJson_dumps
  apply PyJson.Finite.dict
  intro e he
  obtain he | he := Json.Fields.mem_insertAll he
  · exact hfinite e he
  · cases he

theorem isJson_toolCall {call : Invoke × ParamTypes}
    (h : ∀ p ∈ call.1.params, ∀ e, readParam f call.2 p = some e → PyJson.Finite e.2)
    (hc : toolCall f call = some c) : IsJson c.arguments := by
  obtain ⟨m, hm, rfl⟩ := Option.map_eq_some_iff.1 hc
  exact isJson_arguments h hm

theorem mem_typed (h : typed f tools invokes = some held) (hc : call ∈ held) :
    call.1 ∈ invokes ∧ paramTypes f tools call.1.name = some call.2 := by
  obtain ⟨v, hv, hcall⟩ := Fallible.exists_left_of_forall₂ (Json.Codec.mapM_eq_some h) hc
  obtain ⟨types, htypes, rfl⟩ := Option.map_eq_some_iff.1 hcall
  exact ⟨hv, htypes⟩

/-- Every arguments string of a text is JSON. -/
theorem isJson_extracted (h : ReadsFinite f tools text)
    (hr : extractToolCalls f tools text = some r) : ∀ c ∈ r.toolCalls, IsJson c.arguments := by
  rw [extractToolCalls] at hr
  split at hr
  · cases hr
    exact List.forall_mem_nil _
  · cases htyped : typed f tools (parseInvokes (contentOf text)) with
    | none =>
      rw [htyped] at hr
      cases hr
      exact List.forall_mem_nil _
    | some calls =>
      rw [htyped] at hr
      obtain ⟨toolCalls, hcalls, rfl⟩ := Option.map_eq_some_iff.1 hr
      intro c hc
      obtain ⟨call, hmem, hcall⟩ :=
        Fallible.exists_left_of_forall₂ (Json.Codec.mapM_eq_some hcalls) hc
      obtain ⟨hv, htypes⟩ := mem_typed htyped hmem
      exact isJson_toolCall (h call.1 hv call.2 htypes) hcall

/-! A stream of texts. -/

theorem isJson_partialArguments {v : Invoke}
    (h : ∀ p ∈ v.params, ∀ e, readParam f types p = some e → PyJson.Finite e.2)
    (hread : partialArguments f types v = some s) :
    IsJson (if v.closed then s else s ++ ['}']) := by
  obtain ⟨done, hdone, rfl⟩ := Option.map_eq_some_iff.1 hread
  have hfinite := finite_read (fun p hp => h p (List.mem_of_mem_filter hp)) hdone
  have hjson := isJson_dumps f (PyJson.Finite.dict hfinite)
  rw [dumps] at hjson
  cases hc : v.closed with
  | true => exact hjson
  | false =>
    have hopen : '{' :: joinSpaced (dumpsEntries f done) ++ [] ++ ['}'] =
        '{' :: joinSpaced (dumpsEntries f done) ++ ['}'] := by
      rw [List.append_nil]
    exact hopen ▸ hjson

/-- What is recorded of a call, and what is sent of it, less the closing brace. -/
structure Recorded (c : StreamedCall) : Prop where
  arguments : ∀ s, c.arguments = some s → IsJson s
  sent : c.sent = [] ∨ IsJson c.sent ∨ IsJson (c.sent ++ ['}'])

theorem recorded_new : Recorded NEW_CALL := by
  refine ⟨?_, .inl rfl⟩
  intro s hs
  cases hs

theorem Recorded.renamed {c : StreamedCall} (h : Recorded c) (name : List Char) :
    Recorded { c with name := name } :=
  ⟨h.arguments, h.sent⟩

/-- The arguments that a fragment is part of. -/
def fragments (index : Nat) (deltas : List CallDelta) : List Char :=
  (deltas.filter fun d => d.index = index).flatMap fun d => d.arguments.getD []

theorem fragments_append (index : Nat) (ds es : List CallDelta) :
    fragments index (ds ++ es) = fragments index ds ++ fragments index es := by
  rw [fragments, List.filter_append, List.flatMap_append]
  rfl

theorem fragments_other {ds : List CallDelta} (h : ∀ d ∈ ds, d.index ≠ index) :
    fragments index ds = [] := by
  have hnone : (ds.filter fun d => d.index = index) = [] := by
    apply List.filter_eq_nil_iff.2
    intro d hd
    simpa using h d hd
  rw [fragments, hnone]
  rfl

/-- The arguments that a call is recorded with. -/
def closedForm (v : Invoke) (arguments : List Char) : List Char :=
  if v.closed then arguments else arguments ++ ['}']

/-- What a round makes of the calls from an index on. -/
inductive Streams (f : FloatTexts F) (tools : List (Tool F)) : Nat → List Invoke →
    List StreamedCall → List StreamedCall → Option (List CallDelta) → Prop where
  | done : Streams f tools index [] held held (some [])
  | waits : Streams f tools index (v :: invokes) held (held.headD NEW_CALL :: held.tail) (some [])
  | fails (name : List Char) : paramTypes f tools v.name = none →
      Streams f tools index (v :: invokes) held
        ({ held.headD NEW_CALL with name := name } :: held.tail) none
  | sends {opened : List CallDelta} (v : Invoke) (name : List Char) : paramTypes f tools v.name = some types →
      partialArguments f types v = some args → (held.headD NEW_CALL).sent <+: args →
      (∀ d ∈ opened, d.index = index ∧ d.arguments = none) →
      Streams f tools (index + 1) invokes held.tail rest o →
      Streams f tools index (v :: invokes) held (⟨name, some (closedForm v args), args⟩ :: rest)
        (o.map fun ds => opened ++
          ⟨index, none, some (args.drop (held.headD NEW_CALL).sent.length)⟩ :: ds)
  | keeps {opened : List CallDelta} (v : Invoke) (name : List Char) : paramTypes f tools v.name = some types →
      partialArguments f types v = some args →
      (∀ d ∈ opened, d.index = index ∧ d.arguments = none) →
      Streams f tools (index + 1) invokes held.tail rest o →
      Streams f tools index (v :: invokes) held
        (⟨name, some (closedForm v args), (held.headD NEW_CALL).sent⟩ :: rest)
        (o.map fun ds => opened ++ ds)

theorem opened_index {b : Bool} {name : List Char} {index : Nat} :
    ∀ d ∈ (if b then [(⟨index, some name, none⟩ : CallDelta)] else []),
      d.index = index ∧ d.arguments = none := by
  cases b with
  | false => exact List.forall_mem_nil _
  | true =>
    intro d hd
    rw [if_pos rfl, List.mem_singleton] at hd
    rw [hd]
    exact ⟨rfl, rfl⟩

theorem named_eq (call : StreamedCall) (name : List Char) :
    (if call.name.isEmpty then { call with name := name } else call) =
      { call with name := if call.name.isEmpty then name else call.name } := by
  cases call.name.isEmpty with
  | true => rfl
  | false => rfl

theorem streams_of (h : streamCalls f tools index invokes held = some r) :
    Streams f tools index invokes held r.1 r.2 := by
  induction invokes generalizing index held r with
  | nil =>
    cases h
    exact .done
  | cons v invokes ih =>
    rw [streamCalls] at h
    split at h
    · cases h
      exact .waits
    · cases htypes : paramTypes f tools v.name with
      | none =>
        simp only [htypes, named_eq] at h
        cases h
        exact .fails _ htypes
      | some types =>
        simp only [htypes, named_eq] at h
        obtain ⟨args, hargs, h⟩ := Option.bind_eq_some_iff.1 h
        obtain ⟨rest, hrest, h⟩ := Option.bind_eq_some_iff.1 h
        split at h
        · next hsend =>
          cases h
          exact .sends v _ htypes hargs (List.isPrefixOf_iff_prefix.1 hsend.1) opened_index (ih hrest)
        · cases h
          exact .keeps v _ htypes hargs opened_index (ih hrest)

theorem mem_tail {l : List α} (h : c ∈ l.tail) : c ∈ l := (List.tail_suffix l).subset h

theorem recorded_head {held : List StreamedCall} (h : ∀ c ∈ held, Recorded c) :
    Recorded (held.headD NEW_CALL) := by
  cases held with
  | nil => exact recorded_new
  | cons c held => exact h c List.mem_cons_self

theorem recorded_cons (hc : Recorded c) (h : ∀ c ∈ held, Recorded c) :
    ∀ d ∈ c :: held, Recorded d := by
  intro d hd
  obtain rfl | hd := List.mem_cons.1 hd
  · exact hc
  · exact h d hd

/-- What is sent is JSON, or is JSON with the closing brace. -/
theorem sent_json {v : Invoke} (h : IsJson (closedForm v args)) :
    IsJson args ∨ IsJson (args ++ ['}']) := by
  rw [closedForm] at h
  split at h
  · exact .inl h
  · exact .inr h

theorem Streams.recorded (h : Streams f tools index invokes held held' o)
    (hfinite : FiniteCalls f tools invokes) (hcalls : ∀ c ∈ held, Recorded c) :
    ∀ c ∈ held', Recorded c := by
  induction h with
  | done => exact hcalls
  | waits => exact recorded_cons (recorded_head hcalls) fun c hc => hcalls c (mem_tail hc)
  | fails name _ =>
    exact recorded_cons ((recorded_head hcalls).renamed name) fun c hc => hcalls c (mem_tail hc)
  | sends v name htypes hargs _ _ _ ih =>
    have hjson := isJson_partialArguments (hfinite v List.mem_cons_self _ htypes) hargs
    have hrest := ih (fun w hw => hfinite w (List.mem_cons_of_mem v hw))
      fun c hc => hcalls c (mem_tail hc)
    apply recorded_cons _ hrest
    refine ⟨?_, .inr (sent_json hjson)⟩
    intro s hs
    cases hs
    exact hjson
  | keeps v name htypes hargs _ _ ih =>
    have hjson := isJson_partialArguments (hfinite v List.mem_cons_self _ htypes) hargs
    have hrest := ih (fun w hw => hfinite w (List.mem_cons_of_mem v hw))
      fun c hc => hcalls c (mem_tail hc)
    apply recorded_cons _ hrest
    refine ⟨?_, (recorded_head hcalls).sent⟩
    intro s hs
    cases hs
    exact hjson

/-- What is sent of a call. -/
def sentAt (held : List StreamedCall) (j : Nat) : List Char := (held.getD j NEW_CALL).sent

theorem sentAt_zero (held : List StreamedCall) :
    sentAt held 0 = (held.headD NEW_CALL).sent := by
  cases held with
  | nil => rfl
  | cons c held => rfl

theorem sentAt_succ (held : List StreamedCall) (j : Nat) :
    sentAt held (j + 1) = sentAt held.tail j := by
  cases held with
  | nil => rfl
  | cons c held => rfl

theorem fragments_cons (d : CallDelta) (ds : List CallDelta) :
    fragments index (d :: ds) =
      if d.index = index then d.arguments.getD [] ++ fragments index ds
      else fragments index ds := by
  rw [fragments, List.filter_cons]
  by_cases hd : d.index = index
  · rw [if_pos (decide_eq_true hd), if_pos hd, List.flatMap_cons]
    rfl
  · rw [if_neg (by simpa using hd), if_neg hd]
    rfl

theorem fragments_opened {opened : List CallDelta}
    (h : ∀ d ∈ opened, d.index = index ∧ d.arguments = none) (j : Nat) :
    fragments j opened = [] := by
  induction opened with
  | nil => rfl
  | cons d opened ih =>
    rw [fragments_cons, (h d List.mem_cons_self).2,
      ih fun e he => h e (List.mem_cons_of_mem d he)]
    exact ite_self _

/-- The deltas of one call, then those of the calls behind it. -/
theorem sentAt_cons {c : StreamedCall} {now later : List CallDelta}
    (hnow : ∀ d ∈ now, d.index = index)
    (hsent : c.sent = (held.headD NEW_CALL).sent ++ fragments index now)
    (hlater : ∀ d ∈ later, index + 1 ≤ d.index)
    (hrest : ∀ j, sentAt rest j = sentAt held.tail j ++ fragments (index + 1 + j) later) :
    (∀ d ∈ now ++ later, index ≤ d.index) ∧
      ∀ j, sentAt (c :: rest) j = sentAt held j ++ fragments (index + j) (now ++ later) := by
  refine ⟨?_, ?_⟩
  · intro d hd
    obtain hd | hd := List.mem_append.1 hd
    · exact Nat.le_of_eq (hnow d hd).symm
    · exact Nat.le_of_succ_le (hlater d hd)
  · intro j
    rw [fragments_append]
    cases j with
    | zero =>
      have hnone : fragments index later = [] :=
        fragments_other fun d hd => Nat.ne_of_gt (hlater d hd)
      rw [Nat.add_zero, hnone, List.append_nil, sentAt_zero, sentAt_zero]
      exact hsent
    | succ j =>
      have hnone : fragments (index + (j + 1)) now = [] := by
        apply fragments_other
        intro d hd
        rw [hnow d hd]
        omega
      have hnext : index + (j + 1) = index + 1 + j := by omega
      rw [hnone, List.nil_append, sentAt_succ, sentAt_succ, hnext]
      exact hrest j

/-- The fragments of a round are those of its calls, and each goes on with what was sent. -/
theorem Streams.sent (h : Streams f tools index invokes held held' o) (ho : o = some deltas) :
    (∀ d ∈ deltas, index ≤ d.index) ∧
      ∀ j, sentAt held' j = sentAt held j ++ fragments (index + j) deltas := by
  induction h generalizing deltas with
  | done =>
    cases ho
    exact ⟨List.forall_mem_nil _, fun j => (List.append_nil _).symm⟩
  | @waits index v invokes held =>
    cases ho
    have hnow : ∀ d ∈ ([] : List CallDelta), d.index = index := List.forall_mem_nil _
    apply sentAt_cons hnow (List.append_nil _).symm (List.forall_mem_nil _)
    intro j
    exact (List.append_nil _).symm
  | fails name _ => cases ho
  | sends v name _ _ hsent hopened _ ih =>
    obtain ⟨ds, rfl, rfl⟩ := Option.map_eq_some_iff.1 ho
    obtain ⟨hlater, hrest⟩ := ih rfl
    rw [List.append_cons]
    apply sentAt_cons _ _ hlater hrest
    · intro d hd
      obtain hd | hd := List.mem_append.1 hd
      · exact (hopened d hd).1
      · rw [List.mem_singleton.1 hd]
    · rw [fragments_append, fragments_opened hopened, fragments_cons, if_pos rfl]
      exact (List.prefix_iff_eq_append.1 hsent).symm.trans (by simp [fragments])
  | keeps v name _ _ hopened _ ih =>
    obtain ⟨ds, rfl, rfl⟩ := Option.map_eq_some_iff.1 ho
    obtain ⟨hlater, hrest⟩ := ih rfl
    apply sentAt_cons (fun d hd => (hopened d hd).1) _ hlater hrest
    rw [fragments_opened hopened, List.append_nil]

/-- No delta is lost where every tool has properties with items. -/
theorem Streams.isSome (h : Streams f tools index invokes held held' o)
    (htools : ∀ name, paramTypes f tools name ≠ none) : o ≠ none := by
  induction h with
  | done => exact Option.some_ne_none _
  | waits => exact Option.some_ne_none _
  | fails name hnone => exact absurd hnone (htools _)
  | sends _ _ _ _ _ _ _ ih => exact fun hn => ih (Option.map_eq_none_iff.1 hn)
  | keeps _ _ _ _ _ _ ih => exact fun hn => ih (Option.map_eq_none_iff.1 hn)

theorem streaming_step {st st' : StreamState} {delta : Option ToolDelta}
    (h : extractToolCallsStreaming f tools st text = some (st', delta)) :
    ∃ o, Streams f tools 0 (parseInvokes (contentOf text)) st.calls st'.calls o ∧
      ∀ ds, o = some ds → delta.toList.flatMap (·.toolCalls) = ds := by
  obtain ⟨streamed, hstreamed, h⟩ := Option.bind_eq_some_iff.1 h
  cases h
  refine ⟨streamed.2, streams_of hstreamed, ?_⟩
  intro ds hds
  rw [hds, Option.bind_some]
  cases ds with
  | nil =>
    split
    · rfl
    · rfl
  | cons d ds =>
    have hany : ((contentDelta st.sentContentIdx (contentOf text)).1.isSome = true ∨
        (!(d :: ds).isEmpty) = true) := .inr rfl
    rw [if_pos hany, Option.toList_some, List.flatMap_singleton]

theorem streamTexts_recorded {st st' : StreamState} {deltas : List ToolDelta}
    (hfinite : ∀ text ∈ texts, ReadsFinite f tools text) (hst : ∀ c ∈ st.calls, Recorded c)
    (h : streamTexts f tools st texts = some (st', deltas)) : ∀ c ∈ st'.calls, Recorded c := by
  induction texts generalizing st deltas with
  | nil =>
    cases h
    exact hst
  | cons text texts ih =>
    obtain ⟨⟨st₁, delta⟩, hstep, h⟩ := Option.bind_eq_some_iff.1 h
    obtain ⟨⟨st₂, ds⟩, hrest, h⟩ := Option.bind_eq_some_iff.1 h
    cases h
    obtain ⟨o, hstreams, _⟩ := streaming_step hstep
    have hst₁ := hstreams.recorded (hfinite text List.mem_cons_self) hst
    exact ih (fun t ht => hfinite t (List.mem_cons_of_mem text ht)) hst₁ hrest

theorem streamTexts_sent {st st' : StreamState} {deltas : List ToolDelta}
    (htools : ∀ name, paramTypes f tools name ≠ none)
    (h : streamTexts f tools st texts = some (st', deltas)) (j : Nat) :
    sentAt st'.calls j = sentAt st.calls j ++ fragments j (deltas.flatMap (·.toolCalls)) := by
  induction texts generalizing st deltas with
  | nil =>
    cases h
    exact (List.append_nil _).symm
  | cons text texts ih =>
    obtain ⟨⟨st₁, delta⟩, hstep, h⟩ := Option.bind_eq_some_iff.1 h
    obtain ⟨⟨st₂, ds⟩, hrest, h⟩ := Option.bind_eq_some_iff.1 h
    cases h
    obtain ⟨o, hstreams, hdelta⟩ := streaming_step hstep
    obtain ⟨now, rfl⟩ := Option.ne_none_iff_exists'.1 (hstreams.isSome htools)
    have hnow := (hstreams.sent rfl).2 j
    rw [Nat.zero_add] at hnow
    rw [ih hrest, hnow, List.flatMap_append, hdelta now rfl, fragments_append, List.append_assoc]

/-- Arguments come back from the wire, less the line feeds at the ends of their strings; and what a
client gets of the arguments of a call is JSON. -/
theorem toolCalls_json (f : FloatTexts F) (tools : List (Tool F)) :
    (∀ name types args ps, paramTypes f tools name = some types → '"' ∉ name →
      ¬ MESSAGE <:+: name → List.Forall₂ (Wired f types) args ps →
      (Json.Fields.keys args).Nodup →
        extractToolCalls f tools (renderCall name ps) =
          some ⟨true, [⟨name, dumps f (.dict (tightArgs args))⟩], none⟩ ∧
        IsJson (dumps f (.dict (tightArgs args))) ∧
        loads f (dumps f (.dict (tightArgs args))) = .value (.dict (tightArgs args))) ∧
    (∀ text r, ReadsFinite f tools text → extractToolCalls f tools text = some r →
      ∀ c ∈ r.toolCalls, IsJson c.arguments) ∧
    ∀ texts st deltas, (∀ text ∈ texts, ReadsFinite f tools text) →
      streamTexts f tools .init texts = some (st, deltas) →
        (∀ c ∈ st.calls, Recorded c) ∧
        ((∀ name, paramTypes f tools name ≠ none) →
          ∀ j, fragments j (deltas.flatMap (·.toolCalls)) = sentAt st.calls j) := by
  refine ⟨?_, fun text r h hr => isJson_extracted h hr, ?_⟩
  · intro name types args ps htypes hname hmessage h hkeys
    have hproper : Proper (.dict (tightArgs args)) := by
      apply proper_tightArgs hkeys
      intro a ha
      obtain ⟨p, _, hp⟩ := Fallible.exists_right_of_forall₂ h ha
      exact hp.proper
    obtain ⟨d, hd⟩ := dumps_tok f hproper
    exact ⟨extractToolCalls_renderCall htypes hname hmessage h hkeys,
      isJson_dumps f (finite_of_proper hproper), loads_tok hd⟩
  · intro texts st deltas hfinite h
    refine ⟨streamTexts_recorded hfinite (List.forall_mem_nil _) h, ?_⟩
    intro htools j
    exact (streamTexts_sent htools h j).symm

end

/-- Texts without floats. -/
def noFloats : FloatTexts Empty where
  read _ := .nan
  repr := Empty.elim
  numText := Empty.rec
  fractional := Empty.rec
  read_repr := Empty.rec

def typeSchema (declared : PyValue Empty) : PyValue Empty := .dict [("type", declared)]

def toolOf (name : String) (properties : List (String × PyValue Empty)) : Tool Empty :=
  ⟨some name, some [("properties", .dict properties)]⟩

def weather : Tool Empty :=
  toolOf "weather.get_current" [("city", typeSchema (.str "string")),
    ("days", typeSchema (.str "integer"))]

def weatherParams : List (List Char × List Char) :=
  [("city".toList, "Boston".toList), ("days".toList, "3".toList)]

def weatherArgs : List (String × PyValue Empty) := [("city", .str "Boston"), ("days", .int 3)]

theorem weather_wired : List.Forall₂ (Wired noFloats [("city", "string"), ("days", "integer")])
    weatherArgs weatherParams := by
  apply List.Forall₂.cons
  · exact ⟨rfl, .raw "Boston" rfl, .str _, ⟨by decide, not_infix_of (by decide)⟩,
      ⟨not_infix_of (by decide), not_infix_of (by decide)⟩,
      ⟨not_infix_of (by decide), not_infix_of (by decide)⟩⟩
  · apply List.Forall₂.cons _ .nil
    have hthree : Json.Tok (handlers noFloats).toHandlers 0 "3".toList (.int 3) :=
      .num (l := ⟨false, ['3'], [], []⟩) (Json.numText_toDigits false 3) rfl
    exact ⟨rfl, .json (by decide) (fun s h => by cases h) hthree, .int (by decide),
      ⟨by decide, not_infix_of (by decide)⟩,
      ⟨not_infix_of (by decide), not_infix_of (by decide)⟩,
      ⟨not_infix_of (by decide), not_infix_of (by decide)⟩⟩

theorem toolCalls_json_weather :
    extractToolCalls noFloats [weather] (renderCall "weather.get_current".toList weatherParams) =
      some ⟨true, [⟨"weather.get_current".toList,
        "\x7b\"city\": \"Boston\", \"days\": 3\x7d".toList⟩], none⟩ ∧
    IsJson "\x7b\"city\": \"Boston\", \"days\": 3\x7d".toList := by
  have h := (toolCalls_json noFloats [weather]).1 "weather.get_current".toList _ _ _ rfl
    (by decide) (not_infix_of (by decide)) weather_wired (by decide)
  have htext : dumps noFloats (.dict (tightArgs weatherArgs)) =
      "\x7b\"city\": \"Boston\", \"days\": 3\x7d".toList := by rfl
  rw [htext] at h
  exact ⟨h.1, h.2.1⟩

def shell (name : String) : Tool Empty :=
  toolOf name [("cmd", typeSchema (.str "string")), ("n", typeSchema (.str "number")),
    ("note", typeSchema (.list [.str "string", .str "null"])),
    ("a\"b", typeSchema (.str "integer"))]

/-- One call is extracted, with the arguments that were rendered. -/
def Returns (tools : List (Tool Empty)) (name : List Char) (ps : List (List Char × List Char))
    (args : List (String × PyValue Empty)) : Prop :=
  ∃ c, extractToolCalls noFloats tools (renderCall name ps) =
    some ⟨true, [⟨name, c⟩], none⟩ ∧ loads noFloats c = .value (.dict args)

theorem not_returns {tools : List (Tool Empty)} {got args : List (String × PyValue Empty)}
    (h : extractToolCalls noFloats tools (renderCall name ps) =
      some ⟨true, [⟨name, dumps noFloats (.dict got)⟩], none⟩)
    (hproper : Proper (.dict got)) (hne : got ≠ args) : ¬ Returns tools name ps args := by
  intro hr
  obtain ⟨c, hc, hloads⟩ := hr
  rw [h] at hc
  cases hc
  obtain ⟨d, hd⟩ := dumps_tok noFloats hproper
  rw [loads_tok hd] at hloads
  cases hloads
  exact hne rfl

theorem proper_one (k s : String) : Proper (.dict [(k, (.str s : PyValue Empty))]) := by
  have hkeys : (Json.Fields.keys [(k, (.str s : PyValue Empty))]).Nodup := List.nodup_singleton k
  apply Proper.dict hkeys
  intro e he
  rw [List.mem_singleton.1 he]
  exact .str s

theorem not_isJson (h : Json.readValue Json.ignoreHandlers s.length s = none) : ¬ IsJson s := by
  intro hj
  obtain ⟨d, hd⟩ := hj
  have hread := Json.reads_value Json.ignoreHandlers s.length [] s () [] Json.allWs_nil hd.length
    (Json.ends_of_allWs Json.allWs_nil)
  rw [List.nil_append, List.append_nil, h] at hread
  cases hread

/-- A line feed, a marker, a null under a nullable type, and a quote in a key or in a name; and a
constant that JSON does not have. -/
theorem toolCalls_change :
    ¬ Returns [shell "sh"] "sh".toList [("cmd".toList, "\nls".toList)] [("cmd", .str "\nls")] ∧
    ¬ Returns [shell "sh"] "sh".toList [("cmd".toList, "a<|message|>b".toList)]
      [("cmd", .str "a<|message|>b")] ∧
    ¬ Returns [shell "sh"] "sh".toList [("note".toList, "null".toList)] [("note", .none)] ∧
    ¬ Returns [shell "sh"] "sh".toList [("a\"b".toList, "1".toList)] [("a\"b", .int 1)] ∧
    ¬ Returns [shell "s\"h"] "s\"h".toList [("cmd".toList, "ls".toList)] [("cmd", .str "ls")] ∧
    ∃ c, extractToolCalls noFloats [shell "sh"] (renderCall "sh".toList
      [("n".toList, "NaN".toList)]) = some ⟨true, [⟨"sh".toList, c⟩], none⟩ ∧ ¬ IsJson c := by
  have hempty : Proper (.dict ([] : List (String × PyValue Empty))) :=
    .dict List.nodup_nil (List.forall_mem_nil _)
  refine ⟨?_, ?_, ?_, ?_, ?_, ?_⟩
  · apply not_returns (by decide +kernel) (proper_one "cmd" "ls")
    simp
  · apply not_returns (by decide +kernel) (proper_one "cmd" "ab")
    simp
  · apply not_returns (by decide +kernel) (proper_one "note" "null")
    intro h
    cases h
  · apply not_returns (by decide +kernel) hempty
    intro h
    cases h
  · intro h
    obtain ⟨c, hc, _⟩ := h
    have hnone : extractToolCalls noFloats [shell "s\"h"] (renderCall "s\"h".toList
        [("cmd".toList, "ls".toList)]) = some ⟨false, [], some (renderCall "s\"h".toList
        [("cmd".toList, "ls".toList)])⟩ := by decide +kernel
    rw [hnone] at hc
    cases hc
  · refine ⟨dumps noFloats (.dict [("n", .float .nan)]), by decide +kernel, ?_⟩
    exact not_isJson (by rfl)

end Atem

end LocalMind
