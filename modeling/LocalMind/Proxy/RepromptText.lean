import LocalMind.Proxy.MergeSafety
import LocalMind.Proxy.Reprompt

namespace LocalMind
set_option autoImplicit true
open Json

/-- The non-blank texts of a run's responses, oldest first. -/
def keptTexts (responses : List Value) : List String :=
  (responses.map extractAssistantText).filter fun t => !isBlank t

/-- The message of the first choice is an object or null. -/
def isWritable (response : Value) : Bool :=
  ((firstChoice response).bind fun c => c.get "message").any Value.isObjectOrNull

def endsOnContinuation (received : List Value) : Bool :=
  received.getLast?.any fun r => hasContinuation r && isWritable r

/-- A body is another one with a text as the content of its first message. -/
def Answers (base body : Value) (text : String) : Prop :=
  ∃ choice rest m, base.get "choices" = some (.array (choice :: rest)) ∧
    body = base.put "choices" (.array (choice.put "message" m :: rest)) ∧
    m.get "content" = some (.string text) ∧
    ∀ m₀, choice.get "message" = some m₀ → m₀.isObject = true →
      m = m₀.put "content" (.string text)

theorem firstChoice_eq_some {response : Value} :
    firstChoice response = some choice ↔
      ∃ rest, response.get "choices" = some (.array (choice :: rest)) := by
  rw [firstChoice]
  cases response.get "choices" with
  | none => simp
  | some c =>
    cases c with
    | array xs => cases xs <;> simp [Value.asArray]
    | _ => simp [Value.asArray]

theorem isWritable_iff {response : Value} :
    isWritable response = true ↔ ∃ choice rest m,
      response.get "choices" = some (.array (choice :: rest)) ∧ choice.get "message" = some m ∧
        m.isObjectOrNull = true := by
  rw [isWritable, Option.any_eq_true]
  constructor
  · rintro ⟨m, hm, ho⟩
    obtain ⟨choice, hc, hm⟩ := Option.bind_eq_some_iff.1 hm
    obtain ⟨rest, hr⟩ := firstChoice_eq_some.1 hc
    exact ⟨choice, rest, m, hr, hm, ho⟩
  · rintro ⟨choice, rest, m, hr, hm, ho⟩
    exact ⟨m, Option.bind_eq_some_iff.2 ⟨choice, firstChoice_eq_some.2 ⟨rest, hr⟩, hm⟩, ho⟩

theorem setAssistantText_writable (h : isWritable response = true) (text : String) :
    ∃ body, setAssistantText response text = .ok (some body) ∧ Answers response body text := by
  obtain ⟨choice, rest, m, hr, hm, ho⟩ := isWritable_iff.1 h
  obtain ⟨m', ha⟩ := Fallible.isOk_iff.1
    ((Value.indexAssign_isOk_iff m "content" (.string text)).2 ho)
  have hw : (!m.isObject && !m.isNull) = false := by
    rw [← Bool.not_or, Bool.not_eq_false', Bool.or_eq_true]
    exact Value.isObjectOrNull_iff.1 ho
  refine ⟨_, ?_, choice, rest, m', hr, rfl, (Value.indexAssign_ok ha).2.2.1, ?_⟩
  · rw [setAssistantText, hr]
    simp only [hm, hw, ha, Fallible.ok_bind]
    rfl
  · intro m₀ hm₀ hobj
    obtain rfl : m = m₀ := Option.some.inj (hm.symm.trans hm₀)
    rw [Value.indexAssign_of_isObject hobj] at ha
    cases ha
    rfl

theorem setAssistantText_refused (h : isWritable response = false) (text : String) :
    setAssistantText response text = .ok none := by
  rw [setAssistantText]
  split
  · next choice rest hr =>
    split
    · next m hm =>
      rw [if_pos]
      rw [← Bool.not_or, Bool.not_eq_true', Bool.or_eq_false_iff]
      have ho : m.isObjectOrNull = false := by
        rw [← Bool.not_eq_true] at h ⊢
        exact fun ho => h (isWritable_iff.2 ⟨choice, rest, m, hr, hm, ho⟩)
      cases m <;> first | exact ⟨rfl, rfl⟩ | cases ho
    · rfl
  · rfl

/-- A forced message replaces whatever was no object. -/
theorem forceAssistantText_answers {response choice : Value}
    (hr : response.get "choices" = some (.array (choice :: rest)))
    (hc : choice.isObject = true)
    (hm : ∀ m, choice.get "message" = some m → m.isObject = false) (text : String) :
    ∃ body, forceAssistantText response text = .ok body ∧ Answers response body text := by
  have hobj : response.isObject = true := Value.isObject_iff.2 (Value.object_of_get hr)
  refine ⟨_, ?_, choice, rest, assistantMessage text, hr, rfl, rfl, ?_⟩
  · rw [forceAssistantText, if_pos hobj, hr]
    dsimp only
    rw [Value.indexAssign_of_isObject hc]
    rfl
  · intro m hm' ho
    rw [hm m hm'] at ho
    cases ho

theorem joinTexts_eq_empty_iff (h : ∀ t ∈ ts, isBlank t = false) : joinTexts ts = "" ↔ ts = [] := by
  cases ts with
  | nil => exact ⟨fun _ => rfl, fun _ => rfl⟩
  | cons t ts =>
    have ht : t ≠ "" := by
      rintro rfl
      cases h "" List.mem_cons_self
    rw [joinTexts]
    cases ts with
    | nil => simp [ht]
    | cons u ts => simp [ht]

theorem isBlank_of_mem_keptTexts (h : t ∈ keptTexts responses) : isBlank t = false := by
  simpa using (List.mem_filter.1 h).2

/-- A response that triggers has a first choice to write into. -/
theorem shouldTrigger_choice (h : shouldTrigger response = true) :
    ∃ choice rest, response.get "choices" = some (.array (choice :: rest)) ∧
      choice.isObject = true := by
  rw [shouldTrigger] at h
  cases hc : firstChoice response with
  | none =>
    rw [hc] at h
    cases h
  | some choice =>
    rw [hc] at h
    obtain ⟨rest, hr⟩ := firstChoice_eq_some.1 hc
    simp only [Bool.and_eq_true, beq_iff_eq] at h
    obtain ⟨f, hf, -⟩ := Option.bind_eq_some_iff.1 h.1
    exact ⟨choice, rest, hr, Value.isObject_iff.2 (Value.object_of_get hf)⟩

/-- What a run returns: a body that carries every text it received, or the stopped turn itself
where there was none to carry. -/
def Answered (original : Value) (run : Run) : Prop :=
  let texts := keptTexts (original :: run.received)
  if endsOnContinuation run.received then
    ∃ r ∈ run.received.getLast?, Answers r run.body (joinTexts texts)
  else if texts = [] ∧ hasAssistantMessage original = true then run.body = original
  else Answers original run.body (joinTexts texts)

theorem finishStop_answered (ht : shouldTrigger original = true)
    (hb : ∀ t ∈ collected, isBlank t = false) :
    ∃ body, finishStop original collected = .ok body ∧
      if collected = [] ∧ hasAssistantMessage original = true then body = original
      else Answers original body (joinTexts collected) := by
  obtain ⟨choice, rest, hr, hc⟩ := shouldTrigger_choice ht
  have hmsg : hasAssistantMessage original = (choice.get "message").any Value.isObject := by
    rw [hasAssistantMessage, firstChoice_eq_some.2 ⟨rest, hr⟩]
    rfl
  have hnone : ∀ p : Value → Bool, (choice.get "message").any p = false →
      ∀ m, choice.get "message" = some m → p m = false := by
    intro p hp m hm
    rwa [hm, Option.any_some] at hp
  rw [finishStop]
  by_cases hj : joinTexts collected = ""
  · obtain rfl := (joinTexts_eq_empty_iff hb).1 hj
    rw [if_neg (fun h => h hj)]
    cases hm : hasAssistantMessage original with
    | true => exact ⟨original, rfl, by simp⟩
    | false =>
      obtain ⟨body, hf, ha⟩ := forceAssistantText_answers hr hc
        (hnone _ (hmsg.symm.trans hm)) ""
      exact ⟨body, hf, by simpa [hj] using ha⟩
  · have hne : collected ≠ [] := fun h => hj ((joinTexts_eq_empty_iff hb).2 h)
    rw [if_pos hj]
    cases hw : isWritable original with
    | true =>
      obtain ⟨body, hs, ha⟩ := setAssistantText_writable hw (joinTexts collected)
      refine ⟨body, ?_, by simpa [hne] using ha⟩
      rw [hs]
      rfl
    | false =>
      have hobj : ∀ m, choice.get "message" = some m → m.isObject = false := by
        have hw' : (choice.get "message").any Value.isObjectOrNull = false := by
          rw [isWritable, firstChoice_eq_some.2 ⟨rest, hr⟩] at hw
          exact hw
        intro m hm
        have := hnone _ hw' m hm
        cases m <;> first | rfl | cases this
      obtain ⟨body, hf, ha⟩ := forceAssistantText_answers hr hc hobj (joinTexts collected)
      refine ⟨body, ?_, by simpa [hne] using ha⟩
      rw [setAssistantText_refused hw]
      exact hf

/-- A run on its way has kept every text, and has met no continuation. -/
structure Going (original : Value) (p : Progress) : Prop where
  collected : p.collected = keptTexts (original :: p.received)
  stopped : ∀ r ∈ p.received.getLast?, hasContinuation r = false

theorem endsOnContinuation_of_stopped
    (h : ∀ r ∈ received.getLast?, (hasContinuation r && isWritable r) = false) :
    endsOnContinuation received = false := by
  rw [endsOnContinuation]
  cases hr : received.getLast? with
  | none => rfl
  | some r => exact h r hr

theorem finish_answered (ht : shouldTrigger original = true) {p : Progress}
    (hc : p.collected = keptTexts (original :: p.received))
    (he : endsOnContinuation p.received = false) :
    ∃ run, p.finish original = .ok run ∧ run.sent = p.sent ∧ Answered original run := by
  have hb : ∀ t ∈ p.collected, isBlank t = false := by
    rw [hc]
    exact fun t => isBlank_of_mem_keptTexts
  obtain ⟨body, hf, ha⟩ := finishStop_answered ht hb
  refine ⟨⟨body, p.sent, p.received⟩, ?_, rfl, ?_⟩
  · rw [Progress.finish, hf]
    rfl
  · rw [Answered, he, ← hc]
    exact ha

theorem keptTexts_concat (responses : List Value) (r : Value) :
    keptTexts (responses ++ [r]) = pushText (keptTexts responses) (extractAssistantText r) := by
  rw [keptTexts, List.map_append, List.filter_append, pushText]
  cases h : isBlank (extractAssistantText r) with
  | true => simp [h, keptTexts]
  | false => simp [h, keptTexts]

theorem Going.receive_collected {p : Progress} (h : Going original p) (req newResp : Value) :
    (p.receive req newResp).collected =
      keptTexts (original :: (p.receive req newResp).received) := by
  change pushText p.collected _ = keptTexts ((original :: p.received) ++ [newResp])
  rw [h.collected, keptTexts_concat]

theorem buildFollowUp_ok {request : Value} (h : request.isObject = true) (prompt : String)
    (stopped : Value) (backend : BackendNode) :
    ∃ req, buildFollowUp prompt request stopped backend = .ok req := by
  have hassign : ∀ {v : Value} key x, v.isObject = true →
      ∃ w, assignSome v key x = .ok w ∧ w.isObject = true := by
    intro v key x hv
    cases x with
    | none => exact ⟨v, rfl, hv⟩
    | some x =>
      have ha := Value.indexAssign_of_isObject hv key x
      exact ⟨_, ha, (Value.indexAssign_ok ha).2.1⟩
  have hs := Value.indexAssign_of_isObject h "stream" (.bool false)
  have hr : (removeKey (request.put "stream" (.bool false)) "stream_options").isObject = true := by
    obtain ⟨m, rfl⟩ := Value.isObject_iff.1 h
    rfl
  obtain ⟨w, hw, ow⟩ := hassign "model" (backend.model.map .string) hr
  obtain ⟨x, hx, -⟩ := hassign "temperature" (backend.temperature.map valueOfF64) ow
  rw [buildFollowUp, hs, Fallible.ok_bind, hw, Fallible.ok_bind, hx, Fallible.ok_bind]
  split
  · exact ⟨_, rfl⟩
  · exact ⟨_, rfl⟩

/-- What a round leaves: an answered run, or one that goes on with one more follow-up sent. -/
def RoundLeaves (original : Value) (p : Progress) : Run ⊕ Progress → Prop
  | .inl run => run.sent.length ≤ p.sent.length + 1 ∧ Answered original run
  | .inr q => q.sent.length = p.sent.length + 1 ∧ Going original q

theorem finish_leaves (ht : shouldTrigger original = true) {p q : Progress}
    (hc : q.collected = keptTexts (original :: q.received))
    (he : endsOnContinuation q.received = false) (hs : q.sent.length ≤ p.sent.length + 1) :
    ∃ r, (q.finish original).map .inl = .ok r ∧ RoundLeaves original p r := by
  obtain ⟨run, hf, hsent, ha⟩ := finish_answered ht hc he
  rw [hf]
  exact ⟨.inl run, rfl, by rwa [hsent], ha⟩

theorem receiveRound_leaves (ht : shouldTrigger original = true) {p : Progress}
    (h : Going original p) (engine : RepromptEngine) (req newResp : Value) :
    ∃ r, receiveRound engine original p req newResp = .ok r ∧ RoundLeaves original p r := by
  have hc := h.receive_collected req newResp
  have hlen : (p.receive req newResp).sent.length = p.sent.length + 1 := by
    simp [Progress.receive]
  have hlast : (p.receive req newResp).received.getLast? = some newResp := by
    simp [Progress.receive]
  have hend : endsOnContinuation (p.receive req newResp).received =
      (hasContinuation newResp && isWritable newResp) := by
    rw [endsOnContinuation, hlast]
    rfl
  rw [receiveRound]
  cases hcont : hasContinuation newResp with
  | true =>
    rw [if_pos rfl]
    rw [hcont, Bool.true_and] at hend
    cases hw : isWritable newResp with
    | true =>
      obtain ⟨body, hs, ha⟩ := setAssistantText_writable hw
        (joinTexts (p.receive req newResp).collected)
      rw [hs]
      refine ⟨_, rfl, Nat.le_of_eq hlen, ?_⟩
      rw [Answered, hend, hw, ← hc]
      exact ⟨newResp, hlast, ha⟩
    | false =>
      rw [setAssistantText_refused hw]
      exact finish_leaves ht hc (hend.trans hw) (Nat.le_of_eq hlen)
  | false =>
    rw [if_neg (by decide)]
    rw [hcont, Bool.false_and] at hend
    split
    · exact finish_leaves ht hc hend (Nat.le_of_eq hlen)
    · refine ⟨_, rfl, hlen, hc, ?_⟩
      rintro r hr
      rw [hlast, Option.mem_some_iff] at hr
      rw [← hr, hcont]

section
variable (engine : RepromptEngine) (prompt : String) (backend : BackendNode) (rounds : Rounds)

theorem repromptRound_leaves (ht : shouldTrigger original = true)
    (hr : request.isObject = true) (attempt : Nat) {p : Progress} (h : Going original p) :
    ∃ r, repromptRound engine prompt backend rounds request original attempt p = .ok r ∧
      RoundLeaves original p r := by
  have hstop := endsOnContinuation_of_stopped fun r hm => by
    rw [h.stopped r hm, Bool.false_and]
  rw [repromptRound]
  split
  · exact finish_leaves ht h.collected hstop (Nat.le_succ _)
  · obtain ⟨req, hreq⟩ := buildFollowUp_ok hr prompt p.current backend
    rw [hreq, Fallible.ok_bind]
    cases req with
    | none => exact finish_leaves ht h.collected hstop (Nat.le_succ _)
    | some req =>
      have hlose : (p.lose req).sent.length ≤ p.sent.length + 1 := by simp [Progress.lose]
      dsimp only
      cases rounds.send attempt req with
      | response newResp => exact receiveRound_leaves ht h engine req newResp
      | failed => exact finish_leaves (q := p.lose req) ht h.collected hstop hlose
      | timedOut => exact finish_leaves (q := p.lose req) ht h.collected hstop hlose

/-- Every exit of the loop keeps the texts, and no exit sends more than the retries left. -/
theorem repromptLoop_answered (ht : shouldTrigger original = true)
    (hr : request.isObject = true) (n attempt : Nat) {p : Progress} (h : Going original p) :
    ∃ run, repromptLoop engine prompt backend rounds request original n attempt p = .ok run ∧
      run.sent.length ≤ p.sent.length + n ∧ Answered original run := by
  induction n generalizing attempt p with
  | zero =>
    have hstop := endsOnContinuation_of_stopped fun r hm => by
      rw [h.stopped r hm, Bool.false_and]
    obtain ⟨run, hf, hs, ha⟩ := finish_answered ht h.collected hstop
    exact ⟨run, hf, by rw [hs]; omega, ha⟩
  | succ n ih =>
    obtain ⟨r, hround, hl⟩ := repromptRound_leaves engine prompt backend rounds ht hr attempt h
    rw [repromptLoop, hround, Fallible.ok_bind]
    cases r with
    | inl run => exact ⟨run, rfl, by have := hl.1; omega, hl.2⟩
    | inr q =>
      obtain ⟨run, hloop, hs, ha⟩ := ih (attempt + 1) hl.2
      exact ⟨run, hloop, by have := hl.1; omega, ha⟩

/-- A triggered run answers with every text it received, after at most `maxRetries` follow-ups. -/
theorem maybeReprompt_keeps_text (ht : shouldTrigger original = true)
    (hs : (engine.skipReadOnlyRequests && requestIsReadOnly request) = false)
    (hr : request.get "messages" = some (.array (m :: messages))) :
    ∃ run, maybeReprompt engine prompt backend rounds original request = .ok run ∧
      run.sent.length ≤ engine.maxRetries ∧ Answered original run := by
  have hgo : Going original ⟨original, pushText [] (extractAssistantText original), [], []⟩ :=
    ⟨(keptTexts_concat [] original).symm, nofun⟩
  obtain ⟨run, hrun, hlen, ha⟩ := repromptLoop_answered engine prompt backend rounds ht
    (Value.isObject_iff.2 (Value.object_of_get hr)) engine.maxRetries 0 hgo
  refine ⟨run, ?_, by simpa using hlen, ha⟩
  rw [maybeReprompt, ht, hs]
  exact hrun

end

def stoppedBody (content : Value) : Value :=
  .object [("choices", .array [.object [("finish_reason", .string "stop"),
    ("message", .object [("content", content)])]])]

def chatRequest : Value :=
  .object [("messages", .array [.object [("role", .string "user"), ("content", .string "go")]])]

theorem maybeReprompt_keeps_text_once : ∃ run,
    maybeReprompt ⟨2, ["DONE"], true⟩ "continue" ⟨none, none⟩
        ⟨fun _ => true, fun _ _ => .response (stoppedBody (.string "DONE"))⟩
        (stoppedBody (.string "answer")) chatRequest = .ok run ∧
      run.sent.length ≤ 2 ∧ Answered (stoppedBody (.string "answer")) run :=
  maybeReprompt_keeps_text _ _ _ _ (by decide) (by decide) rfl

/-- A stopped turn without text goes back as it came, its content no string. -/
theorem maybeReprompt_leaves_null : ∃ run,
    shouldTrigger (stoppedBody .null) = true ∧
      maybeReprompt ⟨0, [], false⟩ "continue" ⟨none, none⟩ ⟨fun _ => true, fun _ _ => .failed⟩
        (stoppedBody .null) chatRequest = .ok run ∧
      keptTexts (stoppedBody .null :: run.received) = [] ∧
      ((firstChoice run.body).bind fun c => c.get "message").bind (fun m => m.get "content") =
        some .null :=
  ⟨⟨stoppedBody .null, [], []⟩, by decide, by rfl, by decide, by rfl⟩

end LocalMind
