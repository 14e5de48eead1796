import LocalMind.Plugins.JevQuery

namespace LocalMind.JevQuery
open Concurrent Json
set_option autoImplicit true

/-! What every call keeps to while no reply is misfiled. -/

/-- An answer with a choice string and a probabilities object for each question. -/
def Usable (questions : List String) (reply : Reply) : Prop :=
  ∃ status text body, reply = .response status (.whole text (some body)) ∧ resOk status = true ∧
    ∀ key ∈ questions, ∃ answers m choice probabilities,
      body.get "answers" = some answers ∧ index answers key = some (.object m) ∧
      Fields.get m "choice" = some (.string choice) ∧
      Fields.get m "probabilities" = some probabilities ∧ isJsObject probabilities = true

/-- No response came, and neither the timeout nor an abort fired. -/
def Attempt.Unreachable (a : Attempt) : Prop :=
  ∃ message, a.cause = .replied (.failed message) false false

def Attempt.Cheap (a : Attempt) : Prop := a.cause = .skipped ∨ a.Unreachable

/-- A request that ended in a timeout or in an answer that cannot be used. -/
def Attempt.Spent (questions : List String) (a : Attempt) : Prop :=
  ∃ reply timedOut aborted, a.cause = .replied reply timedOut aborted ∧
    (timedOut = true ∨ ∃ status body, reply = .response status body) ∧ ¬ Usable questions reply

/-- A failure other than an abort. -/
def Attempt.Failed (questions : List String) (a : Attempt) : Prop :=
  ∃ reply timedOut, a.cause = .replied reply timedOut false ∧ ¬ Usable questions reply

def Phase.result : Phase → Option Result
  | .settled last => some last
  | .ended result => some result
  | _ => none

def Phase.MovedOn : Phase → Prop
  | .waiting _ => True
  | .asking _ => True
  | _ => False

structure Lawful (call : Call) : Prop where
  tool : call.lane = .tool → ∀ a ∈ call.log, a.cooled = true → a.Unreachable
  hook : call.lane = .hook → ∀ a ∈ call.log, a.Failed call.questions → a.cooled = true
  walk : ∀ before a after, call.log = before ++ a :: after →
    after ≠ [] ∨ call.phase.MovedOn → a.Cheap
  spent : ∀ before a after, call.log = before ++ a :: after → a.Spent call.questions → after = []
  answers : ∀ result answers, call.phase.result = some result → result.answers = some answers →
    answers.map Prod.fst = call.questions ∧
      ∃ a ∈ call.log, ∃ reply timedOut aborted, a.cause = .replied reply timedOut aborted ∧
        Usable call.questions reply

/-- A response that the `catch` block takes for a connection that failed. -/
def Misfiled (questions : List String) : Reply → Prop
  | .response status (.lost _) => resOk status = false
  | .response status (.whole _ (some .null)) => resOk status = true ∧ questions ≠ []
  | _ => False

/-- The reply is not misfiled, or its call was aborted or timed out, or it is the last that a hook's
walk can come to. -/
def WellFiled (s : State) : Event → Prop
  | .reply c reply timedOut _ => ∀ call, s.calls c = some call → Misfiled call.questions reply →
      timedOut = true ∨ call.aborted = true ∨ call.lane = .hook ∧ call.rest = []
  | _ => True

theorem toChoice_eq_some (h : toChoice v = some a) :
    ∃ m, v = .object m ∧ Fields.get m "choice" = some (.string a.choice) ∧
      Fields.get m "probabilities" = some a.probabilities := by
  cases v with
  | object m =>
    rw [toChoice] at h
    split at h
    · rename_i choice probabilities hc hp
      split at h
      · cases h
        exact ⟨m, rfl, hc, hp⟩
      · cases h
    · cases h
  | _ => cases h

theorem toChoice_of_fields (hc : Fields.get m "choice" = some (.string choice))
    (hp : Fields.get m "probabilities" = some probabilities)
    (ho : isJsObject probabilities = true) :
    toChoice (.object m) = some ⟨choice, probabilities, ho⟩ := by
  rw [toChoice, hc, hp]
  exact dif_pos ho

theorem readAnswer_of_ne_null (h : body ≠ .null) (key : String) :
    readAnswer body key =
      match ((body.get "answers").bind (index · key)).bind toChoice with
      | some a => .ok a
      | none => .error (.serverAnswer (.malformed key)) := by
  cases body with
  | null => exact absurd rfl h
  | _ => rfl

theorem readAnswer_ok (h : readAnswer body key = .ok a) :
    ((body.get "answers").bind (index · key)).bind toChoice = some a := by
  by_cases hnull : body = .null
  · subst hnull
    cases h
  · rw [readAnswer_of_ne_null hnull] at h
    split at h
    · rename_i a' ha
      cases h
      exact ha
    · cases h

theorem readAnswers_ok (h : readAnswers body questions = .ok answers) :
    answers.map Prod.fst = questions ∧ ∀ key ∈ questions, ∃ a, readAnswer body key = .ok a := by
  induction questions generalizing answers with
  | nil =>
    cases h
    exact ⟨rfl, fun _ hk => absurd hk List.not_mem_nil⟩
  | cons key keys ih =>
    rw [readAnswers] at h
    obtain ⟨a, ha, h⟩ := Fallible.bind_eq_ok_iff.1 h
    obtain ⟨rest, hrest, h⟩ := Fallible.bind_eq_ok_iff.1 h
    cases h
    obtain ⟨hkeys, hall⟩ := ih hrest
    constructor
    · rw [List.map_cons, hkeys]
    · intro k hk
      obtain rfl | hk := List.mem_cons.1 hk
      · exact ⟨a, ha⟩
      · exact hall k hk

theorem readAnswers_of_forall (h : ∀ key ∈ questions, ∃ a, readAnswer body key = .ok a) :
    ∃ answers, readAnswers body questions = .ok answers := by
  induction questions with
  | nil => exact ⟨[], rfl⟩
  | cons key keys ih =>
    obtain ⟨a, ha⟩ := h key List.mem_cons_self
    obtain ⟨rest, hrest⟩ := ih fun k hk => h k (List.mem_cons_of_mem key hk)
    refine ⟨(key, a) :: rest, ?_⟩
    rw [readAnswers, ha, hrest]
    rfl

/-- Reading the answers throws an error of the answer, or the body is null. -/
theorem readAnswers_error (h : readAnswers body questions = .error e) :
    e.isServerAnswer = true ∨ body = .null ∧ questions ≠ [] := by
  induction questions with
  | nil => cases h
  | cons key keys ih =>
    by_cases hnull : body = .null
    · exact .inr ⟨hnull, List.cons_ne_nil _ _⟩
    · rw [readAnswers] at h
      have hkey := readAnswer_of_ne_null hnull key
      cases ha : ((body.get "answers").bind (index · key)).bind toChoice with
      | none =>
        rw [ha] at hkey
        dsimp only at hkey
        rw [hkey] at h
        cases h
        exact .inl rfl
      | some a =>
        rw [ha] at hkey
        dsimp only at hkey
        rw [hkey, Fallible.ok_bind] at h
        cases hrest : readAnswers body keys with
        | ok rest =>
          rw [hrest] at h
          cases h
        | error e' =>
          rw [hrest] at h
          cases h
          exact .inl ((ih hrest).resolve_right fun hr => hnull hr.1)

theorem readAnswer_isOk_iff (body : Value) (key : String) :
    (∃ a, readAnswer body key = .ok a) ↔ ∃ answers m choice probabilities,
      body.get "answers" = some answers ∧ index answers key = some (.object m) ∧
      Fields.get m "choice" = some (.string choice) ∧
      Fields.get m "probabilities" = some probabilities ∧ isJsObject probabilities = true := by
  constructor
  · intro ⟨a, ha⟩
    obtain ⟨v, hv, ha⟩ := Option.bind_eq_some_iff.1 (readAnswer_ok ha)
    obtain ⟨answers, hanswers, hindex⟩ := Option.bind_eq_some_iff.1 hv
    obtain ⟨m, rfl, hc, hp⟩ := toChoice_eq_some ha
    exact ⟨answers, m, a.choice, a.probabilities, hanswers, hindex, hc, hp, a.isObject⟩
  · intro ⟨answers, m, choice, probabilities, hanswers, hindex, hc, hp, ho⟩
    have hne : body ≠ .null := by
      intro h
      subst h
      cases hanswers
    rw [readAnswer_of_ne_null hne, hanswers, Option.bind_some, hindex, Option.bind_some,
      toChoice_of_fields hc hp ho]
    exact ⟨_, rfl⟩

theorem judge_isOk_iff (questions : List String) (reply : Reply) :
    (∃ answers, judge questions reply = .ok answers) ↔ Usable questions reply := by
  constructor
  · intro ⟨answers, h⟩
    rw [judge.eq_def] at h
    split at h
    · cases h
    · rename_i status body
      split at h
      · rename_i hok
        split at h
        · rename_i text v
          refine ⟨status, text, v, rfl, hok, ?_⟩
          intro key hkey
          exact (readAnswer_isOk_iff v key).1 ((readAnswers_ok h).2 key hkey)
        · cases h
      · split at h
        · cases h
        · cases h
  · intro ⟨status, text, v, hreply, hok, hkeys⟩
    subst hreply
    rw [judge, if_pos hok]
    apply readAnswers_of_forall
    intro key hkey
    exact (readAnswer_isOk_iff v key).2 (hkeys key hkey)

/-- What is thrown by a request that was answered is an error of the answer, unless misfiled. -/
theorem judge_error (h : judge questions reply = .error e) :
    e.isServerAnswer = true ∨ (∃ message, reply = .failed message) ∨ Misfiled questions reply := by
  rw [judge.eq_def] at h
  split at h
  · exact .inr (.inl ⟨_, rfl⟩)
  · rename_i status body
    split at h
    · rename_i hok
      split at h
      · rename_i text v
        obtain he | ⟨rfl, hne⟩ := readAnswers_error h
        · exact .inl he
        · exact .inr (.inr ⟨hok, hne⟩)
      · cases h
        exact .inl rfl
    · rename_i hok
      split at h
      · cases h
        exact .inl rfl
      · exact .inr (.inr (Bool.eq_false_of_not_eq_true hok))

/-- The cooldowns that a call started are the ones its lane starts. -/
structure Booked (call : Call) : Prop where
  tool : call.lane = .tool → ∀ a ∈ call.log, a.cooled = true → a.Unreachable
  hook : call.lane = .hook → ∀ a ∈ call.log, a.Failed call.questions → a.cooled = true

def AllCheap (call : Call) : Prop := ∀ a ∈ call.log, a.Cheap

/-- A result with answers has one for each question, of a reply that can be used. -/
def Answered (call : Call) (result : Result) : Prop :=
  ∀ answers, result.answers = some answers → answers.map Prod.fst = call.questions ∧
    ∃ a ∈ call.log, ∃ reply timedOut aborted, a.cause = .replied reply timedOut aborted ∧
      Usable call.questions reply

def Place (call : Call) : Phase → Prop
  | .waiting _ => AllCheap call
  | .asking _ => AllCheap call
  | .settled last => Answered call last ∧ ∃ before a, call.log = before ++ [a] ∧
      (∀ b ∈ before, b.Cheap) ∧ (last.failover = true → call.rest ≠ [] → a.Cheap)
  | .ended result => Answered call result ∧
      ∀ before a after, call.log = before ++ a :: after → after ≠ [] → a.Cheap

structure Kept (call : Call) : Prop where
  booked : Booked call
  place : Place call call.phase

theorem mem_of_split_concat {l before after : List α} (h : l ++ [x] = before ++ a :: after)
    (hne : after ≠ []) : a ∈ l := by
  obtain ⟨init, y, rfl⟩ := (List.eq_nil_or_concat after).resolve_left hne
  rw [List.concat_eq_append, ← List.cons_append, ← List.append_assoc] at h
  have hl := (List.append_inj' h rfl).1
  rw [hl]
  exact List.mem_append_right _ List.mem_cons_self

theorem Kept.leave (h : Booked call) (hcheap : AllCheap call)
    (htool : call.lane = .tool → cooled = true → Attempt.Unreachable ⟨url, cause, cooled⟩)
    (hhook : call.lane = .hook → Attempt.Failed call.questions ⟨url, cause, cooled⟩ →
      cooled = true)
    (hover : last.failover = true → call.rest ≠ [] → Attempt.Cheap ⟨url, cause, cooled⟩)
    (hanswers : ∀ answers, last.answers = some answers → answers.map Prod.fst = call.questions ∧
      ∃ reply timedOut aborted, cause = .replied reply timedOut aborted ∧
        Usable call.questions reply) : Kept (call.leave url cause cooled last) := by
  constructor
  · constructor
    · intro hlane a hmem
      obtain hmem | hmem := List.mem_append.1 hmem
      · exact h.tool hlane a hmem
      · rw [List.mem_singleton.1 hmem]
        exact htool hlane
    · intro hlane a hmem
      obtain hmem | hmem := List.mem_append.1 hmem
      · exact h.hook hlane a hmem
      · rw [List.mem_singleton.1 hmem]
        exact hhook hlane
  · constructor
    · intro answers ha
      obtain ⟨hkeys, reply, timedOut, aborted, hcause, husable⟩ := hanswers answers ha
      exact ⟨hkeys, _, List.mem_append_right _ List.mem_cons_self, reply, timedOut, aborted, hcause,
        husable⟩
    · exact ⟨call.log, _, rfl, hcheap, hover⟩

theorem Kept.send (h : Booked call) (hcheap : AllCheap call) (disabled : Bool)
    (downUntil : String → Nat) (url : String) (now : Nat) :
    Kept (call.send disabled downUntil url now) := by
  rw [Call.send]
  split
  · apply Kept.leave h hcheap
    · intro _ hc
      cases hc
    · intro _ hf
      obtain ⟨_, _, hcause, _⟩ := hf
      cases hcause
    · intro ho
      cases ho
    · intro answers ha
      cases ha
  · split
    · apply Kept.leave h hcheap
      · intro _ hc
        cases hc
      · intro _ hf
        obtain ⟨_, _, hcause, _⟩ := hf
        cases hcause
      · intro _ _
        exact .inl rfl
      · intro answers ha
        cases ha
    · exact ⟨⟨h.tool, h.hook⟩, hcheap⟩

theorem Kept.visit (h : Booked call) (hcheap : AllCheap call) (disabled : Bool)
    (downUntil : String → Nat) (url : String) (now : Nat) :
    Kept (call.visit disabled downUntil url now) := by
  rw [Call.visit]
  split
  · exact ⟨⟨h.tool, h.hook⟩, hcheap⟩
  · exact Kept.send h hcheap disabled downUntil url now

/-- A request counted as unreachable was, but for a hook's last one. -/
theorem unreachable_of_thrown {call : Call} (hjudge : judge call.questions reply = .error e)
    (hfiled : Misfiled call.questions reply → timedOut = true ∨ call.aborted = true ∨
      call.lane = .hook ∧ call.rest = [])
    (haborted : call.aborted = false) (hun : (!timedOut && !e.isServerAnswer) = true) :
    (∃ message, Cause.replied reply timedOut call.aborted = .replied (.failed message) false false) ∨
      call.lane = .hook ∧ call.rest = [] := by
  rw [Bool.and_eq_true, Bool.not_eq_true', Bool.not_eq_true'] at hun
  obtain he | ⟨message, rfl⟩ | hmis := judge_error hjudge
  · rw [hun.2] at he
    cases he
  · left
    refine ⟨message, ?_⟩
    rw [hun.1, haborted]
  · right
    obtain ht | ha | hlast := hfiled hmis
    · rw [hun.1] at ht
      cases ht
    · rw [haborted] at ha
      cases ha
    · exact hlast

theorem Kept.fail (h : Booked call) (hcheap : AllCheap call)
    (hjudge : judge call.questions reply = .error e)
    (hfiled : Misfiled call.questions reply → timedOut = true ∨ call.aborted = true ∨
      call.lane = .hook ∧ call.rest = []) (url : String) :
    Kept (call.fail url reply timedOut e).1 := by
  rw [Call.fail]
  by_cases haborted : call.aborted = true
  · rw [if_pos haborted]
    apply Kept.leave h hcheap
    · intro _ hc
      cases hc
    · intro _ hf
      obtain ⟨_, _, hcause, _⟩ := hf
      rw [haborted] at hcause
      cases hcause
    · intro ho
      cases ho
    · intro answers ha
      cases ha
  · rw [if_neg haborted]
    have hfalse := Bool.eq_false_of_not_eq_true haborted
    have hun := unreachable_of_thrown hjudge hfiled hfalse
    apply Kept.leave h hcheap
    · intro hlane hc
      rw [hlane] at hc hun
      exact (hun hc).resolve_right fun hlast => by cases hlast.1
    · intro hlane _
      rw [hlane]
      rfl
    · intro ho hne
      exact .inr ((hun ho).resolve_right fun hlast => hne hlast.2)
    · intro answers ha
      cases ha

theorem Kept.receive (h : Booked call) (hcheap : AllCheap call)
    (hfiled : Misfiled call.questions reply → timedOut = true ∨ call.aborted = true ∨
      call.lane = .hook ∧ call.rest = []) (url : String) :
    Kept (call.receive url reply timedOut).1 := by
  rw [Call.receive]
  cases hjudge : judge call.questions reply with
  | error e => exact Kept.fail h hcheap hjudge hfiled url
  | ok answers =>
    have husable := (judge_isOk_iff call.questions reply).1 ⟨answers, hjudge⟩
    apply Kept.leave h hcheap
    · intro _ hc
      cases hc
    · intro _ hf
      obtain ⟨reply', _, hcause, hnot⟩ := hf
      rw [(Cause.replied.inj hcause).1] at husable
      exact absurd husable hnot
    · intro ho
      cases ho
    · intro answers' ha
      cases ha
      obtain ⟨status, text, v, rfl, hok, _⟩ := husable
      rw [judge, if_pos hok] at hjudge
      exact ⟨(readAnswers_ok hjudge).1, _, _, _, rfl, (judge_isOk_iff _ _).1 ⟨answers, by
        rw [judge, if_pos hok]
        exact hjudge⟩⟩

theorem Kept.resume (h : Kept call) (hphase : call.phase = .settled last) (disabled : Bool)
    (downUntil : String → Nat) (now : Nat) : Kept (call.resume disabled downUntil last now) := by
  have hplace := h.place
  rw [hphase] at hplace
  obtain ⟨hanswered, before, a, hlog, hbefore, hover⟩ := hplace
  have hended : Kept { call with phase := .ended last } := by
    refine ⟨⟨h.booked.tool, h.booked.hook⟩, hanswered, ?_⟩
    intro before' b after hsplit hne
    change call.log = before' ++ b :: after at hsplit
    rw [hlog] at hsplit
    exact hbefore b (mem_of_split_concat hsplit hne)
  rw [Call.resume]
  split
  · exact hended
  · rename_i hgo
    simp only [Bool.or_eq_true, Bool.not_eq_true', not_or] at hgo
    split
    · exact hended
    · rename_i url rest hrest
      have hbooked : Booked { call with rest } := ⟨h.booked.tool, h.booked.hook⟩
      apply Kept.visit hbooked
      intro b hb
      change b ∈ call.log at hb
      rw [hlog] at hb
      obtain hb | hb := List.mem_append.1 hb
      · exact hbefore b hb
      · rw [List.mem_singleton.1 hb]
        apply hover (Bool.eq_true_of_not_eq_false hgo.1.2)
        rw [hrest]
        exact List.cons_ne_nil url rest

theorem Kept.allCheap (h : Kept call) (hmoved : call.phase.MovedOn) : AllCheap call := by
  have hplace := h.place
  cases hphase : call.phase with
  | waiting url =>
    rw [hphase] at hplace
    exact hplace
  | asking url =>
    rw [hphase] at hplace
    exact hplace
  | settled last =>
    rw [hphase] at hmoved
    exact absurd hmoved id
  | ended result =>
    rw [hphase] at hmoved
    exact absurd hmoved id

theorem Kept.start (disabled : Bool) (s : State) (lane : Lane) (questions : List String)
    (timeoutMs : Nat) (order : List String) (now : Nat) :
    Kept (s.start disabled lane questions timeoutMs order now) := by
  cases order with
  | nil =>
    refine ⟨⟨?_, ?_⟩, ?_, ?_⟩
    · intro _ a ha
      cases ha
    · intro _ a ha
      cases ha
    · intro answers ha
      cases ha
    · intro before a after h
      cases before with
      | nil => cases h
      | cons b before => cases h
  | cons url rest =>
    apply Kept.visit
    · constructor
      · intro _ a ha
        cases ha
      · intro _ a ha
        cases ha
    · intro a ha
      cases ha

namespace State

theorem step_cases (h : step disabled s e = some t) :
    (∃ c lane questions timeoutMs order now, e = .query c lane questions timeoutMs order now ∧
      s.calls c = none ∧ t = s.put c (s.start disabled lane questions timeoutMs order now)) ∨
      ∃ call, s.calls (Event.owner e) = some call ∧
        s.advance disabled (Event.owner e) call e = some t := by
  rw [step.eq_def] at h
  split at h
  · rename_i c lane questions timeoutMs order now hc
    cases h
    exact .inl ⟨_, _, _, _, _, _, rfl, hc, rfl⟩
  · rename_i call hc
    exact .inr ⟨call, hc, h⟩
  · cases h

/-- One more segment of a call that keeps to the rules. -/
theorem advance_kept (hkept : Kept call) (hcall : s.calls (Event.owner e) = some call)
    (hfiled : WellFiled s e) (h : s.advance disabled (Event.owner e) call e = some t) :
    ∃ call', t.calls = Function.update s.calls (Event.owner e) (some call') ∧ Kept call' := by
  cases e with
  | query c lane questions timeoutMs order now => cases h
  | turn c now =>
    rw [advance] at h
    split at h
    · rename_i url hphase
      cases h
      refine ⟨_, rfl, Kept.send hkept.booked (hkept.allCheap ?_) _ _ _ _⟩
      rw [hphase]
      exact trivial
    · cases h
  | turnAborted c =>
    rw [advance] at h
    split at h
    · rename_i url hphase
      split at h
      · cases h
        refine ⟨_, rfl, Kept.leave hkept.booked (hkept.allCheap ?_) ?_ ?_ ?_ ?_⟩
        · rw [hphase]
          exact trivial
        · intro _ hc
          cases hc
        · intro _ hf
          obtain ⟨_, _, hcause, _⟩ := hf
          cases hcause
        · intro ho
          cases ho
        · intro answers ha
          cases ha
      · cases h
    · cases h
  | reply c reply timedOut now =>
    rw [advance] at h
    split at h
    · rename_i url hphase
      cases h
      refine ⟨(call.receive url reply timedOut).1, ?_, ?_⟩
      · have hcalls : ∀ cools : Bool, (if cools then s.cool url now else s).calls = s.calls := by
          intro cools
          cases cools with
          | true => rfl
          | false => rfl
        rw [← hcalls (call.receive url reply timedOut).2]
        rfl
      · apply Kept.receive hkept.booked
        · apply hkept.allCheap
          rw [hphase]
          exact trivial
        · exact hfiled call hcall
    · cases h
  | resume c now =>
    rw [advance] at h
    split at h
    · rename_i last hphase
      cases h
      exact ⟨_, rfl, hkept.resume hphase _ _ _⟩
    · cases h
  | abort c =>
    cases h
    refine ⟨_, rfl, ⟨hkept.booked.tool, hkept.booked.hook⟩, ?_⟩
    have hplace := hkept.place
    cases hphase : call.phase with
    | waiting url => rw [hphase] at hplace; exact hplace
    | asking url => rw [hphase] at hplace; exact hplace
    | settled last => rw [hphase] at hplace; exact hplace
    | ended result => rw [hphase] at hplace; exact hplace

theorem step_kept (hkept : ∀ c call, s.calls c = some call → Kept call)
    (hfiled : WellFiled s e) (h : step disabled s e = some t) :
    ∀ c call, t.calls c = some call → Kept call := by
  have hupdate : ∀ c call', Kept call' → ∀ d call,
      Function.update s.calls c (some call') d = some call → Kept call := by
    intro c call' hk d call hd
    rw [Function.update_apply] at hd
    split at hd
    · cases hd
      exact hk
    · exact hkept d call hd
  obtain ⟨c, lane, questions, timeoutMs, order, now, rfl, _, rfl⟩ | ⟨call, hcall, hadv⟩ :=
    step_cases h
  · exact hupdate c _ (Kept.start disabled s lane questions timeoutMs order now)
  · obtain ⟨call', ht, hk⟩ := advance_kept (hkept _ call hcall) hcall hfiled hadv
    rw [ht]
    exact hupdate _ call' hk

end State

theorem Attempt.Cheap.not_spent (h : Attempt.Cheap a) : ¬ a.Spent questions := by
  intro ⟨reply, timedOut, aborted, hcause, hspent, _⟩
  obtain hskip | ⟨message, hun⟩ := h
  · rw [hskip] at hcause
    cases hcause
  · rw [hun] at hcause
    cases hcause
    obtain ht | ⟨status, body, hr⟩ := hspent
    · cases ht
    · cases hr

theorem Kept.walk (h : Kept call) (hsplit : call.log = before ++ a :: after)
    (hmoved : after ≠ [] ∨ call.phase.MovedOn) : a.Cheap := by
  have hmem : a ∈ call.log := by
    rw [hsplit]
    exact List.mem_append_right _ List.mem_cons_self
  have hplace := h.place
  cases hphase : call.phase with
  | waiting url =>
    rw [hphase] at hplace
    exact hplace a hmem
  | asking url =>
    rw [hphase] at hplace
    exact hplace a hmem
  | settled last =>
    rw [hphase] at hplace hmoved
    obtain ⟨_, init, x, hlog, hinit, _⟩ := hplace
    rw [hsplit] at hlog
    exact hinit a (mem_of_split_concat hlog.symm (hmoved.resolve_right id))
  | ended result =>
    rw [hphase] at hplace hmoved
    exact hplace.2 before a after hsplit (hmoved.resolve_right id)

theorem Kept.lawful (h : Kept call) : Lawful call := by
  constructor
  · exact h.booked.tool
  · exact h.booked.hook
  · intro before a after hsplit hmoved
    exact h.walk hsplit hmoved
  · intro before a after hsplit hspent
    by_contra hne
    exact (h.walk hsplit (.inl hne)).not_spent hspent
  · intro result answers hresult ha
    have hplace := h.place
    cases hphase : call.phase with
    | waiting url =>
      rw [hphase] at hresult
      cases hresult
    | asking url =>
      rw [hphase] at hresult
      cases hresult
    | settled last =>
      rw [hphase] at hresult hplace
      cases hresult
      exact hplace.1 answers ha
    | ended last =>
      rw [hphase] at hresult hplace
      cases hresult
      exact hplace.1 answers ha

/-- How many more segments a call can have. -/
def Call.left (call : Call) : Nat :=
  match call.phase with
  | .waiting _ => 3 * call.rest.length + 3
  | .asking _ => 3 * call.rest.length + 2
  | .settled _ => 3 * call.rest.length + 1
  | .ended _ => 0

def Event.isAbort : Event → Bool
  | abort _ => true
  | _ => false

/-- An event that is a segment of a call. -/
def State.Event.moves (c : Nat) (e : Event) : Bool := !e.isAbort && State.Event.owner e == c

theorem send_left (disabled : Bool) (downUntil : String → Nat) (call : Call) (url : String)
    (now : Nat) : (call.send disabled downUntil url now).left ≤ 3 * call.rest.length + 2 := by
  rw [Call.send]
  split
  · exact Nat.le_succ _
  · split
    · exact Nat.le_succ _
    · exact Nat.le_refl _

theorem visit_left (disabled : Bool) (downUntil : String → Nat) (call : Call) (url : String)
    (now : Nat) : (call.visit disabled downUntil url now).left ≤ 3 * call.rest.length + 3 := by
  rw [Call.visit]
  split
  · exact Nat.le_refl _
  · exact (send_left disabled downUntil call url now).trans (Nat.le_succ _)

theorem receive_left (call : Call) (url : String) (reply : Reply) (timedOut : Bool) :
    (call.receive url reply timedOut).1.left = 3 * call.rest.length + 1 := by
  rw [Call.receive]
  split
  · rfl
  · rw [Call.fail]
    split
    · rfl
    · rfl

theorem resume_left (disabled : Bool) (downUntil : String → Nat) (call : Call) (last : Result)
    (now : Nat) : (call.resume disabled downUntil last now).left ≤ 3 * call.rest.length := by
  rw [Call.resume]
  split
  · exact Nat.zero_le _
  · split
    · exact Nat.zero_le _
    · rename_i url rest hrest
      apply (visit_left disabled downUntil { call with rest } url now).trans
      rw [hrest, List.length_cons]
      exact Nat.le_refl _

namespace State

theorem moves_owner (h : e.isAbort = false) : Event.moves (Event.owner e) e = true := by
  cases e with
  | abort c => cases h
  | _ => exact beq_self_eq_true _

theorem advance_left {s t : State} {call : Call} {e : Event}
    (hcall : s.calls (Event.owner e) = some call)
    (h : s.advance disabled (Event.owner e) call e = some t) :
    ∃ call', t.calls = Function.update s.calls (Event.owner e) (some call') ∧
      call'.left + (if Event.moves (Event.owner e) e then 1 else 0) ≤ call.left := by
  cases e with
  | query c lane questions timeoutMs order now => cases h
  | turn c now =>
    rw [advance] at h
    split at h
    · rename_i url hphase
      cases h
      refine ⟨_, rfl, ?_⟩
      have hleft := send_left disabled s.downUntil call url now
      rw [if_pos (moves_owner (e := .turn c now) rfl), Call.left.eq_def call, hphase]
      dsimp only
      omega
    · cases h
  | turnAborted c =>
    rw [advance] at h
    split at h
    · rename_i url hphase
      split at h
      · cases h
        refine ⟨_, rfl, ?_⟩
        rw [if_pos (moves_owner (e := .turnAborted c) rfl), Call.left.eq_def call, hphase]
        exact Nat.le_succ _
      · cases h
    · cases h
  | reply c reply timedOut now =>
    rw [advance] at h
    split at h
    · rename_i url hphase
      cases h
      refine ⟨(call.receive url reply timedOut).1, ?_, ?_⟩
      · have hcalls : ∀ cools : Bool, (if cools then s.cool url now else s).calls = s.calls := by
          intro cools
          cases cools with
          | true => rfl
          | false => rfl
        rw [← hcalls (call.receive url reply timedOut).2]
        rfl
      · rw [if_pos (moves_owner (e := .reply c reply timedOut now) rfl), receive_left, Call.left.eq_def call, hphase]
    · cases h
  | resume c now =>
    rw [advance] at h
    split at h
    · rename_i last hphase
      cases h
      refine ⟨_, rfl, ?_⟩
      have hleft := resume_left disabled s.downUntil call last now
      rw [if_pos (moves_owner (e := .resume c now) rfl), Call.left.eq_def call, hphase]
      dsimp only
      omega
    · cases h
  | abort c =>
    cases h
    exact ⟨_, rfl, Nat.le_refl _⟩

theorem moves_of_ne (h : Event.owner e ≠ c) : Event.moves c e = false := by
  cases e with
  | abort c => rfl
  | _ => exact beq_false_of_ne h

theorem step_left (hcall : s.calls c = some call) (h : step disabled s e = some t) :
    ∃ call', t.calls c = some call' ∧
      call'.left + (if Event.moves c e then 1 else 0) ≤ call.left := by
  obtain ⟨d, lane, questions, timeoutMs, order, now, rfl, hnone, rfl⟩ | ⟨call', hcall', hadv⟩ :=
    step_cases h
  · have hne : c ≠ d := by
      intro heq
      subst heq
      rw [hcall] at hnone
      cases hnone
    refine ⟨call, ?_, ?_⟩
    · rw [put]
      dsimp only
      rw [Function.update_of_ne hne]
      exact hcall
    · rw [moves_of_ne (Ne.symm hne)]
      exact Nat.le_refl _
  · obtain ⟨call'', ht, hleft⟩ := advance_left hcall' hadv
    rw [ht]
    by_cases hc : c = Event.owner e
    · subst hc
      rw [hcall] at hcall'
      cases hcall'
      exact ⟨call'', Function.update_self _ _ _, hleft⟩
    · refine ⟨call, ?_, ?_⟩
      · rw [Function.update_of_ne hc]
        exact hcall
      · rw [moves_of_ne (Ne.symm hc)]
        exact Nat.le_refl _

theorem run_left (hcall : s.calls c = some call) (h : run (step disabled) s es = some t) :
    ∃ call', t.calls c = some call' ∧
      call'.left + (es.filter (Event.moves c)).length ≤ call.left := by
  induction es generalizing s call with
  | nil =>
    cases h
    exact ⟨call, hcall, Nat.le_refl _⟩
  | cons e es ih =>
    obtain ⟨u, hu, h⟩ := Option.bind_eq_some_iff.1 h
    obtain ⟨call₁, hcall₁, hleft₁⟩ := step_left hcall hu
    obtain ⟨call₂, hcall₂, hleft₂⟩ := ih hcall₁ h
    refine ⟨call₂, hcall₂, ?_⟩
    rw [List.filter_cons]
    cases hm : Event.moves c e with
    | true =>
      rw [hm] at hleft₁
      rw [if_pos rfl, List.length_cons]
      rw [if_pos rfl] at hleft₁
      omega
    | false =>
      rw [hm] at hleft₁
      rw [if_neg Bool.false_ne_true]
      rw [if_neg Bool.false_ne_true] at hleft₁
      omega

/-- A call has a next segment until it has ended, and no more than so many of them. -/
structure Resolves (disabled : Bool) (t : State) (c : Nat) (call : Call) : Prop where
  bounded : ∀ fs u, run (step disabled) t fs = some u → ∃ call', u.calls c = some call' ∧
    call'.left + (fs.filter (Event.moves c)).length ≤ call.left
  goes_on : (∃ result, call.phase = .ended result) ∨
    0 < call.left ∧ ∃ e, Event.moves c e = true ∧ (step disabled t e).isSome = true

theorem resolves (disabled : Bool) (hcall : t.calls c = some call) : Resolves disabled t c call := by
  constructor
  · intro fs u h
    exact run_left hcall h
  · cases hphase : call.phase with
    | waiting url =>
      right
      refine ⟨by rw [Call.left, hphase]; exact Nat.succ_pos _, .turn c 0, beq_self_eq_true c, ?_⟩
      rw [step.eq_def, show t.calls (Event.owner (.turn c 0)) = some call from hcall]
      dsimp only
      rw [advance, hphase]
      rfl
    | asking url =>
      right
      refine ⟨by rw [Call.left, hphase]; exact Nat.succ_pos _, .reply c (.failed "") false 0,
        beq_self_eq_true c, ?_⟩
      rw [step.eq_def, show t.calls (Event.owner (.reply c (.failed "") false 0)) = some call from hcall]
      dsimp only
      rw [advance, hphase]
      rfl
    | settled last =>
      right
      refine ⟨by rw [Call.left, hphase]; exact Nat.succ_pos _, .resume c 0, beq_self_eq_true c, ?_⟩
      rw [step.eq_def, show t.calls (Event.owner (.resume c 0)) = some call from hcall]
      dsimp only
      rw [advance, hphase]
      rfl
    | ended result => exact .inl ⟨result, rfl⟩

end State

/-- A segment that starts no cooldown. -/
def Call.Warm (call call' : Call) : Prop := ∀ a, call'.log = call.log ++ [a] → a.cooled = false

theorem Call.Warm.of_log (h : Call.log call' = Call.log call) : Warm call call' := by
  intro a ha
  rw [h] at ha
  exact absurd (List.self_eq_append_right.1 ha) (List.cons_ne_nil a [])

theorem Call.Warm.leave (call : Call) (url : String) (cause : Cause) (last : Result) :
    Warm call (call.leave url cause false last) := by
  intro a ha
  cases List.append_cancel_left ha
  rfl

theorem Call.Warm.send (disabled : Bool) (downUntil : String → Nat) (call : Call) (url : String)
    (now : Nat) : Warm call (call.send disabled downUntil url now) := by
  rw [Call.send]
  split
  · exact Warm.leave call url _ _
  · split
    · exact Warm.leave call url _ _
    · exact Warm.of_log rfl

theorem Call.Warm.visit (disabled : Bool) (downUntil : String → Nat) (call : Call) (url : String)
    (now : Nat) : Warm call (call.visit disabled downUntil url now) := by
  rw [Call.visit]
  split
  · exact Warm.of_log rfl
  · exact Warm.send disabled downUntil call url now

theorem Call.Warm.resume (disabled : Bool) (downUntil : String → Nat) (call : Call) (last : Result)
    (now : Nat) : Warm call (call.resume disabled downUntil last now) := by
  rw [Call.resume]
  split
  · exact Warm.of_log rfl
  · split
    · exact Warm.of_log rfl
    · exact Warm.visit disabled downUntil { call with rest := _ } _ now

theorem receive_log (call : Call) (url : String) (reply : Reply) (timedOut : Bool) :
    ∃ cause, (call.receive url reply timedOut).1.log =
      call.log ++ [⟨url, cause, (call.receive url reply timedOut).2⟩] := by
  rw [Call.receive]
  split
  · exact ⟨_, rfl⟩
  · rw [Call.fail]
    split
    · exact ⟨_, rfl⟩
    · exact ⟨_, rfl⟩

namespace State

/-- The cooldowns are changed by the attempts that say so, and by nothing else. -/
structure Cools (s : State) (e : Event) (t : State) : Prop where
  logged : ∀ url, t.downUntil url ≠ s.downUntil url → ∃ call before a,
    t.calls (Event.owner e) = some call ∧ call.log = before ++ [a] ∧ a.url = url ∧ a.cooled = true
  started : ∀ call call' a, s.calls (Event.owner e) = some call →
    t.calls (Event.owner e) = some call' → call'.log = call.log ++ [a] → a.cooled = true →
      ∃ reply timedOut now, e = .reply (Event.owner e) reply timedOut now ∧
        t.downUntil a.url = now + COOLDOWN_MS

theorem put_calls (s : State) (c : Nat) (call : Call) : (s.put c call).calls c = some call :=
  Function.update_self _ _ _

theorem cools_of_warm (hcall : s.calls (Event.owner e) = some call) (hwarm : Call.Warm call call') :
    Cools s e (s.put (Event.owner e) call') := by
  constructor
  · intro url hne
    exact absurd rfl hne
  · intro before after a hb ha hlog hcooled
    rw [hcall] at hb
    cases hb
    rw [put_calls] at ha
    cases ha
    rw [hwarm a hlog] at hcooled
    cases hcooled

theorem reply_cools (s : State) (c : Nat) (call : Call) (url : String) (reply : Reply)
    (timedOut : Bool) (now : Nat) (hcall : s.calls c = some call) :
    Cools s (.reply c reply timedOut now)
      ((if (call.receive url reply timedOut).2 then s.cool url now else s).put c
        (call.receive url reply timedOut).1) := by
  obtain ⟨cause, hlog⟩ := receive_log call url reply timedOut
  constructor
  · intro url' hne
    cases hcools : (call.receive url reply timedOut).2 with
    | false =>
      rw [hcools] at hne
      exact absurd rfl hne
    | true =>
      rw [hcools] at hne hlog
      refine ⟨_, call.log, _, Function.update_self _ _ _, hlog, ?_, rfl⟩
      by_contra hurl
      exact hne (Function.update_of_ne (Ne.symm hurl) _ _)
  · intro before after a hb ha hafter hcooled
    rw [Event.owner, hcall] at hb
    cases hb
    rw [Event.owner, put_calls] at ha
    cases ha
    rw [hlog] at hafter
    cases List.append_cancel_left hafter
    dsimp only at hcooled
    refine ⟨reply, timedOut, now, rfl, ?_⟩
    rw [hcooled]
    exact Function.update_self _ _ _

theorem advance_cools {s t : State} {call : Call} {e : Event}
    (hcall : s.calls (Event.owner e) = some call)
    (h : s.advance disabled (Event.owner e) call e = some t) : Cools s e t := by
  cases e with
  | query c lane questions timeoutMs order now => cases h
  | turn c now =>
    rw [advance] at h
    split at h
    · cases h
      exact cools_of_warm hcall (Call.Warm.send _ _ call _ now)
    · cases h
  | turnAborted c =>
    rw [advance] at h
    split at h
    · split at h
      · cases h
        exact cools_of_warm hcall (Call.Warm.leave call _ _ _)
      · cases h
    · cases h
  | reply c reply timedOut now =>
    rw [advance] at h
    split at h
    · rename_i url hphase
      cases h
      exact reply_cools s c call url reply timedOut now hcall
    · cases h
  | resume c now =>
    rw [advance] at h
    split at h
    · cases h
      exact cools_of_warm hcall (Call.Warm.resume _ _ call _ now)
    · cases h
  | abort c =>
    cases h
    exact cools_of_warm hcall (Call.Warm.of_log rfl)

theorem step_cools (h : step disabled s e = some t) : Cools s e t := by
  obtain ⟨c, lane, questions, timeoutMs, order, now, rfl, hnone, rfl⟩ | ⟨call, hcall, hadv⟩ :=
    step_cases h
  · constructor
    · intro url hne
      exact absurd rfl hne
    · intro before after a hb
      rw [Event.owner, hnone] at hb
      cases hb
  · exact advance_cools hcall hadv

/-- While no reply is misfiled, the scan lane leaves the hooks their servers. -/
theorem lawful_of_wellFiled (disabled : Bool) (es : List Event)
    (hfiled : ∀ p ∈ steps (step disabled) new es, WellFiled p.1 p.2) :
    ∀ t ∈ trace (step disabled) new es,
      (∀ c call, t.calls c = some call → Lawful call ∧ Resolves disabled t c call) ∧
        ∀ e u, step disabled t e = some u → Cools t e u := by
  have hkept : ∀ t ∈ trace (step disabled) new es, ∀ c call, t.calls c = some call → Kept call := by
    apply trace_keeps
    · intro c call hcall
      cases hcall
    · intro u e u' hmem hu hstep
      exact step_kept hu (hfiled _ hmem) hstep
  intro t ht
  constructor
  · intro c call hcall
    exact ⟨(hkept t ht c call hcall).lawful, resolves disabled hcall⟩
  · intro e u hstep
    exact step_cools hstep

/-- A server that cannot be reached, and the one after it that answers. -/
def shortRun : List Event :=
  [.query 0 .hook ["risk"] 500 ["a", "b"] 0, .reply 0 (.failed "ECONNREFUSED") false 7, .resume 0 7,
    .reply 0 (.response 503 (.whole [] none)) false 9, .resume 0 9]

theorem lawful_of_wellFiled_shortRun :
    (run (step false) new shortRun).isSome = true ∧ ∀ t ∈ trace (step false) new shortRun,
      (∀ c call, t.calls c = some call → Lawful call ∧ Resolves false t c call) ∧
        ∀ e u, step false t e = some u → Cools t e u := by
  refine ⟨rfl, ?_⟩
  apply lawful_of_wellFiled
  intro p hp
  obtain ⟨u, e⟩ := p
  have he : e ∈ shortRun := (List.of_mem_zip hp).2
  rw [shortRun] at he
  simp only [List.mem_cons, List.not_mem_nil, or_false] at he
  obtain rfl | rfl | rfl | rfl | rfl := he
  · exact trivial
  · intro call hcall hmis
    exact absurd hmis id
  · exact trivial
  · intro call hcall hmis
    exact absurd hmis id
  · exact trivial

/-- A server of the scan that answers with a bare null. -/
def nullRun : List Event :=
  [.query 0 .tool ["risk"] 500 ["a", "b"] 0, .turn 0 0,
    .reply 0 (.response 200 (.whole [110, 117, 108, 108] (some .null))) false 5]

/-- The scan starts the cooldown of a server that answered. -/
theorem null_answer_cools : ¬ ∀ disabled es, ∀ t ∈ trace (step disabled) new es,
    ∀ c call, t.calls c = some call → Lawful call := by
  intro h
  have hlast : (trace (step false) new nullRun)[3]? ≠ none := by
    intro hnone
    cases hnone
  obtain ⟨t, ht⟩ := Option.ne_none_iff_exists'.1 hlast
  have hlawful := h false nullRun t (List.mem_of_getElem? ht) 0
  cases ht
  have hun := (hlawful _ rfl).tool rfl _ List.mem_cons_self rfl
  obtain ⟨message, hcause⟩ := hun
  cases hcause

end State

end LocalMind.JevQuery
