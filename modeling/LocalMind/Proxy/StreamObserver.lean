import LocalMind.Concurrent.Run
import LocalMind.Proxy.PassThrough

namespace LocalMind.StreamObserver
open Concurrent
set_option autoImplicit true

/-! The task that awaits the end of a stream, beside the body that others poll and drop. -/

def ACTIVITY_TIMEOUT_SECS : Nat := 90

/-- Waiting since it last noticed activity, about to look at the completion channel once more,
or done. -/
inductive Phase
  | waiting (since : Nat)
  | resolving (reason : StreamEnd)
  | ended (reason : StreamEnd)

/-- The body holds the senders of both channels until it is dropped. -/
structure State where
  now : Nat
  live : Bool
  completionTx : CompletionTx
  received : Bool
  unseen : Bool
  phase : Phase

def State.boot : State := ⟨0, true, .new, false, false, .waiting 0⟩

inductive Event
  | tick
  | activity
  | signal (reason : StreamEnd)
  | drop
  | receive
  | notice
  | timeout
  | resolve

/-- The reasons that a body sends: the others are the task's own. -/
def fromBody : StreamEnd → Bool
  | .completed | .backendClosed | .backendError => true
  | .stalled | .clientGone => false

namespace State

/-- A reason that was sent and not yet received. -/
def message (s : State) : Option StreamEnd := if s.received then none else s.completionTx.sent.head?

/-- Nothing is in the channel, and nothing can come. -/
def closed (s : State) : Bool := s.message.isNone && (s.received || !s.completionTx.held)

def resolveEndReason (s : State) (reason : StreamEnd) : StreamEnd :=
  match s.message with
  | some sent => sent
  | none => if s.closed && reason == .stalled then .clientGone else reason

/-- A branch of the task's `select!`, where it is ready. -/
def branch (s : State) (since : Nat) : Event → Option State
  | .receive =>
    match s.message with
    | some reason => some { s with received := true, phase := .resolving reason }
    | none => if s.closed then some { s with phase := .resolving .clientGone } else none
  | .notice =>
    if s.unseen then some { s with unseen := false, phase := .waiting s.now }
    else if s.live then none
    else some { s with phase := .resolving .clientGone }
  | .timeout =>
    if since + ACTIVITY_TIMEOUT_SECS ≤ s.now then some { s with phase := .resolving .stalled }
    else none
  | _ => none

def step (s : State) (e : Event) : Option State :=
  match e, s.phase with
  | .tick, _ => some { s with now := s.now + 1 }
  | .activity, _ => if s.live then some { s with unseen := true } else none
  | .signal reason, _ =>
    if s.live && fromBody reason then
      some { s with completionTx := s.completionTx.signalEnd reason }
    else none
  | .drop, _ =>
    if s.live then
      some { s with live := false, completionTx := { s.completionTx with held := false } }
    else none
  | .resolve, .resolving reason => some { s with phase := .ended (s.resolveEndReason reason) }
  | e, .waiting since => s.branch since e
  | _, _ => none

end State

/-! The body that the client pulls takes steps that the task allows for. -/

/-- At most one reason is sent, and one of the body's own. -/
inductive Sends (tx : CompletionTx) : CompletionTx → Prop
  | nothing : Sends tx tx
  | reason {r : StreamEnd} : fromBody r = true → Sends tx (tx.signalEnd r)

theorem signalCompletion_sends (tx : CompletionTx) (raws : List (List Char)) :
    Sends tx (signalCompletion tx raws).2 := by
  induction raws with
  | nil => exact .nothing
  | cons raw rest ih =>
    rw [signalCompletion]
    split
    · split
      · exact .reason rfl
      · exact .nothing
    · exact ih

theorem emitBlock_sends (s : StreamPassState) (out : Bytes) :
    Sends s.completionTx (s.emitBlock out).completionTx := by
  have hdetect : Sends s.completionTx (detectAndSignalCompletion out s.completionTx).2 := by
    rw [detectAndSignalCompletion]
    split
    · exact .nothing
    · exact signalCompletion_sends _ _
  exact hdetect

theorem countEvents_completionTx (s : StreamPassState) (n : Nat) :
    (s.countEvents n).completionTx = s.completionTx := by
  rw [StreamPassState.countEvents]
  split
  · rfl
  · rfl

theorem drainError_sends {s s' : StreamPassState} {item : Item}
    (h : s.drainError = .emit item s') :
    Sends s.completionTx s'.completionTx := by
  rw [StreamPassState.drainError] at h
  split at h
  · cases h
  · split at h
    · cases h
      exact emitBlock_sends _ _
    · split at h
      · cases h
      · cases h
        exact .reason rfl

theorem drainError_ends {s s' : StreamPassState} (h : s.drainError = .endNow s') :
    s'.completionTx = s.completionTx := by
  rw [StreamPassState.drainError] at h
  split at h
  · cases h
  · split at h
    · cases h
    · split at h
      · cases h
        rfl
      · cases h

theorem advanceStream_sends (s : StreamPassState) :
    Sends s.completionTx (advanceStream s).2.completionTx := by
  fun_induction advanceStream s with
  | case1 s out n f hf =>
    have hsends := emitBlock_sends (StreamPassState.countEvents { s with framing := f } n) out
    rw [countEvents_completionTx] at hsends
    exact hsends
  | case2 s out f hf =>
    have hsends := emitBlock_sends (StreamPassState.countEvents { s with framing := f } 1) out
    rw [countEvents_completionTx] at hsends
    exact hsends
  | case3 s f hf item s' hd =>
    have hsends := drainError_sends hd
    exact hsends
  | case4 s f hf s' hd =>
    have hsame := drainError_ends hd
    dsimp only at hsame ⊢
    rw [hsame]
    exact .nothing
  | case5 s f hf hd u hu tail g hg => exact emitBlock_sends _ _
  | case6 => exact .reason rfl
  | case7 s f hf hd e u hu ih => exact ih
  | case8 => exact .nothing
  | case9 s f hf hd chunk u hu hc ih => exact ih

/-- A pull of the body is a step of the observed one, or none. -/
theorem advanceStream_observed {u : State} {s : StreamPassState} (hlive : u.live = true)
    (hsame : u.completionTx = s.completionTx) :
    ∃ es, run State.step u es =
      some { u with completionTx := (advanceStream s).2.completionTx } := by
  have hsends := advanceStream_sends s
  generalize (advanceStream s).2.completionTx = tx at hsends
  rw [← hsame] at hsends
  cases hsends with
  | nothing => exact ⟨[], rfl⟩
  | @reason r hown =>
    have hstep : u.step (.signal r) = some { u with completionTx := u.completionTx.signalEnd r } := by
      simp only [State.step, hlive, hown, Bool.and_self, if_true]
    exact ⟨[.signal r], by rw [run, hstep]; rfl⟩

/-! What a run says of the stream's end. -/

def Event.reason : Event → Option StreamEnd
  | .signal reason => some reason
  | _ => none

def Event.isDrop : Event → Bool
  | .drop => true
  | _ => false

def Event.isNotice : Event → Bool
  | .notice => true
  | _ => false

def Event.isTick : Event → Bool
  | .tick => true
  | _ => false

/-- The first reason that the body sent. -/
def signalled (past : List Event) : Option StreamEnd := (past.filterMap Event.reason).head?

def dropped (past : List Event) : Bool := past.any Event.isDrop

/-- The seconds since the task last noticed activity. -/
def quiet (past : List Event) : Nat :=
  (past.reverse.takeWhile fun e => !e.isNotice).countP Event.isTick

/-- The body's own reason, else that it was dropped, else that it has stalled. -/
def verdict (past : List Event) : StreamEnd :=
  (signalled past).getD (if dropped past then .clientGone else .stalled)

theorem signalled_concat (past : List Event) (e : Event) :
    signalled (past ++ [e]) = (signalled past).or e.reason := by
  rw [signalled, signalled, List.filterMap_append, List.head?_append]
  cases e with
  | signal reason => rfl
  | _ => rfl

theorem dropped_concat (past : List Event) (e : Event) :
    dropped (past ++ [e]) = (dropped past || e.isDrop) := by
  rw [dropped, dropped, List.any_append, List.any_cons, List.any_nil, Bool.or_false]

theorem signalled_same (past : List Event) {e : Event} (h : e.reason = none) :
    signalled (past ++ [e]) = signalled past := by
  rw [signalled_concat, h, Option.or_none]

theorem dropped_same (past : List Event) {e : Event} (h : e.isDrop = false) :
    dropped (past ++ [e]) = dropped past := by
  rw [dropped_concat, h, Bool.or_false]

theorem quiet_concat (past : List Event) (e : Event) :
    quiet (past ++ [e]) = if e.isNotice then 0 else quiet past + if e.isTick then 1 else 0 := by
  rw [quiet, quiet, List.reverse_append, List.reverse_singleton, List.singleton_append,
    List.takeWhile_cons]
  cases e.isNotice with
  | true => rfl
  | false =>
    rw [Bool.not_false, if_pos rfl, List.countP_cons]
    rfl

/-! Where the task stands after a run. -/

inductive Stands (past : List Event) : Bool → Nat → Phase → Prop
  | waiting {now since : Nat} : now = since + quiet past → Stands past false now (.waiting since)
  | told {now : Nat} {reason : StreamEnd} : signalled past = some reason →
    Stands past true now (.resolving reason)
  | gone {now : Nat} : dropped past = true → Stands past false now (.resolving .clientGone)
  | stalled {now : Nat} : ACTIVITY_TIMEOUT_SECS ≤ quiet past →
    Stands past false now (.resolving .stalled)
  | ended (received : Bool) (now : Nat) (reason : StreamEnd) :
    Stands past received now (.ended reason)

structure Tracked (past : List Event) (s : State) : Prop where
  live : s.live = !dropped past
  sent : s.completionTx.sent.head? = signalled past
  held : s.completionTx.held = ((signalled past).isNone && s.live)
  own : ∀ reason, signalled past = some reason → fromBody reason = true
  stands : Stands past s.received s.now s.phase

variable {past : List Event} {received : Bool} {now since : Nat} {phase : Phase}
  {reason : StreamEnd}

theorem Stands.of_waiting (h : Stands past received now (.waiting since)) :
    received = false ∧ now = since + quiet past := by
  cases h with
  | waiting hnow => exact ⟨rfl, hnow⟩

theorem Stands.of_resolving (h : Stands past received now (.resolving reason)) :
    (received = true ∧ signalled past = some reason) ∨
      (received = false ∧ (reason = .clientGone ∧ dropped past = true ∨
        reason = .stalled ∧ ACTIVITY_TIMEOUT_SECS ≤ quiet past)) := by
  cases h with
  | told htold => exact .inl ⟨rfl, htold⟩
  | gone hdropped => exact .inr ⟨rfl, .inl ⟨rfl, hdropped⟩⟩
  | stalled hquiet => exact .inr ⟨rfl, .inr ⟨rfl, hquiet⟩⟩

theorem Stands.concat (h : Stands past received now phase) {e : Event}
    (hnotice : e.isNotice = false) (htick : e.isTick = false) :
    Stands (past ++ [e]) received now phase := by
  have hquiet : quiet (past ++ [e]) = quiet past := by
    rw [quiet_concat, hnotice, htick]
    rfl
  cases h with
  | waiting hnow => exact .waiting (by rw [hquiet, hnow])
  | told hreason => exact .told (by rw [signalled_concat, hreason, Option.some_or])
  | gone hdropped => exact .gone (by rw [dropped_concat, hdropped, Bool.true_or])
  | stalled hquiet' => exact .stalled (hquiet ▸ hquiet')
  | ended => exact .ended _ _ _

theorem Stands.tick (h : Stands past received now phase) :
    Stands (past ++ [.tick]) received (now + 1) phase := by
  have hquiet : quiet (past ++ [.tick]) = quiet past + 1 := quiet_concat past .tick
  cases h with
  | waiting hnow => exact .waiting (by rw [hquiet, hnow, Nat.add_assoc])
  | told hreason => exact .told (by rw [signalled_concat, hreason, Option.some_or])
  | gone hdropped => exact .gone (by rw [dropped_concat, hdropped, Bool.true_or])
  | stalled hquiet' => exact .stalled (hquiet ▸ Nat.le_succ_of_le hquiet')
  | ended => exact .ended _ _ _

/-- A step of the task, which leaves the body and its channels alone. -/
theorem Tracked.task {s : State} (h : Tracked past s) {e : Event} (hreason : e.reason = none)
    (hdrop : e.isDrop = false) (hstands : Stands (past ++ [e]) received s.now phase)
    (unseen : Bool) :
    Tracked (past ++ [e]) { s with received := received, unseen := unseen, phase := phase } := by
  have hsignalled := signalled_same past hreason
  have hdropped := dropped_same past hdrop
  constructor
  · rw [hdropped]
    exact h.live
  · rw [hsignalled]
    exact h.sent
  · rw [hsignalled]
    exact h.held
  · rw [hsignalled]
    exact h.own
  · exact hstands

theorem Tracked.signal {s : State} (h : Tracked past s) (hlive : s.live = true)
    (hown : fromBody reason = true) :
    Tracked (past ++ [.signal reason])
      { s with completionTx := s.completionTx.signalEnd reason } := by
  have hsignalled : signalled (past ++ [.signal reason]) = (signalled past).or (some reason) :=
    signalled_concat past (.signal reason)
  have hdropped : dropped (past ++ [.signal reason]) = dropped past := dropped_same past rfl
  have hstands : Stands (past ++ [.signal reason]) s.received s.now s.phase :=
    h.stands.concat rfl rfl
  have hsent := h.sent
  have hheld := h.held
  rw [hlive, Bool.and_true] at hheld
  cases hpast : signalled past with
  | none =>
    rw [hpast] at hsignalled hsent hheld
    have hnil : s.completionTx.sent = [] := List.head?_eq_none_iff.1 hsent
    have hsend : s.completionTx.signalEnd reason = ⟨false, [reason]⟩ := by
      rw [CompletionTx.signalEnd, hheld, hnil]
      rfl
    refine ⟨hdropped ▸ h.live, ?_, ?_, fun r hr => ?_, hstands⟩
    · rw [hsignalled, hsend]
      rfl
    · rw [hsignalled, hsend]
      rfl
    · rw [hsignalled] at hr
      cases hr
      exact hown
  | some first =>
    rw [hpast] at hsignalled hsent hheld
    have hsend : s.completionTx.signalEnd reason = s.completionTx := by
      rw [CompletionTx.signalEnd, hheld]
      rfl
    refine ⟨hdropped ▸ h.live, ?_, ?_, fun r hr => h.own r ?_, hstands⟩
    · rw [hsignalled, hsend]
      exact hsent
    · rw [hsignalled, hsend]
      exact hheld
    · rw [hpast, ← hr, hsignalled]
      rfl

theorem Tracked.drop {s : State} (h : Tracked past s) :
    Tracked (past ++ [.drop])
      { s with live := false, completionTx := { s.completionTx with held := false } } := by
  have hsignalled : signalled (past ++ [.drop]) = signalled past := signalled_same past rfl
  constructor
  · rw [dropped_concat, Event.isDrop, Bool.or_true]
    rfl
  · rw [hsignalled]
    exact h.sent
  · exact (Bool.and_false _).symm
  · rw [hsignalled]
    exact h.own
  · exact h.stands.concat rfl rfl

theorem Tracked.dropped_of_closed {s : State} (h : Tracked past s) (hreceived : s.received = false)
    (hclosed : s.closed = true) : signalled past = none ∧ dropped past = true := by
  rw [State.closed, State.message, hreceived, if_neg Bool.false_ne_true, h.sent, h.held,
    h.live] at hclosed
  cases hsignalled : signalled past with
  | none => exact ⟨rfl, by simpa [hsignalled] using hclosed⟩
  | some reason => simp [hsignalled] at hclosed

theorem Tracked.branch {s s' : State} (h : Tracked past s) (hphase : s.phase = .waiting since)
    (hs : s.branch since e = some s') : Tracked (past ++ [e]) s' := by
  have hstands := h.stands
  rw [hphase] at hstands
  obtain ⟨hreceived, hnow⟩ := hstands.of_waiting
  cases e with
  | receive =>
    rw [State.branch] at hs
    split at hs
    · next reason hmessage =>
      cases hs
      rw [State.message, hreceived, if_neg Bool.false_ne_true, h.sent] at hmessage
      refine h.task rfl rfl (.told ?_) s.unseen
      rw [signalled_concat, hmessage, Option.some_or]
    · split at hs
      · next hclosed =>
        cases hs
        refine h.task rfl rfl ?_ s.unseen
        rw [hreceived]
        apply Stands.gone
        rw [dropped_concat, (h.dropped_of_closed hreceived hclosed).2, Bool.true_or]
      · cases hs
  | notice =>
    rw [State.branch] at hs
    split at hs
    · cases hs
      refine h.task rfl rfl ?_ false
      rw [hreceived]
      exact .waiting (by rw [quiet_concat, Event.isNotice, if_pos rfl, Nat.add_zero])
    · split at hs
      · cases hs
      · next hlive =>
        cases hs
        refine h.task rfl rfl ?_ s.unseen
        rw [hreceived]
        apply Stands.gone
        rw [h.live] at hlive
        rw [dropped_concat]
        simpa using Or.inl hlive
  | timeout =>
    rw [State.branch] at hs
    split at hs
    · next hlate =>
      cases hs
      refine h.task rfl rfl ?_ s.unseen
      rw [hreceived]
      have hquiet : ACTIVITY_TIMEOUT_SECS ≤ quiet past := by omega
      exact Stands.concat (.stalled hquiet) rfl rfl
    · cases hs
  | _ => cases hs

theorem Tracked.step {s s' : State} (h : Tracked past s) (hs : s.step e = some s') :
    Tracked (past ++ [e]) s' := by
  rw [State.step.eq_def] at hs
  split at hs
  · cases hs
    have hsignalled : signalled (past ++ [.tick]) = signalled past := signalled_same past rfl
    have hdropped : dropped (past ++ [.tick]) = dropped past := dropped_same past rfl
    exact ⟨hdropped ▸ h.live, hsignalled ▸ h.sent, hsignalled ▸ h.held, hsignalled ▸ h.own,
      h.stands.tick⟩
  · split at hs
    · cases hs
      exact h.task rfl rfl (h.stands.concat rfl rfl) true
    · cases hs
  · next reason =>
    split at hs
    · next hguard =>
      cases hs
      obtain ⟨hlive, hown⟩ := (Bool.and_eq_true _ _).mp hguard
      exact h.signal hlive hown
    · cases hs
  · split at hs
    · cases hs
      exact h.drop
    · cases hs
  · next reason hphase =>
    cases hs
    exact h.task rfl rfl (.ended _ _ _) s.unseen
  · next since hphase => exact h.branch hphase hs
  · cases hs

theorem run_tracked_from {s t : State} (h : Tracked past s)
    (hrun : run State.step s es = some t) : Tracked (past ++ es) t := by
  induction es generalizing past s with
  | nil =>
    cases hrun
    rwa [List.append_nil]
  | cons e es ih =>
    obtain ⟨s', hs, hrun⟩ := Option.bind_eq_some_iff.1 hrun
    have hrest := ih (h.step hs) hrun
    rwa [List.append_assoc] at hrest

theorem run_tracked (hrun : run State.step .boot es = some s) : Tracked es s := by
  have hboot : Tracked [] State.boot :=
    ⟨rfl, rfl, rfl, (fun reason hreason => by cases hreason), .waiting rfl⟩
  exact run_tracked_from hboot hrun

/-- The last look at the channel settles the reason, whichever branch the task left its loop by. -/
theorem Tracked.resolve {s : State} (h : Tracked past s) (hphase : s.phase = .resolving reason) :
    s.resolveEndReason reason = verdict past ∧
      (verdict past = .stalled → ACTIVITY_TIMEOUT_SECS ≤ quiet past) := by
  have hstands := h.stands
  rw [hphase] at hstands
  obtain ⟨hreceived, htold⟩ | ⟨hreceived, hown⟩ := hstands.of_resolving
  · have hown := h.own reason htold
    have hmessage : s.message = none := by rw [State.message, hreceived, if_pos rfl]
    have hlate : (reason == StreamEnd.stalled) = false := by
      cases reason with
      | stalled => cases hown
      | _ => rfl
    rw [State.resolveEndReason, hmessage, verdict, htold, hlate, Bool.and_false]
    refine ⟨rfl, ?_⟩
    rintro rfl
    cases hown
  · have hmessage : s.message = signalled past := by
      rw [State.message, hreceived, if_neg Bool.false_ne_true, h.sent]
    have hclosed : s.closed = ((signalled past).isNone && dropped past) := by
      rw [State.closed, hmessage, hreceived, h.held, h.live]
      cases signalled past with
      | none => simp
      | some first => rfl
    rw [State.resolveEndReason, hmessage, hclosed, verdict]
    cases hsignalled : signalled past with
    | some first =>
      refine ⟨rfl, ?_⟩
      rintro rfl
      cases h.own _ hsignalled
    | none =>
      obtain ⟨rfl, hdropped⟩ | ⟨rfl, hquiet⟩ := hown
      · rw [hdropped]
        exact ⟨rfl, fun h => nomatch h⟩
      · cases hdropped : dropped past with
        | true => exact ⟨rfl, fun h => nomatch h⟩
        | false => exact ⟨rfl, fun _ => hquiet⟩

/-- However the body's steps and the task's interleave, the task reports the reason that the
body sent, else that the body was dropped, else (after a time without activity) a stall. -/
theorem resolve_reports (hrun : run State.step .boot es = some s)
    (hs : s.step .resolve = some t) :
    t.phase = .ended (verdict es) ∧
      (verdict es = .stalled → ACTIVITY_TIMEOUT_SECS ≤ quiet es) := by
  have htracked := run_tracked hrun
  cases hphase : s.phase with
  | resolving reason =>
    obtain ⟨hreason, hquiet⟩ := htracked.resolve hphase
    simp only [State.step, hphase] at hs
    cases hs
    exact ⟨congrArg Phase.ended hreason, hquiet⟩
  | waiting since =>
    simp only [State.step, hphase, State.branch] at hs
    cases hs
  | ended reason =>
    simp only [State.step, hphase] at hs
    cases hs

/-- The body sends its reason and is dropped before the task sees either. -/
def lateLook : List Event := [.activity, .signal .completed, .drop, .notice, .notice]

theorem resolve_reports_late : ∃ s t, run State.step .boot lateLook = some s ∧
    s.step .resolve = some t ∧ t.phase = .ended (verdict lateLook) ∧
      (verdict lateLook = .stalled → ACTIVITY_TIMEOUT_SECS ≤ quiet lateLook) :=
  ⟨_, _, rfl, rfl, @resolve_reports lateLook _ _ rfl rfl⟩

end LocalMind.StreamObserver
