import LocalMind.Proxy.FramingInvariance
import LocalMind.Text.Str

namespace LocalMind
set_option autoImplicit true

/-- An item of a byte stream: a chunk, or a rendered read error. -/
abbrev Item := Except String Bytes

/-- The backend's stream: the items it has yet to yield. Nothing is read after an error. -/
structure FusedStream where
  inner : List Item
  done : Bool

def Item.isErr : Item → Bool
  | .error _ => true
  | .ok _ => false

def FusedStream.next (s : FusedStream) : Option Item × FusedStream :=
  if s.done then (none, s)
  else
    match s.inner with
    | [] => (none, { s with done := true })
    | item :: rest => (some item, ⟨rest, item.isErr⟩)

/-- Why a pass-through stream ended. -/
inductive StreamEnd where
  | completed
  | backendClosed
  | backendError
  | stalled
  | clientGone
  deriving DecidableEq

/-- The one-shot completion channel: whether its sender is still held, and what was sent. -/
structure CompletionTx where
  held : Bool
  sent : List StreamEnd
  deriving DecidableEq

def CompletionTx.new : CompletionTx := ⟨true, []⟩

def CompletionTx.signalEnd (tx : CompletionTx) (reason : StreamEnd) : CompletionTx :=
  if tx.held then ⟨false, tx.sent ++ [reason]⟩ else tx

/-! Reading one block. -/

def stripField (line field : List Char) : Option (List Char) :=
  match line.dropPrefix? field with
  | some (' ' :: v) => some v
  | r => r

/-- The `event:` field and the `data:` payloads of a block. -/
def splitLines (r : Option (List Char) × List (List Char)) :
    List (List Char) → Option (List Char) × List (List Char)
  | [] => r
  | line :: rest =>
    match stripField line "event:".toList with
    | some v => splitLines (some v, r.2) rest
    | none =>
      match stripField line "data:".toList with
      | some v => splitLines (r.1, r.2 ++ [v]) rest
      | none => splitLines r rest

def splitEvent (raw : Bytes) : Option (List Char) × List (List Char) :=
  splitLines (none, []) (Text.lines (Utf8.decodeLossy raw))

def isCompletionEvent (eventType : Option (List Char)) (payloads : List (List Char)) : Bool :=
  eventType == some "message_stop".toList ||
    payloads.any fun p => Text.trim p == "[DONE]".toList

/-- The prefilter of completion detection. -/
def mentionsBridgeEvent (b : Bytes) : Bool :=
  (Text.windows 5 b).any (· == Utf8.encode "[DONE".toList) ||
    (Text.windows 12 b).any (· == Utf8.encode "message_stop".toList)

/-- The loop over the events of a block. -/
def signalCompletion (tx : CompletionTx) : List (List Char) → Bool × CompletionTx
  | [] => (false, tx)
  | raw :: rest =>
    let e := splitEvent (Utf8.encode raw)
    if isCompletionEvent e.1 e.2 then
      if tx.held then (true, tx.signalEnd .completed) else (false, tx)
    else signalCompletion tx rest

/-- Fire the completion signal when a block holds a terminal event. -/
def detectAndSignalCompletion (bytes : Bytes) (tx : CompletionTx) : Bool × CompletionTx :=
  if tx.held = false ∨ mentionsBridgeEvent bytes = false then (false, tx)
  else signalCompletion tx (Text.splitBlank (Utf8.decodeLossy bytes))

structure StreamPassState where
  underlying : FusedStream
  framing : FramingState
  accumulated : Option Bytes
  completionTx : CompletionTx
  pendingError : Option String
  completionSignaled : Bool
  -- the process-wide event counter, as far as this stream moves it
  eventsTotal : Nat

/-- The outcome of draining a pending error. -/
inductive DrainError where
  | noError
  | emit (item : Item) (s : StreamPassState)
  | endNow (s : StreamPassState)

namespace StreamPassState

def maybeAccumulate (s : StreamPassState) (bytes : Bytes) : StreamPassState :=
  { s with accumulated := s.accumulated.map (· ++ bytes) }

/-- The bookkeeping of a delivered block. -/
def emitBlock (s : StreamPassState) (out : Bytes) : StreamPassState :=
  let s := s.maybeAccumulate out
  let d := detectAndSignalCompletion out s.completionTx
  { s with
    completionSignaled := s.completionSignaled || d.1
    completionTx := d.2 }

def countEvents (s : StreamPassState) (n : Nat) : StreamPassState :=
  if s.accumulated.isSome then { s with eventsTotal := s.eventsTotal + n } else s

def drainError (s : StreamPassState) : DrainError :=
  match s.pendingError with
  | none => .noError
  | some err =>
    match s.framing.finish with
    | (some tail, f) => .emit (.ok tail) (emitBlock { s with framing := f } tail)
    | (none, f) =>
      if s.completionSignaled then .endNow { s with framing := f, pendingError := none }
      else
        .emit (.error err)
          { s with
            framing := f
            pendingError := none
            completionTx := s.completionTx.signalEnd .backendError }

end StreamPassState

open StreamPassState

theorem FusedStream.next_some {u : FusedStream} (h : u.next = (some item, v)) :
    u.done = false ∧ u.inner = item :: v.inner ∧ v.done = item.isErr := by
  rw [next] at h
  split at h
  · cases h
  · next hd =>
    split at h
    · cases h
    · next hi =>
      cases h
      exact ⟨Bool.not_eq_true _ ▸ hd, hi, rfl⟩

/-- One pull of the client: the item it gets, or the end of the stream. -/
def advanceStream (s : StreamPassState) : Option Item × StreamPassState :=
  match s.framing.takeFramed with
  | (.events out n, f) =>
    (some (.ok out), emitBlock (countEvents { s with framing := f } n) out)
  | (.forceFlush out, f) =>
    (some (.ok out), emitBlock (countEvents { s with framing := f } 1) out)
  | (.nothing, f) =>
    match drainError { s with framing := f } with
    | .emit item s => (some item, s)
    | .endNow s => (none, s)
    | .noError =>
      match _ : s.underlying.next with
      | (none, u) =>
        match f.finish with
        | (some tail, f) =>
          (some (.ok tail), emitBlock { s with underlying := u, framing := f } tail)
        | (none, f) =>
          (none,
            { s with
              underlying := u
              framing := f
              completionTx := s.completionTx.signalEnd .backendClosed })
      | (some (.error e), u) =>
        advanceStream { s with underlying := u, framing := f, pendingError := some e }
      | (some (.ok chunk), u) =>
        if chunk.isEmpty then (some (.ok chunk), { s with underlying := u, framing := f })
        else advanceStream { s with underlying := u, framing := f.push chunk }
termination_by s.underlying.inner.length
decreasing_by
  · rename_i h
    rw [(FusedStream.next_some h).2.1]
    exact Nat.lt_succ_self _
  · rename_i h _
    rw [(FusedStream.next_some h).2.1]
    exact Nat.lt_succ_self _

/-- What the framer still has to release. -/
def FramingState.weight (s : FramingState) : Nat :=
  s.pending.length + if s.crHeld then 1 else 0

namespace FramingState

end FramingState

@[simp] theorem emitBlock_framing (s : StreamPassState) (out : Bytes) :
    (s.emitBlock out).framing = s.framing := rfl

@[simp] theorem countEvents_framing (s : StreamPassState) (n : Nat) :
    (s.countEvents n).framing = s.framing := by
  rw [countEvents]
  split <;> rfl

end LocalMind
