import LocalMind.Concurrent.Run
import LocalMind.Json.Value
import LocalMind.Stream.Fallible
import Mathlib.Logic.Function.Basic

namespace LocalMind.JevQuery
open Concurrent Json
set_option autoImplicit true

/-! The walk of one `query` over the decision servers, beside any number of others. -/

def COOLDOWN_MS : Nat := 60000

inductive Lane
  | hook
  | tool
deriving DecidableEq

/-- `typeof v === "object" && v`, which holds of arrays too. -/
def isJsObject : Value → Bool
  | .object _ => true
  | .array _ => true
  | _ => false

structure Choice where
  choice : String
  probabilities : Value
  isObject : isJsObject probabilities = true

abbrev Answers := List (String × Choice)

/-- `v[key]`; what is inherited has no `choice` of its own and is left out. -/
def index (v : Value) (key : String) : Option Value :=
  match v with
  | .object m => Fields.get m key
  | .array xs => (xs.zipIdx.find? fun x => toString x.2 = key).map Prod.fst
  | _ => none

/-- The body of a response: lost on the way, or its text and what `JSON.parse` makes of it. -/
inductive Body
  | lost (message : String)
  | whole (text : List UInt16) (json : Option Value)

/-- What `fetch` comes to: a rejection, or a response. -/
inductive Reply
  | failed (message : String)
  | response (status : Nat) (body : Body)

def resOk (status : Nat) : Bool := decide (200 ≤ status ∧ status ≤ 299)

/-- The errors of an answer that the server sent. -/
inductive ServerAnswerError
  | http (status : Nat) (text : List UInt16)
  | notJson
  | malformed (key : String)

/-- What the `try` block throws; `notAnObject` is the `TypeError` of `null.answers`. -/
inductive Thrown
  | serverAnswer (e : ServerAnswerError)
  | rejected (message : String)
  | notAnObject

def toChoice : Value → Option Choice
  | .object m =>
    match Fields.get m "choice", Fields.get m "probabilities" with
    | some (.string choice), some probabilities =>
      if h : isJsObject probabilities = true then some ⟨choice, probabilities, h⟩ else none
    | _, _ => none
  | _ => none

def readAnswer (body : Value) (key : String) : Except Thrown Choice :=
  match body with
  | .null => .error .notAnObject
  | body =>
    match ((body.get "answers").bind (index · key)).bind toChoice with
    | some a => .ok a
    | none => .error (.serverAnswer (.malformed key))

def readAnswers (body : Value) : List String → Except Thrown Answers
  | [] => .ok []
  | key :: keys => do
    let a ← readAnswer body key
    let rest ← readAnswers body keys
    pure ((key, a) :: rest)

/-- The `try` block, from what `fetch` came to. -/
def judge (questions : List String) : Reply → Except Thrown Answers
  | .failed message => .error (.rejected message)
  | .response status body =>
    if resOk status then
      match body with
      | .whole _ (some v) => readAnswers v questions
      | _ => .error (.serverAnswer .notJson)
    else
      match body with
      | .whole text _ => .error (.serverAnswer (.http status (text.take 200)))
      | .lost message => .error (.rejected message)

inductive TraceError
  | disabled
  | cooling (url : String) (secondsLeft : Nat)
  | aborted
  | timedOut (timeoutMs : Nat)
  | thrown (e : Thrown)
  | noServer

structure Result where
  answers : Option Answers
  error : Option TraceError
  failover : Bool

def Thrown.isServerAnswer : Thrown → Bool
  | serverAnswer _ => true
  | _ => false

/-- Why a server was left, kept beside the code's own state. -/
inductive Cause
  | turnAborted
  | disabled
  | skipped
  | replied (reply : Reply) (timedOut aborted : Bool)

/-- A server of the walk that has been left, and whether its cooldown was started. -/
structure Attempt where
  url : String
  cause : Cause
  cooled : Bool

inductive Phase
  | waiting (url : String)
  | asking (url : String)
  | settled (last : Result)
  | ended (result : Result)

/-- A call of `query`; `rest` are the servers that the walk has not come to. -/
structure Call where
  lane : Lane
  questions : List String
  timeoutMs : Nat
  aborted : Bool
  rest : List String
  phase : Phase
  log : List Attempt

structure State where
  downUntil : String → Nat
  calls : Nat → Option Call

inductive Event
  | query (c : Nat) (lane : Lane) (questions : List String) (timeoutMs : Nat) (order : List String)
    (now : Nat)
  | turn (c : Nat) (now : Nat)
  | turnAborted (c : Nat)
  | reply (c : Nat) (reply : Reply) (timedOut : Bool) (now : Nat)
  | resume (c : Nat) (now : Nat)
  | abort (c : Nat)

namespace Call

def leave (call : Call) (url : String) (cause : Cause) (cooled : Bool) (last : Result) : Call :=
  { call with phase := .settled last, log := call.log ++ [⟨url, cause, cooled⟩] }

/-- `send` up to its request. -/
def send (disabled : Bool) (downUntil : String → Nat) (call : Call) (url : String) (now : Nat) :
    Call :=
  if disabled then
    call.leave url .disabled false ⟨none, some .disabled, false⟩
  else if now < downUntil url then
    call.leave url .skipped false
      ⟨none, some (.cooling url ((downUntil url - now + 999) / 1000)), true⟩
  else
    { call with phase := .asking url }

/-- The tool lane waits for its turn at the server first. -/
def visit (disabled : Bool) (downUntil : String → Nat) (call : Call) (url : String) (now : Nat) :
    Call :=
  match call.lane with
  | .tool => { call with phase := .waiting url }
  | .hook => call.send disabled downUntil url now

/-- The `catch` block: what is left of the request, and whether the cooldown starts. -/
def fail (call : Call) (url : String) (reply : Reply) (timedOut : Bool) (e : Thrown) :
    Call × Bool :=
  let cause := .replied reply timedOut call.aborted
  if call.aborted then
    (call.leave url cause false ⟨none, some .aborted, false⟩, false)
  else
    let error := if timedOut then .timedOut call.timeoutMs else .thrown e
    let unreachable := !timedOut && !e.isServerAnswer
    let cools := decide (call.lane = .hook) || unreachable
    (call.leave url cause cools ⟨none, some error, unreachable⟩, cools)

/-- The end of `send`, after its request. -/
def receive (call : Call) (url : String) (reply : Reply) (timedOut : Bool) : Call × Bool :=
  match judge call.questions reply with
  | .ok answers =>
    (call.leave url (.replied reply timedOut call.aborted) false ⟨some answers, none, false⟩, false)
  | .error e => call.fail url reply timedOut e

/-- The walk goes on only after a failure that was cheap. -/
def resume (disabled : Bool) (downUntil : String → Nat) (call : Call) (last : Result) (now : Nat) :
    Call :=
  if last.answers.isSome || !last.failover || call.aborted then
    { call with phase := .ended last }
  else
    match call.rest with
    | [] => { call with phase := .ended last }
    | url :: rest => { call with rest }.visit disabled downUntil url now

end Call

namespace State

def new : State := ⟨fun _ => 0, fun _ => none⟩

def put (s : State) (c : Nat) (call : Call) : State :=
  { s with calls := Function.update s.calls c (some call) }

def cool (s : State) (url : String) (now : Nat) : State :=
  { s with downUntil := Function.update s.downUntil url (now + COOLDOWN_MS) }

def start (disabled : Bool) (s : State) (lane : Lane) (questions : List String) (timeoutMs : Nat)
    (order : List String) (now : Nat) : Call :=
  match order with
  | [] => ⟨lane, questions, timeoutMs, false, [], .ended ⟨none, some .noServer, false⟩, []⟩
  | url :: rest =>
    Call.visit disabled s.downUntil ⟨lane, questions, timeoutMs, false, rest, .waiting url, []⟩ url now

/-- The next segment of a call, for an event that its phase allows. -/
def advance (disabled : Bool) (s : State) (c : Nat) (call : Call) : Event → Option State
  | .turn _ now =>
    match call.phase with
    | .waiting url => some (s.put c (call.send disabled s.downUntil url now))
    | _ => none
  | .turnAborted _ =>
    match call.phase with
    | .waiting url =>
      if call.aborted then
        some (s.put c (call.leave url .turnAborted false ⟨none, some .aborted, false⟩))
      else
        none
    | _ => none
  | .reply _ reply timedOut now =>
    match call.phase with
    | .asking url =>
      let (call, cools) := call.receive url reply timedOut
      some ((if cools then s.cool url now else s).put c call)
    | _ => none
  | .resume _ now =>
    match call.phase with
    | .settled last => some (s.put c (call.resume disabled s.downUntil last now))
    | _ => none
  | .abort _ => some (s.put c { call with aborted := true })
  | .query .. => none

def Event.owner : Event → Nat
  | .query c .. => c
  | .turn c _ => c
  | .turnAborted c => c
  | .reply c .. => c
  | .resume c _ => c
  | .abort c => c

def step (disabled : Bool) (s : State) (e : Event) : Option State :=
  match s.calls (Event.owner e), e with
  | none, .query c lane questions timeoutMs order now =>
    some (s.put c (start disabled s lane questions timeoutMs order now))
  | some call, e => advance disabled s (Event.owner e) call e
  | none, _ => none

end State

end LocalMind.JevQuery
