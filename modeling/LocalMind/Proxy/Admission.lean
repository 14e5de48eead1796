import LocalMind.Concurrent.Holdings
import LocalMind.Concurrent.Run
import LocalMind.Proxy.Overrides
import Mathlib.Logic.Function.Basic

namespace LocalMind.Admission
open Concurrent
set_option autoImplicit true

/-! Requests in flight, and the counters, permits and claims that they hold. -/

inductive Method where
  | get
  | post
  | other (name : String)
  deriving DecidableEq

structure Request where
  method : Method
  path : List Char

def SHIM_PATH : List Char := "/api/models/vram-estimate".toList

/-- The path that the proxy answers itself, with or without one slash behind it. -/
def isVramEstimatePath (path : List Char) : Bool :=
  (if path.getLast? = some '/' then path.dropLast else path) == SHIM_PATH

inductive Route where
  | vramEstimate
  | passThrough
  | metrics
  | forward
  deriving DecidableEq

/-- Where a request goes, by its path and by the path that its node knows. -/
def route (node : RoutedNode) (req : Request) : Route :=
  let routed := node.effectivePath req.path
  if req.method = .post && (isVramEstimatePath req.path || isVramEstimatePath routed) then
    .vramEstimate
  else if req.method = .get &&
      ["/props".toList, "/slots".toList, "/v1/health".toList, "/v1/models".toList,
        "/metrics".toList].contains routed then
    .passThrough
  else if req.method = .get && routed == "/proxy/metrics".toList then .metrics
  else .forward

/-- What an exchange keeps until it is dropped. -/
inductive Resource where
  /-- its part of `concurrent_requests` -/
  | gauge
  /-- its claim on a node -/
  | claim (node : Nat)
  | permit
  deriving DecidableEq

inductive Answer where
  | badBody
  | noBackend
  | vramEstimate
  | passedThrough
  | metrics (rejected concurrent : Int)
  | atCapacity (maximum : Nat)
  | augmentError
  | connectError
  | buffered
  | streamed
  deriving DecidableEq

inductive Stage where
  | reading
  | selecting
  | routing (node : Nat)
  /-- the shim's own answer or a monitoring request, which wait for the backend -/
  | probing (node : Nat)
  | scraping (node : Nat) (rejected : Int)
  | admitting (node : Nat)
  | forwarding (node : Nat)
  /-- the handler has returned and the client reads the body -/
  | streaming (node : Nat)
  /-- what is left is dropped; there is no answer where the client has gone -/
  | closing (answer : Option Answer)
  deriving DecidableEq

structure Exchange where
  request : Request
  stage : Stage
  /-- in the order in which they are dropped -/
  held : List Resource

structure Config where
  maxConcurrentRequests : Nat
  node : Nat → RoutedNode

/-- The shared counters, where one below 0 stands for one that wrapped, and every exchange so
far. -/
structure State where
  concurrent : Int
  /-- the free permits of the semaphore, if there is one -/
  permits : Option Nat
  rejected : Int
  active : Nat → Int
  exchanges : List Exchange

def State.boot (cfg : Config) : State where
  concurrent := 0
  permits := if 0 < cfg.maxConcurrentRequests then some cfg.maxConcurrentRequests else none
  rejected := 0
  active := fun _ => 0
  exchanges := []

namespace State

def take (s : State) : Resource → State
  | .gauge => { s with concurrent := s.concurrent + 1 }
  | .claim n => { s with active := Function.update s.active n (s.active n + 1) }
  | .permit => { s with permits := s.permits.map (· - 1) }

def give (s : State) : Resource → State
  | .gauge => { s with concurrent := s.concurrent - 1 }
  | .claim n => { s with active := Function.update s.active n (s.active n - 1) }
  | .permit => { s with permits := s.permits.map (· + 1) }

def put (s : State) (c : Nat) (x : Exchange) : State :=
  { s with exchanges := s.exchanges.set c x }

/-- An exchange goes on with what it holds. -/
def move (s : State) (c : Nat) (x : Exchange) (stage : Stage) : State :=
  s.put c { x with stage := stage }

/-- An exchange goes on with one thing more. -/
def gain (s : State) (c : Nat) (x : Exchange) (r : Resource) (stage : Stage) : State :=
  (s.take r).put c { x with stage := stage, held := r :: x.held }

end State

inductive Event where
  | arrive (req : Request)
  | read (c : Nat) (ok : Bool)
  | select (c : Nat) (node : Option Nat)
  | route (c : Nat)
  | probe (c : Nat)
  | scrape (c : Nat)
  | acquire (c : Nat)
  | fail (c : Nat) (augmenting : Bool)
  | buffer (c : Nat)
  | stream (c : Nat)
  | finish (c : Nat)
  | abandon (c : Nat)
  | release (c : Nat)

def probed (cfg : Config) (n : Nat) (req : Request) : Answer :=
  match Admission.route (cfg.node n) req with
  | .vramEstimate => .vramEstimate
  | _ => .passedThrough

/-- The next step of one exchange. -/
def State.advance (cfg : Config) (s : State) (c : Nat) (x : Exchange) : Event → Option State
  | .read _ ok =>
    match x.stage with
    | .reading => s.move c x (if ok then .selecting else .closing (some .badBody))
    | _ => none
  | .select _ node =>
    match x.stage, node with
    | .selecting, some n => s.gain c x (.claim n) (.routing n)
    | .selecting, none => s.move c x (.closing (some .noBackend))
    | _, _ => none
  | .route _ =>
    match x.stage with
    | .routing n =>
      match Admission.route (cfg.node n) x.request with
      | .metrics => s.move c x (.scraping n s.rejected)
      | .forward => s.move c x (.admitting n)
      | _ => s.move c x (.probing n)
    | _ => none
  | .probe _ =>
    match x.stage with
    | .probing n => s.move c x (.closing (some (probed cfg n x.request)))
    | _ => none
  | .scrape _ =>
    match x.stage with
    -- the scrape is in the gauge itself
    | .scraping _ rejected =>
      s.move c x (.closing (some (.metrics rejected (max 0 (s.concurrent - 1)))))
    | _ => none
  | .acquire _ =>
    match x.stage with
    | .admitting n =>
      if 0 < cfg.maxConcurrentRequests then
        match s.permits with
        | some (_ + 1) => s.gain c x .permit (.forwarding n)
        | some 0 =>
          { s with rejected := s.rejected + 1 }.move c x
            (.closing (some (.atCapacity cfg.maxConcurrentRequests)))
        | none => s.move c x (.forwarding n)
      else s.move c x (.forwarding n)
    | _ => none
  | .fail _ augmenting =>
    match x.stage with
    | .forwarding _ =>
      s.move c x (.closing (some (if augmenting then .augmentError else .connectError)))
    | _ => none
  | .buffer _ =>
    match x.stage with
    | .forwarding _ => s.move c x (.closing (some .buffered))
    | _ => none
  | .stream _ =>
    match x.stage with
    -- the permit and the claim go with the body
    | .forwarding n =>
      (s.give .gauge).put c { x with stage := .streaming n, held := x.held.erase .gauge }
    | _ => none
  | .finish _ =>
    match x.stage with
    | .streaming _ => s.move c x (.closing (some .streamed))
    | _ => none
  | .abandon _ =>
    match x.stage with
    | .reading => s.move c x (.closing none)
    | .probing _ => s.move c x (.closing none)
    | .forwarding _ => s.move c x (.closing none)
    | _ => none
  | .release _ =>
    match x.stage, x.held with
    | .closing _, r :: rest => (s.give r).put c { x with held := rest }
    | _, _ => none
  | .arrive _ => none

def Event.exchange : Event → Nat
  | .arrive _ => 0
  | .read c _ | .select c _ | .route c | .probe c | .scrape c | .acquire c | .fail c _ | .buffer c
  | .stream c | .finish c | .abandon c | .release c => c

def State.step (cfg : Config) (s : State) : Event → Option State
  | .arrive req =>
    some { s.take .gauge with exchanges := s.exchanges ++ [⟨req, .reading, [.gauge]⟩] }
  | e => (s.exchanges[e.exchange]?).bind fun x => s.advance cfg e.exchange x e

end LocalMind.Admission
