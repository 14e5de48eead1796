import LocalMind.Concurrent.Run

namespace LocalMind
set_option autoImplicit true

def CAPACITY : Nat := 1024

def RETRY_DELAYS_MS : List Nat := [100, 500, 2000]

/-- How a sample left the worker. -/
inductive Fate
  | written
  | dropped
deriving DecidableEq, Repr

/-- The loop that polls: the worker's own, the drain a ping asked for, the drain at exit. -/
inductive Drain
  | idle
  | ping
  | exit
deriving DecidableEq, Repr

/-- Where the worker stands; each state is followed by one atomic step. -/
inductive Worker (α : Type)
  | receive
  | poll (drain : Drain)
  | write (drain : Drain) (sample : α) (attempt : Nat)
  | ack (drain : Drain)
  | sleep
  | finalAck
  | done
deriving DecidableEq, Repr

inductive FlushState
  | register
  | ping
  | wait
  | unregister
  | acked
  | unacked
deriving DecidableEq, Repr

/-- A `flush` call, with the number of samples accepted before it began. -/
structure Flush where
  before : Nat
  state : FlushState
  acks : Nat
deriving DecidableEq, Repr

/-- The end of an attempt: no point could be built, the write went through, or it did not. -/
inductive Attempt
  | rejected
  | ok
  | failed
deriving DecidableEq, Repr

inductive SendOutcome
  | queued
  | dropped
  | shutDown
deriving DecidableEq, Repr

/-- Queue, worker and calls; `accepted` and `settled` record what went in and what came of it. -/
structure WriterQueue (α : Type) where
  samples : List α
  samplesOpen : Bool
  pings : Nat
  drainsOpen : Bool
  waiters : List Nat
  worker : Worker α
  retries : Nat
  dropped : Nat
  flushes : List Flush
  accepted : List α
  settled : List (α × Fate)
deriving DecidableEq, Repr

namespace Worker

/-- The sample taken from the queue and not settled yet. -/
def inHand : Worker α → List α
  | write _ sample _ => [sample]
  | _ => []

/-- The worker found the queue empty, or closed for good, and has yet to sweep the tickets. -/
def sweeping : Worker α → Bool
  | ack _ => true
  | finalAck => true
  | _ => false

def afterWrite : Drain → Worker α
  | .idle => receive
  | drain => poll drain

def afterAck : Drain → Worker α
  | .idle => sleep
  | .ping => receive
  | .exit => finalAck

/-- `Poll::Gone`: all senders closed and nothing left. -/
def gone : Drain → Worker α
  | .idle => poll .exit
  | .ping => receive
  | .exit => finalAck

end Worker

def Flush.returned (f : Flush) : Bool := f.state = .acked || f.state = .unacked

inductive WriterEvent (α : Type)
  | enqueue (sample : α)
  | startFlush
  | flush (i : Nat)
  | timeout (i : Nat)
  | work (attempt : Attempt)
  | shutdown
  | drop

namespace WriterQueue

def spawn : WriterQueue α :=
  { samples := [], samplesOpen := true, pings := 0, drainsOpen := true, waiters := []
    worker := .receive, retries := 0, dropped := 0, flushes := [], accepted := [], settled := [] }

def enqueue (s : WriterQueue α) (sample : α) : SendOutcome × WriterQueue α :=
  if s.samplesOpen = false then
    (.shutDown, s)
  else
    match s.worker with
    | .done => (.shutDown, s)
    | _ =>
      if s.samples.length < CAPACITY then
        (.queued, { s with samples := s.samples ++ [sample], accepted := s.accepted ++ [sample] })
      else
        (.dropped, { s with dropped := s.dropped + 1 })

def settle (s : WriterQueue α) (drain : Drain) (sample : α) (fate : Fate) : WriterQueue α :=
  { s with
    worker := .afterWrite drain
    dropped := if fate = .dropped then s.dropped + 1 else s.dropped
    settled := s.settled ++ [(sample, fate)] }

/-- Each ticket whose waiter still listens gets one message; the others are removed. -/
def ackWaiters (s : WriterQueue α) (worker : Worker α) : WriterQueue α :=
  { s with
    worker
    waiters := s.waiters.filter fun i => (s.flushes[i]?).any fun f => !f.returned
    flushes := s.flushes.mapIdx fun i f =>
      if i ∈ s.waiters ∧ f.returned = false then { f with acks := f.acks + 1 } else f }

/-- One atomic step of the worker; `attempt` is how the write at hand ends. -/
def work (s : WriterQueue α) (attempt : Attempt) : Option (WriterQueue α) :=
  match s.worker with
  | .receive =>
    if 0 < s.pings then some { s with pings := s.pings - 1, worker := .poll .ping }
    else if s.drainsOpen then some { s with worker := .poll .idle }
    else some { s with worker := .poll .exit }
  | .poll drain =>
    match s.samples with
    | sample :: rest => some { s with samples := rest, worker := .write drain sample 0 }
    | [] => some { s with worker := if s.samplesOpen then .ack drain else .gone drain }
  | .write drain sample n =>
    match attempt with
    | .rejected => if n = 0 then some (s.settle drain sample .dropped) else none
    | .ok => some (s.settle drain sample .written)
    | .failed =>
      if n < RETRY_DELAYS_MS.length then
        some { s with retries := s.retries + 1, worker := .write drain sample (n + 1) }
      else
        some (s.settle drain sample .dropped)
  | .ack drain => some (s.ackWaiters (.afterAck drain))
  | .sleep => some { s with worker := .receive }
  | .finalAck => some (s.ackWaiters .done)
  | .done => none

def setFlush (s : WriterQueue α) (i : Nat) (f : Flush) : WriterQueue α :=
  { s with flushes := s.flushes.set i f }

def pingable (s : WriterQueue α) : Bool :=
  s.drainsOpen && match s.worker with
    | .done => false
    | _ => true

/-- The next atomic step of a `flush` call; `wait` blocks until there is a message. -/
def flushStep (s : WriterQueue α) (i : Nat) (f : Flush) : Option (WriterQueue α) :=
  match f.state with
  | .register => some { s.setFlush i { f with state := .ping } with waiters := s.waiters ++ [i] }
  | .ping =>
    if s.pingable then
      some { s.setFlush i { f with state := .wait } with pings := s.pings + 1 }
    else
      some (s.setFlush i { f with state := .unacked })
  | .wait =>
    if 0 < f.acks then some (s.setFlush i { f with state := .acked, acks := f.acks - 1 }) else none
  | .unregister => some { s.setFlush i { f with state := .unacked } with
      waiters := s.waiters.erase i }
  | _ => none

/-- `FLUSH_WAIT` runs out on a waiter that got no message. -/
def flushTimeout (s : WriterQueue α) (i : Nat) (f : Flush) : Option (WriterQueue α) :=
  if f.state = .wait ∧ f.acks = 0 then some (s.setFlush i { f with state := .unregister }) else none

def step (s : WriterQueue α) : WriterEvent α → Option (WriterQueue α)
  | .enqueue sample => some (s.enqueue sample).2
  | .startFlush => some { s with flushes := s.flushes ++ [⟨s.accepted.length, .register, 0⟩] }
  | .flush i => do s.flushStep i (← s.flushes[i]?)
  | .timeout i => do s.flushTimeout i (← s.flushes[i]?)
  | .work attempt => s.work attempt
  | .shutdown => some { s with samplesOpen := false }
  | .drop => some { s with samplesOpen := false, drainsOpen := false }

end WriterQueue

end LocalMind
