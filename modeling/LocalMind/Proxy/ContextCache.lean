import LocalMind.Backends.Preflight
import LocalMind.Concurrent.Holdings
import LocalMind.Concurrent.Run
import Mathlib.Logic.Function.Basic

namespace LocalMind.ContextCache
open Concurrent Json
set_option autoImplicit true

/-! The context sizes of the backends, kept for a while. -/

structure CacheEntry where
  value : Nat
  fetchedAt : Nat
  deriving DecidableEq

/-- In nanoseconds. -/
def CONTEXT_CACHE_TTL : Nat := 600 * 10 ^ 9

def entryIsFresh (now fetchedAt : Nat) : Bool := decide (now - fetchedAt < CONTEXT_CACHE_TTL)

/-- `default_generation_settings.n_ctx` of the answer to `/props`. -/
def nCtx (props : Value) : Option Nat := do
  let settings ← props.get "default_generation_settings"
  let n ← (settings.get "n_ctx").bind Value.asU64
  pure n.toNat

/-- What the answer to `/v1/models` says of a model. -/
def maxModelLen (models : Value) (modelName : Option String) : Option Nat := do
  let entries ← (models.get "data").bind Value.asArray
  Preflight.selectMaxModelLen entries modelName

inductive Kind where
  | fetch (modelName : Option String)
  | preflight (isLlamaCpp : Bool) (maxModelLen : Option Nat)
  | invalidate
  deriving DecidableEq

inductive Stage where
  | entering
  /-- with a read guard -/
  | reading
  | props
  | models
  | storing (value : Nat)
  /-- with the write guard -/
  | writing (value : Nat)
  | skipping (value : Nat)
  /-- with the write guard -/
  | removing
  | returned (value : Option Nat)
  | evicted (removed : Bool)
  | cancelled
  deriving DecidableEq

structure Task where
  url : String
  kind : Kind
  stage : Stage

structure State where
  now : Nat
  cache : String → Option CacheEntry
  readers : Nat
  writer : Bool
  evictions : Nat
  staleSkips : Nat
  tasks : List Task

def State.boot : State := ⟨0, fun _ => none, 0, false, 0, 0, []⟩

inductive Event where
  | tick (elapsed : Nat)
  | call (url : String) (kind : Kind)
  | step (c : Nat)
  /-- the backend's answer, if it is JSON -/
  | answer (c : Nat) (body : Option Value)
  /-- the caller drops a call that waits, as its timeout does -/
  | cancel (c : Nat)

/-- What an answer tells a call that waits for it. -/
def Task.told (task : Task) (body : Option Value) : Option Nat :=
  match task.stage, task.kind with
  | .props, _ => body.bind nCtx
  | .models, .fetch modelName => body.bind fun models => maxModelLen models modelName
  | _, _ => none

namespace State

def put (s : State) (c : Nat) (task : Task) (stage : Stage) : State :=
  { s with tasks := s.tasks.set c { task with stage := stage } }

@[simp] theorem put_cache (s : State) : (s.put c task stage).cache = s.cache := rfl

def free (s : State) : Bool := s.readers == 0 && !s.writer

/-- What a call does with the entry it reads. -/
def look (s : State) (task : Task) : Stage :=
  match task.kind with
  | .fetch _ =>
    match s.cache task.url with
    | some entry =>
      if entryIsFresh s.now entry.fetchedAt then .returned (some entry.value) else .props
    | none => .props
  | .preflight isLlamaCpp maxModelLen =>
    match s.cache task.url with
    | some entry => .returned (some entry.value)
    | none =>
      if isLlamaCpp then .props
      else
        match maxModelLen with
        | some ctx => .storing ctx
        | none => .returned none
  | .invalidate => .cancelled

def advance (s : State) (c : Nat) (task : Task) : Option State :=
  match task.stage with
  | .entering =>
    match task.kind with
    | .invalidate =>
      if s.free then some ({ s with writer := true }.put c task .removing)
      else some (s.put c task (.evicted false))
    | _ => if s.writer then none else some ({ s with readers := s.readers + 1 }.put c task .reading)
  | .reading => some ({ s with readers := s.readers - 1 }.put c task (s.look task))
  | .storing value =>
    if s.free then some ({ s with writer := true }.put c task (.writing value))
    else some (s.put c task (.skipping value))
  | .writing value =>
    some ({ s with
      writer := false
      cache := Function.update s.cache task.url (some ⟨value, s.now⟩) }.put c task
        (.returned (some value)))
  | .skipping value =>
    some ({ s with staleSkips := s.staleSkips + 1 }.put c task (.returned (some value)))
  | .removing =>
    let removed := (s.cache task.url).isSome
    some ({ s with
      writer := false
      cache := Function.update s.cache task.url none
      evictions := if removed then s.evictions + 1 else s.evictions }.put c task (.evicted removed))
  | _ => none

def receive (s : State) (c : Nat) (task : Task) (body : Option Value) : Option State :=
  match task.stage with
  | .props =>
    match task.told body with
    | some value => some (s.put c task (.storing value))
    | none =>
      match task.kind with
      | .fetch _ => some (s.put c task .models)
      | _ => some (s.put c task (.returned none))
  | .models =>
    match task.told body with
    | some value => some (s.put c task (.storing value))
    | none => some (s.put c task (.returned none))
  | _ => none

def drop (s : State) (c : Nat) (task : Task) : Option State :=
  match task.stage, task.kind with
  | .entering, .invalidate => none
  | .entering, _ => some (s.put c task .cancelled)
  | .props, _ => some (s.put c task .cancelled)
  | .models, _ => some (s.put c task .cancelled)
  | _, _ => none

def step (s : State) : Event → Option State
  | .tick elapsed => some { s with now := s.now + elapsed }
  | .call url kind => some { s with tasks := s.tasks ++ [⟨url, kind, .entering⟩] }
  | .step c => (s.tasks[c]?).bind (s.advance c)
  | .answer c body => (s.tasks[c]?).bind fun task => s.receive c task body
  | .cancel c => (s.tasks[c]?).bind (s.drop c)

end State

end LocalMind.ContextCache
