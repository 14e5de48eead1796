import LocalMind.Concurrent.Program
import Mathlib.Data.Fin.Basic
import Mathlib.Data.List.FinRange

namespace LocalMind.Backends
open Concurrent
set_option autoImplicit true

/-- A reading of the monotonic clock. -/
abbrev Instant := Nat

/-- The shared part of a node. The count never wraps at the top, where each unit is a live handle
in memory; one below 0 stands for a count that wrapped there. -/
structure BackendNode where
  activeRequests : Int
  healthy : Bool
  cooldownUntil : Instant
deriving DecidableEq, Repr

/-- The atomic operations on `n + 1` nodes (a balancer refuses an empty list) and the counter. -/
inductive NodeOp (n : Nat)
  | loadHealthy (i : Fin (n + 1))
  | storeHealthy (i : Fin (n + 1)) (healthy : Bool)
  | loadCooldownUntil (i : Fin (n + 1))
  | storeCooldownUntil (i : Fin (n + 1)) (expiry : Instant)
  | compareExchange (i : Fin (n + 1))
  | fetchAdd (i : Fin (n + 1))
  | fetchSub (i : Fin (n + 1))
  | fetchAddCounter
deriving DecidableEq, Repr

namespace NodeOp

abbrev Ret : NodeOp n → Type
  | loadHealthy _ => Bool
  | storeHealthy _ _ => Unit
  | loadCooldownUntil _ => Instant
  | storeCooldownUntil _ _ => Unit
  | compareExchange _ => Bool
  | fetchAdd _ => Int
  | fetchSub _ => Int
  | fetchAddCounter => Nat

end NodeOp

structure Nodes (n : Nat) where
  node : Fin (n + 1) → BackendNode
  counter : Nat

namespace Nodes

def active (s : Nodes n) (i : Fin (n + 1)) : Int := (s.node i).activeRequests

def setNode (s : Nodes n) (i : Fin (n + 1)) (node : BackendNode) : Nodes n :=
  { s with node := Function.update s.node i node }

def setActive (s : Nodes n) (i : Fin (n + 1)) (active : Int) : Nodes n :=
  s.setNode i { s.node i with activeRequests := active }

/-- The answer of an operation and the nodes it leaves. -/
def exec (s : Nodes n) : (o : NodeOp n) → o.Ret × Nodes n
  | .loadHealthy i => ((s.node i).healthy, s)
  | .storeHealthy i healthy => ((), s.setNode i { s.node i with healthy })
  | .loadCooldownUntil i => ((s.node i).cooldownUntil, s)
  | .storeCooldownUntil i expiry => ((), s.setNode i { s.node i with cooldownUntil := expiry })
  | .compareExchange i => if s.active i = 0 then (true, s.setActive i 1) else (false, s)
  | .fetchAdd i => (s.active i, s.setActive i (s.active i + 1))
  | .fetchSub i => (s.active i, s.setActive i (s.active i - 1))
  | .fetchAddCounter => (s.counter, { s with counter := (s.counter + 1) % 2 ^ 64 })

theorem active_setActive (s : Nodes n) (i j : Fin (n + 1)) (a : Int) :
    (s.setActive i a).active j = if j = i then a else s.active j := by
  rw [active, active, setActive, setNode]
  by_cases h : j = i
  · subst h
    simp only [Function.update_self, ↓reduceIte]
  · simp only [Function.update_of_ne h, if_neg h]

theorem active_setNode (s : Nodes n) (i j : Fin (n + 1)) (node : BackendNode)
    (h : node.activeRequests = s.active i) : (s.setNode i node).active j = s.active j := by
  rw [active, active, setNode]
  by_cases hj : j = i
  · subst hj
    simp only [Function.update_self, h, active]
  · simp only [Function.update_of_ne hj]

end Nodes

abbrev NodeProgram (n : Nat) := Program (NodeOp n) NodeOp.Ret

open Program NodeOp

/-- The two loads of the check are separate steps. -/
def inCooldown (i : Fin (n + 1)) (now : Instant) : NodeProgram n Bool := do
  if ← perform (loadHealthy i) then
    pure false
  else
    let expiry ← perform (loadCooldownUntil i)
    pure (decide (now < expiry))

/-- The expiry is stored before the flag; a window that overflows the clock was clamped. -/
def markFailed (i : Fin (n + 1)) (expiry : Instant) : NodeProgram n Unit := do
  perform (storeCooldownUntil i expiry)
  perform (storeHealthy i false)

def markHealthy (i : Fin (n + 1)) : NodeProgram n Unit :=
  perform (storeHealthy i true)

/-- The walk over all nodes from `start`, wrapping at the end. -/
def candidateOrder (n start : Nat) : List (Fin (n + 1)) :=
  (List.range (n + 1)).map fun step => Fin.ofNat (n + 1) (start % (n + 1) + step)

/-- The first node of least expiry (`min_by_key` keeps the earlier of equals). -/
def soonestFrom (best : Fin (n + 1)) (soonest : Instant) :
    List (Fin (n + 1)) → NodeProgram n (Fin (n + 1))
  | [] => pure best
  | i :: rest => do
    let expiry ← perform (loadCooldownUntil i)
    if expiry < soonest then soonestFrom i expiry rest else soonestFrom best soonest rest

def soonestRecoveringNode : NodeProgram n (Fin (n + 1)) := do
  let expiry ← perform (loadCooldownUntil 0)
  soonestFrom 0 expiry (List.finRange (n + 1)).tail

/-- The claim a guard makes for itself. -/
def BackendGuard.new (i : Fin (n + 1)) : NodeProgram n (Fin (n + 1)) := do
  let _ ← perform (fetchAdd i)
  pure i

/-- What `Drop` runs once the last clone is gone; the second step undoes a wrap below 0. -/
def BusyHandle.drop (i : Fin (n + 1)) : NodeProgram n Unit := do
  let prev ← perform (fetchSub i)
  if prev = 0 then
    let _ ← perform (fetchAdd i)
    pure ()

namespace PriorityFreeBalancer

/-- The first loop: claim the first node that is neither cooled nor busy. -/
def claimFree (now : Instant) : List (Fin (n + 1)) → NodeProgram n (Option (Fin (n + 1)))
  | [] => pure none
  | i :: rest => do
    if ← inCooldown i now then
      claimFree now rest
    else if ← perform (compareExchange i) then
      pure (some i)
    else
      claimFree now rest

/-- `usize::MAX`, the load before any candidate, is above every load. -/
def lower (load : Int) (best : Option (Fin (n + 1) × Int)) : Bool :=
  match best with
  | none => true
  | some (_, bestLoad) => decide (load < bestLoad)

/-- The second loop: reserve every candidate, keeping the least loaded and what was reserved. -/
def reserveAll (now : Instant) (best : Option (Fin (n + 1) × Int)) (reserved : List (Fin (n + 1))) :
    List (Fin (n + 1)) → NodeProgram n (Option (Fin (n + 1) × Int) × List (Fin (n + 1)))
  | [] => pure (best, reserved)
  | i :: rest => do
    if ← inCooldown i now then
      reserveAll now best reserved rest
    else
      let load ← perform (fetchAdd i)
      reserveAll now (if lower load best then some (i, load) else best) (reserved ++ [i]) rest

def releaseOthers (best : Fin (n + 1)) : List (Fin (n + 1)) → NodeProgram n Unit
  | [] => pure ()
  | i :: rest =>
    if i = best then
      releaseOthers best rest
    else do
      let _ ← perform (fetchSub i)
      releaseOthers best rest

def select (n : Nat) (now : Instant) : NodeProgram n (Fin (n + 1)) := do
  match ← claimFree now (candidateOrder n 0) with
  | some i => pure i
  | none =>
    let (best, reserved) ← reserveAll now none [] (candidateOrder n 0)
    match best with
    | some (i, _) =>
      releaseOthers i reserved
      pure i
    | none => BackendGuard.new (← soonestRecoveringNode)

end PriorityFreeBalancer

namespace RoundRobinBalancer

def selectFrom (now : Instant) : List (Fin (n + 1)) → NodeProgram n (Fin (n + 1))
  | [] => do BackendGuard.new (← soonestRecoveringNode)
  | i :: rest => do
    if ← inCooldown i now then
      selectFrom now rest
    else
      BackendGuard.new i

def select (n : Nat) (now : Instant) : NodeProgram n (Fin (n + 1)) := do
  let start ← perform fetchAddCounter
  selectFrom now (candidateOrder n start)

end RoundRobinBalancer

end LocalMind.Backends
