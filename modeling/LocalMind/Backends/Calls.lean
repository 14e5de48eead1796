import LocalMind.Backends.Balancer
import LocalMind.Concurrent.Run

namespace LocalMind.Backends
open Concurrent
set_option autoImplicit true

/-- The units a program has put on the counters and not taken back. -/
def claiming (n : Nat) : Ghost (NodeOp n) NodeOp.Ret (Multiset (Fin (n + 1))) where
  allows held
    | .fetchSub i => i ∈ held
    | _ => True
  expects _
    | .fetchSub _, prev => prev ≠ 0
    | _, _ => True
  next held
    | .compareExchange i, true => i ::ₘ held
    | .fetchAdd i, _ => i ::ₘ held
    | .fetchSub i, _ => held.erase i
    | _, _ => held

/-- A `select` call up to the drop of its guard's handle, or another call on the nodes. Beside a
program stand the units it has on the counters. -/
inductive Task (n : Nat)
  | selecting (program : NodeProgram n (Fin (n + 1))) (held : Multiset (Fin (n + 1)))
  /-- the claim of a returned `select`: its guard and so many clones share one handle -/
  | guarded (node : Fin (n + 1)) (clones : Nat)
  /-- the handle's drop, or a `mark_failed` or `mark_healthy` call -/
  | effect (program : NodeProgram n Unit) (held : Multiset (Fin (n + 1)))
  | ended

namespace Task

/-- The next atomic step of a running call, or its return. -/
def advance (s : Nodes n) : Task n → Option (Nodes n × Task n)
  | selecting (.ret i) _ => some (s, guarded i 0)
  | selecting (.act o k) held =>
    let r := s.exec o
    some (r.2, selecting (k r.1) ((claiming n).next held o r.1))
  | effect (.ret _) _ => some (s, ended)
  | effect (.act o k) held =>
    let r := s.exec o
    some (r.2, effect (k r.1) ((claiming n).next held o r.1))
  | _ => none

def clone : Task n → Option (Task n)
  | guarded i clones => some (guarded i (clones + 1))
  | _ => none

/-- The drop of one guard; the last one drops the handle. -/
def dropGuard : Task n → Option (Task n)
  | guarded i (clones + 1) => some (guarded i clones)
  | guarded i 0 => some (effect (BusyHandle.drop i) {i})
  | _ => none

/-- The live claims on a node: a handle whose drop has not taken its unit back. -/
def claims (i : Fin (n + 1)) : Task n → Nat
  | guarded j _ => if i = j then 1 else 0
  | effect _ held => held.count i
  | _ => 0

/-- The reservations a `select` in flight holds on a node. -/
def reserves (i : Fin (n + 1)) : Task n → Nat
  | selecting _ held => held.count i
  | _ => 0

/-- The operation a running call performs next. -/
def pending : Task n → Option (NodeOp n)
  | selecting (.act o _) _ => some o
  | effect (.act o _) _ => some o
  | _ => none

def isSelecting : Task n → Bool
  | selecting _ _ => true
  | _ => false

end Task

inductive Event (n : Nat)
  | priorityFree (now : Instant)
  | roundRobin (now : Instant)
  | markFailed (i : Fin (n + 1)) (expiry : Instant)
  | markHealthy (i : Fin (n + 1))
  | step (t : Nat)
  | clone (t : Nat)
  | dropGuard (t : Nat)

/-- The nodes and every call made on them so far. -/
structure Pool (n : Nat) where
  nodes : Nodes n
  tasks : List (Task n)

namespace Pool

def start (s : Pool n) (task : Task n) : Pool n := { s with tasks := s.tasks ++ [task] }

def step (s : Pool n) : Event n → Option (Pool n)
  | .priorityFree now => s.start (.selecting (PriorityFreeBalancer.select n now) 0)
  | .roundRobin now => s.start (.selecting (RoundRobinBalancer.select n now) 0)
  | .markFailed i expiry => s.start (.effect (Backends.markFailed i expiry) 0)
  | .markHealthy i => s.start (.effect (Backends.markHealthy i) 0)
  | .step t => do
    let task ← s.tasks[t]?
    let (nodes, task) ← task.advance s.nodes
    pure ⟨nodes, s.tasks.set t task⟩
  | .clone t => do
    let task ← (← s.tasks[t]?).clone
    pure { s with tasks := s.tasks.set t task }
  | .dropGuard t => do
    let task ← (← s.tasks[t]?).dropGuard
    pure { s with tasks := s.tasks.set t task }

abbrev run (s : Pool n) (es : List (Event n)) : Option (Pool n) := Concurrent.run step s es

abbrev trace (s : Pool n) (es : List (Event n)) : List (Pool n) := Concurrent.trace step s es

/-- A constructed balancer over nodes read from the configuration. -/
def new (n : Nat) (now : Instant) : Pool n := ⟨⟨fun _ => ⟨0, true, now⟩, 0⟩, []⟩

/-- No call has been made and no claim stands; the nodes may be in any health. -/
def Fresh (s : Pool n) : Prop := s.tasks = [] ∧ ∀ i, s.nodes.active i = 0

def Reachable (s : Pool n) : Prop := ∃ s₀ es, Fresh s₀ ∧ s₀.run es = some s

def liveClaims (s : Pool n) (i : Fin (n + 1)) : Nat := (s.tasks.map (Task.claims i)).sum

def reservations (s : Pool n) (i : Fin (n + 1)) : Nat := (s.tasks.map (Task.reserves i)).sum

theorem new_fresh (n : Nat) (now : Instant) : (new n now).Fresh := ⟨rfl, fun _ => rfl⟩

theorem Reachable.run (h : Reachable s) (hrun : s.run es = some t) : Reachable t := by
  obtain ⟨s₀, es₀, hfresh, hs⟩ := h
  refine ⟨s₀, es₀ ++ es, hfresh, ?_⟩
  exact (run_append s₀ es₀ es).trans (Option.bind_eq_some_iff.2 ⟨s, hs, hrun⟩)

theorem Reachable.trace (h : Reachable s) (hmem : u ∈ s.trace es) : Reachable u := by
  obtain ⟨fs, hrun⟩ := exists_run_of_mem_trace hmem
  exact h.run hrun

end Pool

end LocalMind.Backends
