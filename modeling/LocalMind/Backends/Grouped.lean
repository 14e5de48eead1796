import LocalMind.Backends.Balancer
import LocalMind.Config.Backends
import LocalMind.Text.Utf8
import Mathlib.Data.List.Lex
import Mathlib.Data.List.Sort

namespace LocalMind.Backends
open Concurrent Config
set_option autoImplicit true

/-- A name as its bytes, in the order of which names are compared. -/
def nameBytes (name : String) : List Nat := (Utf8.encode name.toList).map UInt8.toNat

theorem nameBytes_injective (h : nameBytes a = nameBytes b) : a = b := by
  have hbytes := List.map_injective_iff.2 (fun _ _ => UInt8.toNat_inj.1) h
  rw [← String.toList_inj, ← Utf8.decodeLossy_encode a.toList, hbytes, Utf8.decodeLossy_encode]

/-- The part of a node that no call changes; `C` is the type of the HTTP clients. -/
structure NodeSettings (F C : Type) where
  url : String
  model : Option String
  apiKey : Option String
  timeoutSeconds : Nat
  httpClient : C
  stripPathPrefix : Option String
  temperature : Option F

structure BackendGuard (F C : Type) where
  node : NodeSettings F C
  groupName : Option String

inductive BalancingStrategy
  | priorityFree
  | roundRobin
deriving DecidableEq

def BalancingStrategy.fromStr (s : String) : Except String BalancingStrategy :=
  if s = "priority-free" ∨ s = "priority_free" then
    .ok .priorityFree
  else if s = "round-robin" ∨ s = "round_robin" then
    .ok .roundRobin
  else
    .error s!"Unknown load balancer strategy: '{s}'. Supported: priority-free, round-robin"

def BalancingStrategy.balancerName : BalancingStrategy → String
  | priorityFree => "PriorityFreeBalancer"
  | roundRobin => "RoundRobinBalancer"

/-- A balancer of one group; neither constructor takes an empty list. -/
structure LoadBalancer (F C : Type) where
  strategy : BalancingStrategy
  nodes : List (NodeSettings F C)
  nonempty : nodes ≠ []

namespace LoadBalancer

def new (strategy : BalancingStrategy) (nodes : List (NodeSettings F C)) :
    Except String (LoadBalancer F C) :=
  if h : nodes = [] then
    .error s!"{strategy.balancerName} requires at least one node"
  else
    .ok ⟨strategy, nodes, h⟩

/-- The index of the last node. -/
def last (lb : LoadBalancer F C) : Nat := lb.nodes.length - 1

theorem last_lt (lb : LoadBalancer F C) : lb.last + 1 = lb.nodes.length :=
  Nat.sub_add_cancel (List.length_pos_iff.2 lb.nonempty)

def node (lb : LoadBalancer F C) (i : Fin (lb.last + 1)) : NodeSettings F C :=
  lb.nodes.get (i.cast lb.last_lt)

def selectNode (lb : LoadBalancer F C) (now : Instant) : NodeProgram lb.last (Fin (lb.last + 1)) :=
  match lb.strategy with
  | .priorityFree => PriorityFreeBalancer.select lb.last now
  | .roundRobin => RoundRobinBalancer.select lb.last now

/-- A call of the group's own balancer, which looks at no model. -/
def select (lb : LoadBalancer F C) (now : Instant) :
    NodeProgram lb.last (Except NoMatchingBackend (BackendGuard F C)) := do
  let i ← lb.selectNode now
  pure (.ok ⟨lb.node i, none⟩)

end LoadBalancer

structure BackendGroup (F C : Type) where
  mappings : List String
  balancer : LoadBalancer F C
  name : String
  exclusive : Bool

namespace BackendGroup

def mapsModel (group : BackendGroup F C) (model : String) : Bool := group.mappings.any (· == model)

def isCatchAll (group : BackendGroup F C) : Bool := group.mappings.isEmpty

end BackendGroup

structure GroupedLoadBalancer (F C : Type) where
  groups : List (BackendGroup F C)

/-- A call under way on the nodes of the group it was routed to. -/
structure Selection (F C : Type) where
  group : BackendGroup F C
  program : NodeProgram group.balancer.last (Except NoMatchingBackend (BackendGuard F C))

namespace GroupedLoadBalancer

section
variable (buildNodeClient : Nat → Option TlsConfig → Except String C)

def fromConfig (config : BackendNodeConfig F) : Except String (NodeSettings F C) := do
  let httpClient ← buildNodeClient config.timeoutSeconds config.tls
  pure ⟨config.url, config.model, config.apiKey, config.timeoutSeconds, httpClient,
    config.stripPathPrefix, config.temperature⟩

def buildBalancerForGroup (nodes : List (NodeSettings F C)) (strategy : String) :
    Except String (LoadBalancer F C) := do
  let strategy ← BalancingStrategy.fromStr strategy
  LoadBalancer.new strategy nodes

def buildGroup (entry : String × BackendGroupConfig F) : Except String (BackendGroup F C) := do
  let nodes ← entry.2.nodes.mapM (fromConfig buildNodeClient)
  let balancer ← buildBalancerForGroup nodes entry.2.strategy
  pure ⟨entry.2.mappings, balancer, entry.1, entry.2.exclusive⟩

def sortEntries (entries : List (String × BackendGroupConfig F)) :
    List (String × BackendGroupConfig F) :=
  entries.insertionSort fun a b => nameBytes a.1 ≤ nameBytes b.1

def new (groupConfigs : BackendsConfig F) : Except String (GroupedLoadBalancer F C) := do
  let groups ← (sortEntries groupConfigs.entries).mapM (buildGroup buildNodeClient)
  pure ⟨groups⟩

end

def findGroup (lb : GroupedLoadBalancer F C) (model : Option String) :
    Option (BackendGroup F C) :=
  match model.bind fun m => lb.groups.find? fun g => !g.isCatchAll && g.mapsModel m with
  | some group => some group
  | none =>
    match lb.groups.find? fun g => g.isCatchAll with
    | some group => some group
    | none => lb.groups.find? fun g => !g.exclusive

/-- The inner guard with the group's name; an inner refusal is passed on. -/
def nameGuard (name : String) :
    Except NoMatchingBackend (BackendGuard F C) → Except NoMatchingBackend (BackendGuard F C)
  | .ok guard => .ok { guard with groupName := some name }
  | .error e => .error e

def select (lb : GroupedLoadBalancer F C) (now : Instant) (model : Option String) :
    Except NoMatchingBackend (Selection F C) :=
  match lb.findGroup model with
  | some group => .ok ⟨group, do
      let guard ← group.balancer.select now
      pure (nameGuard group.name guard)⟩
  | none => .error ⟨model⟩

end GroupedLoadBalancer

end LocalMind.Backends
