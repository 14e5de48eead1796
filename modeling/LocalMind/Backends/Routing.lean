import LocalMind.Backends.Grouped
import LocalMind.Order.FirstMin
import Mathlib.Data.List.Forall2

namespace LocalMind.Backends
open Concurrent Config Ordered
set_option autoImplicit true

/-! What the configuration says of a model, and that the balancer built from it does so. -/

abbrev Entries (F : Type) := List (String × BackendGroupConfig F)

def MapsModel (entries : Entries F) (model name : String) : Prop :=
  ∃ group, (name, group) ∈ entries ∧ model ∈ group.mappings

def CatchAll (entries : Entries F) (name : String) : Prop :=
  ∃ group, (name, group) ∈ entries ∧ group.mappings = []

/-- The least name of a group that is not exclusive. -/
def FirstOpen (entries : Entries F) (name : String) : Prop :=
  (∃ group, (name, group) ∈ entries ∧ group.exclusive = false) ∧
    ∀ e ∈ entries, e.2.exclusive = false → nameBytes name ≤ nameBytes e.1

def Mapped (entries : Entries F) (model : Option String) (name : String) : Prop :=
  ∃ m, model = some m ∧ MapsModel entries m name

def RoutesTo (entries : Entries F) (model : Option String) (name : String) : Prop :=
  Mapped entries model name ∨
    (¬ ∃ other, Mapped entries model other) ∧
      (CatchAll entries name ∨ (¬ ∃ other, CatchAll entries other) ∧ FirstOpen entries name)

/-- A group made of an entry of the configuration. -/
structure Built (buildNodeClient : Nat → Option TlsConfig → Except String C)
    (entry : String × BackendGroupConfig F) (group : BackendGroup F C) : Prop where
  name : group.name = entry.1
  mappings : group.mappings = entry.2.mappings
  exclusive : group.exclusive = entry.2.exclusive
  nodes : List.Forall₂ (fun config node =>
    GroupedLoadBalancer.fromConfig buildNodeClient config = .ok node)
    entry.2.nodes group.balancer.nodes

open GroupedLoadBalancer

theorem LoadBalancer.new_nodes {kind : BalancingStrategy} {nodes : List (NodeSettings F C)}
    (h : LoadBalancer.new kind nodes = .ok lb) : lb.nodes = nodes := by
  rw [LoadBalancer.new] at h
  by_cases hnil : nodes = []
  · rw [dif_pos hnil] at h
    cases h
  · rw [dif_neg hnil] at h
    cases h
    rfl

theorem buildGroup_built {build : Nat → Option TlsConfig → Except String C}
    {entry : String × BackendGroupConfig F} (h : buildGroup build entry = .ok group) :
    Built build entry group := by
  obtain ⟨nodes, hnodes, h⟩ := Fallible.bind_eq_ok_iff.1 h
  obtain ⟨lb, hlb, h⟩ := Fallible.bind_eq_ok_iff.1 h
  obtain ⟨strategy, _, hlb⟩ := Fallible.bind_eq_ok_iff.1 hlb
  cases h
  refine ⟨rfl, rfl, rfl, ?_⟩
  rw [LoadBalancer.new_nodes hlb]
  exact Fallible.forall₂_of_mapM_ok hnodes

theorem new_built {build : Nat → Option TlsConfig → Except String C} {configs : BackendsConfig F}
    (h : GroupedLoadBalancer.new build configs = .ok lb) :
    List.Forall₂ (Built build) (sortEntries configs.entries) lb.groups := by
  obtain ⟨groups, hgroups, h⟩ := Fallible.bind_eq_ok_iff.1 h
  cases h
  exact (Fallible.forall₂_of_mapM_ok hgroups).imp fun _ _ => buildGroup_built

/-- Construction stops at a node's client only. -/
theorem buildGroup_ok {build : Nat → Option TlsConfig → Except String C}
    {entry : String × BackendGroupConfig F} (hcomplete : Complete entry.2)
    (hclients : ∀ node ∈ entry.2.nodes, ∃ client, build node.timeoutSeconds node.tls = .ok client) :
    ∃ group, buildGroup build entry = .ok group := by
  have hnodes : ∃ nodes, entry.2.nodes.mapM (fromConfig build) = .ok nodes := by
    apply Fallible.mapM_ok_of_forall
    intro node hmem
    obtain ⟨client, hclient⟩ := hclients node hmem
    rw [fromConfig, hclient]
    exact ⟨_, rfl⟩
  obtain ⟨nodes, hnodes⟩ := hnodes
  have hne : nodes ≠ [] := by
    intro hnil
    subst hnil
    exact hcomplete.1 (List.length_eq_zero_iff.1 (Fallible.forall₂_of_mapM_ok hnodes).length_eq)
  have hlb : ∃ lb, buildBalancerForGroup nodes entry.2.strategy = .ok lb := by
    rw [buildBalancerForGroup]
    obtain h | h := hcomplete.2
    · rw [h]
      exact ⟨⟨.roundRobin, nodes, hne⟩, dif_neg hne⟩
    · rw [h]
      exact ⟨⟨.priorityFree, nodes, hne⟩, dif_neg hne⟩
  obtain ⟨lb, hlb⟩ := hlb
  rw [buildGroup, hnodes]
  refine ⟨⟨entry.2.mappings, lb, entry.1, entry.2.exclusive⟩, ?_⟩
  rw [Fallible.ok_bind, hlb]
  rfl

theorem mem_sortEntries {entries : Entries F} : e ∈ sortEntries entries ↔ e ∈ entries :=
  List.mem_insertionSort _

theorem new_ok {build : Nat → Option TlsConfig → Except String C} {configs : BackendsConfig F}
    (hcomplete : ∀ e ∈ configs.entries, Complete e.2)
    (hclients : ∀ e ∈ configs.entries, ∀ node ∈ e.2.nodes,
      ∃ client, build node.timeoutSeconds node.tls = .ok client) :
    ∃ lb, GroupedLoadBalancer.new build configs = .ok lb := by
  have hgroups : ∃ groups, (sortEntries configs.entries).mapM (buildGroup build) = .ok groups := by
    apply Fallible.mapM_ok_of_forall
    intro e he
    have hmem := mem_sortEntries.1 he
    exact buildGroup_ok (hcomplete e hmem) (hclients e hmem)
  obtain ⟨groups, hgroups⟩ := hgroups
  rw [GroupedLoadBalancer.new, hgroups]
  exact ⟨⟨groups⟩, rfl⟩

theorem sortEntries_pairwise (entries : Entries F) :
    (sortEntries entries).Pairwise fun a b => nameBytes a.1 ≤ nameBytes b.1 := by
  have : IsTrans (String × BackendGroupConfig F) fun a b => nameBytes a.1 ≤ nameBytes b.1 :=
    ⟨fun _ _ _ => le_trans⟩
  have : Std.Total fun a b : String × BackendGroupConfig F => nameBytes a.1 ≤ nameBytes b.1 :=
    ⟨fun a b => le_total (nameBytes a.1) (nameBytes b.1)⟩
  exact List.pairwise_insertionSort _ entries

theorem sortEntries_distinct {entries : Entries F} (h : (entries.map Prod.fst).Nodup) :
    ((sortEntries entries).map Prod.fst).Nodup :=
  ((List.perm_insertionSort _ entries).map Prod.fst).nodup_iff.2 h

theorem sortEntries_increasing {entries : Entries F} (h : (entries.map Prod.fst).Nodup) :
    (sortEntries entries).Pairwise fun a b => nameBytes a.1 < nameBytes b.1 := by
  have hne := List.pairwise_map.1 (sortEntries_distinct h)
  apply (hne.and (sortEntries_pairwise entries)).imp
  intro a b hab
  exact lt_of_le_of_ne hab.2 fun heq => hab.1 (nameBytes_injective heq)

/-- The sorted entries do not depend on the order in which the map gave them. -/
theorem sortEntries_perm {entries entries' : Entries F} (h : (entries.map Prod.fst).Nodup)
    (hperm : entries'.Perm entries) : sortEntries entries' = sortEntries entries := by
  have h' : (entries'.map Prod.fst).Nodup := (hperm.map Prod.fst).nodup_iff.2 h
  have hsorted : (sortEntries entries').Perm (sortEntries entries) :=
    (List.perm_insertionSort _ entries').trans
      (hperm.trans (List.perm_insertionSort _ entries).symm)
  apply hsorted.eq_of_pairwise _ (sortEntries_increasing h') (sortEntries_increasing h)
  intro a b _ _ hab hba
  exact absurd hba hab.not_gt

theorem apart_of_mem {entries : Entries F} (h : entries.Pairwise Apart) (ha : (a, x) ∈ entries)
    (hb : (b, y) ∈ entries) (hne : a ≠ b) : Apart (a, x) (b, y) := by
  have : Std.Symm (Apart (F := F)) := ⟨fun _ _ => Apart.symm⟩
  exact h.forall ha hb fun heq => hne (congrArg Prod.fst heq)

theorem mapsModel_unique {backends : BackendsConfig F} (h : backends.entries.Pairwise Apart)
    (ha : MapsModel backends.entries model a) (hb : MapsModel backends.entries model b) :
    a = b := by
  obtain ⟨group, hmem, hmaps⟩ := ha
  obtain ⟨group', hmem', hmaps'⟩ := hb
  by_contra hne
  exact (apart_of_mem h hmem hmem' hne).1 model hmaps hmaps'

theorem catchAll_unique {backends : BackendsConfig F} (h : backends.entries.Pairwise Apart)
    (ha : CatchAll backends.entries a) (hb : CatchAll backends.entries b) : a = b := by
  obtain ⟨group, hmem, hnil⟩ := ha
  obtain ⟨group', hmem', hnil'⟩ := hb
  by_contra hne
  exact (apart_of_mem h hmem hmem' hne).2 hnil hnil'

/-- A search ends at the group of a name exactly when the name has a property. -/
def Picks (found : Option (BackendGroup F C)) (P : String → Prop) : Prop :=
  ∀ name, found.map BackendGroup.name = some name ↔ P name

theorem Picks.congr {found : Option (BackendGroup F C)} (h : Picks found P)
    (heq : ∀ name, P name ↔ Q name) : Picks found Q :=
  fun name => (h name).trans (heq name)

theorem Picks.eq_none_iff {found : Option (BackendGroup F C)} (h : Picks found P) :
    found = none ↔ ¬ ∃ name, P name := by
  cases found with
  | none =>
    refine ⟨?_, fun _ => rfl⟩
    intro _ ⟨name, hname⟩
    cases (h name).2 hname
  | some group =>
    constructor
    · intro heq
      cases heq
    · intro hnone
      exact absurd ⟨group.name, (h group.name).1 rfl⟩ hnone

/-- A second search where the first finds nothing. -/
theorem Picks.orElse {found next : Option (BackendGroup F C)} (h : Picks found P)
    (hnext : Picks next Q) :
    Picks (found.or next) fun name => P name ∨ (¬ ∃ other, P other) ∧ Q name := by
  intro name
  cases found with
  | none =>
    have hnone := h.eq_none_iff.1 rfl
    rw [Option.none_or, hnext name]
    constructor
    · intro hq
      exact .inr ⟨hnone, hq⟩
    · intro hp
      exact (hp.resolve_left fun hp => hnone ⟨name, hp⟩).2
  | some group =>
    have hp : P group.name := (h group.name).1 rfl
    rw [Option.some_or, h name]
    constructor
    · exact .inl
    · intro hor
      exact hor.resolve_right fun hq => hq.1 ⟨group.name, hp⟩

theorem findGroup_eq_or (lb : GroupedLoadBalancer F C) (model : Option String) :
    lb.findGroup model =
      (model.bind fun m => lb.groups.find? fun g => !g.isCatchAll && g.mapsModel m).or
        ((lb.groups.find? fun g => g.isCatchAll).or (lb.groups.find? fun g => !g.exclusive)) := by
  rw [findGroup]
  cases model.bind fun m => lb.groups.find? fun g => !g.isCatchAll && g.mapsModel m with
  | some group => rfl
  | none =>
    cases lb.groups.find? fun g => g.isCatchAll with
    | some group => rfl
    | none => rfl

section
variable {build : Nat → Option TlsConfig → Except String C} {backends : BackendsConfig F}
  {lb : GroupedLoadBalancer F C}
  (hbuilt : List.Forall₂ (Built build) (sortEntries backends.entries) lb.groups)
include hbuilt

theorem exists_group_iff (P : List String → Bool → Prop) :
    (∃ group ∈ lb.groups, group.name = name ∧ P group.mappings group.exclusive) ↔
      ∃ config, (name, config) ∈ backends.entries ∧ P config.mappings config.exclusive := by
  constructor
  · intro ⟨group, hmem, hname, hp⟩
    obtain ⟨⟨name', config⟩, hentry, hb⟩ := Fallible.exists_left_of_forall₂ hbuilt hmem
    rw [hb.mappings, hb.exclusive] at hp
    rw [hb.name] at hname
    subst hname
    exact ⟨config, mem_sortEntries.1 hentry, hp⟩
  · intro ⟨config, hentry, hp⟩
    obtain ⟨group, hmem, hb⟩ :=
      Fallible.exists_right_of_forall₂ hbuilt (mem_sortEntries.2 hentry)
    refine ⟨group, hmem, hb.name, ?_⟩
    rw [hb.mappings, hb.exclusive]
    exact hp

theorem groups_increasing :
    lb.groups.Pairwise fun a b => nameBytes a.name < nameBytes b.name := by
  have hnames : (sortEntries backends.entries).map Prod.fst = lb.groups.map BackendGroup.name :=
    Fallible.map_eq_of_forall₂ hbuilt fun _ _ hb => hb.name.symm
  have hpair : ((sortEntries backends.entries).map Prod.fst).Pairwise
      fun a b => nameBytes a < nameBytes b := by
    rw [List.pairwise_map]
    exact sortEntries_increasing backends.distinct
  rw [hnames, List.pairwise_map] at hpair
  exact hpair

/-- What a search of the groups picks is the least name that has what is sought. -/
theorem find_picks (p : BackendGroup F C → Bool) (P : List String → Bool → Prop)
    (hp : ∀ group, p group = true ↔ P group.mappings group.exclusive) :
    Picks (lb.groups.find? p) fun name =>
      (∃ config, (name, config) ∈ backends.entries ∧ P config.mappings config.exclusive) ∧
        ∀ e ∈ backends.entries, P e.2.mappings e.2.exclusive → nameBytes name ≤ nameBytes e.1 := by
  have hfound := fun group =>
    find?_eq_some_iff_least (a := group) (p := p) (groups_increasing hbuilt)
  intro name
  constructor
  · intro h
    obtain ⟨group, hfind, rfl⟩ := Option.map_eq_some_iff.1 h
    obtain ⟨hmem, hpg, hmin⟩ := (hfound group).1 hfind
    constructor
    · exact (exists_group_iff hbuilt P).1 ⟨group, hmem, rfl, (hp group).1 hpg⟩
    · intro e he hpe
      obtain ⟨other, hother, hname, hpo⟩ := (exists_group_iff hbuilt P).2 ⟨e.2, he, hpe⟩
      rw [← hname]
      exact hmin other hother ((hp other).2 hpo)
  · intro ⟨hex, hmin⟩
    obtain ⟨group, hmem, hname, hpg⟩ := (exists_group_iff hbuilt P).2 hex
    subst hname
    refine Option.map_eq_some_iff.2 ⟨group, (hfound group).2 ⟨hmem, (hp group).2 hpg, ?_⟩, rfl⟩
    intro other hother hpo
    obtain ⟨config, he, hpe⟩ :=
      (exists_group_iff hbuilt P).1 ⟨other, hother, rfl, (hp other).1 hpo⟩
    exact hmin (other.name, config) he hpe

omit hbuilt in
theorem maps_iff (model : String) (group : BackendGroup F C) :
    (!group.isCatchAll && group.mapsModel model) = true ↔ model ∈ group.mappings := by
  rw [Bool.and_eq_true, BackendGroup.mapsModel, List.any_eq_true, BackendGroup.isCatchAll]
  constructor
  · intro ⟨_, m, hmem, heq⟩
    rw [← eq_of_beq heq]
    exact hmem
  · intro hmem
    refine ⟨?_, model, hmem, beq_self_eq_true model⟩
    cases hm : group.mappings with
    | nil =>
      rw [hm] at hmem
      cases hmem
    | cons m ms => rfl

theorem mapped_picks (hapart : backends.entries.Pairwise Apart) (model : Option String) :
    Picks (model.bind fun m => lb.groups.find? fun g => !g.isCatchAll && g.mapsModel m)
      (Mapped backends.entries model) := by
  cases model with
  | none =>
    intro name
    constructor
    · intro h
      cases h
    · intro ⟨m, hm, _⟩
      cases hm
  | some m =>
    apply (find_picks hbuilt _ (fun mappings _ => m ∈ mappings) (maps_iff m)).congr
    intro name
    constructor
    · intro h
      exact ⟨m, rfl, h.1⟩
    · intro ⟨m', hm, hmaps⟩
      cases hm
      refine ⟨hmaps, ?_⟩
      intro e he hmem
      exact (congrArg nameBytes (mapsModel_unique hapart hmaps ⟨e.2, he, hmem⟩)).le

theorem catchAll_picks (hapart : backends.entries.Pairwise Apart) :
    Picks (lb.groups.find? fun g => g.isCatchAll) (CatchAll backends.entries) := by
  have hiff : ∀ group : BackendGroup F C, group.isCatchAll = true ↔ group.mappings = [] :=
    fun _ => List.isEmpty_iff
  apply (find_picks hbuilt _ (fun mappings _ => mappings = []) hiff).congr
  intro name
  constructor
  · intro h
    exact h.1
  · intro hcatch
    refine ⟨hcatch, ?_⟩
    intro e he hnil
    exact (congrArg nameBytes (catchAll_unique hapart hcatch ⟨e.2, he, hnil⟩)).le

theorem open_picks :
    Picks (lb.groups.find? fun g => !g.exclusive) (FirstOpen backends.entries) :=
  find_picks hbuilt _ (fun _ exclusive => exclusive = false) fun _ => by rw [Bool.not_eq_true']

theorem findGroup_picks (hapart : backends.entries.Pairwise Apart) (model : Option String) :
    Picks (lb.findGroup model) (RoutesTo backends.entries model) := by
  rw [findGroup_eq_or]
  exact (mapped_picks hbuilt hapart model).orElse
    ((catchAll_picks hbuilt hapart).orElse (open_picks hbuilt))

end

/-- Whatever the nodes answer, the group's own balancer ends with one of its nodes. -/
theorem inner_meets (group : BackendGroup F C) (now : Instant) (g : List (Sigma NodeOp.Ret)) :
    Program.Meets (history (NodeOp group.balancer.last) NodeOp.Ret)
      (fun result _ => ∃ node ∈ group.balancer.nodes, result = .ok ⟨node, none⟩)
      (group.balancer.select now) g := by
  have hfree : ∀ {α : Type} (p : NodeProgram group.balancer.last α) h,
      p.Meets (history _ _) (fun _ _ => True) h := by
    intro α p
    induction p with
    | ret a => exact fun _ => trivial
    | act o k ih => exact fun h => ⟨trivial, fun r _ => ih r _⟩
  rw [LoadBalancer.select, Program.meets_bind]
  apply (hfree _ g).mono
  intro i h _
  exact ⟨group.balancer.node i, List.get_mem _ _, rfl⟩

theorem guard_meets (group : BackendGroup F C) (now : Instant) (g : List (Sigma NodeOp.Ret)) :
    Program.Meets (history (NodeOp group.balancer.last) NodeOp.Ret)
      (fun result _ => ∃ node ∈ group.balancer.nodes, result = .ok ⟨node, some group.name⟩)
      (do let guard ← group.balancer.select now; pure (nameGuard group.name guard)) g := by
  rw [Program.meets_bind]
  apply (inner_meets group now g).mono
  intro result h ⟨node, hmem, hresult⟩
  subst hresult
  exact ⟨node, hmem, rfl⟩

theorem RoutesTo.not_exclusive {backends : BackendsConfig F}
    (h : RoutesTo backends.entries model name) (hmem : (name, config) ∈ backends.entries)
    (hexclusive : config.exclusive = true) (hne : config.mappings ≠ []) :
    ∃ m, model = some m ∧ m ∈ config.mappings := by
  have hsame : ∀ {other}, (name, other) ∈ backends.entries → other = config := by
    intro other hother
    exact congrArg Prod.snd (List.inj_on_of_nodup_map backends.distinct hother hmem rfl)
  obtain ⟨m, hm, other, hother, hmaps⟩ | ⟨-, ⟨other, hother, hnil⟩ | ⟨-, hfirst⟩⟩ := h
  · rw [hsame hother] at hmaps
    exact ⟨m, hm, hmaps⟩
  · rw [hsame hother] at hnil
    exact absurd hnil hne
  · obtain ⟨other, hother, hopen⟩ := hfirst.1
    rw [hsame hother, hexclusive] at hopen
    cases hopen

/-- What the configuration promises of one call. -/
structure Routed (build : Nat → Option TlsConfig → Except String C) (backends : BackendsConfig F)
    (lb : GroupedLoadBalancer F C) (now : Instant) (model : Option String) : Prop where
  selects : ∀ name, (∃ call, lb.select now model = .ok call ∧ call.group.name = name) ↔
    RoutesTo backends.entries model name
  refuses : lb.select now model = .error ⟨model⟩ ↔ ¬ ∃ name, RoutesTo backends.entries model name
  exclusive : ∀ name config, (name, config) ∈ backends.entries → config.exclusive = true →
    config.mappings ≠ [] → (∃ call, lb.select now model = .ok call ∧ call.group.name = name) →
    ∃ m, model = some m ∧ m ∈ config.mappings
  configured : ∀ call, lb.select now model = .ok call →
    ∃ entry ∈ backends.entries, Built build entry call.group
  inner : ∀ call, lb.select now model = .ok call →
    call.program.Meets (history (NodeOp call.group.balancer.last) NodeOp.Ret)
      (fun result _ => ∃ node ∈ call.group.balancer.nodes,
        result = .ok ⟨node, some call.group.name⟩) []

theorem select_eq (lb : GroupedLoadBalancer F C) (now : Instant)
    (h : lb.findGroup model = some group) : lb.select now model = .ok ⟨group, do
      let guard ← group.balancer.select now
      pure (nameGuard group.name guard)⟩ := by
  rw [GroupedLoadBalancer.select, h]

theorem select_none (lb : GroupedLoadBalancer F C) (now : Instant) (h : lb.findGroup model = none) :
    lb.select now model = .error ⟨model⟩ := by
  rw [GroupedLoadBalancer.select, h]

theorem select_ok {lb : GroupedLoadBalancer F C} (h : lb.select now model = .ok call) :
    lb.findGroup model = some call.group ∧ call.program = (do
      let guard ← call.group.balancer.select now
      pure (nameGuard call.group.name guard)) := by
  cases hfind : lb.findGroup model with
  | none =>
    rw [select_none lb now hfind] at h
    cases h
  | some group =>
    rw [select_eq lb now hfind] at h
    cases h
    exact ⟨rfl, rfl⟩

theorem findGroup_mem {lb : GroupedLoadBalancer F C} (h : lb.findGroup model = some group) :
    group ∈ lb.groups := by
  rw [findGroup_eq_or] at h
  obtain h | ⟨-, h⟩ := Option.or_eq_some_iff.1 h
  · obtain ⟨_, _, h⟩ := Option.bind_eq_some_iff.1 h
    exact List.mem_of_find?_eq_some h
  · obtain h | ⟨-, h⟩ := Option.or_eq_some_iff.1 h
    · exact List.mem_of_find?_eq_some h
    · exact List.mem_of_find?_eq_some h

theorem routed {build : Nat → Option TlsConfig → Except String C} {backends : BackendsConfig F}
    {lb : GroupedLoadBalancer F C} (hapart : backends.entries.Pairwise Apart)
    (hnew : GroupedLoadBalancer.new build backends = .ok lb) (now : Instant)
    (model : Option String) : Routed build backends lb now model := by
  have hbuilt := new_built hnew
  have hpicks := findGroup_picks hbuilt hapart model
  have hselects : ∀ name, (∃ call, lb.select now model = .ok call ∧ call.group.name = name) ↔
      RoutesTo backends.entries model name := by
    intro name
    rw [← hpicks name, Option.map_eq_some_iff]
    constructor
    · intro ⟨call, hcall, hname⟩
      exact ⟨call.group, (select_ok hcall).1, hname⟩
    · intro ⟨group, hfind, hname⟩
      exact ⟨_, select_eq lb now hfind, hname⟩
  constructor
  · exact hselects
  · rw [← hpicks.eq_none_iff]
    constructor
    · intro h
      cases hfind : lb.findGroup model with
      | none => rfl
      | some group =>
        rw [select_eq lb now hfind] at h
        cases h
    · exact select_none lb now
  · intro name config hmem hexclusive hne hcall
    exact ((hselects name).1 hcall).not_exclusive hmem hexclusive hne
  · intro call hcall
    obtain ⟨entry, hmem, hb⟩ :=
      Fallible.exists_left_of_forall₂ hbuilt (findGroup_mem (select_ok hcall).1)
    exact ⟨entry, mem_sortEntries.1 hmem, hb⟩
  · intro call hcall
    rw [(select_ok hcall).2]
    exact guard_meets call.group now []

/-- Validated groups make one balancer whatever the order of the map, and it routes each call to
the group of the model, else to the catch-all, else to the first open group. -/
theorem select_routes {ext : Externals F} {build : Nat → Option TlsConfig → Except String C}
    {backend : Option BackendConfig} {backends : BackendsConfig F}
    (hvalid : validateBackends ext ⟨backend, some backends⟩ = .ok ()) :
    (∀ model a b, MapsModel backends.entries model a → MapsModel backends.entries model b → a = b) ∧
      (∀ a b, CatchAll backends.entries a → CatchAll backends.entries b → a = b) ∧
      (∀ other : BackendsConfig F, other.entries.Perm backends.entries →
        GroupedLoadBalancer.new build other = GroupedLoadBalancer.new build backends) ∧
      ((∀ e ∈ backends.entries, ∀ node ∈ e.2.nodes,
        ∃ client, build node.timeoutSeconds node.tls = .ok client) →
        ∃ lb, GroupedLoadBalancer.new build backends = .ok lb) ∧
      ∀ lb, GroupedLoadBalancer.new build backends = .ok lb →
        ∀ now model, Routed build backends lb now model := by
  obtain ⟨hcomplete, hapart⟩ := validateBackends_spec hvalid
  refine ⟨?_, ?_, ?_, new_ok hcomplete, ?_⟩
  · intro model a b
    exact mapsModel_unique hapart
  · intro a b
    exact catchAll_unique hapart
  · intro other hperm
    rw [GroupedLoadBalancer.new, sortEntries_perm backends.distinct hperm]
    rfl
  · intro lb hnew
    exact routed hapart hnew

def localNode : BackendNodeConfig Nat :=
  ⟨"http://localhost:8080", 300, none, none, none, none, none⟩

/-- A group for one model, and a catch-all. -/
def twoGroups : BackendsConfig Nat where
  entries := [("main", ⟨["opus"], "round_robin", 30, true, [localNode]⟩),
    ("rest", ⟨[], "priority_free", 30, false, [localNode]⟩)]
  distinct := by decide

def localhost : Externals Nat where
  parseUrl _ := .ok ("http", some "localhost")
  isFinite _ := true
  display t := toString t
  inRange t := decide (t ≤ 2)

theorem select_routes_two_groups :
    validateBackends localhost ⟨none, some twoGroups⟩ = .ok () ∧
      ∃ lb, GroupedLoadBalancer.new (fun _ _ => .ok ()) twoGroups = .ok lb ∧
        ∀ now model, Routed (fun _ _ => .ok ()) twoGroups lb now model := by
  have hvalid : validateBackends localhost ⟨none, some twoGroups⟩ = .ok () := rfl
  have h := @select_routes Nat Unit localhost (fun _ _ => .ok ()) none twoGroups hvalid
  obtain ⟨-, -, -, hnew, hrouted⟩ := h
  obtain ⟨lb, hlb⟩ := hnew fun _ _ _ _ => ⟨(), rfl⟩
  exact ⟨hvalid, lb, hlb, hrouted lb hlb⟩

end LocalMind.Backends
