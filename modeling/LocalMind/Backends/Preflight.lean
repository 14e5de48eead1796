import LocalMind.Config.Backends
import LocalMind.Json.Reread
import LocalMind.Order.Greatest
import LocalMind.Text.Str

namespace LocalMind.Preflight
open Json Config Ordered
set_option autoImplicit true

/-! What the models of the nodes say at startup. -/

/-- The entries with both a name and a context size. -/
def scored (entries : List Value) : List (String × Nat) :=
  entries.filterMap fun e => do
    let id ← (e.get "id").bind Value.asStr
    let len ← (e.get "max_model_len").bind Value.asU64
    pure (id, len.toNat)

/-- One name starts the other. -/
def answers (name id : String) : Bool :=
  name.toList.isPrefixOf id.toList || id.toList.isPrefixOf name.toList

/-- The bytes of a name, before the context size. -/
def candidate (e : String × Nat) : Lex (Nat × Nat) := toLex ((Utf8.encode e.1.toList).length, e.2)

def selectMaxModelLen (entries : List Value) (modelName : Option String) : Option Nat :=
  let best := modelName.bind fun name =>
    (scored entries).foldl
      (fun best e => if answers name e.1 then keepGreater best (candidate e) else best) none
  match best with
  | some b => some (ofLex b).2
  | none => ((scored entries).map Prod.snd).foldl keepGreater none

/-- A response to the request for the models. -/
structure ModelsReply where
  status : Nat
  /-- the `Server` header, where it is text -/
  server : Option (List Char)
  body : List UInt8

structure ModelsResult where
  modelIds : List String
  maxModelLen : Option Nat
  isLlamaCpp : Bool

def MODELS_MAX_BYTES : Nat := 2 * 1024 * 1024

def fetchModels (codec : FloatCodec) (reply : ModelsReply) (modelName : Option String) :
    Option ModelsResult :=
  if ¬ (200 ≤ reply.status ∧ reply.status < 300) then none
  else if MODELS_MAX_BYTES < reply.body.length then none
  else do
    let body ← fromSlice codec reply.body
    let isLlamaCpp := reply.server.any fun s => Text.contains s "llama.cpp".toList
    match (body.get "data").bind Value.asArray with
    | some entries =>
      pure ⟨entries.filterMap fun m => (m.get "id").bind Value.asStr,
        selectMaxModelLen entries modelName, isLlamaCpp⟩
    | none => pure ⟨[], none, isLlamaCpp⟩

structure NodeProbeOutcome where
  group : String
  nodeIdx : Nat
  autoModel : Option String

/-- There is no outcome for a node that was not reached. -/
def probeNode (codec : FloatCodec) (group : String) (nodeIdx : Nat) (cfg : BackendNodeConfig F)
    (reply : Option ModelsReply) : Option NodeProbeOutcome := do
  let models ← fetchModels codec (← reply) cfg.model
  let autoModel := match models.modelIds with
    | [id] => if cfg.model.isNone then some id else none
    | _ => none
  pure ⟨group, nodeIdx, autoModel⟩

abbrev Entries (F : Type) := List (String × BackendGroupConfig F)

/-- What one outcome does to a group of the map. -/
def NodeProbeOutcome.applyTo (o : NodeProbeOutcome) (e : String × BackendGroupConfig F) :
    String × BackendGroupConfig F :=
  match o.autoModel with
  | some discovered =>
    if e.1 = o.group then
      (e.1, { e.2 with
        nodes := e.2.nodes.modify o.nodeIdx fun cfg => { cfg with model := some discovered } })
    else e
  | none => e

/-- The replies are by group and place, in whatever order they come. -/
def probes (codec : FloatCodec) (replies : String → Nat → Option ModelsReply)
    (entries : Entries F) : List (Option NodeProbeOutcome) :=
  entries.flatMap fun e =>
    e.2.nodes.zipIdx.map fun c => probeNode codec e.1 c.2 c.1 (replies e.1 c.2)

def runPreflightMulti (codec : FloatCodec) (replies : String → Nat → Option ModelsReply)
    (entries : Entries F) : Entries F :=
  ((probes codec replies entries).filterMap fun o => o).foldl
    (fun entries o => entries.map o.applyTo) entries

/-! Which size is chosen. -/

/-- The entries that answer to a configured name. -/
def named (entries : List Value) (modelName : Option String) : List (String × Nat) :=
  match modelName with
  | some name => (scored entries).filter fun e => answers name e.1
  | none => []

/-- The size of the longest name that answers, and the largest of these; where no name answers, the
largest of all. -/
def Chosen (entries : List Value) (modelName : Option String) (len : Nat) : Prop :=
  (∃ e ∈ named entries modelName, e.2 = len ∧
    ∀ e' ∈ named entries modelName, candidate e' ≤ candidate e) ∨
  named entries modelName = [] ∧ len ∈ (scored entries).map Prod.snd ∧
    ∀ len' ∈ (scored entries).map Prod.snd, len' ≤ len

theorem foldl_filter (f : β → α → β) (p : α → Bool) (l : List α) (b : β) :
    l.foldl (fun b a => if p a then f b a else b) b = (l.filter p).foldl f b := by
  rw [List.foldl_filter]

theorem best_eq (entries : List Value) (modelName : Option String) :
    (modelName.bind fun name => (scored entries).foldl
      (fun best e => if answers name e.1 then keepGreater best (candidate e) else best) none) =
      ((named entries modelName).map candidate).max? := by
  cases modelName with
  | none => rfl
  | some name =>
    rw [Option.bind_some, named, ← foldl_keepGreater, List.foldl_map,
      ← foldl_filter fun best e => keepGreater best (candidate e)]

theorem selectMaxModelLen_eq_some_iff :
    selectMaxModelLen entries modelName = some len ↔ Chosen entries modelName len := by
  rw [selectMaxModelLen, best_eq, Chosen]
  cases hbest : ((named entries modelName).map candidate).max? with
  | none =>
    have hnil : named entries modelName = [] :=
      List.map_eq_nil_iff.1 (List.max?_eq_none_iff.1 hbest)
    dsimp only
    rw [foldl_keepGreater, max?_eq_some]
    constructor
    · intro h
      exact Or.inr ⟨hnil, h⟩
    · rintro (⟨e, he, -⟩ | ⟨-, h⟩)
      · rw [hnil] at he
        cases he
      · exact h
  | some b =>
    obtain ⟨hmem, hmax⟩ := max?_eq_some.1 hbest
    obtain ⟨e, he, rfl⟩ := List.mem_map.1 hmem
    have hne : named entries modelName ≠ [] := List.ne_nil_of_mem he
    constructor
    · intro h
      exact Or.inl ⟨e, he, Option.some.inj h, fun e' he' => hmax _ (List.mem_map_of_mem he')⟩
    · rintro (⟨e', he', rfl, hmax'⟩ | ⟨hnil, -⟩)
      · have hsame : candidate e = candidate e' :=
          le_antisymm (hmax' e he) (hmax _ (List.mem_map_of_mem he'))
        exact congrArg some (congrArg (fun b => (ofLex b).2) hsame)
      · exact absurd hnil hne

theorem chosen_perm (h : entries.Perm entries') (hchosen : Chosen entries modelName len) :
    Chosen entries' modelName len := by
  have hscored : (scored entries).Perm (scored entries') := h.filterMap _
  have hnamed : (named entries modelName).Perm (named entries' modelName) := by
    cases modelName with
    | none => exact List.Perm.refl _
    | some name => exact hscored.filter _
  obtain ⟨e, he, hlen, hmax⟩ | ⟨hnil, hmem, hmax⟩ := hchosen
  · refine Or.inl ⟨e, hnamed.mem_iff.1 he, hlen, fun e' he' => hmax e' (hnamed.mem_iff.2 he')⟩
  · refine Or.inr ⟨?_, (hscored.map _).mem_iff.1 hmem, fun len' hlen' =>
      hmax len' ((hscored.map _).mem_iff.2 hlen')⟩
    rw [hnil] at hnamed
    exact hnamed.nil_eq.symm

/-- The choice is the longest answering name's, and no order of the entries changes it. -/
theorem selectMaxModelLen_policy (entries : List Value) (modelName : Option String) :
    (∀ len, selectMaxModelLen entries modelName = some len ↔ Chosen entries modelName len) ∧
      ∀ entries', entries.Perm entries' →
        selectMaxModelLen entries' modelName = selectMaxModelLen entries modelName := by
  refine ⟨fun len => selectMaxModelLen_eq_some_iff, fun entries' h => Option.ext fun len => ?_⟩
  rw [selectMaxModelLen_eq_some_iff, selectMaxModelLen_eq_some_iff]
  exact ⟨chosen_perm h.symm, chosen_perm h⟩

/-! What the probes leave of the configuration. -/

/-- The one model that a node serves. -/
def discovered (codec : FloatCodec) (reply : Option ModelsReply) : Option String :=
  match reply.bind fun r => fetchModels codec r none with
  | some ⟨[id], _, _⟩ => some id
  | _ => none

/-- A node with the model it serves, where none is configured. -/
def mapped (codec : FloatCodec) (cfg : BackendNodeConfig F) (reply : Option ModelsReply) :
    BackendNodeConfig F :=
  { cfg with model := cfg.model.or (discovered codec reply) }

theorem fetchModels_ids (codec : FloatCodec) (reply : ModelsReply) (name name' : Option String) :
    (fetchModels codec reply name).map ModelsResult.modelIds =
      (fetchModels codec reply name').map ModelsResult.modelIds := by
  rw [fetchModels, fetchModels]
  split
  · rfl
  · split
    · rfl
    · cases fromSlice codec reply.body with
      | none => rfl
      | some body =>
        simp only [Option.bind_eq_bind, Option.bind_some]
        cases (body.get "data").bind Value.asArray <;> rfl

theorem discovered_eq (codec : FloatCodec) (reply : Option ModelsReply) (name : Option String) :
    discovered codec reply =
      match (reply.bind fun r => fetchModels codec r name).map ModelsResult.modelIds with
      | some [id] => some id
      | _ => none := by
  have hids : (reply.bind fun r => fetchModels codec r name).map ModelsResult.modelIds =
      (reply.bind fun r => fetchModels codec r none).map ModelsResult.modelIds := by
    cases reply with
    | none => rfl
    | some r => exact fetchModels_ids codec r name none
  rw [hids, discovered]
  split
  · next h => rw [h]; rfl
  · next h =>
    split
    · next hone =>
      obtain ⟨⟨ids, len, isLlamaCpp⟩, hr, hid⟩ := Option.map_eq_some_iff.1 hone
      cases hid
      exact absurd hr (h _ _ _)
    · rfl

/-- What the outcome of a node's probe does to the node itself. -/
theorem probeNode_autoModel (codec : FloatCodec) (group : String) (i : Nat)
    (cfg : BackendNodeConfig F) (reply : Option ModelsReply) :
    mapped codec cfg reply =
      match (probeNode codec group i cfg reply).bind NodeProbeOutcome.autoModel with
      | some m => { cfg with model := some m }
      | none => cfg := by
  have hprobe : (probeNode codec group i cfg reply).bind NodeProbeOutcome.autoModel =
      if cfg.model.isNone then discovered codec reply else none := by
    rw [discovered_eq codec reply cfg.model, probeNode]
    cases reply with
    | none => simp
    | some r =>
      rw [Option.bind_eq_bind, Option.bind_some, Option.bind_some]
      cases fetchModels codec r cfg.model with
      | none => simp
      | some models =>
        rw [Option.bind_eq_bind, Option.bind_some, Option.map_some]
        obtain ⟨ids, len, isLlamaCpp⟩ := models
        cases ids with
        | nil => simp
        | cons id ids =>
          cases ids with
          | nil => rfl
          | cons id' ids => simp
  rw [hprobe, mapped]
  obtain ⟨url, timeout, tls, model, key, strip, temperature⟩ := cfg
  cases model with
  | some m => rfl
  | none =>
    cases discovered codec reply <;> rfl

/-- Outcomes of other groups leave a group alone. -/
theorem foldl_others {outcomes : List NodeProbeOutcome} {e : String × BackendGroupConfig F}
    (h : ∀ o ∈ outcomes, o.group ≠ e.1) :
    outcomes.foldl (fun e o => o.applyTo e) e = e := by
  induction outcomes with
  | nil => rfl
  | cons o outcomes ih =>
    have hone : o.applyTo e = e := by
      rw [NodeProbeOutcome.applyTo]
      split
      · exact if_neg fun hname => h o List.mem_cons_self hname.symm
      · rfl
    rw [List.foldl_cons, hone]
    exact ih fun o' ho' => h o' (List.mem_cons_of_mem _ ho')

theorem modify_behind (f : α → α) (front rest : List α) (a : α) :
    (front ++ a :: rest).modify front.length f = front ++ f a :: rest := by
  induction front with
  | nil => rfl
  | cons b front ih => rw [List.cons_append, List.length_cons, List.modify_succ_cons, ih,
      List.cons_append]

theorem probeNode_place {codec : FloatCodec} {name : String} {i : Nat} {cfg : BackendNodeConfig F}
    {reply : Option ModelsReply} {o : NodeProbeOutcome}
    (h : probeNode codec name i cfg reply = some o) : o.group = name ∧ o.nodeIdx = i := by
  rw [probeNode] at h
  obtain ⟨r, -, h⟩ := Option.bind_eq_some_iff.1 h
  obtain ⟨models, -, h⟩ := Option.bind_eq_some_iff.1 h
  cases h
  exact ⟨rfl, rfl⟩

/-- A node's own outcome names that node's model, and no other's. -/
theorem foldl_probed (codec : FloatCodec) (reply : Option ModelsReply) (name : String)
    (group : BackendGroupConfig F) (front rest : List (BackendNodeConfig F))
    (cfg : BackendNodeConfig F) :
    (probeNode codec name front.length cfg reply).toList.foldl (fun e o => o.applyTo e)
        (name, { group with nodes := front ++ cfg :: rest }) =
      (name, { group with nodes := front ++ mapped codec cfg reply :: rest }) := by
  rw [probeNode_autoModel codec name front.length cfg reply]
  cases hprobe : probeNode codec name front.length cfg reply with
  | none => rfl
  | some o =>
    obtain ⟨hgroup, hnode⟩ := probeNode_place hprobe
    rw [Option.toList_some, List.foldl_cons, List.foldl_nil, Option.bind_some,
      NodeProbeOutcome.applyTo]
    cases o.autoModel with
    | none => rfl
    | some m =>
      dsimp only
      rw [if_pos hgroup.symm, hnode, modify_behind]

/-- The outcomes of a group's own nodes, from a place on. -/
theorem foldl_own (codec : FloatCodec) (replies : Nat → Option ModelsReply) (name : String)
    (group : BackendGroupConfig F) (front rest : List (BackendNodeConfig F)) :
    ((rest.zipIdx front.length).filterMap fun c =>
      probeNode codec name c.2 c.1 (replies c.2)).foldl (fun e o => o.applyTo e)
        (name, { group with nodes := front ++ rest }) =
      (name, { group with
        nodes := front ++ rest.mapIdx fun i cfg =>
          mapped codec cfg (replies (front.length + i)) }) := by
  induction rest generalizing front with
  | nil => rfl
  | cons cfg rest ih =>
    have hsplit : (((cfg :: rest).zipIdx front.length).filterMap fun c =>
        probeNode codec name c.2 c.1 (replies c.2)) =
        (probeNode codec name front.length cfg (replies front.length)).toList ++
          (rest.zipIdx (front.length + 1)).filterMap fun c =>
            probeNode codec name c.2 c.1 (replies c.2) := by
      rw [List.zipIdx_cons, List.filterMap_cons]
      cases probeNode codec name front.length cfg (replies front.length) <;> rfl
    rw [hsplit, List.foldl_append, foldl_probed]
    have hrest := ih (front ++ [mapped codec cfg (replies front.length)])
    rw [List.length_append, List.length_singleton, List.append_assoc, List.append_assoc] at hrest
    rw [List.singleton_append, List.singleton_append] at hrest
    rw [hrest, List.mapIdx_cons]
    simp only [Nat.add_zero, Nat.add_assoc, Nat.add_comm 1]

theorem foldl_map_each (f : β → α → α) (us : List β) (l : List α) :
    us.foldl (fun l u => l.map (f u)) l = l.map fun a => us.foldl (fun a u => f u a) a := by
  induction us generalizing l with
  | nil => exact (List.map_id' l).symm
  | cons u us ih =>
    rw [List.foldl_cons, ih, List.map_map]
    rfl

theorem probes_group (h : o ∈ (probes codec replies entries).filterMap fun o => o) :
    ∃ e ∈ entries, o.group = e.1 := by
  obtain ⟨o', ho', rfl⟩ := List.mem_filterMap.1 h
  obtain ⟨e, he, hmem⟩ := List.mem_flatMap.1 ho'
  obtain ⟨c, -, hprobe⟩ := List.mem_map.1 hmem
  rw [probeNode] at hprobe
  obtain ⟨r, -, hprobe⟩ := Option.bind_eq_some_iff.1 hprobe
  obtain ⟨models, -, hprobe⟩ := Option.bind_eq_some_iff.1 hprobe
  cases hprobe
  exact ⟨e, he, rfl⟩

/-- The probes give each node without a model the one it serves, and change nothing else. -/
theorem runPreflightMulti_eq (codec : FloatCodec) (replies : String → Nat → Option ModelsReply)
    {entries : Entries F} (h : (entries.map Prod.fst).Nodup) :
    runPreflightMulti codec replies entries = entries.map fun e => (e.1, { e.2 with
      nodes := e.2.nodes.mapIdx fun i cfg => mapped codec cfg (replies e.1 i) }) := by
  rw [runPreflightMulti, foldl_map_each]
  refine List.map_congr_left fun e he => ?_
  obtain ⟨before, after, rfl⟩ := List.append_of_mem he
  rw [List.map_append, List.map_cons, List.nodup_append, List.nodup_cons] at h
  have hown : ((probes codec replies [e]).filterMap fun o => o) =
      (e.2.nodes.zipIdx 0).filterMap fun c => probeNode codec e.1 c.2 c.1 (replies e.1 c.2) := by
    rw [probes, List.flatMap_singleton, List.filterMap_map]
    rfl
  have hsplit : ((probes codec replies (before ++ e :: after)).filterMap fun o => o) =
      ((probes codec replies before).filterMap fun o => o) ++
        (((probes codec replies [e]).filterMap fun o => o) ++
          (probes codec replies after).filterMap fun o => o) := by
    rw [← List.filterMap_append, ← List.filterMap_append, probes, probes, probes, probes,
      List.flatMap_append, List.flatMap_cons, List.flatMap_singleton]
  have hbefore : ((probes codec replies before).filterMap fun o => o).foldl
      (fun e o => o.applyTo e) e = e := by
    refine foldl_others fun o ho hname => ?_
    obtain ⟨e', he', hgroup⟩ := probes_group ho
    exact h.2.2 _ (List.mem_map_of_mem he') _ List.mem_cons_self (hgroup.symm.trans hname)
  have hgroup := foldl_own codec (replies e.1) e.1 e.2 [] e.2.nodes
  simp only [List.nil_append, List.length_nil, Nat.zero_add] at hgroup
  have hself : (e.1, { e.2 with nodes := e.2.nodes }) = e := rfl
  rw [hsplit, List.foldl_append, List.foldl_append, hbefore, hown, ← hself, hgroup, foldl_others]
  intro o ho hname
  obtain ⟨e', he', hgroup'⟩ := probes_group ho
  exact h.2.1.1 (List.mem_map.2 ⟨e', he', hgroup'.symm.trans hname⟩)

/-- One group with one node and no model. -/
def loneNode : Entries Nat :=
  [("local", ⟨[], "round_robin", 30, false,
    [⟨"http://localhost", 300, none, none, none, none, none⟩]⟩)]

def oneModel : String → Nat → Option ModelsReply := fun _ _ =>
  some ⟨200, none, Utf8.encode "\x7b\"data\":[\x7b\"id\":\"m\"\x7d]\x7d".toList⟩

theorem runPreflightMulti_eq_lone :
    runPreflightMulti integersOnly oneModel loneNode = loneNode.map fun e => (e.1, { e.2 with
      nodes := e.2.nodes.mapIdx fun i cfg => mapped integersOnly cfg (oneModel e.1 i) }) :=
  runPreflightMulti_eq integersOnly oneModel (by decide)

end LocalMind.Preflight
