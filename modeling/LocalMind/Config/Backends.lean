import LocalMind.Stream.Fallible

namespace LocalMind.Config
set_option autoImplicit true

structure TlsConfig where
  acceptInvalidCerts : Bool
  caCertPath : Option String
  clientCertPath : Option String
  clientKeyPath : Option String
deriving DecidableEq

/-- `F` is the type of the temperatures, a floating point number in the source. -/
structure BackendNodeConfig (F : Type) where
  url : String
  timeoutSeconds : Nat
  tls : Option TlsConfig
  model : Option String
  apiKey : Option String
  stripPathPrefix : Option String
  temperature : Option F

structure BackendGroupConfig (F : Type) where
  mappings : List String
  strategy : String
  failureCooldownSecs : Nat
  exclusive : Bool
  nodes : List (BackendNodeConfig F)

/-- A map from names to groups, its entries in the order of one iteration over it. -/
structure BackendsConfig (F : Type) where
  entries : List (String × BackendGroupConfig F)
  distinct : (entries.map Prod.fst).Nodup

structure BackendConfig where
  url : String
  timeoutSeconds : Nat

structure AppConfig (F : Type) where
  backend : Option BackendConfig
  backends : Option (BackendsConfig F)

structure NoMatchingBackend where
  requestedModel : Option String
deriving DecidableEq

/-- The URL parser's scheme and host, and what the language says of a floating point number. -/
structure Externals (F : Type) where
  parseUrl : String → Except String (String × Option String)
  isFinite : F → Bool
  display : F → String
  /-- `(0.0..=2.0).contains(&t)` -/
  inRange : F → Bool

def maxTimeoutSeconds : Nat := 86400

def maxFailureCooldownSecs : Nat := 86400

def rejectOver (name : String) (value max : Nat) : Except String Unit :=
  if value > max then
    .error s!"{name} {value} exceeds the supported maximum {max}"
  else
    .ok ()

def requireNonempty (value what : String) : Except String Unit :=
  if value = "" then .error s!"{what} must not be empty" else .ok ()

def validateTimeoutSeconds (secs : Nat) (place : String) : Except String Unit :=
  rejectOver s!"{place} timeout_seconds" secs maxTimeoutSeconds

def validateFailureCooldownSecs (secs : Nat) (group : String) : Except String Unit :=
  rejectOver s!"Backend group '{group}' failure_cooldown_secs" secs maxFailureCooldownSecs

section
variable (ext : Externals F)

def validateHttpUrl (url label : String) : Except String Unit :=
  match ext.parseUrl url with
  | .error e => .error s!"Invalid {label} URL '{url}': {e}"
  | .ok (scheme, host) =>
    if scheme ≠ "http" ∧ scheme ≠ "https" then
      .error s!"{label} URL must use http:// or https://, got '{scheme}'"
    else if host = none ∨ host = some "" then
      .error s!"{label} URL must include a host: '{url}'"
    else
      .ok ()

def validateBackendUrl (url : String) : Except String Unit := validateHttpUrl ext url "Backend"

def validateTemperature (t : F) (place : String) : Except String Unit :=
  if !ext.isFinite t then
    .error s!"{place} temperature {ext.display t} is not a finite number"
  else if !ext.inRange t then
    .error s!"{place} temperature {ext.display t} is outside the valid range 0..=2"
  else
    .ok ()

def validateBackendConfig (config : BackendConfig) : Except String Unit :=
  if config.timeoutSeconds = 0 then
    .error "Backend timeout_seconds must be greater than 0"
  else
    validateTimeoutSeconds config.timeoutSeconds "Backend"

def validateNode (name : String) (node : BackendNodeConfig F) : Except String Unit := do
  validateBackendUrl ext node.url
  if node.timeoutSeconds = 0 then
    throw s!"Node in group '{name}' has timeout_seconds of 0"
  validateTimeoutSeconds node.timeoutSeconds s!"Node in group '{name}'"
  match node.temperature with
  | some t => validateTemperature ext t s!"Node in group '{name}'"
  | none => pure ()

/-- What the loop over the groups has seen: the catch-alls, and each model with its group. -/
structure Seen where
  catchAlls : Nat
  modelOwner : List (String × String)

def validateMappings (name : String) (modelOwner : List (String × String)) :
    List String → Except String (List (String × String))
  | [] => .ok modelOwner
  | model :: rest => do
    requireNonempty model "backend group mapping entry"
    match modelOwner.lookup model with
    | some prev => throw s!"Model '{model}' is mapped in both group '{prev}' and group '{name}'"
    | none => validateMappings name ((model, name) :: modelOwner) rest

def countCatchAll (seen : Seen) (group : BackendGroupConfig F) : Except String Nat :=
  if group.mappings.isEmpty then
    if seen.catchAlls + 1 > 1 then
      .error "Only one catch-all group (empty 'mappings: []') may be configured"
    else
      .ok (seen.catchAlls + 1)
  else
    .ok seen.catchAlls

def validateGroup (seen : Seen) (name : String) (group : BackendGroupConfig F) :
    Except String Seen := do
  requireNonempty name "backend group name"
  let catchAlls ← countCatchAll seen group
  let modelOwner ← validateMappings name seen.modelOwner group.mappings
  if group.nodes.isEmpty then
    throw s!"Backend group '{name}' has no nodes configured"
  if group.strategy ≠ "round_robin" ∧ group.strategy ≠ "priority_free" then
    throw (s!"Backend group '{name}' has invalid strategy '{group.strategy}'. " ++
      "Use 'round_robin' or 'priority_free'")
  validateFailureCooldownSecs group.failureCooldownSecs name
  group.nodes.forM (validateNode ext name)
  pure ⟨catchAlls, modelOwner⟩

def validateGroups (seen : Seen) : List (String × BackendGroupConfig F) → Except String Unit
  | [] => .ok ()
  | (name, group) :: rest => do
    let seen ← validateGroup ext seen name group
    validateGroups seen rest

def validateBackends (config : AppConfig F) : Except String Unit :=
  match config.backends with
  | none =>
    match config.backend with
    | some backend => do
      validateBackendConfig backend
      validateBackendUrl ext backend.url
    | none => .ok ()
  | some backends =>
    if backends.entries.isEmpty then
      .error "No backend groups configured"
    else
      validateGroups ext ⟨0, []⟩ backends.entries

end

theorem validateMappings_fresh (h : validateMappings name owner mappings = .ok owner') :
    ∀ model ∈ mappings, owner.lookup model = none := by
  induction mappings generalizing owner with
  | nil =>
    intro model hmem
    cases hmem
  | cons model rest ih =>
    obtain ⟨_, _, h⟩ := Fallible.bind_eq_ok_iff.1 h
    cases hl : owner.lookup model with
    | some prev =>
      rw [hl] at h
      cases h
    | none =>
      rw [hl] at h
      intro m hmem
      obtain rfl | hmem := List.mem_cons.1 hmem
      · exact hl
      · have hm := ih h m hmem
        rw [List.lookup_cons] at hm
        cases hb : m == model with
        | true =>
          rw [hb] at hm
          cases hm
        | false =>
          rw [hb] at hm
          exact hm

theorem validateMappings_owned (h : validateMappings name owner mappings = .ok owner') :
    (∀ model ∈ mappings, owner'.lookup model ≠ none) ∧
      ∀ model, owner.lookup model ≠ none → owner'.lookup model ≠ none := by
  induction mappings generalizing owner with
  | nil =>
    cases h
    constructor
    · intro model hmem
      cases hmem
    · intro model hm
      exact hm
  | cons model rest ih =>
    obtain ⟨_, _, h⟩ := Fallible.bind_eq_ok_iff.1 h
    cases hl : owner.lookup model with
    | some prev =>
      rw [hl] at h
      cases h
    | none =>
      rw [hl] at h
      obtain ⟨hrest, hkept⟩ := ih h
      have hkept' : ∀ m, m = model ∨ owner.lookup m ≠ none → owner'.lookup m ≠ none := by
        intro m hm
        apply hkept
        rw [List.lookup_cons]
        cases hb : m == model with
        | true => exact Option.some_ne_none name
        | false => exact hm.resolve_left (ne_of_beq_false hb)
      constructor
      · intro m hmem
        obtain rfl | hmem := List.mem_cons.1 hmem
        · exact hkept' m (.inl rfl)
        · exact hrest m hmem
      · intro m hm
        exact hkept' m (.inr hm)

/-- Two groups share no model and are not both catch-alls. -/
def Apart (a b : String × BackendGroupConfig F) : Prop :=
  (∀ model ∈ a.2.mappings, model ∉ b.2.mappings) ∧ (a.2.mappings = [] → b.2.mappings ≠ [])

theorem Apart.symm (h : Apart a b) : Apart b a := by
  constructor
  · intro model hb ha
    exact h.1 model ha hb
  · intro hb ha
    exact h.2 ha hb

/-- A group of its own that a balancer can be built from. -/
def Complete (group : BackendGroupConfig F) : Prop :=
  group.nodes ≠ [] ∧ (group.strategy = "round_robin" ∨ group.strategy = "priority_free")

theorem validateGroup_spec {seen seen' : Seen} (h : validateGroup ext seen name group = .ok seen') :
    Complete group ∧ countCatchAll seen group = .ok seen'.catchAlls ∧
      validateMappings name seen.modelOwner group.mappings = .ok seen'.modelOwner := by
  obtain ⟨_, _, h⟩ := Fallible.bind_eq_ok_iff.1 h
  obtain ⟨catchAlls, hcatch, h⟩ := Fallible.bind_eq_ok_iff.1 h
  obtain ⟨modelOwner, howner, h⟩ := Fallible.bind_eq_ok_iff.1 h
  by_cases hnodes : group.nodes.isEmpty
  · rw [if_pos hnodes] at h
    cases h
  · rw [if_neg hnodes] at h
    dsimp only at h
    by_cases hstrategy : group.strategy ≠ "round_robin" ∧ group.strategy ≠ "priority_free"
    · rw [if_pos hstrategy] at h
      cases h
    · rw [if_neg hstrategy] at h
      obtain ⟨_, _, h⟩ := Fallible.bind_eq_ok_iff.1 h
      obtain ⟨_, _, h⟩ := Fallible.bind_eq_ok_iff.1 h
      cases h
      refine ⟨⟨?_, ?_⟩, hcatch, howner⟩
      · intro hnil
        rw [hnil] at hnodes
        exact hnodes rfl
      · by_contra hneither
        exact hstrategy (not_or.1 hneither)

theorem countCatchAll_seen {seen : Seen} {group : BackendGroupConfig F}
    (h : countCatchAll seen group = .ok n) (hseen : 0 < seen.catchAlls) :
    group.mappings ≠ [] ∧ 0 < n := by
  rw [countCatchAll] at h
  by_cases he : group.mappings.isEmpty
  · rw [if_pos he, if_pos (by omega)] at h
    cases h
  · rw [if_neg he] at h
    cases h
    exact ⟨fun hnil => he (by rw [hnil]; rfl), hseen⟩

theorem countCatchAll_new {seen : Seen} {group : BackendGroupConfig F}
    (h : countCatchAll seen group = .ok n) (hnil : group.mappings = []) : 0 < n := by
  rw [countCatchAll, hnil, if_pos List.isEmpty_nil] at h
  by_cases hc : seen.catchAlls + 1 > 1
  · rw [if_pos hc] at h
    cases h
  · rw [if_neg hc] at h
    cases h
    omega

theorem validateGroups_spec {seen : Seen} (h : validateGroups ext seen entries = .ok ()) :
    (∀ e ∈ entries, Complete e.2) ∧ entries.Pairwise Apart ∧
      (∀ e ∈ entries, ∀ model ∈ e.2.mappings, seen.modelOwner.lookup model = none) ∧
      (0 < seen.catchAlls → ∀ e ∈ entries, e.2.mappings ≠ []) := by
  induction entries generalizing seen with
  | nil =>
    refine ⟨?_, List.Pairwise.nil, ?_, ?_⟩
    · intro e he
      cases he
    · intro e he
      cases he
    · intro _ e he
      cases he
  | cons e rest ih =>
    obtain ⟨seen', hgroup, h⟩ := Fallible.bind_eq_ok_iff.1 h
    obtain ⟨hcomplete, hcatch, howner⟩ := validateGroup_spec hgroup
    obtain ⟨hall, hapart, hfresh, hcatchAll⟩ := ih h
    have howned := validateMappings_owned howner
    refine ⟨?_, List.pairwise_cons.2 ⟨?_, hapart⟩, ?_, ?_⟩
    · intro e' he'
      obtain rfl | he' := List.mem_cons.1 he'
      · exact hcomplete
      · exact hall e' he'
    · intro e' he'
      constructor
      · intro model hmem hmem'
        exact howned.1 model hmem (hfresh e' he' model hmem')
      · intro hnil
        exact hcatchAll (countCatchAll_new hcatch hnil) e' he'
    · intro e' he' model hmem
      obtain rfl | he' := List.mem_cons.1 he'
      · exact validateMappings_fresh howner model hmem
      · by_contra hne
        exact howned.2 model hne (hfresh e' he' model hmem)
    · intro hseen e' he'
      have hcount := countCatchAll_seen hcatch hseen
      obtain rfl | he' := List.mem_cons.1 he'
      · exact hcount.1
      · exact hcatchAll hcount.2 e' he'

/-- What the loader lets pass: each group can be built, and any two of them are apart. -/
theorem validateBackends_spec {backends : BackendsConfig F}
    (h : validateBackends ext ⟨backend, some backends⟩ = .ok ()) :
    (∀ e ∈ backends.entries, Complete e.2) ∧ backends.entries.Pairwise Apart := by
  rw [validateBackends] at h
  dsimp only at h
  by_cases he : backends.entries.isEmpty
  · rw [if_pos he] at h
    cases h
  · rw [if_neg he] at h
    obtain ⟨hall, hapart, _⟩ := validateGroups_spec h
    exact ⟨hall, hapart⟩

end LocalMind.Config
