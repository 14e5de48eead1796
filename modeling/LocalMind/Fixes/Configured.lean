import LocalMind.Fixes.Detection

namespace LocalMind
open Json
set_option autoImplicit true

/-! The fixes that a configuration lets act, built at startup or set afterwards. -/

structure FixModuleConfig where
  enabled : Bool

structure FixesConfig where
  enabled : Bool
  modules : List (String × FixModuleConfig)

/-- The name without a trailing `_fix`. -/
def baseName (name : String) : String :=
  if "_fix".toList <:+ name.toList then
    String.ofList (name.toList.take (name.toList.length - "_fix".toList.length))
  else name

/-- A module's entry: under the name without the suffix, or else under the one with it. -/
def moduleConfig (modules : List (String × FixModuleConfig)) (name : String) :
    Option FixModuleConfig :=
  (Fields.get modules (baseName name)).or (Fields.get modules (baseName name ++ "_fix"))

def registrySpecs (codec : FloatCodec) : List ResponseFix :=
  [toolCallNullIndexFix, toolcallMalformedArgumentsFix codec, toolcallBadFilepathFix codec]

namespace FixRegistry

/-- A fix whose entry disables it is not registered. -/
def construct (modules : List (String × FixModuleConfig)) (r : FixRegistry) (fix : ResponseFix) :
    FixRegistry :=
  match moduleConfig modules fix.name with
  | some config => if config.enabled then r.register fix else r
  | none => r.register fix

/-- An entry switches its fix on or off. -/
def configureFix (config : List (String × FixModuleConfig)) (enabled : List (String × Bool))
    (fix : ResponseFix) : List (String × Bool) :=
  match moduleConfig config fix.name with
  | some entry => Fields.insert enabled fix.name entry.enabled
  | none => enabled

def configure (r : FixRegistry) (config : List (String × FixModuleConfig)) : FixRegistry :=
  { r with enabled := r.fixes.foldl (configureFix config) r.enabled }

end FixRegistry

def createRegistryFromConfig (codec : FloatCodec) (fixes : FixesConfig) : FixRegistry :=
  if fixes.enabled then (registrySpecs codec).foldl (FixRegistry.construct fixes.modules) .new
  else .new

/-- Whether a configuration lets a fix act: only an entry keeps it from that. -/
def letsAct (modules : List (String × FixModuleConfig)) (name : String) : Bool :=
  ((moduleConfig modules name).map FixModuleConfig.enabled).getD true

namespace FixRegistry

theorem construct_eq (modules : List (String × FixModuleConfig)) (r : FixRegistry)
    (fix : ResponseFix) :
    r.construct modules fix = if letsAct modules fix.name then r.register fix else r := by
  rw [construct, letsAct]
  cases moduleConfig modules fix.name with
  | none => rfl
  | some config => rfl

theorem foldl_construct (modules : List (String × FixModuleConfig)) (fixes : List ResponseFix)
    (r : FixRegistry) :
    fixes.foldl (construct modules) r =
      (fixes.filter fun fix => letsAct modules fix.name).foldl register r := by
  rw [List.foldl_filter]
  congr 1
  funext r fix
  exact construct_eq modules r fix

theorem isEnabled_register (r : FixRegistry) (fix : ResponseFix) (name : String) :
    (r.register fix).isEnabled name = (decide (fix.name = name) || r.isEnabled name) := by
  rw [isEnabled, register]
  dsimp only
  rw [Fields.get_insert]
  by_cases h : fix.name = name
  · simp [h]
  · simp [h, isEnabled]

theorem fixes_foldl_register (fixes : List ResponseFix) (r : FixRegistry) :
    (fixes.foldl register r).fixes = r.fixes ++ fixes := by
  induction fixes generalizing r with
  | nil => exact (List.append_nil _).symm
  | cons fix fixes ih =>
    rw [List.foldl_cons, ih, register, List.append_assoc]
    rfl

theorem isEnabled_foldl_register {fixes : List ResponseFix} (h : fix ∈ fixes) (r : FixRegistry) :
    (fixes.foldl register r).isEnabled fix.name = true := by
  have hkept : ∀ (fixes : List ResponseFix) (r : FixRegistry), r.isEnabled fix.name = true →
      (fixes.foldl register r).isEnabled fix.name = true := by
    intro fixes
    induction fixes with
    | nil => exact fun r hr => hr
    | cons f fixes ih =>
      intro r hr
      exact ih (r.register f) (by rw [isEnabled_register, hr, Bool.or_true])
  obtain ⟨front, back, rfl⟩ := List.append_of_mem h
  rw [List.foldl_append, List.foldl_cons]
  exact hkept back _ (by rw [isEnabled_register, decide_eq_true rfl, Bool.true_or])

/-- An entry under one of a fix's names settles it, whatever the map held. -/
theorem get_configured (config : List (String × FixModuleConfig)) (fixes : List ResponseFix)
    (enabled : List (String × Bool)) (name : String) :
    Fields.get (fixes.foldl (configureFix config) enabled) name =
      if name ∈ fixes.map ResponseFix.name then
        ((moduleConfig config name).map FixModuleConfig.enabled).or (Fields.get enabled name)
      else Fields.get enabled name := by
  induction fixes generalizing enabled with
  | nil => rfl
  | cons fix fixes ih =>
    have hone : Fields.get (configureFix config enabled fix) name =
        if fix.name = name then
          ((moduleConfig config name).map FixModuleConfig.enabled).or (Fields.get enabled name)
        else Fields.get enabled name := by
      by_cases hname : fix.name = name
      · subst hname
        rw [if_pos rfl, configureFix]
        cases moduleConfig config fix.name with
        | none => rfl
        | some entry => exact Fields.get_insert_self enabled fix.name entry.enabled
      · rw [if_neg hname, configureFix]
        cases moduleConfig config fix.name with
        | none => rfl
        | some entry => exact Fields.get_insert_of_ne hname enabled entry.enabled
    rw [List.foldl_cons, ih, hone, List.map_cons]
    by_cases hname : fix.name = name
    · subst hname
      rw [if_pos rfl, if_pos List.mem_cons_self]
      split
      · rw [← Option.or_assoc, Option.or_self]
      · rfl
    · rw [if_neg hname]
      simp only [List.mem_cons, Ne.symm hname, false_or]

theorem isEnabled_configure {r : FixRegistry} (hfix : fix ∈ r.fixes)
    (h : Fields.get r.enabled fix.name = some true) (config : List (String × FixModuleConfig)) :
    (r.configure config).isEnabled fix.name = letsAct config fix.name := by
  rw [isEnabled, configure]
  dsimp only
  rw [get_configured, if_pos (List.mem_map_of_mem hfix), h, letsAct]
  cases moduleConfig config fix.name with
  | none => rfl
  | some entry => rfl

/-! A registry that lacks a fix runs as one that has it disabled. -/

theorem foldlM_filtered {step step' : β → α → Except ε β} {p : α → Bool} {l : List α}
    (h : ∀ a ∈ l, ∀ b, step' b a = if p a then step b a else .ok b) (b : β) :
    (l.filter p).foldlM step b = l.foldlM step' b := by
  induction l generalizing b with
  | nil => rfl
  | cons a l ih =>
    have hrest := ih fun a' ha' => h a' (List.mem_cons_of_mem a ha')
    have hone := h a List.mem_cons_self b
    rw [List.foldlM_cons, hone]
    cases hp : p a with
    | true =>
      rw [List.filter_cons_of_pos hp, List.foldlM_cons, if_pos rfl]
      congr 1
      funext b'
      exact hrest b'
    | false =>
      rw [List.filter_cons_of_neg (by simp [hp])]
      exact hrest b

theorem applyFix_of_enabled {codec : FloatCodec} {r r' : FixRegistry} {p : Bool}
    (hp : r'.isEnabled fix.name = p) (h : p = true → r.isEnabled fix.name = true)
    (request : Value) (run : Run) :
    applyFix codec r' request run fix =
      if p then applyFix codec r request run fix else .ok run := by
  rw [applyFix, hp]
  cases p with
  | false => rfl
  | true =>
    rw [if_pos rfl, applyFix, h rfl]

theorem detectFix_of_enabled {codec : FloatCodec} {r r' : FixRegistry} {p : Bool}
    (hp : r'.isEnabled fix.name = p) (h : p = true → r.isEnabled fix.name = true)
    (response request : Value) (detected : List String) :
    (detectFix codec r' response request fix).map (fun names => detected ++ names) =
      if p then (detectFix codec r response request fix).map (fun names => detected ++ names)
      else .ok detected := by
  rw [detectFix, hp]
  cases p with
  | false => exact congrArg Except.ok (List.append_nil detected)
  | true =>
    rw [if_pos rfl, detectFix, h rfl]

theorem isEnabled_default (codec : FloatCodec) (hfix : fix ∈ registrySpecs codec)
    (config : List (String × FixModuleConfig)) :
    ((createDefaultRegistry codec).configure config).isEnabled fix.name =
      letsAct config fix.name := by
  have hon : (createDefaultRegistry codec).isEnabled fix.name = true :=
    isEnabled_foldl_register hfix .new
  apply isEnabled_configure hfix
  rw [isEnabled] at hon
  cases henabled : Fields.get (createDefaultRegistry codec).enabled fix.name with
  | none =>
    rw [henabled] at hon
    cases hon
  | some b =>
    rw [henabled] at hon
    exact congrArg some hon

end FixRegistry

/-- The registry that is built for a configuration holds the fixes that it lets act, and does
what the default registry does when it is configured so afterwards. -/
theorem createRegistryFromConfig_agrees (codec : FloatCodec) (fixes : FixesConfig)
    (response request : Value) :
    (createRegistryFromConfig codec fixes).fixes =
        (if fixes.enabled then
          (registrySpecs codec).filter fun fix => letsAct fixes.modules fix.name
        else []) ∧
      (createRegistryFromConfig codec fixes).applyFixesWithContext codec response request =
        (if fixes.enabled then
          ((createDefaultRegistry codec).configure fixes.modules).applyFixesWithContext codec
            response request
        else .ok (response, [])) ∧
      (createRegistryFromConfig codec fixes).detectFixes codec response request =
        if fixes.enabled then
          ((createDefaultRegistry codec).configure fixes.modules).detectFixes codec response request
        else .ok [] := by
  rw [createRegistryFromConfig]
  cases fixes.enabled with
  | false => exact ⟨rfl, rfl, rfl⟩
  | true =>
    rw [if_pos rfl, if_pos rfl, if_pos rfl, if_pos rfl, FixRegistry.foldl_construct]
    have hbuilt : ∀ fix ∈ registrySpecs codec, letsAct fixes.modules fix.name = true →
        (((registrySpecs codec).filter fun fix => letsAct fixes.modules fix.name).foldl
          FixRegistry.register .new).isEnabled fix.name = true :=
      fun fix hfix hlets =>
        FixRegistry.isEnabled_foldl_register (List.mem_filter.2 ⟨hfix, hlets⟩) .new
    refine ⟨FixRegistry.fixes_foldl_register _ .new, ?_, ?_⟩
    · rw [FixRegistry.applyFixesWithContext, FixRegistry.fixes_foldl_register]
      refine FixRegistry.foldlM_filtered (fun fix hfix run => ?_) (response, [])
      exact FixRegistry.applyFix_of_enabled (FixRegistry.isEnabled_default codec hfix fixes.modules)
        (hbuilt fix hfix) request run
    · rw [FixRegistry.detectFixes, FixRegistry.fixes_foldl_register]
      refine FixRegistry.foldlM_filtered (fun fix hfix detected => ?_) []
      exact FixRegistry.detectFix_of_enabled
        (FixRegistry.isEnabled_default codec hfix fixes.modules) (hbuilt fix hfix) response request
        detected

/-- Either spelling of a name disables its fix. -/
example : (createRegistryFromConfig integersOnly
    ⟨true, [("toolcall_null_index", ⟨false⟩), ("toolcall_bad_filepath_fix", ⟨false⟩)]⟩).fixes.map
      ResponseFix.name = ["toolcall_malformed_arguments"] := by decide

end LocalMind
