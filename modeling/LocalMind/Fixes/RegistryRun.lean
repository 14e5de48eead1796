import LocalMind.Fixes.RegistryFrame

namespace LocalMind
open Json
set_option autoImplicit true

/-! The three steps of a run of the default fixes. -/

/-- The text arguments of a call have a property. -/
def ArgumentsAre (P : List Char → Prop) (call : Value) : Prop :=
  ∃ args, callArguments call = some args ∧ P args.toList

/-- The slot repair's answer for a call. -/
def slotRepair (codec : FloatCodec) (request call : Value) : Except Fault (Option (List Char)) :=
  fixOf (ToolcallMalformedArgumentsFix.fixFunction codec
    (ToolcallMalformedArgumentsFix.extractToolSchemas request)) call

/-- The slots of a call are filled: the slot repair is on, it names this call's slots, and it
refuses no call of the response. -/
def SlotsFilled (codec : FloatCodec) (r : FixRegistry) (request response call : Value) : Prop :=
  r.isEnabled "toolcall_malformed_arguments" = true ∧
    (∀ c ∈ calls ["message", "delta"] response,
      Rewrite.failure (slotRepair codec request c) = none) ∧
    ∃ b, slotRepair codec request call = .ok (some b)

/-- The filepath repair's failure on a call. -/
def filepathFault (codec : FloatCodec) (call : Value) : Option Fault :=
  Rewrite.failure (fixOf (ToolcallBadFilepathFix.fixFunction codec) call)

/-- Every bad element comes after one that stops. -/
def Shielded (bad stop : α → Prop) (as : List α) : Prop :=
  ∀ pre a post, as = pre ++ a :: post → bad a → ∃ b ∈ pre, stop b

theorem findSome?_panic_iff {F : α → Option Fault} {bad stop : α → Prop}
    (hbad : ∀ a, bad a ↔ ∃ p, F a = some (.panic p))
    (hstop : ∀ a, stop a ↔ ∃ e, F a = some (.error e)) (as : List α) :
    (∃ p, as.findSome? F = some (.panic p)) ↔ ¬ Shielded bad stop as := by
  constructor
  · rintro ⟨p, hp⟩ hs
    obtain ⟨pre, a, post, rfl, ha, hpre⟩ := List.findSome?_eq_some_iff.1 hp
    obtain ⟨b, hb, hstopb⟩ := hs pre a post rfl ((hbad a).2 ⟨p, ha⟩)
    obtain ⟨e, he⟩ := (hstop b).1 hstopb
    rw [hpre b hb] at he
    cases he
  · intro hn
    by_contra hp
    refine hn ?_
    rintro pre a post rfl ha
    obtain ⟨p, hpa⟩ := (hbad a).1 ha
    rw [List.findSome?_append, List.findSome?_cons, hpa] at hp
    cases hpre : pre.findSome? F with
    | none =>
      rw [hpre] at hp
      exact absurd ⟨p, rfl⟩ hp
    | some fault =>
      rw [hpre] at hp
      obtain ⟨b, hb, hfb⟩ := List.exists_of_findSome?_eq_some hpre
      cases fault with
      | error e => exact ⟨b, hb, (hstop b).2 ⟨e, hfb⟩⟩
      | panic q => exact absurd ⟨q, rfl⟩ hp

theorem Shielded.congr {bad bad' stop stop' : α → Prop} {as : List α}
    (hbad : ∀ a ∈ as, bad a ↔ bad' a) (hstop : ∀ a ∈ as, stop a ↔ stop' a) :
    Shielded bad stop as ↔ Shielded bad' stop' as := by
  constructor
  · rintro h pre a post rfl ha
    obtain ⟨b, hb, hs⟩ := h pre a post rfl ((hbad a (by simp)).2 ha)
    exact ⟨b, hb, (hstop b (by simp [hb])).1 hs⟩
  · rintro h pre a post rfl ha
    obtain ⟨b, hb, hs⟩ := h pre a post rfl ((hbad a (by simp)).1 ha)
    exact ⟨b, hb, (hstop b (by simp [hb])).2 hs⟩

/-- The answer of a repair that looks at the arguments alone. -/
theorem fixOf_arguments (fix : List Char → Except Fault (Option (List Char))) (call : Value) :
    fixOf (fun _ => fix) call = match callArguments call with
      | none => .ok none
      | some args => fix args.toList := by
  rw [fixOf, callArguments]
  cases call.get "function" with
  | none => rfl
  | some function =>
    cases h : (function.get "arguments").bind Value.asStr <;> simp only [Option.bind_some, h]

theorem fixOf_filepath (codec : FloatCodec) (call : Value) :
    fixOf (ToolcallBadFilepathFix.fixFunction codec) call = match callArguments call with
      | none => .ok none
      | some args => ToolcallBadFilepathFix.fixFunction codec .null args.toList :=
  fixOf_arguments (ToolcallBadFilepathFix.fixFunction codec .null) call

theorem filepathFault_none (h : callArguments call = none) : filepathFault codec call = none := by
  rw [filepathFault, fixOf_filepath, h]
  rfl

theorem filepathFault_some (h : callArguments call = some args) :
    filepathFault codec call =
      Rewrite.failure (ToolcallBadFilepathFix.fixFunction codec .null args.toList) := by
  rw [filepathFault, fixOf_filepath, h]

theorem splits_iff (codec : FloatCodec) (call : Value) :
    ArgumentsAre (ToolcallBadFilepathFix.Splits codec) call ↔
      ∃ p, filepathFault codec call = some (.panic p) := by
  cases ha : callArguments call with
  | none => simp [ArgumentsAre, ha, filepathFault_none ha]
  | some args =>
    rw [ArgumentsAre, ha, filepathFault_some ha]
    simp only [Option.some.injEq, exists_eq_left', Rewrite.failure_eq_some]
    obtain ⟨ht, b, hb⟩ | ⟨hs, p, hp⟩ | ⟨hu, e, he⟩ | ⟨-, -, hs, -, hn⟩ :=
      ToolcallBadFilepathFix.fixFunction_cases codec .null args.toList
    · rw [hb]
      refine ⟨fun hs => ?_, by rintro ⟨p, ⟨⟩⟩⟩
      obtain hc | ht := ht
      · have hv := hs.1
        rw [hc.1] at hv
        cases hv
      · exact absurd ht hs.not_truncatable
    · exact ⟨fun _ => ⟨p, hp⟩, fun _ => hs⟩
    · rw [he]
      exact ⟨fun hs => absurd hs hu.2.2.1, by rintro ⟨p, ⟨⟩⟩⟩
    · rw [hn]
      exact ⟨fun h => absurd h hs, by rintro ⟨p, ⟨⟩⟩⟩

theorem unrepairable_iff (codec : FloatCodec) (call : Value) :
    ArgumentsAre (ToolcallBadFilepathFix.Unrepairable codec) call ↔
      ∃ e, filepathFault codec call = some (.error e) := by
  cases ha : callArguments call with
  | none => simp [ArgumentsAre, ha, filepathFault_none ha]
  | some args =>
    rw [ArgumentsAre, ha, filepathFault_some ha]
    simp only [Option.some.injEq, exists_eq_left', Rewrite.failure_eq_some]
    obtain ⟨ht, b, hb⟩ | ⟨hs, p, hp⟩ | ⟨hu, e, he⟩ | ⟨-, -, -, hu, hn⟩ :=
      ToolcallBadFilepathFix.fixFunction_cases codec .null args.toList
    · rw [hb]
      refine ⟨fun hu => ?_, by rintro ⟨e, ⟨⟩⟩⟩
      rcases ht with hc | ht
      · have hv := hu.1
        rw [hc.1] at hv
        cases hv
      · exact absurd ht hu.2.2.2
    · rw [hp]
      exact ⟨fun hu => absurd hs hu.2.2.1, by rintro ⟨e, ⟨⟩⟩⟩
    · exact ⟨fun _ => ⟨e, he⟩, fun _ => hu⟩
    · rw [hn]
      exact ⟨fun h => absurd h hu, by rintro ⟨e, ⟨⟩⟩⟩

/-- Valid arguments never fail. -/
theorem filepathFault_valid (ha : callArguments call = some args)
    (hv : isValid codec args.toList = true) : filepathFault codec call = none := by
  cases hf : filepathFault codec call with
  | none => rfl
  | some fault =>
    cases fault with
    | error e =>
      obtain ⟨args', ha', hu⟩ := (unrepairable_iff codec call).2 ⟨e, hf⟩
      rw [ha] at ha'
      cases ha'
      rw [hu.1] at hv
      cases hv
    | panic p =>
      obtain ⟨args', ha', hs⟩ := (splits_iff codec call).2 ⟨p, hf⟩
      rw [ha] at ha'
      cases ha'
      rw [hs.1] at hv
      cases hv

/-! The steps. -/

namespace FixRegistry

variable {codec : FloatCodec} {r : FixRegistry} {request : Value}

theorem applyFix_off {fix : ResponseFix}
    (h : ¬ (r.isEnabled fix.name && fix.appliesWithContext run.1 request) = true) :
    applyFix codec r request run fix = .ok run := if_neg h

theorem applyFix_ok {fix : ResponseFix}
    (h : (r.isEnabled fix.name && fix.appliesWithContext run.1 request) = true)
    (ha : fix.applyWithContext run.1 request = .ok (w, action)) :
    applyFix codec r request run fix = .ok (w, run.2 ++ [(fix.name, action)]) := by
  rw [applyFix, if_pos h, ha]

theorem applyFix_error {fix : ResponseFix}
    (h : (r.isEnabled fix.name && fix.appliesWithContext run.1 request) = true)
    (ha : fix.applyWithContext run.1 request = .error (.error e)) :
    applyFix codec r request run fix =
      .ok (run.1, run.2 ++ [(fix.name, fixerErrorAction codec run.1 e)]) := by
  rw [applyFix, if_pos h, ha]

theorem applyFix_panic {fix : ResponseFix}
    (h : (r.isEnabled fix.name && fix.appliesWithContext run.1 request) = true)
    (ha : fix.applyWithContext run.1 request = .error (.panic p)) :
    applyFix codec r request run fix = .error p := by
  rw [applyFix, if_pos h, ha]

/-- The index fix always ends, and leaves the functions of the calls. -/
theorem nullIndex_step (codec : FloatCodec) (r : FixRegistry) (request : Value) (run : Run) :
    ∃ run', applyFix codec r request run toolCallNullIndexFix = .ok run' ∧
      CallsOnly ["message", "delta"] (fun c c' => c'.get "function" = c.get "function")
        run.1 run'.1 := by
  by_cases h : (r.isEnabled toolCallNullIndexFix.name &&
      toolCallNullIndexFix.appliesWithContext run.1 request) = true
  · refine ⟨_, applyFix_ok h rfl, ?_⟩
    exact (ToolCallNullIndexFix.apply_frame run.1).mono fun _ _ hi =>
      hi.outside "function" (by decide)
  · refine ⟨run, applyFix_off h, ?_⟩
    exact CallsOnly.refl (S := fun c c' => c'.get "function" = c.get "function") (fun _ => rfl) _

theorem slotRepair_congr (codec : FloatCodec) (request : Value)
    (h : c'.get "function" = c.get "function") :
    slotRepair codec request c' = slotRepair codec request c := by
  rw [slotRepair, slotRepair, fixOf, fixOf, h]

theorem callArguments_congr (h : c'.get "function" = c.get "function") :
    callArguments c' = callArguments c := by
  rw [callArguments, callArguments, h]

theorem slotRepair_eq_some (h : slotRepair codec request call = .ok (some b)) :
    isValid codec b = true ∧ ToolcallMalformedArgumentsFix.hasTrigger call = true ∧
      (ToolcallMalformedArgumentsFix.extractToolSchemas request).isEmpty = false := by
  rw [slotRepair, fixOf] at h
  split at h
  · cases h
  · next function hf =>
    split at h
    · cases h
    · next args ha =>
      refine ⟨ToolcallMalformedArgumentsFix.fixFunction_valid h, ?_, ?_⟩
      · rw [ToolcallMalformedArgumentsFix.hasTrigger, callArguments, hf, Option.bind_some, ha,
          Option.any_some]
        cases hm : ToolcallMalformedArgumentsFix.isMatch args.toList with
        | true => rfl
        | false =>
          rw [ToolcallMalformedArgumentsFix.fixFunction,
            ToolcallMalformedArgumentsFix.fixArguments, hm] at h
          cases h
      · cases hs : ToolcallMalformedArgumentsFix.extractToolSchemas request with
        | cons e es => rfl
        | nil =>
          rw [hs, ToolcallMalformedArgumentsFix.fixFunction,
            ToolcallMalformedArgumentsFix.fixArguments] at h
          split at h <;> cases h

theorem slotRepair_failure (h : Rewrite.failure (slotRepair codec request call) = some fault) :
    ∃ e, fault = .error e := by
  rw [Rewrite.failure_eq_some, slotRepair, fixOf] at h
  split at h
  · cases h
  · split at h
    · cases h
    · rw [ToolcallMalformedArgumentsFix.fixFunction] at h
      cases hf : ToolcallMalformedArgumentsFix.fixArguments codec _ _ _ with
      | error e =>
        rw [hf] at h
        cases h
        exact ⟨e, rfl⟩
      | ok b =>
        rw [hf] at h
        cases h

theorem tools_isSome_of_schemas
    (h : (ToolcallMalformedArgumentsFix.extractToolSchemas request).isEmpty = false) :
    (request.get "tools").isSome = true := by
  cases ht : request.get "tools" with
  | some t => rfl
  | none =>
    rw [ToolcallMalformedArgumentsFix.extractToolSchemas, itemsAt, ht] at h
    cases h

theorem message_subset : ∀ side ∈ ["message"], side ∈ ["message", "delta"] := by decide

/-- What the slot repair makes of one call. -/
def SlotStep (codec : FloatCodec) (r : FixRegistry) (request response c c' : Value) : Prop :=
  (SlotsFilled codec r request response c ∧
    ∃ args, callArguments c' = some args ∧ isValid codec args.toList = true) ∨
  (¬ SlotsFilled codec r request response c ∧ callArguments c' = callArguments c)

/-- What the slot repair makes of one call, with the arguments that it writes. -/
def SlotStepTo (codec : FloatCodec) (r : FixRegistry) (request response c c' : Value) : Prop :=
  (SlotsFilled codec r request response c ∧ ∃ b, slotRepair codec request c = .ok (some b) ∧
    callArguments c' = some (String.ofList b)) ∨
  (¬ SlotsFilled codec r request response c ∧ callArguments c' = callArguments c)

theorem SlotStepTo.valid {response : Value} (h : SlotStepTo codec r request response c c') :
    SlotStep codec r request response c c' := by
  obtain ⟨hf, b, hb, ha⟩ | hsame := h
  · refine .inl ⟨hf, _, ha, ?_⟩
    rw [String.toList_ofList]
    exact (slotRepair_eq_some hb).1
  · exact .inr hsame

theorem slotStep_same {response : Value}
    (h : ∀ c ∈ calls ["message"] response, ¬ SlotsFilled codec r request response c) :
    List.Forall₂ (SlotStepTo codec r request response) (calls ["message"] response)
      (calls ["message"] response) :=
  List.forall₂_same.2 fun c hc => .inr ⟨h c hc, rfl⟩

theorem calls_message_subset (h : c ∈ calls ["message"] response) :
    c ∈ calls ["message", "delta"] response := by
  obtain ⟨choice, hc, hs⟩ := List.mem_flatMap.1 h
  obtain ⟨side, hside, hm⟩ := List.mem_flatMap.1 hs
  rw [List.mem_singleton.1 hside] at hm
  exact List.mem_flatMap.2 ⟨choice, hc, List.mem_flatMap.2 ⟨"message", by simp, hm⟩⟩

/-- The slot repair always ends; it leaves the response where it refuses a call. -/
theorem slots_step_to (codec : FloatCodec) (r : FixRegistry) (request : Value) (run : Run) :
    ∃ run', applyFix codec r request run (toolcallMalformedArgumentsFix codec) = .ok run' ∧
      List.Forall₂ (SlotStepTo codec r request run.1) (calls ["message"] run.1)
        (calls ["message"] run'.1) ∧
      ((∃ c ∈ calls ["message", "delta"] run.1, ∃ fault,
        Rewrite.failure (slotRepair codec request c) = some fault) → run'.1 = run.1) := by
  by_cases h : (r.isEnabled (toolcallMalformedArgumentsFix codec).name &&
      (toolcallMalformedArgumentsFix codec).appliesWithContext run.1 request) = true
  · by_cases hs : (ToolcallMalformedArgumentsFix.extractToolSchemas request).isEmpty = true
    · refine ⟨_, applyFix_ok h (if_pos hs), slotStep_same fun c _ hc => ?_, fun _ => rfl⟩
      obtain ⟨-, -, b, hb⟩ := hc
      rw [(slotRepair_eq_some hb).2.2] at hs
      cases hs
    · have hfault : Rewrite.failure (ToolcallMalformedArgumentsFix.fixToolCalls codec
          (ToolcallMalformedArgumentsFix.extractToolSchemas request) run.1) =
          (calls ["message", "delta"] run.1).findSome? fun c =>
            Rewrite.failure (slotRepair codec request c) := by
        rw [ToolcallMalformedArgumentsFix.fixToolCalls, failure_repairCalls (by decide)]
        congr 1
        funext c
        exact failure_repairArguments _ c
      have happly : (toolcallMalformedArgumentsFix codec).applyWithContext run.1 request =
          (ToolcallMalformedArgumentsFix.fixToolCalls codec
            (ToolcallMalformedArgumentsFix.extractToolSchemas request) run.1).map
              fun r => (r.1, aggregateRepairs r.2) := if_neg hs
      cases hfix : ToolcallMalformedArgumentsFix.fixToolCalls codec
          (ToolcallMalformedArgumentsFix.extractToolSchemas request) run.1 with
      | error fault =>
        rw [hfix] at hfault happly
        obtain ⟨c, hc, hcf⟩ := List.exists_of_findSome?_eq_some hfault.symm
        obtain ⟨e, rfl⟩ := slotRepair_failure hcf
        refine ⟨_, applyFix_error h happly, slotStep_same fun c' _ hc' => ?_, fun _ => rfl⟩
        rw [hc'.2.1 c hc] at hcf
        cases hcf
      | ok p =>
        obtain ⟨w, notes⟩ := p
        rw [hfix] at hfault happly
        have hnone := List.findSome?_eq_none_iff.1 hfault.symm
        have hmakes := (repairCalls_makes (by decide) ⟨notes, hfix⟩).calls message_subset
        refine ⟨_, applyFix_ok h happly, ?_, ?_⟩
        · refine hmakes.imp ?_
          rintro c c' ⟨-, hm⟩
          obtain ⟨o, ho, ha⟩ := callArguments_of_makes hm
          cases o with
          | none =>
            refine .inr ⟨?_, ha⟩
            rintro ⟨-, -, b, hb⟩
            rw [slotRepair, ho] at hb
            cases hb
          | some b =>
            exact .inl ⟨⟨(Bool.and_eq_true_iff.1 h).1, hnone, b, ho⟩, b, ho, ha⟩
        · rintro ⟨c, hc, fault, hcf⟩
          rw [hnone c hc] at hcf
          cases hcf
  · refine ⟨run, applyFix_off h, slotStep_same fun c hc hf => h ?_, fun _ => rfl⟩
    obtain ⟨hon, -, b, hb⟩ := hf
    obtain ⟨-, htrigger, hs⟩ := slotRepair_eq_some hb
    refine Bool.and_eq_true_iff.2 ⟨hon, Bool.and_eq_true_iff.2 ⟨?_, tools_isSome_of_schemas hs⟩⟩
    exact List.any_eq_true.2 ⟨c, calls_message_subset hc, htrigger⟩

theorem slots_step (codec : FloatCodec) (r : FixRegistry) (request : Value) (run : Run) :
    ∃ run', applyFix codec r request run (toolcallMalformedArgumentsFix codec) = .ok run' ∧
      List.Forall₂ (SlotStep codec r request run.1) (calls ["message"] run.1)
        (calls ["message"] run'.1) ∧
      ((∃ c ∈ calls ["message", "delta"] run.1, ∃ fault,
        Rewrite.failure (slotRepair codec request c) = some fault) → run'.1 = run.1) := by
  obtain ⟨run', hrun, hsteps, hkeep⟩ := slots_step_to codec r request run
  exact ⟨run', hrun, hsteps.imp fun _ _ => SlotStepTo.valid, hkeep⟩

/-- The first failure of the filepath repair on a response. -/
def firstFault (codec : FloatCodec) (response : Value) : Option Fault :=
  (calls ["message"] response).findSome? (filepathFault codec)

theorem filepathFault_unapplied (happ : ToolcallBadFilepathFix.applies codec response = false)
    (hc : c ∈ calls ["message"] response) :
    fixOf (ToolcallBadFilepathFix.fixFunction codec) c = .ok none := by
  rw [fixOf_filepath]
  cases ha : callArguments c with
  | none => rfl
  | some args =>
    have hn : ToolcallBadFilepathFix.isMalformed codec args.toList = false := by
      rw [ToolcallBadFilepathFix.applies, List.any_eq_false] at happ
      have := happ c hc
      rw [ha, Option.any_some] at this
      simpa using this
    change (if _ then _ else _) = _
    rw [hn]
    rfl

/-- The filepath repair: it panics on the first call that it cannot slice, leaves the response
on the first that it refuses, and else answers for every call. -/
theorem filepath_step (codec : FloatCodec) (request : Value)
    (hon : r.isEnabled "toolcall_bad_filepath" = true) (run : Run) :
    (∀ p, firstFault codec run.1 = some (.panic p) →
      applyFix codec r request run (toolcallBadFilepathFix codec) = .error p) ∧
    (∀ e, firstFault codec run.1 = some (.error e) → ∃ run',
      applyFix codec r request run (toolcallBadFilepathFix codec) = .ok run' ∧
        run'.1 = run.1) ∧
    (firstFault codec run.1 = none → ∃ run',
      applyFix codec r request run (toolcallBadFilepathFix codec) = .ok run' ∧
      ∀ i j c, callAt run.1 "message" i j = some c → ∃ c' o,
        callAt run'.1 "message" i j = some c' ∧
        fixOf (ToolcallBadFilepathFix.fixFunction codec) c = .ok o ∧
        callArguments c' = (o.map String.ofList).or (callArguments c)) := by
  cases happ : ToolcallBadFilepathFix.applies codec run.1 with
  | false =>
    have hoff : ¬ (r.isEnabled (toolcallBadFilepathFix codec).name &&
        (toolcallBadFilepathFix codec).appliesWithContext run.1 request) = true := by
      intro h
      have happ' : ToolcallBadFilepathFix.applies codec run.1 = true :=
        (Bool.and_eq_true_iff.1 h).2
      rw [happ] at happ'
      cases happ'
    have hnone : firstFault codec run.1 = none := by
      refine List.findSome?_eq_none_iff.2 fun c hc => ?_
      rw [filepathFault, filepathFault_unapplied happ hc]
      rfl
    rw [hnone]
    refine ⟨nofun, nofun, fun _ => ⟨run, applyFix_off hoff, fun i j c hc => ?_⟩⟩
    exact ⟨c, none, hc, filepathFault_unapplied happ (callAt_mem hc (by simp)), rfl⟩
  | true =>
    have hgo : (r.isEnabled (toolcallBadFilepathFix codec).name &&
        (toolcallBadFilepathFix codec).appliesWithContext run.1 request) = true :=
      Bool.and_eq_true_iff.2 ⟨hon, happ⟩
    have hfault : Rewrite.failure (ToolcallBadFilepathFix.applyChecked codec run.1) =
        firstFault codec run.1 := by
      rw [ToolcallBadFilepathFix.applyChecked, Rewrite.failure_map,
        failure_repairCalls (by decide)]
      exact congrArg (List.findSome? · _) (funext fun c => failure_repairArguments _ c)
    refine ⟨fun p hp => ?_, fun e he => ?_, fun hn => ?_⟩
    · rw [hp] at hfault
      exact applyFix_panic hgo (Rewrite.failure_eq_some.1 hfault)
    · rw [he] at hfault
      exact ⟨_, applyFix_error hgo (Rewrite.failure_eq_some.1 hfault), rfl⟩
    · rw [hn] at hfault
      obtain ⟨⟨w, action⟩, hw⟩ := Rewrite.failure_eq_none.1 hfault
      refine ⟨_, applyFix_ok hgo hw, fun i j c hc => ?_⟩
      obtain ⟨⟨v, notes⟩, hv, hq⟩ := Fallible.map_eq_ok_iff.1 hw
      cases hq
      have hrel := (repairCalls_makes (by decide) ⟨notes, hv⟩).callAt
        (List.mem_singleton.2 rfl) i j
      rw [hc] at hrel
      obtain ⟨c', hc', -, hm⟩ := optionRel_some_left hrel
      obtain ⟨o, ho, ha⟩ := callArguments_of_makes hm
      exact ⟨c', o, hc', ho, ha⟩

end FixRegistry

end LocalMind
