import LocalMind.Fixes.RegistryRun

namespace LocalMind
open Json
set_option autoImplicit true

/-- Arguments of the result are those of the response or valid, and numeric indices stay. -/
def CallsKept (codec : FloatCodec) (response result : Value) : Prop :=
  ∀ side ∈ ["message", "delta"], ∀ i j c', callAt result side i j = some c' →
    ∃ c, callAt response side i j = some c ∧
      (∀ args, callArguments c' = some args →
        callArguments c = some args ∨ isValid codec args.toList = true) ∧
      ∀ n, c.get "index" = some (.number n) → c'.get "index" = some (.number n)

/-- A fix that reports an error leaves the response as it got it. -/
def ErrorsKeep (codec : FloatCodec) (r : FixRegistry) (response request : Value) : Prop :=
  ∀ pre fix post run e, r.fixes = pre ++ fix :: post →
    pre.foldlM (FixRegistry.applyFix codec r request) (response, []) = .ok run →
    fix.applyWithContext run.1 request = .error (.error e) →
    ∃ log, (pre ++ [fix]).foldlM (FixRegistry.applyFix codec r request) (response, []) =
      .ok (run.1, log)

/-- The run ends in a response that differs from the one given in repaired indices and arguments
alone. -/
def Contained (codec : FloatCodec) (r : FixRegistry) (response request : Value) : Prop :=
  ∃ v log, r.applyFixesWithContext codec response request = .ok (v, log) ∧
    ResponseFixed codec response v ∧ CallsKept codec response v ∧
      ErrorsKeep codec r response request

/-- Every call that the filepath repair would slice inside a character comes after one that it
refuses; calls whose slots are filled are neither. -/
def FilepathShielded (codec : FloatCodec) (r : FixRegistry) (response request : Value) : Prop :=
  Shielded
    (fun call => ¬ SlotsFilled codec r request response call ∧
      ArgumentsAre (ToolcallBadFilepathFix.Splits codec) call)
    (fun call => ¬ SlotsFilled codec r request response call ∧
      ArgumentsAre (ToolcallBadFilepathFix.Unrepairable codec) call)
    (calls ["message"] response)

/-- The default fixes, with any switches. -/
def defaultRegistryWith (codec : FloatCodec) (enabled : List (String × Bool)) : FixRegistry :=
  { createDefaultRegistry codec with enabled := enabled }

theorem ResponseFixed.callsKept {codec : FloatCodec} (h : ResponseFixed codec v w) :
    CallsKept codec v w := by
  intro side hside i j c' hc'
  have hrel := h.callAt hside i j
  rw [hc'] at hrel
  cases hc : callAt v side i j with
  | none =>
    rw [hc] at hrel
    cases hrel
  | some c =>
    rw [hc] at hrel
    obtain ⟨d, hd, hfix⟩ := optionRel_some_left hrel
    cases hd
    exact ⟨c, rfl, fun _ => hfix.arguments, fun _ => hfix.number⟩

theorem errorsKeep (codec : FloatCodec) (r : FixRegistry) (response request : Value) :
    ErrorsKeep codec r response request := by
  intro pre fix post run e hfixes hpre he
  rw [List.foldlM_append, hpre, Fallible.ok_bind, List.foldlM_cons]
  by_cases h : (r.isEnabled fix.name && fix.appliesWithContext run.1 request) = true
  · rw [FixRegistry.applyFix_error h he]
    exact ⟨_, rfl⟩
  · rw [FixRegistry.applyFix_off h]
    exact ⟨run.2, rfl⟩

section
variable {codec : FloatCodec} {r : FixRegistry} {request : Value}

theorem slotsFilled_congr {response v : Value}
    (h : CallsOnly ["message", "delta"] (fun c c' => c'.get "function" = c.get "function")
      response v) (hc : c'.get "function" = c.get "function") :
    SlotsFilled codec r request v c' ↔ SlotsFilled codec r request response c := by
  have hcalls := h.calls fun _ hk => hk
  have hall : (∀ d ∈ calls ["message", "delta"] v,
        Rewrite.failure (slotRepair codec request d) = none) ↔
      ∀ d ∈ calls ["message", "delta"] response,
        Rewrite.failure (slotRepair codec request d) = none := by
    rw [← List.findSome?_eq_none_iff, ← List.findSome?_eq_none_iff]
    have heq := findSome?_of_forall₂ (hcalls.imp fun d d' hd =>
      congrArg Rewrite.failure (FixRegistry.slotRepair_congr codec request hd).symm)
    rw [heq]
  rw [SlotsFilled, SlotsFilled, hall, FixRegistry.slotRepair_congr codec request hc]

/-- The index fix and the slot repair always end: each call has the arguments it had, or the ones
that the slot repair writes. -/
theorem two_steps (codec : FloatCodec) (r : FixRegistry) (response request : Value) :
    ∃ run₁ run₂, FixRegistry.applyFix codec r request (response, []) toolCallNullIndexFix =
        .ok run₁ ∧
      FixRegistry.applyFix codec r request run₁ (toolcallMalformedArgumentsFix codec) =
        .ok run₂ ∧
      CallsOnly ["message", "delta"] (fun c c' => c'.get "function" = c.get "function")
        response run₁.1 ∧
      List.Forall₂ (FixRegistry.SlotStepTo codec r request response)
        (calls ["message"] response) (calls ["message"] run₂.1) ∧
      ((∃ c ∈ calls ["message", "delta"] response, ∃ fault,
        Rewrite.failure (slotRepair codec request c) = some fault) → run₂.1 = run₁.1) := by
  obtain ⟨run₁, h₁, hindex⟩ := FixRegistry.nullIndex_step codec r request (response, [])
  obtain ⟨run₂, h₂, hslots, hkeep⟩ := FixRegistry.slots_step_to codec r request run₁
  refine ⟨run₁, run₂, h₁, h₂, hindex, ?_, ?_⟩
  · have hmessage := hindex.calls FixRegistry.message_subset
    refine forall₂_comp ?_ hmessage hslots
    rintro c c₁ c₂ hc (⟨hf, b, hb, ha⟩ | ⟨hf, ha⟩)
    · rw [FixRegistry.slotRepair_congr codec request hc] at hb
      exact .inl ⟨(slotsFilled_congr hindex hc).1 hf, b, hb, ha⟩
    · refine .inr ⟨fun hf' => hf ((slotsFilled_congr hindex hc).2 hf'), ?_⟩
      rw [ha, FixRegistry.callArguments_congr hc]
  · rintro ⟨c, hc, fault, hfault⟩
    apply hkeep
    obtain ⟨c', hc', hcc'⟩ := forall₂_mem_left (hindex.calls fun _ hk => hk) hc
    exact ⟨c', hc', fault, by rwa [FixRegistry.slotRepair_congr codec request hcc']⟩

/-- The first two fixes always end: each call has the arguments it had, or its slots filled. -/
theorem first_two (codec : FloatCodec) (r : FixRegistry) (response request : Value) :
    ∃ run, [toolCallNullIndexFix, toolcallMalformedArgumentsFix codec].foldlM
        (FixRegistry.applyFix codec r request) (response, []) = .ok run ∧
      List.Forall₂ (FixRegistry.SlotStep codec r request response)
        (calls ["message"] response) (calls ["message"] run.1) ∧
      ((∃ c ∈ calls ["message", "delta"] response, ∃ fault,
        Rewrite.failure (slotRepair codec request c) = some fault) →
        CallsOnly ["message", "delta"] (fun c c' => c'.get "function" = c.get "function")
          response run.1) := by
  obtain ⟨run₁, run₂, h₁, h₂, hindex, hslots, hkeep⟩ := two_steps codec r response request
  refine ⟨run₂, ?_, hslots.imp fun _ _ => FixRegistry.SlotStepTo.valid, ?_⟩
  · rw [List.foldlM_cons, h₁, Fallible.ok_bind, List.foldlM_cons, h₂]
    rfl
  · intro hfault
    rw [hkeep hfault]
    exact hindex

/-- The filepath repair panics on what the first two fixes leave exactly where a call to slice
is not shielded. -/
theorem firstFault_panic_iff {response v : Value}
    (h : List.Forall₂ (FixRegistry.SlotStep codec r request response)
      (calls ["message"] response) (calls ["message"] v)) :
    (∃ p, FixRegistry.firstFault codec v = some (.panic p)) ↔
      ¬ FilepathShielded codec r response request := by
  classical
  let F := fun call => if SlotsFilled codec r request response call then none
    else filepathFault codec call
  have hF : List.Forall₂ (fun c c' => F c = filepathFault codec c') (calls ["message"] response)
      (calls ["message"] v) := by
    refine h.imp ?_
    rintro c c' (⟨hf, args, ha, hv⟩ | ⟨hf, ha⟩)
    · rw [filepathFault_valid ha hv]
      exact if_pos hf
    · rw [filepathFault, fixOf_filepath, ha, ← fixOf_filepath]
      exact if_neg hf
  rw [FixRegistry.firstFault, ← findSome?_of_forall₂ hF]
  refine findSome?_panic_iff (fun c => ?_) (fun c => ?_) _
  · rw [splits_iff]
    by_cases hf : SlotsFilled codec r request response c <;> simp [F, hf]
  · rw [unrepairable_iff]
    by_cases hf : SlotsFilled codec r request response c <;> simp [F, hf]

end

/-- A run of the default fixes is contained exactly when the filepath repair is off or every
call that it would slice inside a character is shielded. -/
theorem applyFixes_contained_iff (codec : FloatCodec) (enabled : List (String × Bool))
    (response request : Value) :
    Contained codec (defaultRegistryWith codec enabled) response request ↔
      ((defaultRegistryWith codec enabled).isEnabled "toolcall_bad_filepath" = true →
        FilepathShielded codec (defaultRegistryWith codec enabled) response request) := by
  obtain ⟨run, hrun, hslots, -⟩ := first_two codec (defaultRegistryWith codec enabled) response
    request
  have hsplit : (defaultRegistryWith codec enabled).applyFixesWithContext codec response request =
      FixRegistry.applyFix codec (defaultRegistryWith codec enabled) request run
        (toolcallBadFilepathFix codec) := by
    have hfixes : (defaultRegistryWith codec enabled).fixes =
      [toolCallNullIndexFix, toolcallMalformedArgumentsFix codec] ++
        [toolcallBadFilepathFix codec] := rfl
    rw [FixRegistry.applyFixesWithContext, hfixes, List.foldlM_append, hrun, Fallible.ok_bind,
      List.foldlM_cons]
    exact bind_pure _
  have hcontained : (∃ out, FixRegistry.applyFix codec (defaultRegistryWith codec enabled) request
        run (toolcallBadFilepathFix codec) = .ok out) →
      Contained codec (defaultRegistryWith codec enabled) response request := by
    rintro ⟨⟨v, log⟩, hv⟩
    rw [← hsplit] at hv
    have hframe := FixRegistry.run_frame (fun _ hf => hf) hv
    exact ⟨v, log, hv, hframe, hframe.callsKept, errorsKeep codec _ response request⟩
  constructor
  · rintro ⟨v, log, hv, -⟩ hon
    by_contra hn
    obtain ⟨p, hp⟩ := (firstFault_panic_iff hslots).2 hn
    rw [hsplit, (FixRegistry.filepath_step codec request hon run).1 p hp] at hv
    cases hv
  · intro h
    refine hcontained ?_
    by_cases hon : (defaultRegistryWith codec enabled).isEnabled "toolcall_bad_filepath" = true
    · obtain ⟨-, herror, hnone⟩ := FixRegistry.filepath_step codec request hon run
      cases hf : FixRegistry.firstFault codec run.1 with
      | none =>
        obtain ⟨out, ho, -⟩ := hnone hf
        exact ⟨out, ho⟩
      | some fault =>
        cases fault with
        | error e =>
          obtain ⟨out, ho, -⟩ := herror e hf
          exact ⟨out, ho⟩
        | panic p => exact absurd (h hon) ((firstFault_panic_iff hslots).1 ⟨p, hf⟩)
    · exact ⟨run, FixRegistry.applyFix_off fun hc => hon (Bool.and_eq_true_iff.1 hc).1⟩

/-- A response with one tool call. -/
def responseWith (name arguments : String) : Value :=
  .object [("choices", .array [.object [("message", .object [("tool_calls", .array [.object
    [("index", .number (.posInt 0)), ("function", .object
      [("name", .string name), ("arguments", .string arguments)])]])])]])]

/-- An open object with a no-break space after the marker. -/
def wideArguments : String := "\x7b\"filePath\":\u00a0\"/x\""

/-- The repair slices inside the no-break space. -/
theorem applyFixes_slices_wide_space :
    ¬ Contained integersOnly (createDefaultRegistry integersOnly)
      (responseWith "write" wideArguments) .null := by
  have hpanic : ((createDefaultRegistry integersOnly).applyFixesWithContext integersOnly
      (responseWith "write" wideArguments) .null).toBool = false := by
    decide +kernel
  rintro ⟨v, log, h, -⟩
  rw [h] at hpanic
  cases hpanic

end LocalMind
