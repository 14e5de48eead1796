import LocalMind.Fixes.RegistryContainment

namespace LocalMind
open Json
set_option autoImplicit true

/-! Detection reports the fixes that would act, each tried on the response as it came. -/

def FixAction.detected : FixAction → Bool
  | .fixed _ _ | .failed _ _ => true
  | .notApplicable => false

namespace FixRegistry

/-- The name of a fix that acts on the response. What the fix makes of it is dropped. -/
def detectFix (codec : FloatCodec) (r : FixRegistry) (response request : Value)
    (fix : ResponseFix) : Except SlicePanic (List String) :=
  if r.isEnabled fix.name && fix.appliesWithContext response request then
    match fix.applyWithContext response request with
    | .ok (_, action) => .ok (if action.detected then [fix.name] else [])
    | .error (.error e) =>
      .ok (if (fixerErrorAction codec response e).detected then [fix.name] else [])
    | .error (.panic p) => .error p
  else .ok []

def detectFixes (codec : FloatCodec) (r : FixRegistry) (response request : Value) :
    Except SlicePanic (List String) :=
  r.fixes.foldlM (fun detected fix =>
    (detectFix codec r response request fix).map fun names => detected ++ names) []

end FixRegistry

/-- The fixes of a log whose action was a repair or a failure. -/
def firedNames (log : List (String × FixAction)) : List String :=
  (log.filter fun e => e.2.detected).map Prod.fst

/-- Detection and the run both end, and they name the same fixes. -/
def DetectsRun (codec : FloatCodec) (r : FixRegistry) (response request : Value) : Prop :=
  ∃ v log, r.applyFixesWithContext codec response request = .ok (v, log) ∧
    r.detectFixes codec response request = .ok (firedNames log)

/-- The filepath repair repairs or refuses these arguments. -/
def FilepathActs (codec : FloatCodec) (args : List Char) : Prop :=
  ToolcallBadFilepathFix.Collapsible codec args ∨ ToolcallBadFilepathFix.Truncatable codec args ∨
    ToolcallBadFilepathFix.Unrepairable codec args

/-- The slot repair writes arguments that the filepath repair collapses. -/
def FilledCollapses (codec : FloatCodec) (request call : Value) : Prop :=
  ∃ b, slotRepair codec request call = .ok (some b) ∧ ToolcallBadFilepathFix.Collapsible codec b

/-- The slots that are filled leave it open whether the filepath repair acts: a call without
filled slots has it act in any case, or calls with filled slots have it act before exactly if
some have it act after. -/
def FillsNeutral (codec : FloatCodec) (r : FixRegistry) (request response : Value) : Prop :=
  (∃ c ∈ calls ["message"] response, ¬ SlotsFilled codec r request response c ∧
    ArgumentsAre (FilepathActs codec) c) ∨
  ((∃ c ∈ calls ["message"] response, SlotsFilled codec r request response c ∧
      ArgumentsAre (FilepathActs codec) c) ↔
    ∃ c ∈ calls ["message"] response, SlotsFilled codec r request response c ∧
      FilledCollapses codec request c)

/-- No call is sliced inside a character, neither as it came nor after the slot repair. -/
def NothingSliced (codec : FloatCodec) (r : FixRegistry) (request response : Value) : Prop :=
  Shielded (ArgumentsAre (ToolcallBadFilepathFix.Splits codec))
    (ArgumentsAre (ToolcallBadFilepathFix.Unrepairable codec)) (calls ["message"] response) ∧
  FilepathShielded codec r response request

/-! What a repair of the calls reports. -/

def fires (fix : Value → List Char → Except Fault (Option (List Char))) (call : Value) : Bool :=
  match fixOf fix call with
  | .ok (some _) => true
  | .ok none | .error _ => false

/-- What detection says of a repair of the calls. -/
def detectCalls (name : String) (fix : Value → List Char → Except Fault (Option (List Char)))
    (cs : List Value) : Except SlicePanic (List String) :=
  match cs.findSome? fun c => Rewrite.failure (fixOf fix c) with
  | some (.panic p) => .error p
  | some (.error _) => .ok [name]
  | none => .ok (if cs.any (fires fix) then [name] else [])

section
variable {fix : Value → List Char → Except Fault (Option (List Char))}

theorem noted_repairFunction (f : Value)
    (hargs : (f.get "arguments").bind Value.asStr = some args) :
    Rewrite.noted (repairFunction fix f) = match fix f args.toList with
      | .ok (some fixed) => [.fixed args (String.ofList fixed)]
      | .ok none | .error _ => [] := by
  rw [repairFunction, hargs]
  dsimp only
  cases fix f args.toList with
  | error e => rfl
  | ok o => cases o <;> rfl

/-- A call is noted exactly where the repair gives new arguments, and as a repair. -/
theorem noted_repairArguments (call : Value) :
    (Rewrite.noted (repairArguments fix call)).isEmpty = !fires fix call ∧
      ∀ a ∈ Rewrite.noted (repairArguments fix call), a.detected = true := by
  rw [repairArguments, Rewrite.noted_under, fires, fixOf]
  cases call.get "function" with
  | none => exact ⟨rfl, fun a ha => by cases ha⟩
  | some f =>
    rw [Option.map_some, Option.getD_some]
    dsimp only
    cases hargs : (f.get "arguments").bind Value.asStr with
    | none =>
      have hskip : repairFunction fix f = .ok (f, []) := by rw [repairFunction, hargs]
      rw [hskip]
      exact ⟨rfl, fun a ha => by cases ha⟩
    | some args =>
      rw [noted_repairFunction f hargs]
      dsimp only
      cases fix f args.toList with
      | error e => exact ⟨rfl, fun a ha => by cases ha⟩
      | ok o =>
        cases o with
        | none => exact ⟨rfl, fun a ha => by cases ha⟩
        | some b =>
          refine ⟨rfl, fun a ha => ?_⟩
          rw [List.mem_singleton.1 ha]
          rfl

theorem aggregateRepairs_detected {notes : List FixAction}
    (h : ∀ a ∈ notes, a.detected = true) : (aggregateRepairs notes).detected = !notes.isEmpty := by
  cases notes with
  | nil => rfl
  | cons a as =>
    cases as with
    | nil => exact h a List.mem_cons_self
    | cons b as => rfl

theorem flatMap_isEmpty (f : α → List β) (as : List α) :
    (as.flatMap f).isEmpty = as.all fun a => (f a).isEmpty := by
  induction as with
  | nil => rfl
  | cons a as ih =>
    rw [List.flatMap_cons, List.all_cons, ← ih]
    cases f a <;> rfl

/-- The repairs of a walk are detected exactly where some call is repaired. -/
theorem repairCalls_detected (hs : sides.Nodup)
    (h : repairCalls sides (fun _ => repairArguments fix) v = .ok (w, notes)) :
    (aggregateRepairs notes).detected = (calls sides v).any (fires fix) := by
  have hnotes := noted_repairCalls hs h
  have hall : ∀ a ∈ notes, a.detected = true := by
    intro a ha
    rw [hnotes] at ha
    obtain ⟨c, -, hc⟩ := List.mem_flatMap.1 ha
    exact (noted_repairArguments c).2 a hc
  rw [aggregateRepairs_detected hall, hnotes, flatMap_isEmpty, List.not_all_eq_any_not]
  apply congrArg ((calls sides v).any ·)
  funext c
  rw [(noted_repairArguments c).1, Bool.not_not]

/-- Detection by a walk over the calls. -/
theorem detectCalls_eq (name : String) (hs : sides.Nodup) (v : Value) :
    detectCalls name fix (calls sides v) =
      match repairCalls sides (fun _ => repairArguments fix) v with
      | .ok (_, notes) => .ok (if (aggregateRepairs notes).detected then [name] else [])
      | .error (.error _) => .ok [name]
      | .error (.panic p) => .error p := by
  have hfail : ((calls sides v).findSome? fun c => Rewrite.failure (fixOf fix c)) =
      Rewrite.failure (repairCalls sides (fun _ => repairArguments fix) v) := by
    rw [failure_repairCalls hs]
    congr 1
    funext c
    exact (failure_repairArguments fix c).symm
  rw [detectCalls, hfail]
  cases h : repairCalls sides (fun _ => repairArguments fix) v with
  | error fault => cases fault <;> rfl
  | ok r =>
    obtain ⟨w, notes⟩ := r
    rw [← repairCalls_detected hs h]
    rfl

theorem detectCalls_quiet (h : ∀ c ∈ cs, fixOf fix c = .ok none) :
    detectCalls name fix cs = .ok [] := by
  have hnone : (cs.findSome? fun c => Rewrite.failure (fixOf fix c)) = none := by
    apply List.findSome?_eq_none_iff.2
    intro c hc
    rw [h c hc]
    rfl
  have hany : cs.any (fires fix) = false := by
    apply List.any_eq_false.2
    intro c hc
    rw [fires, h c hc]
    exact Bool.false_ne_true
  rw [detectCalls, hnone]
  dsimp only
  rw [hany]
  rfl

theorem detectCalls_congr (h : List.Forall₂ (fun c c' => fixOf fix c = fixOf fix c') cs cs') :
    detectCalls name fix cs = detectCalls name fix cs' := by
  have hany : cs.any (fires fix) = cs'.any (fires fix) := by
    induction h with
    | nil => rfl
    | cons hc _ ih => rw [List.any_cons, List.any_cons, ih, fires, fires, hc]
  rw [detectCalls, detectCalls, hany,
    findSome?_of_forall₂ (h.imp fun _ _ hc => congrArg Rewrite.failure hc)]

end

namespace FixRegistry

variable {codec : FloatCodec} {r : FixRegistry} {request : Value}

theorem firedNames_append (log : List (String × FixAction)) (name : String) (action : FixAction) :
    firedNames (log ++ [(name, action)]) =
      firedNames log ++ if action.detected then [name] else [] := by
  rw [firedNames, firedNames, List.filter_append, List.map_append]
  cases h : action.detected <;> simp [h]

/-- What detection says of a fix is what the fix adds to the log of a run. -/
theorem detectFix_eq (codec : FloatCodec) (r : FixRegistry) (request : Value) (run : Run)
    (fix : ResponseFix) :
    (applyFix codec r request run fix).map (fun run' => firedNames run'.2) =
      (detectFix codec r run.1 request fix).map fun names => firedNames run.2 ++ names := by
  rw [applyFix, detectFix]
  split
  · cases fix.applyWithContext run.1 request with
    | ok r => exact congrArg Except.ok (firedNames_append run.2 fix.name r.2)
    | error fault =>
      cases fault with
      | error e => exact congrArg Except.ok (firedNames_append run.2 fix.name _)
      | panic p => rfl
  · exact congrArg Except.ok (List.append_nil _).symm

theorem exists_detected {fix : ResponseFix} (h : applyFix codec r request run fix = .ok run') :
    ∃ names, detectFix codec r run.1 request fix = .ok names ∧
      firedNames run'.2 = firedNames run.2 ++ names := by
  have heq := detectFix_eq codec r request run fix
  rw [h] at heq
  obtain ⟨names, hn, hq⟩ := Fallible.map_eq_ok_iff.1 heq.symm
  exact ⟨names, hn, hq.symm⟩

theorem exists_applied {fix : ResponseFix}
    (h : detectFix codec r run.1 request fix = .ok names) :
    ∃ run', applyFix codec r request run fix = .ok run' ∧
      firedNames run'.2 = firedNames run.2 ++ names := by
  have heq := detectFix_eq codec r request run fix
  rw [h] at heq
  obtain ⟨run', hrun, hq⟩ := Fallible.map_eq_ok_iff.1 heq
  exact ⟨run', hrun, hq⟩

theorem slotRepair_untriggered (codec : FloatCodec)
    (h : ToolcallMalformedArgumentsFix.hasTrigger call = false) :
    slotRepair codec request call = .ok none := by
  rw [ToolcallMalformedArgumentsFix.hasTrigger, callArguments] at h
  rw [slotRepair, fixOf]
  cases hf : call.get "function" with
  | none => rfl
  | some f =>
    rw [hf, Option.bind_some] at h
    dsimp only
    cases ha : (f.get "arguments").bind Value.asStr with
    | none => rfl
    | some args =>
      rw [ha, Option.any_some] at h
      dsimp only
      rw [ToolcallMalformedArgumentsFix.fixFunction, ToolcallMalformedArgumentsFix.fixArguments, h]
      rfl

theorem detectFix_off {fix : ResponseFix}
    (h : ¬ (r.isEnabled fix.name && fix.appliesWithContext response request) = true) :
    detectFix codec r response request fix = .ok [] := if_neg h

/-- A fix that walks the calls is detected as the walk is. -/
theorem detectFix_walk {fix : ResponseFix}
    {repair : Value → List Char → Except Fault (Option (List Char))} (hs : sides.Nodup)
    (h : (r.isEnabled fix.name && fix.appliesWithContext response request) = true)
    (happly : fix.applyWithContext response request =
      (repairCalls sides (fun _ => repairArguments repair) response).map
        fun r => (r.1, aggregateRepairs r.2)) :
    detectFix codec r response request fix =
      detectCalls fix.name repair (calls sides response) := by
  rw [detectFix, if_pos h, happly, detectCalls_eq fix.name hs]
  cases repairCalls sides (fun _ => repairArguments repair) response with
  | ok r => rfl
  | error fault => cases fault <;> rfl

theorem detectFix_slots (codec : FloatCodec) (r : FixRegistry) (response request : Value) :
    detectFix codec r response request (toolcallMalformedArgumentsFix codec) =
      if r.isEnabled "toolcall_malformed_arguments" = true ∧
        (ToolcallMalformedArgumentsFix.extractToolSchemas request).isEmpty = false then
        detectCalls "toolcall_malformed_arguments"
          (ToolcallMalformedArgumentsFix.fixFunction codec
            (ToolcallMalformedArgumentsFix.extractToolSchemas request))
          (calls ["message", "delta"] response)
      else .ok [] := by
  by_cases hon : r.isEnabled "toolcall_malformed_arguments" = true
  · cases hs : (ToolcallMalformedArgumentsFix.extractToolSchemas request).isEmpty with
    | true =>
      rw [if_neg fun h => by cases h.2]
      by_cases h : (r.isEnabled (toolcallMalformedArgumentsFix codec).name &&
          (toolcallMalformedArgumentsFix codec).appliesWithContext response request) = true
      · have happly : (toolcallMalformedArgumentsFix codec).applyWithContext response request =
            .ok (response, .notApplicable) := if_pos hs
        rw [detectFix, if_pos h, happly]
        rfl
      · exact detectFix_off h
    | false =>
      rw [if_pos ⟨hon, rfl⟩]
      by_cases h : (r.isEnabled (toolcallMalformedArgumentsFix codec).name &&
          (toolcallMalformedArgumentsFix codec).appliesWithContext response request) = true
      · exact detectFix_walk (by decide) h (if_neg (by rw [hs]; exact Bool.false_ne_true))
      · rw [detectFix_off h]
        refine (detectCalls_quiet fun c hc => slotRepair_untriggered codec ?_).symm
        cases ht : ToolcallMalformedArgumentsFix.hasTrigger c with
        | false => rfl
        | true =>
          refine absurd (Bool.and_eq_true_iff.2 ⟨hon, Bool.and_eq_true_iff.2 ⟨?_, ?_⟩⟩) h
          · exact List.any_eq_true.2 ⟨c, hc, ht⟩
          · exact tools_isSome_of_schemas hs
  · rw [if_neg fun h => hon h.1]
    exact detectFix_off fun h => hon (Bool.and_eq_true_iff.1 h).1

theorem detectFix_filepath (codec : FloatCodec) (r : FixRegistry) (response request : Value) :
    detectFix codec r response request (toolcallBadFilepathFix codec) =
      if r.isEnabled "toolcall_bad_filepath" = true then
        detectCalls "toolcall_bad_filepath" (ToolcallBadFilepathFix.fixFunction codec)
          (calls ["message"] response)
      else .ok [] := by
  by_cases hon : r.isEnabled "toolcall_bad_filepath" = true
  · rw [if_pos hon]
    cases happ : ToolcallBadFilepathFix.applies codec response with
    | true => exact detectFix_walk (by decide) (Bool.and_eq_true_iff.2 ⟨hon, happ⟩) rfl
    | false =>
      rw [detectCalls_quiet fun c hc => filepathFault_unapplied happ hc]
      apply detectFix_off
      intro h
      have happ' : ToolcallBadFilepathFix.applies codec response = true :=
        (Bool.and_eq_true_iff.1 h).2
      rw [happ] at happ'
      cases happ'
  · rw [if_neg hon]
    exact detectFix_off fun h => hon (Bool.and_eq_true_iff.1 h).1

/-- The index fix does not change what is detected of the slots. -/
theorem detectFix_slots_congr (codec : FloatCodec) (r : FixRegistry) (request : Value)
    (h : CallsOnly ["message", "delta"] (fun c c' => c'.get "function" = c.get "function") v w) :
    detectFix codec r w request (toolcallMalformedArgumentsFix codec) =
      detectFix codec r v request (toolcallMalformedArgumentsFix codec) := by
  rw [detectFix_slots, detectFix_slots]
  congr 1
  apply Eq.symm
  apply detectCalls_congr
  exact (h.calls fun _ hk => hk).imp fun _ _ hc => by rw [fixOf, fixOf, hc]

end FixRegistry

/-- The run and detection agree exactly where they agree on the filepath repair. -/
theorem detectsRun_iff_last (codec : FloatCodec) (enabled : List (String × Bool))
    (response request : Value) :
    ∃ run, List.Forall₂ (FixRegistry.SlotStepTo codec (defaultRegistryWith codec enabled) request
        response) (calls ["message"] response) (calls ["message"] run) ∧
      (DetectsRun codec (defaultRegistryWith codec enabled) response request ↔
        ∃ names, FixRegistry.detectFix codec (defaultRegistryWith codec enabled) response request
            (toolcallBadFilepathFix codec) = .ok names ∧
          FixRegistry.detectFix codec (defaultRegistryWith codec enabled) run request
            (toolcallBadFilepathFix codec) = .ok names) := by
  obtain ⟨run₁, run₂, h₁, h₂, hindex, hslots, -⟩ :=
    two_steps codec (defaultRegistryWith codec enabled) response request
  refine ⟨run₂.1, hslots, ?_⟩
  have hfixes : (defaultRegistryWith codec enabled).fixes =
    [toolCallNullIndexFix, toolcallMalformedArgumentsFix codec,
      toolcallBadFilepathFix codec] := rfl
  generalize hr : defaultRegistryWith codec enabled = r at *
  obtain ⟨n₁, hn₁, hq₁⟩ := FixRegistry.exists_detected h₁
  obtain ⟨n₂, hn₂, hq₂⟩ := FixRegistry.exists_detected h₂
  rw [FixRegistry.detectFix_slots_congr codec r request hindex] at hn₂
  have hrun : r.applyFixesWithContext codec response request =
      FixRegistry.applyFix codec r request run₂ (toolcallBadFilepathFix codec) := by
    rw [FixRegistry.applyFixesWithContext, hfixes, List.foldlM_cons, h₁, Fallible.ok_bind,
      List.foldlM_cons, h₂, Fallible.ok_bind, List.foldlM_cons]
    exact bind_pure _
  have hdetect : r.detectFixes codec response request =
      (FixRegistry.detectFix codec r response request (toolcallBadFilepathFix codec)).map
        fun names => firedNames run₂.2 ++ names := by
    have hnames : [] ++ n₁ ++ n₂ = firedNames run₂.2 := by
      rw [hq₂, hq₁]
      rfl
    rw [FixRegistry.detectFixes, hfixes, List.foldlM_cons, hn₁]
    change (List.foldlM _ ([] ++ n₁) _) = _
    rw [List.foldlM_cons, hn₂]
    change (List.foldlM _ ([] ++ n₁ ++ n₂) _) = _
    rw [hnames, List.foldlM_cons]
    exact bind_pure _
  rw [DetectsRun, hrun, hdetect]
  constructor
  · rintro ⟨v, log, hv, hnames⟩
    obtain ⟨n, hn, hq⟩ := FixRegistry.exists_detected hv
    obtain ⟨n', hn', hq'⟩ := Fallible.map_eq_ok_iff.1 hnames
    have hsame := List.append_cancel_left (hq'.trans hq)
    rw [hsame] at hn'
    exact ⟨n, hn', hn⟩
  · rintro ⟨names, hbefore, hafter⟩
    obtain ⟨⟨v, log⟩, hv, hq⟩ := FixRegistry.exists_applied hafter
    refine ⟨v, log, hv, ?_⟩
    rw [hbefore, hq]
    rfl

/-! When the filepath repair acts. -/

/-- What the filepath repair answers for a call. -/
theorem fixOf_filepath_cases (codec : FloatCodec) (call : Value) :
    (ArgumentsAre (FilepathActs codec) call ∧
      ((∃ b, fixOf (ToolcallBadFilepathFix.fixFunction codec) call = .ok (some b)) ∨
        ∃ e, fixOf (ToolcallBadFilepathFix.fixFunction codec) call = .error (.error e))) ∨
    (¬ ArgumentsAre (FilepathActs codec) call ∧
      ((∃ p, fixOf (ToolcallBadFilepathFix.fixFunction codec) call = .error (.panic p)) ∨
        fixOf (ToolcallBadFilepathFix.fixFunction codec) call = .ok none)) := by
  rw [fixOf_filepath]
  cases ha : callArguments call with
  | none =>
    refine .inr ⟨?_, .inr rfl⟩
    rintro ⟨args, hargs, -⟩
    rw [ha] at hargs
    cases hargs
  | some args =>
    have hiff : ArgumentsAre (FilepathActs codec) call ↔ FilepathActs codec args.toList := by
      rw [ArgumentsAre, ha]
      simp only [Option.some.injEq, exists_eq_left']
    rw [hiff]
    dsimp only
    obtain ⟨ht, b, hb⟩ | ⟨hs, p, hp⟩ | ⟨hu, e, he⟩ | ⟨hc, ht, -, hu, hn⟩ :=
      ToolcallBadFilepathFix.fixFunction_cases codec .null args.toList
    · exact .inl ⟨ht.imp_right .inl, .inl ⟨b, hb⟩⟩
    · refine .inr ⟨?_, .inl ⟨p, hp⟩⟩
      rintro (hc | ht | hu)
      · have hv := hs.1
        rw [hc.1] at hv
        cases hv
      · exact hs.not_truncatable ht
      · exact hu.2.2.1 hs
    · exact .inl ⟨.inr (.inr hu), .inr ⟨e, he⟩⟩
    · refine .inr ⟨?_, .inr hn⟩
      rintro (hc' | ht' | hu')
      · exact hc hc'
      · exact ht ht'
      · exact hu hu'

/-- Calls that do not fail are repaired where the repair acts. -/
theorem any_fires_iff {cs : List Value} (h : ∀ c ∈ cs, filepathFault codec c = none) :
    cs.any (fires (ToolcallBadFilepathFix.fixFunction codec)) = true ↔
      ∃ c ∈ cs, ArgumentsAre (FilepathActs codec) c := by
  rw [List.any_eq_true]
  refine exists_congr fun c => and_congr_right fun hc => ?_
  have hnone := h c hc
  rw [filepathFault] at hnone
  rw [fires]
  obtain ⟨hacts, ⟨b, hb⟩ | ⟨e, he⟩⟩ | ⟨hacts, ⟨p, hp⟩ | hn⟩ := fixOf_filepath_cases codec c
  · rw [hb]
    exact ⟨fun _ => hacts, fun _ => rfl⟩
  · rw [he] at hnone
    cases hnone
  · rw [hp] at hnone
    cases hnone
  · rw [hn]
    exact ⟨fun h => (Bool.false_ne_true h).elim, fun h => absurd h hacts⟩

theorem acts_of_error (h : filepathFault codec c = some (.error e)) :
    ArgumentsAre (FilepathActs codec) c := by
  obtain ⟨args, ha, hu⟩ := (unrepairable_iff codec c).2 ⟨e, h⟩
  exact ⟨args, ha, .inr (.inr hu)⟩

open Classical in
/-- The filepath repair is detected exactly where a call has it act, unless it slices a call. -/
theorem detectCalls_filepath (codec : FloatCodec) (cs : List Value) :
    detectCalls name (ToolcallBadFilepathFix.fixFunction codec) cs = .ok names ↔
      Shielded (ArgumentsAre (ToolcallBadFilepathFix.Splits codec))
        (ArgumentsAre (ToolcallBadFilepathFix.Unrepairable codec)) cs ∧
      names = if ∃ c ∈ cs, ArgumentsAre (FilepathActs codec) c then [name] else [] := by
  have hpanic := findSome?_panic_iff (splits_iff codec) (unrepairable_iff codec) cs
  have hdef : detectCalls name (ToolcallBadFilepathFix.fixFunction codec) cs =
    match cs.findSome? (filepathFault codec) with
    | some (.panic p) => .error p
    | some (.error _) => .ok [name]
    | none => .ok (if cs.any (fires (ToolcallBadFilepathFix.fixFunction codec)) then [name]
      else []) := rfl
  have hend : Shielded (ArgumentsAre (ToolcallBadFilepathFix.Splits codec))
      (ArgumentsAre (ToolcallBadFilepathFix.Unrepairable codec)) cs → ∀ found : List String,
      (Except.ok found : Except SlicePanic (List String)) = .ok names ↔
        Shielded (ArgumentsAre (ToolcallBadFilepathFix.Splits codec))
          (ArgumentsAre (ToolcallBadFilepathFix.Unrepairable codec)) cs ∧ names = found :=
    fun hs found => ⟨fun h => ⟨hs, (Except.ok.inj h).symm⟩, fun h => congrArg Except.ok h.2.symm⟩
  rw [hdef]
  cases hf : cs.findSome? (filepathFault codec) with
  | none =>
    rw [hf] at hpanic
    have hshield := Classical.not_not.1 (mt hpanic.2 fun ⟨p, hp⟩ => by cases hp)
    have hany := any_fires_iff (List.findSome?_eq_none_iff.1 hf)
    dsimp only
    by_cases hacts : ∃ c ∈ cs, ArgumentsAre (FilepathActs codec) c
    · rw [hany.2 hacts, if_pos rfl, if_pos hacts]
      exact hend hshield _
    · rw [if_neg (mt hany.1 hacts), if_neg hacts]
      exact hend hshield _
  | some fault =>
    rw [hf] at hpanic
    cases fault with
    | panic p =>
      constructor
      · intro h
        cases h
      · rintro ⟨hs, -⟩
        exact absurd hs (hpanic.1 ⟨p, rfl⟩)
    | error e =>
      have hshield := Classical.not_not.1 (mt hpanic.2 fun ⟨p, hp⟩ => by cases hp)
      obtain ⟨c, hc, he⟩ := List.exists_of_findSome?_eq_some hf
      dsimp only
      rw [if_pos ⟨c, hc, acts_of_error he⟩]
      exact hend hshield _

/-- A repair is on for the two lists alike: both slice nothing, and both or none act. -/
theorem detectCalls_agree (codec : FloatCodec) (cs cs' : List Value) :
    (∃ names, detectCalls name (ToolcallBadFilepathFix.fixFunction codec) cs = .ok names ∧
      detectCalls name (ToolcallBadFilepathFix.fixFunction codec) cs' = .ok names) ↔
    Shielded (ArgumentsAre (ToolcallBadFilepathFix.Splits codec))
      (ArgumentsAre (ToolcallBadFilepathFix.Unrepairable codec)) cs ∧
    Shielded (ArgumentsAre (ToolcallBadFilepathFix.Splits codec))
      (ArgumentsAre (ToolcallBadFilepathFix.Unrepairable codec)) cs' ∧
    ((∃ c ∈ cs, ArgumentsAre (FilepathActs codec) c) ↔
      ∃ c ∈ cs', ArgumentsAre (FilepathActs codec) c) := by
  simp only [detectCalls_filepath]
  by_cases h : ∃ c ∈ cs, ArgumentsAre (FilepathActs codec) c <;>
    by_cases h' : ∃ c ∈ cs', ArgumentsAre (FilepathActs codec) c <;> simp [h, h']

theorem exists_iff_of_forall₂ {P : α → Prop} {Q : β → Prop}
    (h : List.Forall₂ (fun a b => P a ↔ Q b) as bs) : (∃ a ∈ as, P a) ↔ ∃ b ∈ bs, Q b := by
  induction h with
  | nil => simp
  | cons hab _ ih => simp [hab, ih]

theorem exists_either {P Q : α → Prop} {as : List α} :
    (∃ a ∈ as, P a ∨ Q a) ↔ (∃ a ∈ as, P a) ∨ ∃ a ∈ as, Q a := by
  simp only [and_or_left, exists_or]

theorem exists_mem_split (P Q : α → Prop) (as : List α) :
    (∃ a ∈ as, Q a) ↔ (∃ a ∈ as, ¬ P a ∧ Q a) ∨ ∃ a ∈ as, P a ∧ Q a := by
  rw [← exists_either]
  refine exists_congr fun a => and_congr_right fun _ => ?_
  rw [← or_and_right]
  exact (and_iff_right (Classical.em (P a)).symm).symm

theorem or_iff_or (P Q R : Prop) : (P ∨ Q ↔ P ∨ R) ↔ P ∨ (Q ↔ R) := by
  by_cases h : P <;> simp [h]

/-- The arguments of a call after the slot repair, for the filepath repair. -/
theorem SlotStepTo.acts_iff {codec : FloatCodec} {r : FixRegistry} {request response : Value}
    (h : FixRegistry.SlotStepTo codec r request response c c') :
    (¬ SlotsFilled codec r request response c ∧ ArgumentsAre (FilepathActs codec) c ∨
      SlotsFilled codec r request response c ∧ FilledCollapses codec request c) ↔
    ArgumentsAre (FilepathActs codec) c' := by
  obtain ⟨hf, b, hb, ha⟩ | ⟨hf, ha⟩ := h
  · have hvalid := (FixRegistry.slotRepair_eq_some hb).1
    have hacts : ArgumentsAre (FilepathActs codec) c' ↔ FilepathActs codec b := by
      rw [ArgumentsAre, ha]
      simp only [Option.some.injEq, exists_eq_left', String.toList_ofList]
    have hcollapse : FilledCollapses codec request c ↔
        ToolcallBadFilepathFix.Collapsible codec b := by
      rw [FilledCollapses, hb]
      simp only [Except.ok.injEq, Option.some.injEq, exists_eq_left']
    rw [hacts, hcollapse]
    constructor
    · rintro (⟨hn, -⟩ | ⟨-, hc⟩)
      · exact absurd hf hn
      · exact .inl hc
    · rintro (hc | ht | hu)
      · exact .inr ⟨hf, hc⟩
      · rw [ht.1] at hvalid
        cases hvalid
      · rw [hu.1] at hvalid
        cases hvalid
  · have hsame : ArgumentsAre (FilepathActs codec) c' ↔ ArgumentsAre (FilepathActs codec) c := by
      rw [ArgumentsAre, ArgumentsAre, ha]
    rw [hsame]
    exact ⟨fun h => h.elim And.right fun h => absurd h.1 hf, fun h => .inl ⟨hf, h⟩⟩

/-- Detection names what the run repairs or refuses exactly when the filepath repair is off, or
it slices no call and the slots that are filled leave it as it was. -/
theorem detectFixes_run_iff (codec : FloatCodec) (enabled : List (String × Bool))
    (response request : Value) :
    DetectsRun codec (defaultRegistryWith codec enabled) response request ↔
      ((defaultRegistryWith codec enabled).isEnabled "toolcall_bad_filepath" = true →
        NothingSliced codec (defaultRegistryWith codec enabled) request response ∧
        FillsNeutral codec (defaultRegistryWith codec enabled) request response) := by
  obtain ⟨run, hslots, hiff⟩ := detectsRun_iff_last codec enabled response request
  rw [hiff, FixRegistry.detectFix_filepath, FixRegistry.detectFix_filepath]
  generalize defaultRegistryWith codec enabled = r at hslots ⊢
  by_cases hon : r.isEnabled "toolcall_bad_filepath" = true
  · rw [if_pos hon, if_pos hon, detectCalls_agree]
    have hpanic := firstFault_panic_iff (hslots.imp fun _ _ => FixRegistry.SlotStepTo.valid)
    have hshield := findSome?_panic_iff (splits_iff codec) (unrepairable_iff codec)
      (calls ["message"] run)
    have hsame := not_iff_not.1 (hshield.symm.trans hpanic)
    have hafter := exists_iff_of_forall₂ (hslots.imp fun _ _ => SlotStepTo.acts_iff)
    have hbefore := exists_mem_split (SlotsFilled codec r request response)
      (ArgumentsAre (FilepathActs codec)) (calls ["message"] response)
    rw [hsame, ← hafter, hbefore, exists_either, or_iff_or, NothingSliced, FillsNeutral,
      and_assoc]
    exact ⟨fun h _ => h, fun h => h hon⟩
  · rw [if_neg hon, if_neg hon]
    exact ⟨fun _ h => absurd h hon, fun _ => ⟨[], rfl, rfl⟩⟩

/-- A request with a tool of two properties. -/
def writeTool : Value :=
  .object [("tools", .array [.object [("function", .object [("name", .string "write"),
    ("parameters", .object [("properties", .object [("content", .object []),
      ("file_path", .object [])])])])]])]

/-- Arguments with a slot in the place of the second property's name. -/
def filledArguments : String := "\x7b\"content\":\"x\",\x7b\x7d\":\"/p\"\x7d"

/-- The run fills the slot and is done; detection has the filepath repair refuse the slot. -/
theorem detectFixes_reports_filled_slot :
    ((createDefaultRegistry integersOnly).detectFixes integersOnly
      (responseWith "write" filledArguments) writeTool).toOption =
        some ["toolcall_malformed_arguments", "toolcall_bad_filepath"] ∧
    ¬ DetectsRun integersOnly (createDefaultRegistry integersOnly)
      (responseWith "write" filledArguments) writeTool := by
  have hdetect : ((createDefaultRegistry integersOnly).detectFixes integersOnly
      (responseWith "write" filledArguments) writeTool).toOption =
        some ["toolcall_malformed_arguments", "toolcall_bad_filepath"] := by
    decide +kernel
  have hrun : (((createDefaultRegistry integersOnly).applyFixesWithContext integersOnly
      (responseWith "write" filledArguments) writeTool).toOption.map fun run =>
        firedNames run.2) = some ["toolcall_malformed_arguments"] := by
    decide +kernel
  refine ⟨hdetect, ?_⟩
  rintro ⟨v, log, hv, hnames⟩
  rw [hv] at hrun
  rw [hnames] at hdetect
  have hfired := Option.some.inj hrun
  have hfound := Option.some.inj hdetect
  dsimp only at hfired
  rw [hfired] at hfound
  exact absurd hfound (by decide)

end LocalMind
