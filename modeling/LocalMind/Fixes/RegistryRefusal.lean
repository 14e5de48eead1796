import LocalMind.Fixes.RegistryContainment

namespace LocalMind
open Json
set_option autoImplicit true

def callName (call : Value) : String :=
  match call.get "function" with
  | some function => ToolcallMalformedArgumentsFix.functionName function
  | none => ""

/-- The default fixes leave the arguments of a call as they came. -/
def Honoured (codec : FloatCodec) (response request : Value) (i j : Nat) (args : String) : Prop :=
  ∃ v log, (createDefaultRegistry codec).applyFixesWithContext codec response request =
      .ok (v, log) ∧
    (callAt v "message" i j).bind callArguments = some args

/-- The filepath repair slices no call inside a character before it refuses one, and it either
refuses one or has no cut to make in these arguments. -/
def NothingCut (codec : FloatCodec) (response : Value) (args : List Char) : Prop :=
  Shielded (ArgumentsAre (ToolcallBadFilepathFix.Splits codec))
    (ArgumentsAre (ToolcallBadFilepathFix.Unrepairable codec)) (calls ["message"] response) ∧
  ((∃ c ∈ calls ["message"] response,
      ArgumentsAre (ToolcallBadFilepathFix.Unrepairable codec) c) ∨
    ¬ (ToolcallBadFilepathFix.Collapsible codec args ∨
      ToolcallBadFilepathFix.Truncatable codec args))

theorem slotRepair_of_call (ha : callArguments call = some args) :
    slotRepair codec request call = (ToolcallMalformedArgumentsFix.fixArguments codec args.toList
      (callName call) (ToolcallMalformedArgumentsFix.extractToolSchemas request)).mapError
        .error := by
  obtain ⟨function, hf, ha⟩ := Option.bind_eq_some_iff.1 ha
  rw [slotRepair, fixOf, callName, hf]
  dsimp only
  rw [ha]
  rfl

/-- The arguments that the slot repair refused stay as they came exactly when the filepath repair
cuts nothing. -/
theorem refusal_honoured_iff {codec : FloatCodec} {response request : Value}
    (hcall : callAt response "message" i j = some call) (hargs : callArguments call = some args)
    (hrefused : ToolcallMalformedArgumentsFix.fixArguments codec args.toList (callName call)
      (ToolcallMalformedArgumentsFix.extractToolSchemas request) = .error e) :
    Honoured codec response request i j args ↔ NothingCut codec response args.toList := by
  have hfail : Rewrite.failure (slotRepair codec request call) = some (.error e) := by
    rw [slotRepair_of_call hargs, hrefused]
    rfl
  obtain ⟨run, hrun, -, hkeep⟩ := first_two codec (createDefaultRegistry codec) response request
  have hsame := hkeep ⟨call, callAt_mem hcall (by simp), _, hfail⟩
  have hfault : FixRegistry.firstFault codec run.1 =
      (calls ["message"] response).findSome? (filepathFault codec) := by
    refine (findSome?_of_forall₂ ((hsame.calls FixRegistry.message_subset).imp ?_)).symm
    intro c c' hc
    rw [filepathFault, filepathFault, fixOf_filepath, fixOf_filepath,
      FixRegistry.callArguments_congr hc]
  have hcall' : ∃ c', callAt run.1 "message" i j = some c' ∧ callArguments c' = some args := by
    have hrel := hsame.callAt (List.mem_cons_self : "message" ∈ ["message", "delta"]) i j
    rw [hcall] at hrel
    obtain ⟨c', hc', hf⟩ := optionRel_some_left hrel
    exact ⟨c', hc', (FixRegistry.callArguments_congr hf).trans hargs⟩
  have hsplit : (createDefaultRegistry codec).applyFixesWithContext codec response request =
      FixRegistry.applyFix codec (createDefaultRegistry codec) request run
        (toolcallBadFilepathFix codec) := by
    have hfixes : (createDefaultRegistry codec).fixes =
      [toolCallNullIndexFix, toolcallMalformedArgumentsFix codec] ++
        [toolcallBadFilepathFix codec] := rfl
    rw [FixRegistry.applyFixesWithContext, hfixes, List.foldlM_append, hrun, Fallible.ok_bind,
      List.foldlM_cons]
    exact bind_pure _
  have hon : (createDefaultRegistry codec).isEnabled "toolcall_bad_filepath" = true := rfl
  obtain ⟨hpanic, herror, hnone⟩ := FixRegistry.filepath_step codec request hon run
  have hshield := findSome?_panic_iff (splits_iff codec) (unrepairable_iff codec)
    (calls ["message"] response)
  rw [Honoured, NothingCut, hsplit]
  obtain ⟨c', hc', ha'⟩ := hcall'
  cases hf : FixRegistry.firstFault codec run.1 with
  | some fault =>
    rw [hf] at hfault
    cases fault with
    | panic p =>
      rw [hpanic p hf]
      refine ⟨by rintro ⟨v, log, ⟨⟩, -⟩, ?_⟩
      rintro ⟨hs, -⟩
      exact absurd hs (hshield.1 ⟨p, hfault.symm⟩)
    | error e' =>
      obtain ⟨run', hr, hq⟩ := herror e' hf
      refine iff_of_true ⟨run'.1, run'.2, hr, ?_⟩ ⟨?_, .inl ?_⟩
      · rw [hq, hc', Option.bind_some, ha']
      · by_contra hs
        obtain ⟨p, hp⟩ := hshield.2 hs
        rw [hp] at hfault
        cases hfault
      · obtain ⟨c, hc, hcf⟩ := List.exists_of_findSome?_eq_some hfault.symm
        exact ⟨c, hc, (unrepairable_iff codec c).2 ⟨e', hcf⟩⟩
  | none =>
    rw [hf] at hfault
    have hall := List.findSome?_eq_none_iff.1 hfault.symm
    have hs : Shielded (ArgumentsAre (ToolcallBadFilepathFix.Splits codec))
        (ArgumentsAre (ToolcallBadFilepathFix.Unrepairable codec))
        (calls ["message"] response) := by
      by_contra hs
      obtain ⟨p, hp⟩ := hshield.2 hs
      rw [hp] at hfault
      cases hfault
    have hno : ¬ ∃ c ∈ calls ["message"] response,
        ArgumentsAre (ToolcallBadFilepathFix.Unrepairable codec) c := by
      rintro ⟨c, hc, hu⟩
      obtain ⟨e', he'⟩ := (unrepairable_iff codec c).1 hu
      rw [hall c hc] at he'
      cases he'
    obtain ⟨run', hr, hcalls⟩ := hnone hf
    obtain ⟨c'', o, hc'', ho, ha''⟩ := hcalls i j c' hc'
    rw [fixOf_filepath, ha'] at ho
    dsimp only at ho
    have hhonoured : (∃ v log, FixRegistry.applyFix codec (createDefaultRegistry codec) request run
        (toolcallBadFilepathFix codec) = .ok (v, log) ∧
          (callAt v "message" i j).bind callArguments = some args) ↔ o = none := by
      have hresult : (callAt run'.1 "message" i j).bind callArguments =
          (o.map String.ofList).or (some args) := by
        rw [hc'', Option.bind_some, ha'', ha']
      constructor
      · rintro ⟨v, log, hv, hargs'⟩
        rw [hr] at hv
        cases hv
        rw [hresult] at hargs'
        cases o with
        | none => rfl
        | some b =>
          refine absurd ?_ (ToolcallBadFilepathFix.fixFunction_ne ho)
          rw [Option.map_some, Option.some_or, Option.some.injEq] at hargs'
          rw [← hargs', String.toList_ofList]
      · rintro rfl
        exact ⟨run'.1, run'.2, hr, hresult⟩
    rw [hhonoured]
    obtain ⟨ht, b, hb⟩ | ⟨-, p, hp⟩ | ⟨-, e', he'⟩ | ⟨hcol, htr, -, -, hn⟩ :=
      ToolcallBadFilepathFix.fixFunction_cases codec .null args.toList
    · rw [hb] at ho
      cases ho
      refine iff_of_false (Option.some_ne_none _) ?_
      rintro ⟨-, hu | ht'⟩
      · exact hno hu
      · exact ht' ht
    · rw [hp] at ho
      cases ho
    · rw [he'] at ho
      cases ho
    · rw [hn] at ho
      cases ho
      exact iff_of_true rfl ⟨hs, .inr (not_or.2 ⟨hcol, htr⟩)⟩

/-- A request with one tool. -/
def requestWith (name : String) (properties : List String) : Value :=
  .object [("tools", .array [.object [("function", .object [("name", .string name),
    ("parameters", .object [("properties", .object (properties.map fun k => (k, .null)))])])]])]

/-- A slot after the path. -/
def slotArguments : String := "\x7b\"filePath\":\"/x\",\x7b\x7d\":\"body\"\x7d"

theorem refusal_honoured_iff_write :
    Honoured integersOnly (responseWith "write" slotArguments)
        (requestWith "write" ["filePath", "content", "mode"]) 0 0
        slotArguments ↔
      NothingCut integersOnly (responseWith "write" slotArguments)
        slotArguments.toList :=
  refusal_honoured_iff (i := 0) (j := 0) rfl rfl
    (e := .rebuild "ambiguous: 2 candidates for 1 slots") (by decide +kernel)

/-- The slot is ambiguous, and the filepath repair deletes it with its value. -/
theorem refused_slot_deleted :
    ToolcallMalformedArgumentsFix.fixArguments integersOnly
        slotArguments.toList "write"
        (ToolcallMalformedArgumentsFix.extractToolSchemas
          (requestWith "write" ["filePath", "content", "mode"])) =
      .error (.rebuild "ambiguous: 2 candidates for 1 slots") ∧
    ¬ Honoured integersOnly (responseWith "write" slotArguments)
        (requestWith "write" ["filePath", "content", "mode"]) 0 0
        slotArguments := by
  refine ⟨by decide +kernel, ?_⟩
  have hcut : ((createDefaultRegistry integersOnly).applyFixesWithContext integersOnly
      (responseWith "write" slotArguments)
      (requestWith "write" ["filePath", "content", "mode"])).toOption.bind
        (fun r => (callAt r.1 "message" 0 0).bind callArguments) =
          some "\x7b\"filePath\":\"/x\"\x7d" := by
    decide +kernel
  rintro ⟨v, log, h, hargs⟩
  rw [h] at hcut
  change (callAt v "message" 0 0).bind callArguments = _ at hcut
  rw [hargs] at hcut
  exact absurd hcut (by decide)

end LocalMind
