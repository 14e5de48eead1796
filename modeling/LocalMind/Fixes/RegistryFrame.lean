import LocalMind.Fixes.Registry
import LocalMind.Fixes.FilepathOutcome

namespace LocalMind
open Json
set_option autoImplicit true

/-! What a run of the default fixes can change. -/

/-- An index that is no number may become one, and arguments may become valid ones. -/
structure CallFixed (codec : FloatCodec) (v w : Value) : Prop where
  scalar : v.isObject = false → w = v
  isObject : w.isObject = v.isObject
  index : w.get "index" = v.get "index" ∨
    ToolCallNullIndexFix.needsIndexFix v = true ∧ ∃ n, w.get "index" = some (.number n)
  function : Option.Rel (FunctionFixed (isValid codec · = true))
    (v.get "function") (w.get "function")
  outside : ∀ k, k ≠ "index" → k ≠ "function" → w.get k = v.get k

def ResponseFixed (codec : FloatCodec) : Value → Value → Prop :=
  CallsOnly ["message", "delta"] (CallFixed codec)

theorem FunctionFixed.refl (P : List Char → Prop) (v : Value) : FunctionFixed P v v :=
  Below.refl (ArgumentsFixed.refl P) v

theorem FunctionFixed.trans {P : List Char → Prop} (u v w : Value) (h : FunctionFixed P u v)
    (h' : FunctionFixed P v w) : FunctionFixed P u w :=
  Below.trans ArgumentsFixed.trans h h'

theorem CallFixed.refl (codec : FloatCodec) (v : Value) : CallFixed codec v v :=
  ⟨fun _ => rfl, rfl, .inl rfl, optionRel_refl (FunctionFixed.refl _) _, fun _ _ _ => rfl⟩

theorem needsIndexFix_of_number {v : Value} (h : v.get "index" = some (.number n)) :
    ToolCallNullIndexFix.needsIndexFix v = false := by
  rw [ToolCallNullIndexFix.needsIndexFix, h]

theorem CallFixed.trans {codec : FloatCodec} (u v w : Value) (h : CallFixed codec u v)
    (h' : CallFixed codec v w) : CallFixed codec u w := by
  refine ⟨fun hu => ?_, h'.isObject.trans h.isObject, ?_,
    optionRel_trans FunctionFixed.trans h.function h'.function, fun k h₁ h₂ => ?_⟩
  · rw [h'.scalar (h.isObject.trans hu), h.scalar hu]
  · rcases h.index with hi | ⟨hn, n, hi⟩
    · rcases h'.index with hi' | ⟨hn', hi'⟩
      · exact .inl (hi'.trans hi)
      · refine .inr ⟨?_, hi'⟩
        rw [← hn', ToolCallNullIndexFix.needsIndexFix, ToolCallNullIndexFix.needsIndexFix, hi]
    · refine .inr ⟨hn, ?_⟩
      rcases h'.index with hi' | ⟨-, hi'⟩
      · exact ⟨n, hi'.trans hi⟩
      · exact hi'
  · rw [h'.outside k h₁ h₂, h.outside k h₁ h₂]

theorem CallFixed.of_index {codec : FloatCodec} (h : ToolCallNullIndexFix.IndexFixed v w) :
    CallFixed codec v w := by
  refine ⟨h.scalar, h.isObject, h.index, ?_, fun k hk _ => h.outside k hk⟩
  rw [h.outside "function" (by decide)]
  exact optionRel_refl (FunctionFixed.refl _) _

theorem CallFixed.of_arguments {codec : FloatCodec}
    (h : Below ["function"] (FunctionFixed (isValid codec · = true)) v w) :
    CallFixed codec v w := by
  refine ⟨h.scalar, h.isObject, .inl (h.outside _ (by decide)), h.within _ (by decide), ?_⟩
  intro k _ hk
  exact h.outside k (by simpa using hk)

/-- The arguments that a call gets are the ones it had, or valid. -/
theorem CallFixed.arguments {codec : FloatCodec} (h : CallFixed codec v w)
    (ha : callArguments w = some args) :
    callArguments v = some args ∨ isValid codec args.toList = true := by
  obtain ⟨g, hg, ha⟩ := Option.bind_eq_some_iff.1 ha
  obtain ⟨x, hx, hs⟩ := Option.bind_eq_some_iff.1 ha
  have hrel := h.function
  rw [hg] at hrel
  rw [callArguments]
  cases hf : v.get "function" with
  | none =>
    rw [hf] at hrel
    cases hrel
  | some f =>
    rw [hf] at hrel
    obtain ⟨g', hg', hfg⟩ := optionRel_some_left hrel
    cases hg'
    have hargs := hfg.within "arguments" (by decide)
    rw [hx] at hargs
    rw [Option.bind_some]
    cases hfa : f.get "arguments" with
    | none =>
      rw [hfa] at hargs
      cases hargs
    | some y =>
      rw [hfa] at hargs
      obtain ⟨x', hx', hxy⟩ := optionRel_some_left hargs
      cases hx'
      rcases hxy with rfl | ⟨-, b, rfl, hb⟩
      · exact .inl hs
      · cases hs
        exact .inr (by rwa [String.toList_ofList])

/-- A numeric index stays. -/
theorem CallFixed.number {codec : FloatCodec} (h : CallFixed codec v w)
    (hn : v.get "index" = some (.number n)) : w.get "index" = some (.number n) := by
  rcases h.index with hi | ⟨hneed, -⟩
  · exact hi.trans hn
  · rw [needsIndexFix_of_number hn] at hneed
    cases hneed

theorem ResponseFixed.refl (codec : FloatCodec) (v : Value) : ResponseFixed codec v v :=
  CallsOnly.refl (CallFixed.refl codec) v

theorem ResponseFixed.trans {codec : FloatCodec} (u v w : Value) (h : ResponseFixed codec u v)
    (h' : ResponseFixed codec v w) : ResponseFixed codec u w :=
  CallsOnly.trans CallFixed.trans h h'

/-- Every default fix keeps within the frame. -/
theorem fix_frame {codec : FloatCodec} {fix : ResponseFix}
    (hfix : fix ∈ (createDefaultRegistry codec).fixes)
    (h : fix.applyWithContext v request = .ok (w, action)) : ResponseFixed codec v w := by
  have hmem : fix = toolCallNullIndexFix ∨ fix = toolcallMalformedArgumentsFix codec ∨
      fix = toolcallBadFilepathFix codec := by
    simpa [createDefaultRegistry, FixRegistry.register, FixRegistry.new] using hfix
  rcases hmem with rfl | rfl | rfl
  · have hframe := ToolCallNullIndexFix.apply_frame v
    have hq : ToolCallNullIndexFix.apply v = (w, action) := Except.ok.inj h
    rw [hq] at hframe
    exact hframe.mono fun _ _ => .of_index
  · exact (ToolcallMalformedArgumentsFix.fixResponseWithContext_frame h).mono
      fun _ _ => .of_arguments
  · have hframe := ToolcallBadFilepathFix.applyChecked_frame h
    have hmessage := hframe.mono fun _ _ => CallFixed.of_arguments
    exact hmessage.widen (CallFixed.refl codec) (by decide)

namespace FixRegistry

/-- A fix changes the response only where it succeeds. -/
theorem applyFix_cases {codec : FloatCodec} {r : FixRegistry}
    (h : applyFix codec r request run fix = .ok run') :
    run'.1 = run.1 ∨ ∃ action, fix.applyWithContext run.1 request = .ok (run'.1, action) := by
  rw [applyFix] at h
  split at h
  · split at h
    · next result action hr =>
      cases h
      exact .inr ⟨action, hr⟩
    · cases h
      exact .inl rfl
    · cases h
  · cases h
    exact .inl rfl

theorem run_frame {codec : FloatCodec} {r : FixRegistry} {fixes : List ResponseFix}
    (hf : ∀ fix ∈ fixes, fix ∈ (createDefaultRegistry codec).fixes)
    (h : fixes.foldlM (applyFix codec r request) run = .ok run') :
    ResponseFixed codec run.1 run'.1 := by
  refine Fallible.foldlM_related (R := fun s t : Run => ResponseFixed codec s.1 t.1)
    (fun s => .refl codec s.1) (fun s t u => .trans s.1 t.1 u.1) ?_ h
  intro fix hfix s t hstep
  rcases applyFix_cases hstep with hq | ⟨action, ha⟩
  · rw [hq]
    exact .refl codec s.1
  · exact fix_frame (hf fix hfix) ha

end FixRegistry

end LocalMind
