import LocalMind.Proxy.Respond

namespace LocalMind
open Json Text
set_option autoImplicit true

/-! What a client reads of its response. -/

/-- The bytes that headers and a body stand for, once decoded. -/
def contentOf (decoders : Decoders) (headers : HeaderMap) (body : List UInt8) :
    Option (List UInt8) :=
  match decodeBodyBytes decoders body (Handler.contentEncoding headers) with
  | .ok (.passthrough bytes) => some bytes
  | .ok (.decoded bytes) => some bytes
  | .error _ => none

theorem HeaderMap.get_filter (headers : HeaderMap) (p : String → Bool) (name : String) :
    HeaderMap.get (headers.filter fun h => p h.1) name =
      if p name then headers.get name else none := by
  rw [get, get, List.find?_filter]
  split
  · next hp =>
    have hsame : (fun h : String × List UInt8 => decide (p h.1 = true ∧ (h.1 == name) = true)) =
        fun h => h.1 == name := by
      funext h
      by_cases hname : h.1 = name
      · simp [hname, hp]
      · simp [hname]
    rw [hsame]
  · next hp =>
    rw [Option.map_eq_none_iff, List.find?_eq_none]
    intro h _
    by_cases hname : h.1 = name
    · simp [hname, hp]
    · simp [hname]

namespace Handler

/-- Nothing in the proxy acts on the JSON of a reply: the reprompt engine does not, and no enabled
fix applies. -/
structure LeftAlone (h : Handler) (isAnthropicApi : Bool) (requestJson : Option Value)
    (json : Value) : Prop where
  quiet : isAnthropicApi = true ∨ h.engine = none ∨ requestJson = none ∨ shouldTrigger json = false
  clean : ∀ request, requestJson = some request → ∀ fix ∈ h.registry.fixes,
    h.registry.isEnabled fix.name = true → fix.appliesWithContext json request = false
  plain : requestJson = none → ∀ fix ∈ contextFreeFixes h.codec,
    h.registry.isEnabled fix.name = true → fix.applies json = false

theorem LeftAlone.fixed {h : Handler} (halone : h.LeftAlone isAnthropicApi requestJson json) :
    h.fixed requestJson json = .ok json := by
  cases requestJson with
  | some request =>
    have hrun : h.registry.applyFixesWithContext h.codec json request = .ok (json, []) := by
      refine Fallible.foldlM_idle fun fix hfix => ?_
      rw [FixRegistry.applyFix]
      cases henabled : h.registry.isEnabled fix.name with
      | false => rfl
      | true =>
        dsimp only
        rw [halone.clean request rfl fix hfix henabled]
        rfl
    simp only [Handler.fixed, hrun]
  | none =>
    have hrun : h.registry.applyFixes h.codec json = .ok (json, []) := by
      refine Fallible.foldlM_idle fun fix hfix => ?_
      rw [FixRegistry.applyPlainFix]
      cases henabled : h.registry.isEnabled fix.name with
      | false => rfl
      | true =>
        dsimp only
        rw [halone.plain rfl fix hfix henabled]
        rfl
    simp only [Handler.fixed, hrun]

theorem LeftAlone.reprompted {h : Handler}
    (halone : h.LeftAlone isAnthropicApi requestJson json) :
    h.reprompted isAnthropicApi requestJson (some json) = .ok (some json) := by
  obtain ⟨_, _, _, engine, _, _, _, _, _, _⟩ := h
  cases isAnthropicApi with
  | true => rfl
  | false =>
    obtain hno | hno | hno | hno := halone.quiet
    · cases hno
    · cases hno
      rfl
    · subst hno
      cases engine <;> rfl
    · cases engine with
      | none => rfl
      | some engine =>
        cases requestJson with
        | none => rfl
        | some request =>
          simp only [Handler.reprompted, maybeReprompt, hno]
          rfl

end Handler

end LocalMind
