import LocalMind.Fixes.Registry

namespace LocalMind
open Json
set_option autoImplicit true

/-! Fixing a response whose request is not known. -/

namespace ToolcallMalformedArgumentsFix

/-- Without the request's tools there is no candidate. -/
def apply (response : Value) : Value × FixAction := (response, .notApplicable)

end ToolcallMalformedArgumentsFix

namespace ToolcallBadFilepathFix

/-- The response as it was, or with every call repaired. -/
def apply (codec : FloatCodec) (response : Value) : Except SlicePanic (Value × FixAction) :=
  match applyChecked codec response with
  | .ok outcome => .ok outcome
  | .error (.error e) =>
    .ok (response,
      .failed (String.ofList (truncateSnippet (print codec response) 200)) e.display)
  | .error (.panic p) => .error p

end ToolcallBadFilepathFix

/-- A fix with its methods that take no request. -/
structure ContextFreeFix extends ResponseFix where
  applies : Value → Bool
  apply : Value → Except SlicePanic (Value × FixAction)

def contextFreeFixes (codec : FloatCodec) : List ContextFreeFix :=
  [{ toolCallNullIndexFix with
      applies := ToolCallNullIndexFix.applies
      apply := fun response => .ok (ToolCallNullIndexFix.apply response) },
    { toolcallMalformedArgumentsFix codec with
      applies := ToolcallMalformedArgumentsFix.anyChoiceTriggers
      apply := fun response => .ok (ToolcallMalformedArgumentsFix.apply response) },
    { toolcallBadFilepathFix codec with
      applies := ToolcallBadFilepathFix.applies codec
      apply := ToolcallBadFilepathFix.apply codec }]

namespace FixRegistry

/-- One fix of a run without a request. -/
def applyPlainFix (r : FixRegistry) (run : Run) (fix : ContextFreeFix) : Except SlicePanic Run :=
  if r.isEnabled fix.name && fix.applies run.1 then
    (fix.apply run.1).map fun outcome => (outcome.1, run.2 ++ [(fix.name, outcome.2)])
  else .ok run

def applyFixes (codec : FloatCodec) (r : FixRegistry) (response : Value) :
    Except SlicePanic Run :=
  (contextFreeFixes codec).foldlM (applyPlainFix r) (response, [])

end FixRegistry

/-! A fix does the same to a response as with a request that offers no tools. -/

/-- The two forms of a fix leave one response, or panic alike. -/
def ContextFreeFix.Agrees (fix : ContextFreeFix) (request response : Value) : Prop :=
  (if fix.applies response then (fix.apply response).map Prod.fst else .ok response) =
    if fix.appliesWithContext response request then
      match fix.applyWithContext response request with
      | .ok outcome => .ok outcome.1
      | .error (.error _) => .ok response
      | .error (.panic p) => .error p
    else .ok response

namespace FixRegistry

end FixRegistry

end LocalMind
