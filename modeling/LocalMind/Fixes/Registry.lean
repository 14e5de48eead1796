import LocalMind.Fixes.NullIndex
import LocalMind.Fixes.MalformedArguments
import LocalMind.Fixes.BadFilepath

namespace LocalMind
open Json
set_option autoImplicit true

structure ResponseFix where
  name : String
  appliesWithContext : Value → Value → Bool
  applyWithContext : Value → Value → Except Fault (Value × FixAction)

structure FixRegistry where
  fixes : List ResponseFix
  enabled : List (String × Bool)

namespace FixRegistry

def new : FixRegistry := ⟨[], []⟩

def register (r : FixRegistry) (fix : ResponseFix) : FixRegistry :=
  ⟨r.fixes ++ [fix], Fields.insert r.enabled fix.name true⟩

def setEnabled (r : FixRegistry) (name : String) (enabled : Bool) : FixRegistry :=
  if (Fields.get r.enabled name).isSome then
    { r with enabled := Fields.insert r.enabled name enabled }
  else r

def isEnabled (r : FixRegistry) (name : String) : Bool := (Fields.get r.enabled name).getD false

def fixerErrorAction (codec : FloatCodec) (response : Value) (error : FixError) : FixAction :=
  .failed (String.ofList (truncateSnippet (print codec response) 200))
    ("fixer error: " ++ error.display)

/-- The response so far, and the actions logged for it. -/
abbrev Run := Value × List (String × FixAction)

/-- One fix of a run. A fix that reports an error leaves the response it was given. -/
def applyFix (codec : FloatCodec) (r : FixRegistry) (request : Value) (run : Run)
    (fix : ResponseFix) : Except SlicePanic Run :=
  if r.isEnabled fix.name && fix.appliesWithContext run.1 request then
    match fix.applyWithContext run.1 request with
    | .ok (result, action) => .ok (result, run.2 ++ [(fix.name, action)])
    | .error (.error e) =>
      .ok (run.1, run.2 ++ [(fix.name, fixerErrorAction codec run.1 e)])
    | .error (.panic p) => .error p
  else .ok run

def applyFixesWithContext (codec : FloatCodec) (r : FixRegistry) (response request : Value) :
    Except SlicePanic Run :=
  r.fixes.foldlM (applyFix codec r request) (response, [])

end FixRegistry

def toolCallNullIndexFix : ResponseFix where
  name := "toolcall_null_index_fix"
  appliesWithContext := fun response _ => ToolCallNullIndexFix.applies response
  applyWithContext := fun response _ => .ok (ToolCallNullIndexFix.apply response)

def toolcallMalformedArgumentsFix (codec : FloatCodec) : ResponseFix where
  name := "toolcall_malformed_arguments"
  appliesWithContext := ToolcallMalformedArgumentsFix.appliesWithContext
  applyWithContext := ToolcallMalformedArgumentsFix.fixResponseWithContext codec

def toolcallBadFilepathFix (codec : FloatCodec) : ResponseFix where
  name := "toolcall_bad_filepath"
  appliesWithContext := fun response _ => ToolcallBadFilepathFix.applies codec response
  applyWithContext := fun response _ => ToolcallBadFilepathFix.applyChecked codec response

def createDefaultRegistry (codec : FloatCodec) : FixRegistry :=
  ((FixRegistry.new.register toolCallNullIndexFix).register
    (toolcallMalformedArgumentsFix codec)).register (toolcallBadFilepathFix codec)

end LocalMind
