import LocalMind.Json.Reread
import LocalMind.Stream.Fallible
import LocalMind.Proxy.Reprompt

namespace LocalMind
set_option autoImplicit true
open Json

/-! The body that goes to a backend node. -/

/-- A backend node, with the prefix it takes off the paths of its requests. -/
structure RoutedNode extends BackendNode where
  stripPathPrefix : Option (List Char)

/-- The path less a prefix that ends where a segment does. -/
def stripAtSegmentBoundary (path stripped : List Char) : List Char :=
  if stripped.isPrefixOf path then
    let rest := path.drop stripped.length
    if rest.isEmpty || rest.head? == some '/' || stripped.getLast? == some '/' then rest else path
  else path

def RoutedNode.effectivePath (node : RoutedNode) (path : List Char) : List Char :=
  match node.stripPathPrefix with
  | some stripped => stripAtSegmentBoundary path stripped
  | none => path

def completionShapedPath (path : List Char) : Bool :=
  "/completions".toList.isPrefixOf path || Text.contains path "/chat/completions".toList ||
    Text.contains path "/v1/messages".toList

/-- A completion route, or a body with a conversation. -/
def looksLikeCompletionRequest (body : Value) (routedPath : List Char) : Bool :=
  completionShapedPath routedPath ||
    ((body.get "messages").bind Value.asArray).any fun msgs => !msgs.isEmpty

/-- Ask for the usage of a stream; what the client says of it stands. -/
def ensureUsageOnStream (json : Value) : Value :=
  match json with
  | .object obj =>
    match Fields.get obj "stream_options" with
    | none =>
      .object (Fields.insert obj "stream_options" (.object [("include_usage", .bool true)]))
    | some (.object opts) =>
      if (Fields.get opts "include_usage").isNone then
        .object (Fields.insert obj "stream_options"
          (.object (Fields.insert opts "include_usage" (.bool true))))
      else json
    | some _ => json
  | json => json

def applyBackendOverridesBytes (codec : FloatCodec) (body : List UInt8) (backend : RoutedNode)
    (allowStream : Bool) (path : List Char) : Except Panic (List UInt8 × Bool) :=
  match fromSlice codec body with
  | none => .ok (body, false)
  | some json =>
    if !looksLikeCompletionRequest json (backend.effectivePath path) then .ok (body, false)
    else do
      let clientWantsStream := ((json.get "stream").bind Value.asBool).getD false
      let keepStream := allowStream && clientWantsStream
      let json ←
        if keepStream then .ok (ensureUsageOnStream json)
        else do
          let json ← json.indexAssign "stream" (.bool false)
          .ok (removeKey json "stream_options")
      let json ← assignSome json "model" (backend.model.map .string)
      let json ← assignSome json "temperature" (backend.temperature.map valueOfF64)
      .ok (toVec codec json, keepStream)

/-! What the rewrites make of an object. -/

def insertSome (m : List (String × α)) (k : String) (x : Option α) : List (String × α) :=
  match x with
  | some x => Fields.insert m k x
  | none => m

/-- The entries with the node's model and temperature. -/
def overridden (m : List (String × Value)) (backend : BackendNode) : List (String × Value) :=
  insertSome (insertSome m "model" (backend.model.map .string)) "temperature"
    (backend.temperature.map valueOfF64)

/-- The entries of a request that is answered whole. -/
def forced (m : List (String × Value)) : List (String × Value) :=
  Fields.remove (Fields.insert m "stream" (.bool false)) "stream_options"

/-- The entries of a request that is streamed. -/
def streamed (m : List (String × Value)) : List (String × Value) :=
  match Fields.get m "stream_options" with
  | none => Fields.insert m "stream_options" (.object [("include_usage", .bool true)])
  | some (.object opts) =>
    if (Fields.get opts "include_usage").isNone then
      Fields.insert m "stream_options" (.object (Fields.insert opts "include_usage" (.bool true)))
    else m
  | some _ => m

theorem assignSome_object (m : List (String × Value)) (k : String) (x : Option Value) :
    assignSome (.object m) k x = .ok (.object (insertSome m k x)) := by
  cases x <;> rfl

theorem ensureUsageOnStream_object (m : List (String × Value)) :
    ensureUsageOnStream (.object m) = .object (streamed m) := by
  rw [ensureUsageOnStream, streamed]
  split
  · rfl
  · split <;> rfl
  · rfl

/-- The mode a request is sent in: the client asks for a stream and may have one. -/
def keepsStream (json : Value) (allowStream : Bool) : Bool :=
  allowStream && ((json.get "stream").bind Value.asBool).getD false

theorem applyBackendOverridesBytes_object {codec : FloatCodec} {backend : RoutedNode}
    (h : fromSlice codec body = some (.object m))
    (hshape : looksLikeCompletionRequest (.object m) (backend.effectivePath path) = true) :
    applyBackendOverridesBytes codec body backend allowStream path =
      .ok (toVec codec (.object (overridden
        (if keepsStream (.object m) allowStream then streamed m else forced m)
        backend.toBackendNode)), keepsStream (.object m) allowStream) := by
  rw [applyBackendOverridesBytes, h]
  dsimp only
  rw [hshape, Bool.not_true, if_neg Bool.false_ne_true, ← keepsStream, ensureUsageOnStream_object]
  cases keepsStream (.object m) allowStream with
  | true =>
    rw [if_pos rfl, if_pos rfl, Fallible.ok_bind, assignSome_object, Fallible.ok_bind,
      assignSome_object, Fallible.ok_bind, overridden]
  | false =>
    rw [if_neg Bool.false_ne_true, if_neg Bool.false_ne_true, Value.indexAssign, Fallible.ok_bind,
      removeKey, Fallible.ok_bind, assignSome_object, Fallible.ok_bind, assignSome_object,
      Fallible.ok_bind, overridden, forced]

theorem applyBackendOverridesBytes_left {codec : FloatCodec} {backend : RoutedNode}
    (h : ∀ json, fromSlice codec body = some json →
      looksLikeCompletionRequest json (backend.effectivePath path) = false) :
    applyBackendOverridesBytes codec body backend allowStream path = .ok (body, false) := by
  rw [applyBackendOverridesBytes]
  cases hj : fromSlice codec body with
  | none => rfl
  | some json =>
    dsimp only
    rw [h json hj, Bool.not_false, if_pos rfl]

end LocalMind
