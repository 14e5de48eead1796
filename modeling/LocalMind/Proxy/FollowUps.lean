import LocalMind.Proxy.OverridesMinimal

namespace LocalMind
set_option autoImplicit true
open Json

/-! A follow-up goes on with the request as it was sent first. -/

def userMessage (text : String) : Value :=
  .object [("role", .string "user"), ("content", .string text)]

/-- A request without its last two messages. -/
def withoutLastTwo (request : Value) : Value :=
  request.update "messages" fun messages =>
    match messages with
    | .array ms => .array (ms.take (ms.length - 2))
    | v => v

/-- What a follow-up owes to the request it continues, for whatever body brought that one. The
keys of an object are distinct. -/
structure Continues (codec : FloatCodec) (prompt : String) (original stopped : Value)
    (backend : RoutedNode) : Prop where
  total : ∀ p, buildFollowUp prompt original stopped backend.toBackendNode ≠ .error p
  sameTerms : ∀ m ms, original = .object m → (Fields.keys m).Nodup →
    Fields.get m "messages" = some (.array ms) → ms ≠ [] → ∃ req,
      buildFollowUp prompt original stopped backend.toBackendNode = .ok (some req) ∧
      req.get "messages" = some (.array (ms ++
        [assistantMessage (extractAssistantText stopped), userMessage prompt])) ∧
      ∀ body path, fromSlice codec body = some original →
        applyBackendOverridesBytes codec body backend false path =
          .ok (toVec codec (withoutLastTwo req), false)

theorem withoutLastTwo_insert {m : List (String × Value)}
    (h : Fields.get m "messages" = some (.array ms)) (a b : Value) :
    withoutLastTwo (.object (Fields.insert m "messages" (.array (ms ++ [a, b])))) =
      .object m := by
  rw [withoutLastTwo, Value.update, Value.get_object, Fields.get_insert_self]
  dsimp only
  have htake : (ms ++ [a, b]).take ((ms ++ [a, b]).length - 2) = ms := by
    rw [List.length_append, List.length_cons, List.length_singleton, Nat.add_sub_cancel,
      List.take_left]
  rw [htake, Value.put, Fields.insert_insert, Fields.insert_get h]

/-- The follow-up of an object extends the conversation of what is sent of it. -/
theorem buildFollowUp_object (prompt : String) (m : List (String × Value)) (stopped : Value)
    (backend : BackendNode) :
    buildFollowUp prompt (.object m) stopped backend =
      match Fields.get (overridden (forced m) backend) "messages" with
      | some (.array (x :: xs)) =>
        .ok (some (.object (Fields.insert (overridden (forced m) backend) "messages"
          (.array (x :: xs ++ [assistantMessage (extractAssistantText stopped),
            userMessage prompt])))))
      | _ => .ok none := by
  rw [buildFollowUp, Value.indexAssign, Fallible.ok_bind, removeKey, assignSome_object,
    Fallible.ok_bind, assignSome_object, Fallible.ok_bind, ← forced, ← overridden,
    Value.get_object]
  rfl

theorem buildFollowUp_scalar {original : Value} (h : original.isObjectOrNull = false)
    (prompt : String) (stopped : Value) (backend : BackendNode) :
    ∃ p, buildFollowUp prompt original stopped backend = .error p := by
  cases original with
  | object m => cases h
  | null => cases h
  | _ => exact ⟨_, rfl⟩

/-- A null request becomes an object without a conversation. -/
theorem buildFollowUp_null (prompt : String) (stopped : Value) (backend : BackendNode) :
    buildFollowUp prompt .null stopped backend = .ok none := by
  rw [buildFollowUp, Value.indexAssign, Fallible.ok_bind, removeKey, assignSome_object,
    Fallible.ok_bind, assignSome_object, Fallible.ok_bind, Value.get_object]
  have hnone : Fields.get (insertSome (insertSome (Fields.remove [("stream", Value.bool false)]
      "stream_options") "model" (backend.model.map .string)) "temperature"
      (backend.temperature.map valueOfF64)) "messages" = none := by
    rw [get_insertSome_of_ne (by decide), get_insertSome_of_ne (by decide)]
    rfl
  rw [hnone]

/-- A follow-up is built, in the terms of the first request, unless the request is a scalar or
an array. -/
theorem buildFollowUp_continues_iff (codec : FloatCodec) (prompt : String)
    (original stopped : Value) (backend : RoutedNode) :
    Continues codec prompt original stopped backend ↔ original.isObjectOrNull = true := by
  constructor
  · intro h
    by_contra hscalar
    rw [Bool.not_eq_true] at hscalar
    obtain ⟨p, hp⟩ := buildFollowUp_scalar hscalar prompt stopped backend.toBackendNode
    exact h.total p hp
  · intro h
    constructor
    case total =>
      intro p hp
      cases original with
      | object m =>
        rw [buildFollowUp_object] at hp
        split at hp <;> cases hp
      | null =>
        rw [buildFollowUp_null] at hp
        cases hp
      | _ => cases h
    case sameTerms =>
      rintro m ms rfl hnodup hms hne
      have hsent : Fields.get (overridden (forced m) backend.toBackendNode) "messages" =
          some (.array ms) := by
        rw [get_overridden (by decide), get_forced hnodup (by decide), hms]
      obtain ⟨x, xs, rfl⟩ := List.exists_cons_of_ne_nil hne
      refine ⟨.object (Fields.insert (overridden (forced m) backend.toBackendNode) "messages"
        (.array (x :: xs ++ [assistantMessage (extractAssistantText stopped),
          userMessage prompt]))), ?_, ?_, ?_⟩
      · rw [buildFollowUp_object, hsent]
      · exact Fields.get_insert_self _ _ _
      · intro body path hbody
        have hshape : looksLikeCompletionRequest (.object m) (backend.effectivePath path) =
            true := by
          rw [looksLikeCompletionRequest, Value.get_object, hms]
          exact Bool.or_true _
        rw [applyBackendOverridesBytes_object hbody hshape, withoutLastTwo_insert hsent]
        rfl

/-- An array is no request, and no follow-up comes of it. -/
theorem buildFollowUp_panics :
    ¬ Continues integersOnly "go on" (.array []) .null ⟨⟨none, none⟩, none⟩ := by
  intro h
  apply h.total ⟨"stream", "array"⟩
  rfl

end LocalMind
