import LocalMind.Json.Entries
import LocalMind.Proxy.Augment

namespace LocalMind
set_option autoImplicit true
open Json

/-! Injecting an augmentation into a request of any shape. -/

/-- The last element that fits, between those before it and those after it. -/
def splitLast (p : α → Bool) : List α → Option (List α × α × List α)
  | [] => none
  | a :: as =>
    match splitLast p as with
    | some (pre, b, post) => some (a :: pre, b, post)
    | none => if p a then some ([], a, as) else none

/-- How an injection ends without a request. -/
inductive InjectFault where
  | error (message : String)
  | panic (p : Panic)
  deriving DecidableEq

def isUserMessage (m : Value) : Bool := (m.get "role").bind Value.asStr == some "user"

def isTextPart (p : Value) : Bool := (p.get "type").bind Value.asStr == some "text"

def systemMessage (block : String) : Value :=
  .object [("role", .string "system"), ("content", .string block)]

def textPart (block : String) : Value :=
  .object [("type", .string "text"), ("text", .string block)]

/-- The parts with the block in the last text part, where its text is a string. -/
def appendToLastText (block : String) (parts : List Value) : Option (List Value) :=
  match splitLast isTextPart parts with
  | some (pre, part, post) =>
    match part.get "text" with
    | some (.string text) => some (pre ++ part.put "text" (.string (text ++ block)) :: post)
    | _ => none
  | none => none

def appendBlockToMessage (codec : FloatCodec) (msg : Value) (block : String) :
    Except InjectFault Value :=
  match msg.get "content" with
  | none | some .null => (msg.indexAssign "content" (.string block)).mapError .panic
  | some (.string existing) => .ok (msg.put "content" (.string (existing ++ block)))
  | some (.array parts) =>
    .ok (msg.put "content"
      (.array ((appendToLastText block parts).getD (parts ++ [textPart block]))))
  | some other => .error (.error
      ("augment injection: unsupported message content type: " ++
        String.ofList (print codec other)))

/-- A stop text becomes a list of one. -/
def normalizeStop (request : Value) : Value :=
  match request.get "stop" with
  | some (.string s) => request.put "stop" (.array [.string s])
  | _ => request

def injectAugmentationValue (codec : FloatCodec) (request : Value)
    (requestPrompt augmentation : String) : Except InjectFault Value :=
  if !request.isObject then
    .error (.error "augment injection: request body is not a JSON object")
  else
    let request := normalizeStop request
    let block := augmentationBlock requestPrompt augmentation
    match (request.get "messages").bind Value.asArray with
    | none => .error (.error "augment injection: request has no \"messages\" array")
    | some messages =>
      match splitLast isUserMessage messages with
      | some (pre, msg, post) =>
        (appendBlockToMessage codec msg block).map fun msg =>
          request.put "messages" (.array (pre ++ msg :: post))
      | none =>
        if messages.isEmpty then .ok request
        else .ok (request.put "messages" (.array (messages ++ [systemMessage block])))

/-! What an insertion is. -/

/-- An object with another value under a key, in its place; all else is as before. -/
def Replaced (k : String) (x y v w : Value) : Prop :=
  ∃ pre post, k ∉ Fields.keys pre ∧ v = .object (pre ++ (k, x) :: post) ∧
    w = .object (pre ++ (k, y) :: post)

/-- No text part of these takes the block: the last one has no text to append to. -/
def NoLastText (parts : List Value) : Prop :=
  ∀ pre part post, parts = pre ++ part :: post → part.get "type" = some (.string "text") →
    (∀ p ∈ post, p.get "type" ≠ some (.string "text")) → ∀ t, part.get "text" ≠ some (.string t)

/-- A message with the block in its content. -/
inductive BlockInMessage (block : String) : Value → Value → Prop where
  | text : Replaced "content" (.string s) (.string (s ++ block)) msg msg' →
      BlockInMessage block msg msg'
  | lastPart : part.get "type" = some (.string "text") →
      (∀ p ∈ post, p.get "type" ≠ some (.string "text")) →
      Replaced "text" (.string t) (.string (t ++ block)) part part' →
      Replaced "content" (.array (pre ++ part :: post)) (.array (pre ++ part' :: post)) msg msg' →
      BlockInMessage block msg msg'
  | newPart : NoLastText parts →
      Replaced "content" (.array parts) (.array (parts ++ [textPart block])) msg msg' →
      BlockInMessage block msg msg'
  | null : Replaced "content" .null (.string block) msg msg' → BlockInMessage block msg msg'
  | absent : "content" ∉ Fields.keys m →
      BlockInMessage block (.object m) (.object (m ++ [("content", .string block)]))

/-- A request with the block once in its messages. -/
inductive BlockInserted (block : String) : Value → Value → Prop where
  | user : msg.get "role" = some (.string "user") →
      (∀ m ∈ post, m.get "role" ≠ some (.string "user")) → BlockInMessage block msg msg' →
      Replaced "messages" (.array (pre ++ msg :: post)) (.array (pre ++ msg' :: post)) request
        result → BlockInserted block request result
  | system : (∀ m ∈ ms, m.get "role" ≠ some (.string "user")) → ms ≠ [] →
      Replaced "messages" (.array ms) (.array (ms ++ [systemMessage block])) request result →
      BlockInserted block request result

/-- A request with a string stop in a list. -/
def StopWrapped (request wrapped : Value) : Prop :=
  (∃ s, Replaced "stop" (.string s) (.array [.string s]) request wrapped) ∨
    (∀ s, request.get "stop" ≠ some (.string s)) ∧ wrapped = request

/-- A content that takes no block. -/
def Unsupported : Value → Bool
  | .bool _ | .number _ | .object _ => true
  | .null | .string _ | .array _ => false

/-- A request that no block goes into. -/
def Refused (request : Value) : Prop :=
  request.isObject = false ∨ (∀ ms, request.get "messages" ≠ some (.array ms)) ∨
    ∃ pre msg post x, request.get "messages" = some (.array (pre ++ msg :: post)) ∧
      msg.get "role" = some (.string "user") ∧
      (∀ m ∈ post, m.get "role" ≠ some (.string "user")) ∧
      msg.get "content" = some x ∧ Unsupported x = true

/-! The last element that fits. -/

theorem splitLast_eq_none {as : List α} (h : splitLast p as = none) : ∀ a ∈ as, p a = false := by
  induction as with
  | nil =>
    intro a ha
    cases ha
  | cons b as ih =>
    rw [splitLast] at h
    cases hs : splitLast p as with
    | some r =>
      rw [hs] at h
      cases h
    | none =>
      rw [hs] at h
      dsimp only at h
      split at h
      · cases h
      · next hb =>
        intro a ha
        obtain rfl | ha := List.mem_cons.1 ha
        · exact Bool.eq_false_of_not_eq_true hb
        · exact ih hs a ha

theorem splitLast_eq_some {as : List α} (h : splitLast p as = some (pre, a, post)) :
    as = pre ++ a :: post ∧ p a = true ∧ ∀ b ∈ post, p b = false := by
  induction as generalizing pre with
  | nil => cases h
  | cons b as ih =>
    rw [splitLast] at h
    cases hs : splitLast p as with
    | some r =>
      rw [hs] at h
      cases h
      obtain ⟨rfl, ha, hpost⟩ := ih hs
      exact ⟨rfl, ha, hpost⟩
    | none =>
      rw [hs] at h
      dsimp only at h
      split at h
      · next hb =>
        cases h
        refine ⟨rfl, hb, ?_⟩
        exact splitLast_eq_none hs
      · cases h

theorem splitLast_append {pre post : List α} (ha : p a = true) (hpost : ∀ b ∈ post, p b = false) :
    splitLast p (pre ++ a :: post) = some (pre, a, post) := by
  have hnone : splitLast p post = none := by
    cases hs : splitLast p post with
    | none => rfl
    | some r =>
      obtain ⟨rfl, hb, -⟩ := splitLast_eq_some hs
      rw [hpost _ (List.mem_append_right _ List.mem_cons_self)] at hb
      cases hb
  induction pre with
  | nil =>
    rw [List.nil_append, splitLast, hnone]
    exact if_pos ha
  | cons b pre ih => rw [List.cons_append, splitLast, ih]

/-! What each step does. -/

theorem get_eq_some_split {m : List (String × α)} (h : Fields.get m k = some x) (y : α) :
    ∃ pre post, k ∉ Fields.keys pre ∧ m = pre ++ (k, x) :: post ∧
      Fields.insert m k y = pre ++ (k, y) :: post := by
  induction m with
  | nil => cases h
  | cons e m ih =>
    obtain ⟨l, z⟩ := e
    by_cases hl : l = k
    · subst hl
      rw [Fields.get_cons_self] at h
      cases h
      exact ⟨[], m, List.not_mem_nil, rfl, if_pos rfl⟩
    · rw [Fields.get_cons_of_ne hl] at h
      obtain ⟨pre, post, hpre, rfl, hins⟩ := ih h
      refine ⟨(l, z) :: pre, post, ?_, rfl, ?_⟩
      · intro hmem
        obtain hmem | hmem := List.mem_cons.1 hmem
        · exact hl hmem.symm
        · exact hpre hmem
      · rw [Fields.insert, if_neg hl, hins]
        rfl

theorem replaced_put {v : Value} (h : v.get k = some x) (y : Value) :
    Replaced k x y v (v.put k y) := by
  obtain ⟨m, rfl⟩ := Value.object_of_get h
  obtain ⟨pre, post, hpre, hm, hins⟩ := get_eq_some_split h y
  exact ⟨pre, post, hpre, congrArg Value.object hm, congrArg Value.object hins⟩

theorem get_append_cons {pre : List (String × α)} (h : k ∉ Fields.keys pre) (y : α)
    (post : List (String × α)) : Fields.get (pre ++ (k, y) :: post) k = some y := by
  induction pre with
  | nil => exact Fields.get_cons_self k y post
  | cons e pre ih =>
    obtain ⟨hne, hpre⟩ := not_or.1 (mt List.mem_cons.2 h)
    rw [List.cons_append, Fields.get_cons_of_ne (Ne.symm hne), ih hpre]

theorem Replaced.get (h : Replaced k x y v w) : w.get k = some y := by
  obtain ⟨pre, post, hpre, -, rfl⟩ := h
  exact get_append_cons hpre y post

theorem asStr_beq_iff {o : Option Value} {s : String} :
    (o.bind Value.asStr == some s) = true ↔ o = some (.string s) := by
  rw [beq_iff_eq, Option.bind_eq_some_iff]
  constructor
  · rintro ⟨v, rfl, hv⟩
    rw [Value.asStr_eq_some.1 hv]
  · rintro rfl
    exact ⟨_, rfl, rfl⟩

theorem isUserMessage_iff {m : Value} :
    isUserMessage m = true ↔ m.get "role" = some (.string "user") := asStr_beq_iff

theorem isTextPart_iff {p : Value} :
    isTextPart p = true ↔ p.get "type" = some (.string "text") := asStr_beq_iff

theorem appendToLastText_some (h : appendToLastText block parts = some parts') :
    ∃ pre part part' post t, parts = pre ++ part :: post ∧ parts' = pre ++ part' :: post ∧
      part.get "type" = some (.string "text") ∧
      (∀ p ∈ post, p.get "type" ≠ some (.string "text")) ∧
      Replaced "text" (.string t) (.string (t ++ block)) part part' := by
  rw [appendToLastText] at h
  cases hs : splitLast isTextPart parts with
  | none =>
    rw [hs] at h
    cases h
  | some r =>
    obtain ⟨pre, part, post⟩ := r
    rw [hs] at h
    dsimp only at h
    obtain ⟨hparts, hpart, hpost⟩ := splitLast_eq_some hs
    split at h
    · next t ht =>
      cases h
      refine ⟨pre, part, _, post, t, hparts, rfl, isTextPart_iff.1 hpart, ?_, replaced_put ht _⟩
      intro p hp htext
      have hfalse := hpost p hp
      rw [isTextPart_iff.2 htext] at hfalse
      cases hfalse
    · cases h

theorem appendToLastText_none (h : appendToLastText block parts = none) : NoLastText parts := by
  rintro pre part post rfl hpart hpost t ht
  have hsplit : splitLast isTextPart (pre ++ part :: post) = some (pre, part, post) := by
    apply splitLast_append (isTextPart_iff.2 hpart)
    intro p hp
    rw [← Bool.not_eq_true, isTextPart_iff]
    exact hpost p hp
  rw [appendToLastText, hsplit] at h
  dsimp only at h
  rw [ht] at h
  cases h

/-- A message takes the block, or has a content that takes none. -/
theorem appendBlockToMessage_cases {msg : Value} (codec : FloatCodec) (hobj : msg.isObject = true)
    (block : String) :
    (∃ msg', appendBlockToMessage codec msg block = .ok msg' ∧ BlockInMessage block msg msg' ∧
      ∀ x, msg.get "content" = some x → Unsupported x = false) ∨
    ∃ e x, appendBlockToMessage codec msg block = .error (.error e) ∧
      msg.get "content" = some x ∧ Unsupported x = true := by
  rw [appendBlockToMessage]
  cases hc : msg.get "content" with
  | none =>
    obtain ⟨m, rfl⟩ := Value.isObject_iff.1 hobj
    have hkey : "content" ∉ Fields.keys m := Fields.get_eq_none_iff.1 hc
    refine .inl ⟨.object (m ++ [("content", .string block)]), ?_, .absent hkey, ?_⟩
    · rw [Value.indexAssign, Fields.insert_of_notMem hkey]
      rfl
    · intro x hx
      cases hx
  | some x =>
    have hput := replaced_put hc
    have hsame : ∀ y, some x = some y → y = x := fun y hy => (Option.some.inj hy).symm
    cases x with
    | null =>
      refine .inl ⟨_, ?_, .null (hput (.string block)), ?_⟩
      · dsimp only
        rw [Value.indexAssign_of_isObject hobj]
        rfl
      · intro y hy
        rw [hsame y hy]
        rfl
    | string t =>
      refine .inl ⟨_, rfl, .text (hput _), ?_⟩
      intro y hy
      rw [hsame y hy]
      rfl
    | array parts =>
      refine .inl ⟨_, rfl, ?_, ?_⟩
      · cases ha : appendToLastText block parts with
        | none => exact .newPart (appendToLastText_none ha) (hput _)
        | some parts' =>
          obtain ⟨pre, part, part', post, t, rfl, rfl, hpart, hpost, ht⟩ :=
            appendToLastText_some ha
          exact .lastPart hpart hpost ht (hput _)
      · intro y hy
        rw [hsame y hy]
        rfl
    | bool b => exact .inr ⟨_, _, rfl, rfl, rfl⟩
    | number n => exact .inr ⟨_, _, rfl, rfl, rfl⟩
    | object m => exact .inr ⟨_, _, rfl, rfl, rfl⟩

theorem normalizeStop_wrapped (request : Value) : StopWrapped request (normalizeStop request) := by
  rw [normalizeStop]
  split
  · next s hs => exact .inl ⟨s, replaced_put hs _⟩
  · next hno => exact .inr ⟨fun s hs => hno s hs, rfl⟩

theorem normalizeStop_get (request : Value) (h : k ≠ "stop") :
    (normalizeStop request).get k = request.get k := by
  rw [normalizeStop]
  split
  · exact Value.get_put_of_ne (Ne.symm h) _ _
  · rfl

/-- The result of an injection: the block once in the messages, where there are any. -/
def Injected (block : String) (request result : Value) : Prop :=
  ∃ wrapped, StopWrapped request wrapped ∧
    (BlockInserted block wrapped result ∨
      wrapped.get "messages" = some (.array []) ∧ result = wrapped)

theorem not_refused {request : Value} (hobj : request.isObject = true)
    (hms : request.get "messages" = some (.array ms))
    (h : ∀ pre msg post x, ms = pre ++ msg :: post → msg.get "role" = some (.string "user") →
      (∀ m ∈ post, m.get "role" ≠ some (.string "user")) → msg.get "content" = some x →
      Unsupported x = false) : ¬ Refused request := by
  rintro (hno | hno | ⟨pre, msg, post, x, hsplit, hrole, hpost, hx, hbad⟩)
  · rw [hobj] at hno
    cases hno
  · exact hno ms hms
  · rw [hms] at hsplit
    cases hsplit
    rw [h pre msg post x rfl hrole hpost hx] at hbad
    cases hbad

theorem injectAugmentationValue_cases (codec : FloatCodec) (request : Value)
    (requestPrompt augmentation : String) :
    (∃ result, injectAugmentationValue codec request requestPrompt augmentation = .ok result ∧
      ¬ Refused request ∧
      Injected (augmentationBlock requestPrompt augmentation) request result) ∨
    ∃ e, injectAugmentationValue codec request requestPrompt augmentation = .error (.error e) ∧
      Refused request := by
  rw [injectAugmentationValue]
  cases hobj : request.isObject with
  | false => exact .inr ⟨_, rfl, .inl hobj⟩
  | true =>
    have hget : (normalizeStop request).get "messages" = request.get "messages" :=
      normalizeStop_get request (by decide)
    have hwrapped := normalizeStop_wrapped request
    rw [Bool.not_true, if_neg Bool.false_ne_true]
    dsimp only
    cases hms : ((normalizeStop request).get "messages").bind Value.asArray with
    | none =>
      refine .inr ⟨_, rfl, .inr (.inl ?_)⟩
      intro ms hm
      rw [hget, hm] at hms
      cases hms
    | some ms =>
      have hmessages : (normalizeStop request).get "messages" = some (.array ms) := by
        obtain ⟨v, hv, ha⟩ := Option.bind_eq_some_iff.1 hms
        rw [hv, Value.asArray_eq_some.1 ha]
      dsimp only
      cases hs : splitLast isUserMessage ms with
      | none =>
        have hnone := splitLast_eq_none hs
        have hnot : ¬ Refused request := by
          apply not_refused hobj (hget ▸ hmessages)
          rintro pre msg post x rfl hrole
          have hfalse := hnone msg (List.mem_append_right _ List.mem_cons_self)
          rw [isUserMessage_iff.2 hrole] at hfalse
          cases hfalse
        cases ms with
        | nil => exact .inl ⟨_, rfl, hnot, _, hwrapped, .inr ⟨hmessages, rfl⟩⟩
        | cons m ms =>
          refine .inl ⟨_, rfl, hnot, _, hwrapped, .inl ?_⟩
          refine .system ?_ (List.cons_ne_nil m ms) (replaced_put hmessages _)
          intro m' hm' hrole
          have hfalse := hnone m' hm'
          rw [isUserMessage_iff.2 hrole] at hfalse
          cases hfalse
      | some r =>
        obtain ⟨pre, msg, post⟩ := r
        obtain ⟨rfl, hrole, hpost⟩ := splitLast_eq_some hs
        have huser := isUserMessage_iff.1 hrole
        have hlater : ∀ m ∈ post, m.get "role" ≠ some (.string "user") := by
          intro m hm hr
          have hfalse := hpost m hm
          rw [isUserMessage_iff.2 hr] at hfalse
          cases hfalse
        have hmobj : msg.isObject = true := by
          obtain ⟨m, rfl⟩ := Value.object_of_get huser
          rfl
        dsimp only
        obtain ⟨msg', happ, hblock, hsupported⟩ | ⟨e, x, happ, hx, hbad⟩ :=
          appendBlockToMessage_cases codec hmobj (augmentationBlock requestPrompt augmentation)
        · rw [happ]
          refine .inl ⟨_, rfl, ?_, _, hwrapped, .inl (.user huser hlater hblock
            (replaced_put hmessages _))⟩
          apply not_refused hobj (hget ▸ hmessages)
          intro pre' msg'' post' x hsplit hrole' hpost' hx
          have hagain : splitLast isUserMessage (pre' ++ msg'' :: post') =
              some (pre', msg'', post') := by
            apply splitLast_append (isUserMessage_iff.2 hrole')
            intro m hm
            rw [← Bool.not_eq_true, isUserMessage_iff]
            exact hpost' m hm
          rw [← hsplit, hs] at hagain
          cases hagain
          exact hsupported x hx
        · rw [happ]
          exact .inr ⟨e, rfl, .inr (.inr ⟨pre, msg, post, x, hget ▸ hmessages, huser, hlater, hx,
            hbad⟩)⟩

/-- The injection refuses exactly the requests that no block goes into, and inserts it once into
any other one with messages. -/
theorem injectAugmentationValue_inserts (codec : FloatCodec) (request : Value)
    (requestPrompt augmentation : String) :
    ((∃ e, injectAugmentationValue codec request requestPrompt augmentation = .error (.error e)) ↔
      Refused request) ∧
    (∀ p, injectAugmentationValue codec request requestPrompt augmentation ≠ .error (.panic p)) ∧
    ∀ result, injectAugmentationValue codec request requestPrompt augmentation = .ok result →
      Injected (augmentationBlock requestPrompt augmentation) request result := by
  obtain ⟨result, hok, hnot, hinj⟩ | ⟨e, he, href⟩ :=
    injectAugmentationValue_cases codec request requestPrompt augmentation
  · rw [hok]
    refine ⟨⟨?_, fun h => absurd h hnot⟩, ?_, ?_⟩
    · rintro ⟨e, he⟩
      cases he
    · intro p hp
      cases hp
    · intro result' hr
      cases hr
      exact hinj
  · rw [he]
    refine ⟨⟨fun _ => href, fun _ => ⟨e, rfl⟩⟩, ?_, ?_⟩
    · intro p hp
      cases hp
    · intro result hr
      cases hr

/-- A conversation without turns gets no block. -/
theorem injectAugmentationValue_leaves_empty : ∃ request result,
    injectAugmentationValue integersOnly request "p" "a" = .ok result ∧
    ¬ ∃ wrapped, StopWrapped request wrapped ∧
      BlockInserted (augmentationBlock "p" "a") wrapped result := by
  refine ⟨.object [("messages", .array [])], .object [("messages", .array [])], rfl, ?_⟩
  rintro ⟨wrapped, -, hins⟩
  cases hins with
  | user _ _ _ hrep =>
    obtain ⟨-, h⟩ := List.append_eq_nil_iff.1 (Value.array.inj (Option.some.inj hrep.get)).symm
    cases h
  | system _ _ hrep =>
    obtain ⟨-, h⟩ := List.append_eq_nil_iff.1 (Value.array.inj (Option.some.inj hrep.get)).symm
    cases h

end LocalMind
