import LocalMind.Proxy.Merge
import LocalMind.Stream.Fallible

namespace Json
set_option autoImplicit true

namespace Value

theorem put_get {v : Value} (h : v.get k = some x) : v.put k x = v := by
  obtain ⟨m, rfl⟩ := object_of_get h
  exact congrArg Value.object (Fields.insert_get h)

theorem put_put (v : Value) (k : String) (x y : Value) : (v.put k x).put k y = v.put k y := by
  cases v with
  | object m => exact congrArg Value.object (Fields.insert_insert m k x y)
  | _ => rfl

theorem updateM_ok (v : Value) (k : String) :
    v.updateM k (.ok : Value → Except ε Value) = .ok v := by
  rw [updateM]
  cases h : v.get k with
  | none => rfl
  | some x => exact congrArg Except.ok (put_get h)

/-- Two rewrites of one key are one rewrite by both steps. -/
theorem updateM_updateM (v : Value) (k : String) (f g : Value → Except ε Value) :
    (v.updateM k f >>= fun w => w.updateM k g) = v.updateM k fun x => f x >>= g := by
  cases h : v.get k with
  | none => rw [updateM_of_get_none h, updateM_of_get_none h]; exact updateM_of_get_none h g
  | some x =>
    rw [updateM_of_get h, updateM_of_get h]
    cases hf : f x with
    | error e => rfl
    | ok y =>
      change (v.put k y).updateM k g = (g y).map (v.put k)
      rw [updateM_of_get (get_put_of_get h y)]
      congr 1
      funext z
      exact put_put v k y z

theorem updateM_isOk_iff (v : Value) (k : String) (f : Value → Except ε Value) :
    (v.updateM k f).isOk = true ↔ ∀ x, v.get k = some x → (f x).isOk = true := by
  cases h : v.get k with
  | none => simp [updateM_of_get_none h]
  | some x => simp [updateM_of_get h]

theorem isObjectOrNull_of_get {v : Value} (h : v.get k = some x) : v.isObjectOrNull = true := by
  obtain ⟨m, rfl⟩ := object_of_get h
  rfl

theorem isObjectOrNull_iff {v : Value} :
    v.isObjectOrNull = true ↔ v.isObject = true ∨ v.isNull = true := by
  cases v <;> simp [isObjectOrNull, isObject, isNull]

theorem put_isObject (v : Value) (k : String) (x : Value) :
    (v.put k x).isObject = v.isObject := by
  cases v <;> rfl

/-- An assignment needs an object or null, leaves an object, and touches its key only. -/
theorem indexAssign_ok {v w : Value} (h : v.indexAssign k x = .ok w) :
    v.isObjectOrNull = true ∧ w.isObject = true ∧ w.get k = some x ∧
      ∀ l, k ≠ l → w.get l = v.get l := by
  cases v with
  | null =>
    cases h
    exact ⟨rfl, rfl, Fields.get_cons_self k x [], fun l hl => Fields.get_cons_of_ne hl x []⟩
  | object m =>
    cases h
    exact ⟨rfl, rfl, Fields.get_insert_self m k x, fun l hl => Fields.get_insert_of_ne hl m x⟩
  | _ => cases h

end Value

end Json

namespace LocalMind
open Json
set_option autoImplicit true

/-- A step that may write one field: it needs an object or null when it writes, keeps that shape,
and touches no other field. -/
structure WritesField (f : Value → Except Panic Value) (writes : Bool) (field : String) :
    Prop where
  isOk : ∀ m, (f m).isOk = true ↔ (writes = true → m.isObjectOrNull = true)
  shape : ∀ {m m'}, f m = .ok m' → m'.isObjectOrNull = m.isObjectOrNull
  frame : ∀ {m m'}, f m = .ok m' → ∀ l, field ≠ l → m'.get l = m.get l

theorem writesField_ok (field : String) : WritesField .ok false field where
  isOk := by
    intro m
    exact ⟨nofun, fun _ => rfl⟩
  shape := by
    intro m m' h
    cases h
    rfl
  frame := by
    intro m m' h
    cases h
    exact fun _ _ => rfl

theorem writesField_indexAssign (field : String) (x : Value) :
    WritesField (fun m => m.indexAssign field x) true field where
  isOk := by
    intro m
    rw [Value.indexAssign_isOk_iff]
    exact ⟨fun h _ => h, fun h => h rfl⟩
  shape := by
    intro m m' h
    obtain ⟨h₁, h₂, -, -⟩ := Value.indexAssign_ok h
    rw [h₁]
    exact Value.isObjectOrNull_iff.2 (.inl h₂)
  frame := by
    intro m m' h
    exact (Value.indexAssign_ok h).2.2.2

theorem writesField_appendText (field text : String) :
    WritesField (appendText field text) true field := by
  have hcase : ∀ m, (∃ s, m.get field = some (.string s) ∧
      appendText field text m = .ok (m.put field (.string (s ++ text)))) ∨
      appendText field text m = m.indexAssign field (.string text) := by
    intro m
    rw [appendText]
    split
    · next s h => exact .inl ⟨s, h, rfl⟩
    · exact .inr rfl
  have hw := writesField_indexAssign field (.string text)
  constructor
  · intro m
    rcases hcase m with ⟨s, hs, ha⟩ | ha
    · rw [ha]
      exact ⟨fun _ _ => Value.isObjectOrNull_of_get hs, fun _ => rfl⟩
    · rw [ha]
      exact hw.isOk m
  · intro m m' h
    rcases hcase m with ⟨s, hs, ha⟩ | ha
    · rw [ha] at h
      cases h
      obtain ⟨o, rfl⟩ := Value.object_of_get hs
      rfl
    · exact hw.shape (ha ▸ h)
  · intro m m' h
    rcases hcase m with ⟨s, hs, ha⟩ | ha
    · rw [ha] at h
      cases h
      exact fun l hl => Value.get_put_of_ne hl m _
    · exact hw.frame (ha ▸ h)

/-! The steps of a delta, on the message. -/

def roleInto (delta : Value) : Value → Except Panic Value :=
  match delta.get "role" with
  | some (.string role) => fun m => m.indexAssign "role" (.string role)
  | _ => .ok

def textInto (field : String) (delta : Value) : Value → Except Panic Value :=
  match (delta.get field).bind Value.asStr with
  | some text => appendText field text
  | none => .ok

def opaqueInto (delta : Value) : Value → Except Panic Value :=
  match delta.get "reasoning_opaque" with
  | some blob => fun m => m.indexAssign "reasoning_opaque" blob
  | none => .ok

def toolCallsInto (delta : Value) : Value → Except Panic Value :=
  match delta.get "tool_calls" with
  | some toolCalls => fun m => m.updateM "tool_calls" (mergeToolCalls toolCalls)
  | none => .ok

def mergeMessage (delta m : Value) : Except Panic Value := do
  let m ← roleInto delta m
  let m ← textInto "content" delta m
  let m ← textInto "reasoning_text" delta m
  let m ← opaqueInto delta m
  toolCallsInto delta m

theorem mergeRole_eq (c delta : Value) :
    mergeRole c delta = c.updateM "message" (roleInto delta) := by
  have hn := Value.updateM_ok (ε := Panic) c "message"
  rw [mergeRole, roleInto]
  cases delta.get "role" with
  | none => exact hn.symm
  | some r =>
    cases r with
    | string role => rfl
    | _ => exact hn.symm

theorem mergeText_eq (field : String) (c delta : Value) :
    mergeText field c delta = c.updateM "message" (textInto field delta) := by
  rw [mergeText, textInto]
  cases (delta.get field).bind Value.asStr with
  | none => exact (Value.updateM_ok c "message").symm
  | some text => rfl

theorem mergeOpaque_eq (c delta : Value) :
    mergeOpaque c delta = c.updateM "message" (opaqueInto delta) := by
  rw [mergeOpaque, opaqueInto]
  cases delta.get "reasoning_opaque" with
  | none => exact (Value.updateM_ok c "message").symm
  | some blob => rfl

theorem mergeDeltaToolCalls_eq (c delta : Value) :
    mergeDeltaToolCalls c delta = c.updateM "message" (toolCallsInto delta) := by
  rw [mergeDeltaToolCalls, toolCallsInto]
  cases delta.get "tool_calls" with
  | none => exact (Value.updateM_ok c "message").symm
  | some toolCalls => rfl

/-- A delta is merged into the message of its slot, where the slot has one. -/
theorem mergeDelta_eq (c delta : Value) :
    mergeDelta c delta = c.updateM "message" (mergeMessage delta) := by
  rw [mergeDelta]
  simp only [mergeRole_eq, mergeText_eq, mergeOpaque_eq, mergeDeltaToolCalls_eq]
  unfold mergeMessage
  simp only [← Value.updateM_updateM]

theorem writesField_roleInto (delta : Value) :
    WritesField (roleInto delta) ((delta.get "role").any Value.isString) "role" := by
  rw [roleInto]
  cases delta.get "role" with
  | none => exact writesField_ok "role"
  | some r =>
    cases r with
    | string role => exact writesField_indexAssign "role" (.string role)
    | _ => exact writesField_ok "role"

theorem writesField_textInto (field : String) (delta : Value) :
    WritesField (textInto field delta) ((delta.get field).any Value.isString) field := by
  rw [textInto]
  cases delta.get field with
  | none => exact writesField_ok field
  | some t =>
    cases t with
    | string text => exact writesField_appendText field text
    | _ => exact writesField_ok field

theorem writesField_opaqueInto (delta : Value) :
    WritesField (opaqueInto delta) (delta.get "reasoning_opaque").isSome "reasoning_opaque" := by
  rw [opaqueInto]
  cases delta.get "reasoning_opaque" with
  | none => exact writesField_ok "reasoning_opaque"
  | some blob => exact writesField_indexAssign "reasoning_opaque" blob

/-! When a merge step is safe. -/

/-- The slot of a call that a fragment is merged into, when it lands on one that is not null. -/
def landing (arr : List Value) (newCall : Value) : Option Value :=
  match (newCall.get "index").bind Value.asU64 with
  | some idx =>
    if idx.toNat > MAX_TRACKED_BLOCK_INDEX then none
    else (arr[idx.toNat]?).filter fun slot => !slot.isNull
  | none => (arr.rdropWhile Value.isNull).getLast?

/-- A fragment with a function lands on a slot that has one or can take one. -/
def CallFits (arr : List Value) (newCall : Value) : Prop :=
  ∀ slot, landing arr newCall = some slot → (newCall.get "function").isSome = true →
    slot.get "function" = none → slot.isObjectOrNull = true

/-- The delta writes a field of the message. -/
def writesMessage (delta : Value) : Bool :=
  (delta.get "role").any Value.isString || (delta.get "content").any Value.isString ||
    (delta.get "reasoning_text").any Value.isString || (delta.get "reasoning_opaque").isSome

def ToolCallsFit (m delta : Value) : Prop :=
  ∀ accArr newArr, m.get "tool_calls" = some (.array accArr) →
    delta.get "tool_calls" = some (.array newArr) →
    Fallible.Accepts CallFits mergeToolCall accArr newArr

/-- The message of a slot can take a delta. -/
def MessageFits (m delta : Value) : Prop :=
  (writesMessage delta = true → m.isObjectOrNull = true) ∧ ToolCallsFit m delta

/-- A slot can take a choice of a chunk. -/
def ChoiceFits (slot choice : Value) : Prop :=
  (∀ delta m, choice.get "delta" = some delta → slot.get "message" = some m →
    MessageFits m delta) ∧
  ∀ finish, choice.get "finish_reason" = some finish → finish.isNull = false →
    slot.isObjectOrNull = true

theorem mergeToolCallSlot_isOk_iff (slot newCall : Value) :
    (mergeToolCallSlot slot newCall).isOk = true ↔
      ((newCall.get "function").isSome = true → slot.get "function" = none →
        slot.isObjectOrNull = true) := by
  rw [mergeToolCallSlot]
  cases newCall.get "function" with
  | none => simp
  | some newFunc =>
    cases slot.get "function" with
    | none => simp [Value.indexAssign_isOk_iff]
    | some f => cases f <;> simp

theorem landing_index {arr : List Value} {idx : UInt64}
    (hi : (newCall.get "index").bind Value.asU64 = some idx)
    (hle : ¬ idx.toNat > MAX_TRACKED_BLOCK_INDEX) :
    landing arr newCall =
      if ((padTo arr idx.toNat).getD idx.toNat .null).isNull then none
      else some ((padTo arr idx.toNat).getD idx.toNat .null) := by
  rw [landing, hi]
  dsimp only
  rw [if_neg hle]
  by_cases hl : idx.toNat < arr.length
  · have hp : (padTo arr idx.toNat).getD idx.toNat .null = arr[idx.toNat] := by
      rw [padTo, List.getD_eq_getElem?_getD, List.getElem?_append_left hl,
        List.getElem?_eq_getElem hl]
      rfl
    rw [hp, List.getElem?_eq_getElem hl]
    cases h : arr[idx.toNat].isNull <;> simp [Option.filter, h]
  · have hp : (padTo arr idx.toNat).getD idx.toNat .null = .null := by
      rw [padTo, List.getD_eq_getElem?_getD, List.getElem?_append_right (Nat.le_of_not_lt hl),
        List.getElem?_replicate]
      split <;> rfl
    rw [hp, List.getElem?_eq_none (Nat.le_of_not_lt hl)]
    rfl

theorem mergeToolCall_isOk_iff (arr : List Value) (newCall : Value) :
    (mergeToolCall arr newCall).isOk = true ↔ CallFits arr newCall := by
  rw [mergeToolCall, CallFits]
  cases hi : (newCall.get "index").bind Value.asU64 with
  | some idx =>
    dsimp only
    by_cases hle : idx.toNat > MAX_TRACKED_BLOCK_INDEX
    · rw [if_pos hle, landing, hi]
      dsimp only
      rw [if_pos hle]
      exact ⟨nofun, fun _ => rfl⟩
    · rw [if_neg hle, landing_index hi hle]
      split
      · exact ⟨nofun, fun _ => rfl⟩
      · rw [Fallible.isOk_bind_iff]
        simp only [Fallible.isOk_ok, and_true, ← Fallible.isOk_iff, mergeToolCallSlot_isOk_iff,
          Option.some.injEq, forall_eq']
  | none =>
    rw [landing, hi]
    dsimp only
    rw [mergeLast]
    cases (arr.rdropWhile Value.isNull).getLast? with
    | none => exact ⟨nofun, fun _ => rfl⟩
    | some last =>
      dsimp only
      rw [Fallible.isOk_bind_iff]
      simp only [Fallible.isOk_ok, and_true, ← Fallible.isOk_iff, mergeToolCallSlot_isOk_iff,
        Option.some.injEq, forall_eq']

theorem toolCallsInto_isOk_iff (delta m : Value) :
    (toolCallsInto delta m).isOk = true ↔ ToolCallsFit m delta := by
  rw [toolCallsInto, ToolCallsFit]
  cases delta.get "tool_calls" with
  | none => exact ⟨nofun, fun _ => rfl⟩
  | some tc =>
    dsimp only
    rw [Value.updateM_isOk_iff]
    constructor
    · intro h accArr newArr hm hd
      have := h _ hm
      cases hd
      rw [mergeToolCalls, Fallible.isOk_map] at this
      exact (Fallible.foldlM_isOk_iff (I := fun _ => True) (fun _ _ _ _ _ => trivial)
        (fun s a _ => mergeToolCall_isOk_iff s a) trivial newArr).1 this
    · intro h x hx
      cases x with
      | array accArr =>
        cases tc with
        | array newArr =>
          rw [mergeToolCalls, Fallible.isOk_map]
          exact (Fallible.foldlM_isOk_iff (I := fun _ => True) (fun _ _ _ _ _ => trivial)
            (fun s a _ => mergeToolCall_isOk_iff s a) trivial newArr).2 (h _ _ hx rfl)
        | _ => rfl
      | _ => rfl

theorem ToolCallsFit.congr {m m' : Value} (h : m'.get "tool_calls" = m.get "tool_calls")
    (delta : Value) : ToolCallsFit m' delta ↔ ToolCallsFit m delta := by
  rw [ToolCallsFit, h]
  exact Iff.rfl

/-- One writing step, then the rest. -/
theorem WritesField.bind_isOk_iff {f g : Value → Except Panic Value} {delta : Value}
    (hf : WritesField f w field) (hfield : field ≠ "tool_calls")
    (hg : ∀ m, (g m).isOk = true ↔
      (v = true → m.isObjectOrNull = true) ∧ ToolCallsFit m delta) (m : Value) :
    (f m >>= g).isOk = true ↔
      ((w || v) = true → m.isObjectOrNull = true) ∧ ToolCallsFit m delta := by
  have hstep : ∀ m', f m = .ok m' → ((g m').isOk = true ↔
      (v = true → m.isObjectOrNull = true) ∧ ToolCallsFit m delta) := by
    intro m' h
    rw [hg m', hf.shape h, ToolCallsFit.congr (hf.frame h _ hfield)]
  rw [Fallible.isOk_bind_iff]
  constructor
  · rintro ⟨m', h, hm⟩
    have hw := (hf.isOk m).1 (Fallible.isOk_iff.2 ⟨m', h⟩)
    obtain ⟨hv, ht⟩ := (hstep m' h).1 hm
    refine ⟨fun h => ?_, ht⟩
    rw [Bool.or_eq_true] at h
    rcases h with h | h
    · exact hw h
    · exact hv h
  · rintro ⟨h, ht⟩
    obtain ⟨m', hm'⟩ := Fallible.isOk_iff.1 ((hf.isOk m).2 fun hw => h (by rw [hw]; rfl))
    exact ⟨m', hm', (hstep m' hm').2 ⟨fun hv => h (by rw [hv, Bool.or_true]), ht⟩⟩

theorem mergeMessage_isOk_iff (delta m : Value) :
    (mergeMessage delta m).isOk = true ↔ MessageFits m delta := by
  have h₀ : ∀ m, (toolCallsInto delta m).isOk = true ↔
      (false = true → m.isObjectOrNull = true) ∧ ToolCallsFit m delta := by
    intro m
    rw [toolCallsInto_isOk_iff]
    exact ⟨fun h => ⟨nofun, h⟩, fun h => h.2⟩
  have h₁ := (writesField_opaqueInto delta).bind_isOk_iff (by decide) h₀
  have h₂ := (writesField_textInto "reasoning_text" delta).bind_isOk_iff (by decide) h₁
  have h₃ := (writesField_textInto "content" delta).bind_isOk_iff (by decide) h₂
  have h₄ := (writesField_roleInto delta).bind_isOk_iff (by decide) h₃ m
  rw [Bool.or_false, ← Bool.or_assoc, ← Bool.or_assoc] at h₄
  exact h₄

theorem mergeFinish_isOk_iff (slot choice : Value) :
    (mergeFinish slot choice).isOk = true ↔
      ∀ finish, choice.get "finish_reason" = some finish → finish.isNull = false →
        slot.isObjectOrNull = true := by
  rw [mergeFinish]
  cases choice.get "finish_reason" with
  | none => exact ⟨nofun, fun _ => rfl⟩
  | some finish =>
    dsimp only
    cases hf : finish.isNull with
    | true => simp [hf]
    | false => simp [hf, Value.indexAssign_isOk_iff]

theorem Value.isObjectOrNull_updateM {v w : Value} {f : Value → Except ε Value}
    (h : v.updateM k f = .ok w) : w.isObjectOrNull = v.isObjectOrNull := by
  cases hg : v.get k with
  | none =>
    rw [Value.updateM_of_get_none hg] at h
    cases h
    rfl
  | some x =>
    rw [Value.updateM_of_get hg] at h
    obtain ⟨y, -, rfl⟩ := Fallible.map_eq_ok_iff.1 h
    cases v <;> rfl

/-- A choice merges safely exactly when its slot fits it. -/
theorem mergeChoice_isOk_iff (slot choice : Value) :
    (mergeChoice slot choice).isOk = true ↔ ChoiceFits slot choice := by
  rw [mergeChoice, ChoiceFits]
  cases hd : choice.get "delta" with
  | none =>
    change (mergeFinish slot choice).isOk = true ↔ _
    rw [mergeFinish_isOk_iff]
    exact ⟨fun h => ⟨nofun, h⟩, fun h => h.2⟩
  | some delta =>
    change (mergeDelta slot delta >>= fun c => mergeFinish c choice).isOk = true ↔ _
    rw [mergeDelta_eq, Fallible.isOk_bind_iff]
    have hm := Value.updateM_isOk_iff slot "message" (mergeMessage delta)
    simp only [mergeMessage_isOk_iff] at hm
    constructor
    · rintro ⟨c, hc, hf⟩
      refine ⟨?_, ?_⟩
      · intro d m h
        cases h
        exact hm.1 (Fallible.isOk_iff.2 ⟨c, hc⟩) m
      · rw [mergeFinish_isOk_iff, Value.isObjectOrNull_updateM hc] at hf
        exact hf
    · rintro ⟨h, hf⟩
      obtain ⟨c, hc⟩ := Fallible.isOk_iff.1 (hm.2 fun m => h delta m rfl)
      refine ⟨c, hc, ?_⟩
      rw [mergeFinish_isOk_iff, Value.isObjectOrNull_updateM hc]
      exact hf

/-! The slots of a chunk's choices. -/

/-- Each choice goes into the slot at its place; missing slots are seeded. -/
def mergeEach : List Value → List Value → Except Panic (List Value)
  | slots, [] => .ok slots
  | [], choice :: rest => do
    let merged ← mergeChoice (seedChoice choice) choice
    let tail ← mergeEach [] rest
    .ok (merged :: tail)
  | slot :: slots, choice :: rest => do
    let merged ← mergeChoice slot choice
    let tail ← mergeEach slots rest
    .ok (merged :: tail)

theorem mergeChoices_eq (done slots choices : List Value) :
    mergeChoices (done ++ slots) done.length choices =
      (mergeEach slots choices).map (done ++ ·) := by
  induction choices generalizing done slots with
  | nil => rfl
  | cons choice rest ih =>
    have hstep : ∀ slot slots, (do
        let merged ← mergeChoice slot choice
        mergeChoices ((done ++ slot :: slots).set done.length merged) (done.length + 1) rest) =
        (do
          let merged ← mergeChoice slot choice
          let tail ← mergeEach slots rest
          .ok (merged :: tail) : Except Panic (List Value)).map (done ++ ·) := by
      intro slot slots
      cases mergeChoice slot choice with
      | error e => rfl
      | ok merged =>
        have hl : (done ++ [merged]).length = done.length + 1 := by simp
        have hset : (done ++ slot :: slots).set done.length merged =
            (done ++ [merged]) ++ slots := by
          rw [List.set_append_right _ _ (Nat.le_refl _), Nat.sub_self]
          simp
        have := ih (done ++ [merged]) slots
        rw [hl] at this
        change mergeChoices ((done ++ slot :: slots).set done.length merged)
            (done.length + 1) rest =
          (mergeEach slots rest >>= fun tail => .ok (merged :: tail)).map (done ++ ·)
        rw [hset, this]
        cases mergeEach slots rest with
        | error e => rfl
        | ok tail =>
          change Except.ok ((done ++ [merged]) ++ tail) = Except.ok (done ++ merged :: tail)
          rw [List.append_assoc]
          rfl
    have hget : ∀ slot slots, (done ++ slot :: slots)[done.length]? = some slot := by
      intro slot slots
      rw [List.getElem?_append_right (Nat.le_refl _), Nat.sub_self]
      rfl
    cases slots with
    | nil =>
      rw [mergeChoices, if_pos (by simp), List.append_nil, hget, mergeEach, ← hstep]
      dsimp only
      cases mergeChoice (seedChoice choice) choice <;> rfl
    | cons slot slots =>
      rw [mergeChoices, if_neg (by simp), hget, mergeEach, ← hstep]
      dsimp only
      cases mergeChoice slot choice <;> rfl

/-- The slot of a chunk's choice. -/
def slotFor (slots : List Value) (i : Nat) (choice : Value) : Value :=
  (slots[i]?).getD (seedChoice choice)

def ChoicesFit (slots choices : List Value) : Prop :=
  ∀ i choice, choices[i]? = some choice → ChoiceFits (slotFor slots i choice) choice

theorem choicesFit_cons (slot choice : Value) (slots rest : List Value) :
    ChoicesFit (slot :: slots) (choice :: rest) ↔
      ChoiceFits slot choice ∧ ChoicesFit slots rest := by
  constructor
  · intro h
    exact ⟨h 0 choice rfl, fun i c hc => h (i + 1) c hc⟩
  · rintro ⟨h₀, h⟩ i c hc
    cases i with
    | zero =>
      cases hc
      exact h₀
    | succ i => exact h i c hc

theorem choicesFit_seed (choice : Value) (rest : List Value) :
    ChoicesFit [] (choice :: rest) ↔
      ChoiceFits (seedChoice choice) choice ∧ ChoicesFit [] rest := by
  constructor
  · intro h
    exact ⟨h 0 choice rfl, fun i c hc => h (i + 1) c hc⟩
  · rintro ⟨h₀, h⟩ i c hc
    cases i with
    | zero =>
      cases hc
      exact h₀
    | succ i => exact h i c hc

theorem isOk_cons_iff {x : Except Panic Value} {y : Except Panic (List Value)} :
    (do
      let merged ← x
      let tail ← y
      .ok (merged :: tail) : Except Panic (List Value)).isOk = true ↔
      x.isOk = true ∧ y.isOk = true := by
  cases x <;> cases y <;> simp [bind, Except.bind, Except.isOk, Except.toBool]

theorem mergeEach_isOk_iff (slots choices : List Value) :
    (mergeEach slots choices).isOk = true ↔ ChoicesFit slots choices := by
  induction slots, choices using mergeEach.induct with
  | case1 slots =>
    rw [mergeEach]
    exact ⟨fun _ i c hc => (nomatch hc), fun _ => rfl⟩
  | case2 choice rest ih =>
    rw [mergeEach, isOk_cons_iff, mergeChoice_isOk_iff, choicesFit_seed, ih]
  | case3 slot slots choice rest ih =>
    rw [mergeEach, isOk_cons_iff, mergeChoice_isOk_iff, choicesFit_cons, ih]

/-! A whole OpenAI stream. -/

/-- An accumulator after the first chunk. -/
def Accumulator (acc : Value) : Prop := ∃ slots, acc.get "choices" = some (.array slots)

/-- A chunk whose choices the slots can take. -/
def ChunkFits (slots : List Value) (chunk : Value) : Prop :=
  ∀ choices, chunk.get "choices" = some (.array choices) → ChoicesFit slots choices

theorem mergeStat_ok {acc : Value} (h : acc.isObject = true) (key : String) (skipNull : Bool)
    (chunk : Value) :
    ∃ out, mergeStat key skipNull chunk acc = .ok out ∧ out.isObject = true ∧
      (∀ l, key ≠ l → out.get l = acc.get l) ∧
      (skipNull = false → out.get key = (chunk.get key).or (acc.get key)) := by
  rw [mergeStat]
  cases chunk.get key with
  | none => exact ⟨acc, rfl, h, fun _ _ => rfl, fun _ => rfl⟩
  | some x =>
    dsimp only
    split
    · next hs => exact ⟨acc, rfl, h, fun _ _ => rfl, fun hf => by simp [hf] at hs⟩
    · have ha := Value.indexAssign_of_isObject h key x
      obtain ⟨-, ho, hg, hl⟩ := Value.indexAssign_ok ha
      exact ⟨_, ha, ho, hl, fun _ => hg⟩

/-- What merging a chunk into an accumulator yields, once its slots are known. -/
structure MergedInto (acc chunk : Value) (slots : List Value) (out : Value) : Prop where
  choices : out.get "choices" = some (.array slots)
  usage : out.get "usage" = (chunk.get "usage").or (acc.get "usage")
  timings : out.get "timings" = (chunk.get "timings").or (acc.get "timings")

/-- The stats of a chunk always merge, and leave the choices alone. -/
theorem mergeStreamStats_ok {acc : Value} (h : acc.get "choices" = some (.array slots))
    (chunk : Value) :
    ∃ out, mergeStreamStats acc chunk = .ok out ∧ MergedInto acc chunk slots out := by
  have hobj : acc.isObject = true := Value.isObject_iff.2 (Value.object_of_get h)
  obtain ⟨a₁, h₁, o₁, l₁, u₁⟩ := mergeStat_ok hobj "usage" false chunk
  obtain ⟨a₂, h₂, o₂, l₂, -⟩ := mergeStat_ok o₁ "model" true chunk
  obtain ⟨a₃, h₃, o₃, l₃, t₃⟩ := mergeStat_ok o₂ "timings" false chunk
  obtain ⟨a₄, h₄, o₄, l₄, -⟩ := mergeStat_ok o₃ "metrics" true chunk
  refine ⟨a₄, ?_, ?_, ?_, ?_⟩
  · rw [mergeStreamStats, h₁, Fallible.ok_bind, h₂, Fallible.ok_bind, h₃, Fallible.ok_bind, h₄]
  · rw [l₄ _ (by decide), l₃ _ (by decide), l₂ _ (by decide), l₁ _ (by decide), h]
  · rw [l₄ _ (by decide), l₃ _ (by decide), l₂ _ (by decide), u₁ rfl]
  · rw [l₄ _ (by decide), t₃ rfl, l₂ _ (by decide), l₁ _ (by decide)]

/-- What a chunk does to an accumulator: its choices go to their slots. -/
theorem mergeInto_eq {acc : Value} (h : acc.get "choices" = some (.array slots))
    (chunk : Value) :
    ((∀ choices, chunk.get "choices" ≠ some (.array choices)) →
      ∃ out, mergeInto acc chunk = .ok out ∧ MergedInto acc chunk slots out) ∧
    ∀ choices, chunk.get "choices" = some (.array choices) →
      ((mergeInto acc chunk).isOk = (mergeEach slots choices).isOk ∧
        ∀ slots', mergeEach slots choices = .ok slots' →
          ∃ out, mergeInto acc chunk = .ok out ∧ MergedInto acc chunk slots' out) := by
  have hu := Value.updateM_of_get (ε := Panic) h
  constructor
  · intro hc
    have hcc : mergeChunkChoices acc chunk = .ok acc := by
      rw [mergeChunkChoices, hu]
      split
      · next he => exact absurd he (hc _)
      · exact congrArg Except.ok (Value.put_get h)
    obtain ⟨out, ho, hm⟩ := mergeStreamStats_ok h chunk
    refine ⟨out, ?_, hm⟩
    rw [mergeInto, hcc]
    exact ho
  · intro choices hc
    have hcc : mergeChunkChoices acc chunk =
        (mergeEach slots choices).map fun slots' => acc.put "choices" (.array slots') := by
      rw [mergeChunkChoices, hu, hc]
      dsimp only
      have := mergeChoices_eq [] slots choices
      rw [List.nil_append, List.length_nil] at this
      rw [this]
      cases mergeEach slots choices <;> rfl
    have hok : ∀ slots', mergeEach slots choices = .ok slots' →
        ∃ out, mergeInto acc chunk = .ok out ∧ MergedInto acc chunk slots' out := by
      intro slots' hs
      obtain ⟨out, ho, hm⟩ :=
        mergeStreamStats_ok (Value.get_put_of_get h (.array slots')) chunk
      refine ⟨out, ?_, hm.choices, ?_, ?_⟩
      · rw [mergeInto, hcc, hs]
        exact ho
      · rw [hm.usage, Value.get_put_of_ne (by decide)]
      · rw [hm.timings, Value.get_put_of_ne (by decide)]
    refine ⟨?_, hok⟩
    cases hs : mergeEach slots choices with
    | ok slots' =>
      obtain ⟨out, ho, -⟩ := hok slots' hs
      rw [ho]
      rfl
    | error e =>
      rw [mergeInto, hcc, hs]
      rfl

theorem mergeInto_isOk_iff {acc chunk : Value} (h : acc.get "choices" = some (.array slots)) :
    (mergeInto acc chunk).isOk = true ↔ ChunkFits slots chunk := by
  obtain ⟨h₁, h₂⟩ := mergeInto_eq h chunk
  by_cases hc : ∃ choices, chunk.get "choices" = some (.array choices)
  · obtain ⟨choices, hc⟩ := hc
    rw [(h₂ choices hc).1, mergeEach_isOk_iff, ChunkFits, hc]
    constructor
    · intro hf cs hcs
      cases hcs
      exact hf
    · intro hf
      exact hf choices rfl
  · have hc' : ∀ choices, chunk.get "choices" ≠ some (.array choices) :=
      fun choices h => hc ⟨choices, h⟩
    obtain ⟨out, ho, -⟩ := h₁ hc'
    rw [ho]
    exact ⟨fun _ choices hch => absurd hch (hc' choices), fun _ => rfl⟩

theorem mergeInto_accumulator {acc chunk : Value} (h : Accumulator acc)
    (ho : mergeInto acc chunk = .ok out) : Accumulator out := by
  obtain ⟨slots, hs⟩ := h
  obtain ⟨h₁, h₂⟩ := mergeInto_eq hs chunk
  by_cases hc : ∃ choices, chunk.get "choices" = some (.array choices)
  · obtain ⟨choices, hc⟩ := hc
    have hok := (h₂ choices hc).1
    rw [ho] at hok
    obtain ⟨slots', hs'⟩ := Fallible.isOk_iff.1 hok.symm
    obtain ⟨out', ho', hg⟩ := (h₂ choices hc).2 slots' hs'
    rw [ho] at ho'
    cases ho'
    exact ⟨slots', hg.choices⟩
  · obtain ⟨out', ho', hg⟩ := h₁ fun choices h => hc ⟨choices, h⟩
    rw [ho] at ho'
    cases ho'
    exact ⟨slots, hg.choices⟩

theorem envelope_ok {chunk acc : Value} (h : envelope chunk = .ok acc) :
    acc.get "choices" = some (.array []) := by
  rw [envelope] at h
  split at h
  · next hc =>
    cases h
    exact Value.get_put_of_get hc _
  · exact (Value.indexAssign_ok h).2.2.1

theorem envelope_isOk_iff (chunk : Value) :
    (envelope chunk).isOk = true ↔ chunk.isObjectOrNull = true := by
  rw [envelope]
  split
  · next hc => exact ⟨fun _ => Value.isObjectOrNull_of_get hc, fun _ => rfl⟩
  · exact Value.indexAssign_isOk_iff chunk "choices" _

/-- The slots of a run's state. -/
def slotsOf (acc : Option Value) : List Value :=
  ((acc.bind fun a => a.get "choices").bind Value.asArray).getD []

/-- A run can take its next chunk: the first one is an object or null, and the choices of every
one fit their slots. -/
def StepFits (acc : Option Value) (chunk : Value) : Prop :=
  (acc = none → chunk.isObjectOrNull = true) ∧ ChunkFits (slotsOf acc) chunk

def StateOk (acc : Option Value) : Prop := ∀ a, acc = some a → Accumulator a

theorem stateOk_none : StateOk none := by
  intro a h
  cases h

theorem mergeChunk_isOk_iff {acc : Option Value} (h : StateOk acc) (chunk : Value) :
    (mergeChunk acc chunk).isOk = true ↔ StepFits acc chunk := by
  cases acc with
  | none =>
    rw [mergeChunk, Fallible.isOk_bind_iff, StepFits, ← envelope_isOk_iff]
    constructor
    · rintro ⟨a, ha, hm⟩
      exact ⟨fun _ => Fallible.isOk_iff.2 ⟨a, ha⟩, (mergeInto_isOk_iff (envelope_ok ha)).1 hm⟩
    · rintro ⟨hn, hf⟩
      obtain ⟨a, ha⟩ := Fallible.isOk_iff.1 (hn rfl)
      exact ⟨a, ha, (mergeInto_isOk_iff (envelope_ok ha)).2 hf⟩
  | some a =>
    obtain ⟨slots, hs⟩ := h a rfl
    have hsl : slotsOf (some a) = slots := by
      rw [slotsOf, Option.bind_some, hs]
      rfl
    rw [StepFits, hsl, mergeChunk, mergeInto_isOk_iff hs]
    exact ⟨fun h => ⟨nofun, h⟩, fun h => h.2⟩

theorem mergeChunk_stateOk {acc : Option Value} (h : StateOk acc)
    (ho : (mergeChunk acc chunk).map some = .ok acc') : StateOk acc' := by
  obtain ⟨out, hm, rfl⟩ := Fallible.map_eq_ok_iff.1 ho
  rintro _ ⟨⟩
  cases acc with
  | none =>
    rw [mergeChunk, Fallible.bind_eq_ok_iff] at hm
    obtain ⟨a, ha, hm⟩ := hm
    exact mergeInto_accumulator ⟨[], envelope_ok ha⟩ hm
  | some a => exact mergeInto_accumulator (h a rfl) hm

/-- Every chunk of a run meets a state that can take it. -/
def RunFits : Option Value → List Value → Prop :=
  Fallible.Accepts StepFits fun acc chunk => (mergeChunk acc chunk).map some

theorem mergeChunks_isOk_iff (chunks : List Value) :
    (mergeChunks none chunks).isOk = true ↔ RunFits none chunks :=
  Fallible.foldlM_isOk_iff (I := StateOk) (fun _ _ _ => mergeChunk_stateOk)
    (fun acc chunk h => by rw [Fallible.isOk_map]; exact mergeChunk_isOk_iff h chunk)
    stateOk_none chunks

/-! The content array of a message. -/

theorem updateContent_isObject (message : Value) (f : List Value → List Value) :
    (updateContent message f).isObject = message.isObject := by
  rw [updateContent, Value.update]
  split
  · exact Value.put_isObject _ _ _
  · rfl

theorem updateContent_of_get {message : Value}
    (h : message.get "content" = some (.array content)) (f : List Value → List Value) :
    updateContent message f = message.put "content" (.array (f content)) := by
  rw [updateContent, Value.update, h]

end LocalMind
