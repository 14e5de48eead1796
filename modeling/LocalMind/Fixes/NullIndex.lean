import LocalMind.Fixes.Repair

namespace LocalMind
open Json
set_option autoImplicit true

/-! A missing, null or non-numeric `index` of a tool call becomes the call's position. -/

namespace ToolCallNullIndexFix

def needsIndexFix (toolCall : Value) : Bool :=
  match toolCall.get "index" with
  | none => true
  | some (.number _) => false
  | some _ => true

/-- The position as the 32-bit number that the fix writes. -/
def positionIndex (idx : Nat) : Value := .number (.posInt (UInt64.ofNat (idx % 2 ^ 32)))

def assignIndex (idx : Nat) : Rewrite Empty Nat Value := fun toolCall =>
  if needsIndexFix toolCall && toolCall.isObject then
    .ok (toolCall.put "index" (positionIndex idx), [idx])
  else .ok (toolCall, [])

def fixToolCallsInChoices : Rewrite Empty Nat Value := repairCalls ["message", "delta"] assignIndex

def applies (response : Value) : Bool := (calls ["message", "delta"] response).any needsIndexFix

def apply (response : Value) : Value × FixAction :=
  match fixToolCallsInChoices response with
  | .error e => e.elim
  | .ok (fixed, positions) =>
    if positions.isEmpty then (fixed, .notApplicable)
    else (fixed, .fixed "tool_calls with null/missing indices"
      "tool_calls with sequential indices (0, 1, 2, ...)")

/-- The index of a call stays, or a number takes the place of one that is none. -/
structure IndexFixed (v w : Value) : Prop where
  scalar : v.isObject = false → w = v
  isObject : w.isObject = v.isObject
  index : w.get "index" = v.get "index" ∨
    needsIndexFix v = true ∧ ∃ n, w.get "index" = some (.number n)
  outside : ∀ k, k ≠ "index" → w.get k = v.get k

theorem assignIndex_makes (h : Rewrite.Makes (assignIndex idx) v w) : IndexFixed v w := by
  obtain ⟨notes, h⟩ := h
  rw [assignIndex] at h
  split at h
  · next hc =>
    cases h
    obtain ⟨hn, ho⟩ := Bool.and_eq_true_iff.1 hc
    refine ⟨fun hv => ?_, put_isObject _ _ _,
      .inr ⟨hn, .posInt (UInt64.ofNat (idx % 2 ^ 32)), ?_⟩, fun k hk => ?_⟩
    · rw [ho] at hv
      cases hv
    · rw [Value.get_put ho, if_pos rfl]
      rfl
    · exact Value.get_put_of_ne (Ne.symm hk) _ _
  · cases h
    exact ⟨fun _ => rfl, rfl, .inl rfl, fun _ _ => rfl⟩

/-- The fix changes nothing but indices that are no numbers. -/
theorem apply_frame (response : Value) :
    CallsOnly ["message", "delta"] IndexFixed response (apply response).1 := by
  have hmakes : Rewrite.Makes fixToolCallsInChoices response (apply response).1 := by
    rw [apply]
    cases h : fixToolCallsInChoices response with
    | error e => exact e.elim
    | ok r =>
      dsimp only
      split
      · exact ⟨r.2, h⟩
      · exact ⟨r.2, h⟩
  refine (repairCalls_makes (by decide) hmakes).mono ?_
  rintro _ _ ⟨_, h⟩
  exact assignIndex_makes h

end ToolCallNullIndexFix

end LocalMind
