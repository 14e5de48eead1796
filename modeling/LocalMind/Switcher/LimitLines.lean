import LocalMind.Switcher.UpdateLimits

namespace LocalMind.Switcher
open Json Text MarkedText
set_option autoImplicit true

/-! The limits of the models of a file. -/

/-- The edits of a limit object. -/
def setLimits (context input : Option UInt64) (obj : List Char) : List Char :=
  setNumberInObject
    (match context with
    | some c => setNumberInObject obj contextKey (some c)
    | none => obj) inputKey input

/-- A limit as a model's info has it. -/
def limit (v : Value) (k : String) : Option UInt64 := (v.get k).bind Value.asU64

/-- A limit object with its numbers set: a context only where one is given, and no input where
none is. -/
def withLimits (context input : Option UInt64) : Value → Value
  | .object m =>
    let m := match context with
      | some c => Fields.insert m "context" (u64 c)
      | none => m
    .object (match input with
      | some n => Fields.insert m "input" (u64 n)
      | none => m.filter fun e => e.1 != "input")
  | v => v

def limitsDiffer (context input : Option UInt64) (v : Value) : Bool :=
  context.any (fun c => limit v "context" != some c) || limit v "input" != input

/-- A limit object whose numbers are as asked. -/
def Settled (codec : FloatCodec) (context input : Option UInt64) (d : Nat) (m : List Char)
    (v : Value) : Prop :=
  LimitText codec d m v ∧ limitsDiffer context input v = false

/-! One limit object. -/

def Key (key : List Char) (val : Option UInt64) : Prop :=
  key = contextKey ∧ val ≠ none ∨ key = inputKey

theorem key_context (c : UInt64) : Key contextKey (some c) :=
  .inl ⟨rfl, fun he => by cases he⟩

theorem key_input (val : Option UInt64) : Key inputKey val := .inr rfl

theorem context_name : String.ofList contextKey = "context" := rfl

theorem input_name : String.ofList inputKey = "input" := rfl

theorem LimitItems.edits (h : LimitItems codec d is es) (ht : Tail tail)
    (context input : Option UInt64) :
    ∃ is' es', setLimits context input (limitText is tail) = limitText is' tail ∧
      LimitItems codec d is' es' ∧ ∀ k, Fields.get es' k =
        if k = "input" then input.map u64
        else if k = "context" ∧ context ≠ none then context.map u64
        else Fields.get es k := by
  cases context with
  | none =>
    obtain ⟨is', es', htext, hitems, hsets⟩ := h.edited ht (key_input input)
    refine ⟨is', es', htext, hitems, fun k => ?_⟩
    rw [hsets k, input_name]
    simp
  | some c =>
    obtain ⟨is₁, es₁, htext₁, hitems₁, hsets₁⟩ := h.edited ht (key_context c)
    obtain ⟨is', es', htext, hitems, hsets⟩ := hitems₁.edited ht (key_input input)
    refine ⟨is', es', ?_, hitems, fun k => ?_⟩
    · rw [setLimits, htext₁, htext]
    · rw [hsets k, hsets₁ k, input_name, context_name]
      simp

theorem get_withLimits (context input : Option UInt64) (m : List (String × Value)) :
    ∃ m', withLimits context input (.object m) = .object m' ∧ ∀ k, Fields.get m' k =
      if k = "input" then input.map u64
      else if k = "context" ∧ context ≠ none then context.map u64
      else Fields.get m k := by
  refine ⟨_, rfl, fun k => ?_⟩
  have hcontext : Fields.get (match context with
      | some c => Fields.insert m "context" (u64 c)
      | none => m) k =
      if k = "context" ∧ context ≠ none then context.map u64 else Fields.get m k := by
    cases context with
    | none => simp
    | some c =>
      rw [Fields.get_insert]
      simp [eq_comm]
  rw [← hcontext]
  cases input with
  | none =>
    dsimp only
    rw [Fields.get_filter (fun l => l != "input")]
    by_cases hk : k = "input"
    · simp [hk]
    · simp [hk]
  | some n =>
    dsimp only
    rw [Fields.get_insert]
    simp [eq_comm]

theorem limitsDiffer_iff (context input : Option UInt64) (es : List (String × Value)) :
    limitsDiffer context input (.object es) = false ↔
      (∀ c, context = some c → (Fields.get es "context").bind Value.asU64 = some c) ∧
        (Fields.get es "input").bind Value.asU64 = input := by
  rw [limitsDiffer, Bool.or_eq_false_iff, bne_eq_false_iff_eq]
  apply and_congr_left
  intro _
  cases context with
  | none => simp
  | some c =>
    rw [Option.any_some, bne_eq_false_iff_eq]
    constructor
    · intro h d hd
      rw [← hd]
      exact h
    · intro h
      exact h c rfl

theorem LimitText.edited (h : LimitText codec d m v) (context input : Option UInt64) :
    ∃ v', Settled codec context input d (setLimits context input m) v' ∧
      Same v' (withLimits context input v) := by
  obtain ⟨e, is, tail, es, rfl, rfl, ht, hitems, rfl⟩ := h
  obtain ⟨is', es', htext, hitems', hget⟩ := hitems.edits ht context input
  obtain ⟨m', hm, hget'⟩ := get_withLimits context input es
  refine ⟨.object es', ⟨⟨e, is', tail, es', rfl, htext, ht, hitems', rfl⟩, ?_⟩, ?_⟩
  · rw [limitsDiffer_iff, hget, hget]
    constructor
    · rintro c rfl
      rfl
    · cases input with
      | none => rfl
      | some n => rfl
  · rw [hm, Same.object_iff_rel]
    intro k
    rw [hget k, hget' k]
    cases (if k = "input" then input.map u64
      else if k = "context" ∧ context ≠ none then context.map u64 else Fields.get es k) with
    | none => exact .none
    | some v => exact .some (Same.refl v)

/-! One line. -/

theorem LimitText.whole (h : LimitText codec d m v) (h' : LimitText codec d' m' v')
    (hwhole : Whole (x ++ m ++ y)) : Whole (x ++ m' ++ y) := by
  obtain ⟨_, is, tail, _, -, rfl, -, -, -⟩ := h
  obtain ⟨_, is', tail', _, -, rfl, ht', hitems', -⟩ := h'
  obtain ⟨hline, hlast⟩ := hwhole
  constructor
  · simp only [List.mem_append, not_or] at hline ⊢
    exact ⟨⟨hline.1.1, hitems'.line ht'⟩, hline.2⟩
  · cases y with
    | nil =>
      have happ : x ++ limitText is' tail' ++ [] =
          x ++ '{' :: cellsText (is'.map .item ++ tail') ++ ['}'] := by
        rw [limitText, objectOf]
        simp
      rw [happ, List.getLast?_concat]
      intro he
      cases he
    | cons c y =>
      rw [List.getLast?_append_of_ne_nil _ (List.cons_ne_nil c y)] at hlast ⊢
      exact hlast

/-! The whole file. -/

end LocalMind.Switcher
