import LocalMind.Json.Rewrite
import LocalMind.Json.Print

namespace LocalMind
open Json
set_option autoImplicit true

/-- What a fix reports of its run. -/
inductive FixAction where
  | notApplicable
  | fixed (originalSnippet fixedSnippet : String)
  | failed (originalSnippet attemptedFix : String)
  deriving DecidableEq

inductive FixError where
  | parse (message : String)
  | rebuild (message : String)
  deriving DecidableEq

def FixError.display : FixError → String
  | .parse message => "parse error: " ++ message
  | .rebuild message => "rebuild error: " ++ message

/-- A byte slice of a text that does not start or end between two characters. -/
structure SlicePanic where
  text : List Char
  deriving DecidableEq

/-- How a fix ends without a response. -/
inductive Fault where
  | error (e : FixError)
  | panic (p : SlicePanic)
  deriving DecidableEq

def truncateSnippet (s : List Char) (max : Nat) : List Char :=
  if s.length ≤ max then s
  else if max < 3 then s.take max
  else s.take (max - 3) ++ ['.', '.', '.']

def joinRepair (acc : String × String) : FixAction → String × String
  | .fixed original fixed =>
    if acc.1.isEmpty then (acc.1 ++ original, acc.2 ++ fixed)
    else (acc.1 ++ " ;; " ++ original, acc.2 ++ " ;; " ++ fixed)
  | .notApplicable | .failed _ _ => acc

def aggregateRepairs : List FixAction → FixAction
  | [] => .notApplicable
  | [single] => single
  | many =>
    let count := toString many.length ++ " repairs: "
    let joined := many.foldl joinRepair ("", "")
    .fixed (count ++ joined.1) (count ++ joined.2)

/-! The tool calls of a response: those of the `message` and of the `delta` of every choice. -/

def itemsAt (v : Value) (k : String) : List Value := ((v.get k).bind Value.asArray).getD []

def sideCalls (choice : Value) (side : String) : List Value :=
  match choice.get side with
  | some v => itemsAt v "tool_calls"
  | none => []

/-- The calls of some sides of every choice, in the order the fixes walk them. -/
def calls (sides : List String) (response : Value) : List Value :=
  (itemsAt response "choices").flatMap fun choice => sides.flatMap (sideCalls choice)

def callAt (response : Value) (side : String) (i j : Nat) : Option Value :=
  ((itemsAt response "choices")[i]?).bind fun choice => (sideCalls choice side)[j]?

def repairCalls (sides : List String) (f : Nat → Rewrite ε ω Value) : Rewrite ε ω Value :=
  .under "choices" (.items fun _ => .each (.under "tool_calls" (.items f)) sides)

def callArguments (call : Value) : Option String :=
  (call.get "function").bind fun function => (function.get "arguments").bind Value.asStr

/-- Repair the string arguments of a function. -/
def repairFunction (fix : Value → List Char → Except Fault (Option (List Char))) :
    Rewrite Fault FixAction Value := fun function =>
  match (function.get "arguments").bind Value.asStr with
  | none => .ok (function, [])
  | some args =>
    match fix function args.toList with
    | .error e => .error e
    | .ok none => .ok (function, [])
    | .ok (some fixed) =>
      .ok (function.put "arguments" (.string (String.ofList fixed)),
        [.fixed args (String.ofList fixed)])

def repairArguments (fix : Value → List Char → Except Fault (Option (List Char))) :
    Rewrite Fault FixAction Value :=
  .under "function" (repairFunction fix)

/-- What a repair says of the arguments of a call. -/
def fixOf (fix : Value → List Char → Except Fault (Option (List Char))) (call : Value) :
    Except Fault (Option (List Char)) :=
  match call.get "function" with
  | none => .ok none
  | some function =>
    match (function.get "arguments").bind Value.asStr with
    | none => .ok none
    | some args => fix function args.toList

/-! What a walk over the calls can change. -/

/-- Two responses that agree but for related calls on some sides. -/
def CallsOnly (sides : List String) (S : Value → Value → Prop) : Value → Value → Prop :=
  Below ["choices"] (Items (Below sides (Below ["tool_calls"] (Items S))))

theorem CallsOnly.refl {S : Value → Value → Prop} (h : ∀ v, S v v) (v : Value) :
    CallsOnly sides S v v :=
  Below.refl (Items.refl (Below.refl (Below.refl (Items.refl h)))) v

theorem CallsOnly.trans {S : Value → Value → Prop} (h : ∀ u v w, S u v → S v w → S u w)
    (hS : CallsOnly sides S u v) (hT : CallsOnly sides S v w) : CallsOnly sides S u w :=
  Below.trans (fun _ _ _ => Items.trans fun _ _ _ => Below.trans fun _ _ _ =>
    Below.trans fun _ _ _ => Items.trans h) hS hT

theorem CallsOnly.mono {S T : Value → Value → Prop} (h : ∀ v w, S v w → T v w)
    (hS : CallsOnly sides S v w) : CallsOnly sides T v w :=
  Below.mono (fun _ _ => Items.mono fun _ _ => Below.mono fun _ _ => Below.mono fun _ _ =>
    Items.mono h) hS

theorem CallsOnly.widen {S : Value → Value → Prop} (hS : ∀ v, S v v)
    (h : CallsOnly sides S v w) (hk : ∀ side ∈ sides, side ∈ sides') : CallsOnly sides' S v w :=
  Below.mono (fun _ _ => Items.mono fun _ _ hb => hb.widen (Below.refl (Items.refl hS)) hk) h

theorem itemsAt_forall₂ {S : Value → Value → Prop} (h : Below ks (Items S) v w) (hk : k ∈ ks) :
    List.Forall₂ S (itemsAt v k) (itemsAt w k) := by
  have hrel := h.within k hk
  rw [itemsAt, itemsAt]
  cases hv : v.get k with
  | none =>
    rw [hv] at hrel
    rw [optionRel_none_left hrel]
    exact .nil
  | some x =>
    rw [hv] at hrel
    obtain ⟨y, hy, hitems⟩ := optionRel_some_left hrel
    have hxy := hitems.items
    rw [hy, Option.bind_some, Option.bind_some]
    generalize x.asArray = xs, y.asArray = ys at hxy
    cases hxy with
    | none => exact .nil
    | some hs => exact hs

theorem sideCalls_forall₂ {S : Value → Value → Prop}
    (h : Below sides (Below ["tool_calls"] (Items S)) v w) (hk : side ∈ sides) :
    List.Forall₂ S (sideCalls v side) (sideCalls w side) := by
  have hrel := h.within side hk
  rw [sideCalls, sideCalls]
  cases hv : v.get side with
  | none =>
    rw [hv] at hrel
    rw [optionRel_none_left hrel]
    exact .nil
  | some x =>
    rw [hv] at hrel
    obtain ⟨y, hy, hxy⟩ := optionRel_some_left hrel
    rw [hy]
    exact itemsAt_forall₂ hxy (List.mem_singleton.2 rfl)

theorem CallsOnly.choices {S : Value → Value → Prop} (h : CallsOnly sides S v w) :
    List.Forall₂ (Below sides (Below ["tool_calls"] (Items S)))
      (itemsAt v "choices") (itemsAt w "choices") :=
  itemsAt_forall₂ h (List.mem_singleton.2 rfl)

theorem CallsOnly.calls {S : Value → Value → Prop} (h : CallsOnly sides S v w)
    (hk : ∀ side ∈ ks, side ∈ sides) : List.Forall₂ S (calls ks v) (calls ks w) := by
  refine List.rel_flatMap h.choices ?_
  intro v w hb
  have hsides : List.Forall₂ (fun side side' => side = side' ∧ side ∈ ks) ks ks :=
    List.forall₂_same.2 fun side hs => ⟨rfl, hs⟩
  refine List.rel_flatMap hsides ?_
  rintro side _ ⟨rfl, hs⟩
  exact sideCalls_forall₂ hb (hk side hs)

theorem optionRel_getElem {S : α → β → Prop} (h : List.Forall₂ S as bs) (i : Nat) :
    Option.Rel S as[i]? bs[i]? := by
  induction h generalizing i with
  | nil => exact .none
  | cons hab _ ih =>
    cases i with
    | zero => exact .some hab
    | succ i => exact ih i

theorem CallsOnly.callAt {S : Value → Value → Prop} (h : CallsOnly sides S v w)
    (hk : side ∈ sides) (i j : Nat) :
    Option.Rel S (callAt v side i j) (callAt w side i j) := by
  have hrel := optionRel_getElem h.choices i
  rw [LocalMind.callAt, LocalMind.callAt]
  cases hv : (itemsAt v "choices")[i]? with
  | none =>
    rw [hv] at hrel
    rw [optionRel_none_left hrel]
    exact .none
  | some x =>
    rw [hv] at hrel
    obtain ⟨y, hy, hxy⟩ := optionRel_some_left hrel
    rw [hy]
    exact optionRel_getElem (sideCalls_forall₂ hxy hk) j

theorem callAt_mem (h : callAt response side i j = some call) (hs : side ∈ sides) :
    call ∈ calls sides response := by
  obtain ⟨choice, hc, hj⟩ := Option.bind_eq_some_iff.1 h
  exact List.mem_flatMap.2 ⟨choice, List.mem_of_getElem? hc,
    List.mem_flatMap.2 ⟨side, hs, List.mem_of_getElem? hj⟩⟩

theorem repairCalls_makes {f : Nat → Rewrite ε ω Value} (hs : sides.Nodup)
    (h : Rewrite.Makes (repairCalls sides f) v w) :
    CallsOnly sides (fun x y => ∃ i, Rewrite.Makes (f i) x y) v w := by
  refine h.under.mono fun _ _ hi => hi.items.mono ?_
  rintro _ _ ⟨_, he⟩
  exact (he.each hs).mono fun _ _ hu => hu.under.mono fun _ _ hi => hi.items

theorem failure_under_items (k : String) (f : Rewrite ε ω Value) (v : Value) :
    Rewrite.failure (Rewrite.under k (.items fun _ => f) v) =
      (itemsAt v k).findSome? fun x => Rewrite.failure (f x) := by
  rw [Rewrite.failure_under, itemsAt]
  cases v.get k with
  | none => rfl
  | some x => exact Rewrite.failure_items f x

/-- A walk fails with the first failure of a call. -/
theorem failure_repairCalls (hs : sides.Nodup) (f : Rewrite ε ω Value) (v : Value) :
    Rewrite.failure (repairCalls sides (fun _ => f) v) =
      (calls sides v).findSome? fun call => Rewrite.failure (f call) := by
  rw [repairCalls, failure_under_items, calls, findSome?_flatMap]
  congr 1
  funext choice
  rw [Rewrite.failure_each _ hs, findSome?_flatMap]
  congr 1
  funext side
  rw [sideCalls]
  cases choice.get side with
  | none => rfl
  | some x => exact failure_under_items "tool_calls" f x

theorem noted_under_items {f : Rewrite ε ω Value}
    (h : Rewrite.under k (.items fun _ => f) v = .ok (w, notes)) :
    notes = (itemsAt v k).flatMap fun x => Rewrite.noted (f x) := by
  rw [Rewrite.noted_ok h, Rewrite.noted_under, itemsAt]
  cases hx : v.get k with
  | none => rfl
  | some x =>
    obtain ⟨r, hr⟩ := Rewrite.ok_of_under h x hx
    rw [Option.map_some, Option.getD_some, hr]
    exact Rewrite.noted_items hr

/-- A walk notes what the calls note, in their order. -/
theorem noted_repairCalls (hs : sides.Nodup) {f : Rewrite ε ω Value}
    (h : repairCalls sides (fun _ => f) v = .ok (w, notes)) :
    notes = (calls sides v).flatMap fun call => Rewrite.noted (f call) := by
  rw [noted_under_items h, calls, List.flatMap_assoc]
  apply List.flatMap_congr
  intro choice hc
  obtain ⟨r, hr⟩ : ∃ r, Rewrite.each (.under "tool_calls" (.items fun _ => f)) sides choice =
      .ok r := by
    rw [repairCalls] at h
    rw [itemsAt] at hc
    cases hx : v.get "choices" with
    | none =>
      rw [hx] at hc
      cases hc
    | some x =>
      rw [hx] at hc
      obtain ⟨b, hb⟩ := Rewrite.ok_of_under h x hx
      exact Rewrite.ok_of_items hb choice hc
  rw [hr]
  change r.2 = _
  rw [Rewrite.noted_each hs hr, List.flatMap_assoc]
  apply List.flatMap_congr
  intro side hside
  rw [sideCalls]
  cases hx : choice.get side with
  | none => rfl
  | some x =>
    obtain ⟨b, hb⟩ := Rewrite.ok_of_each hs hr hside x hx
    rw [Option.map_some, Option.getD_some, hb]
    exact noted_under_items hb

theorem failure_repairArguments (fix : Value → List Char → Except Fault (Option (List Char)))
    (call : Value) :
    Rewrite.failure (repairArguments fix call) = Rewrite.failure (fixOf fix call) := by
  rw [repairArguments, Rewrite.failure_under, fixOf]
  cases call.get "function" with
  | none => rfl
  | some function =>
    rw [Option.bind_some, repairFunction]
    dsimp only
    cases (function.get "arguments").bind Value.asStr with
    | none => rfl
    | some args =>
      dsimp only
      cases fix function args.toList with
      | error e => rfl
      | ok r => cases r <;> rfl

/-- The arguments of a function stay, or both are strings and the new one is as promised. -/
def ArgumentsFixed (P : List Char → Prop) (x y : Value) : Prop :=
  y = x ∨ x.isString = true ∧ ∃ b, y = .string (String.ofList b) ∧ P b

def FunctionFixed (P : List Char → Prop) : Value → Value → Prop :=
  Below ["arguments"] (ArgumentsFixed P)

theorem ArgumentsFixed.refl (P : List Char → Prop) (x : Value) : ArgumentsFixed P x x := .inl rfl

theorem ArgumentsFixed.trans {P : List Char → Prop} (u v w : Value)
    (h : ArgumentsFixed P u v) (h' : ArgumentsFixed P v w) : ArgumentsFixed P u w := by
  rcases h' with rfl | ⟨hv, hw⟩
  · exact h
  · rcases h with rfl | ⟨hu, -⟩
    · exact .inr ⟨hv, hw⟩
    · exact .inr ⟨hu, hw⟩

variable {fix : Value → List Char → Except Fault (Option (List Char))}

/-- A repair leaves a function as it is, or puts the new arguments in place of a string. -/
theorem repairFunction_cases (h : Rewrite.Makes (repairFunction fix) f g) :
    (g = f ∧ ((f.get "arguments").bind Value.asStr = none ∨ ∃ args,
      (f.get "arguments").bind Value.asStr = some args ∧ fix f args.toList = .ok none)) ∨
    ∃ args b, f.get "arguments" = some (.string args) ∧ fix f args.toList = .ok (some b) ∧
      g = f.put "arguments" (.string (String.ofList b)) := by
  obtain ⟨notes, h⟩ := h
  rw [repairFunction] at h
  split at h
  · next hargs =>
    cases h
    exact .inl ⟨rfl, .inl hargs⟩
  · next args hargs =>
    split at h
    · cases h
    · next hn =>
      cases h
      exact .inl ⟨rfl, .inr ⟨args, hargs, hn⟩⟩
    · next b hb =>
      cases h
      obtain ⟨x, hx, hstr⟩ := Option.bind_eq_some_iff.1 hargs
      rw [Value.asStr_eq_some.1 hstr] at hx
      exact .inr ⟨args, b, hx, hb, rfl⟩

theorem repairArguments_makes {P : List Char → Prop}
    (hP : ∀ function a b, fix function a = .ok (some b) → P b)
    (h : Rewrite.Makes (repairArguments fix) v w) : Below ["function"] (FunctionFixed P) v w := by
  refine h.under.mono fun f g hfg => ?_
  obtain ⟨rfl, -⟩ | ⟨args, b, hargs, hb, rfl⟩ := repairFunction_cases hfg
  · exact .refl (.refl P) g
  · exact .put hargs (.inr ⟨rfl, b, rfl, hP f _ b hb⟩)

theorem callArguments_of_makes (h : Rewrite.Makes (repairArguments fix) v w) :
    ∃ r, fixOf fix v = .ok r ∧
      callArguments w = (r.map String.ofList).or (callArguments v) := by
  have hrel := h.under.within "function" (List.mem_singleton.2 rfl)
  rw [fixOf, callArguments, callArguments]
  cases hv : v.get "function" with
  | none =>
    rw [hv] at hrel
    rw [optionRel_none_left hrel]
    exact ⟨none, rfl, rfl⟩
  | some f =>
    rw [hv] at hrel
    obtain ⟨g, hg, hfg⟩ := optionRel_some_left hrel
    rw [hg, Option.bind_some, Option.bind_some]
    dsimp only
    obtain ⟨rfl, hargs | ⟨args, hargs, hn⟩⟩ | ⟨args, b, hargs, hb, rfl⟩ :=
      repairFunction_cases hfg
    · rw [hargs]
      exact ⟨none, rfl, rfl⟩
    · rw [hargs]
      exact ⟨none, hn, rfl⟩
    · rw [Value.get_put_of_get hargs, hargs]
      exact ⟨some b, hb, rfl⟩

end LocalMind
