import LocalMind.Json.Same

namespace Json
set_option autoImplicit true

/-! Reading typed data off a value. A record is an object, or an array of its fields in their
order. -/

def member (names : List String) (v : Value) (k : String) : Option Value :=
  match v with
  | .object m => Fields.get m k
  | .array xs => xs[names.idxOf k]?
  | _ => none

def shaped (names : List String) (v : Value) : Bool :=
  match v with
  | .object _ => true
  | .array xs => decide (xs.length ≤ names.length)
  | _ => false

def required (read : Value → Option α) (x : Option Value) : Option α := x.bind read

def orDefault (read : Value → Option α) (d : α) (x : Option Value) : Option α :=
  match x with
  | some v => read v
  | none => some d

def nullable (read : Value → Option α) (v : Value) : Option (Option α) :=
  match v with
  | .null => some none
  | v => (read v).map some

def vec (read : Value → Option α) (v : Value) : Option (List α) :=
  match v with
  | .array xs => xs.mapM read
  | _ => none

def u64 (n : UInt64) : Value := .number (.posInt n)

/-- A value or null. -/
def orNull (write : α → Value) : Option α → Value
  | some a => write a
  | none => .null

theorem required_eq_some {read : Value → Option α} :
    required read x = some a ↔ ∃ v, x = some v ∧ read v = some a := Option.bind_eq_some_iff

theorem required_asStr : required Value.asStr x = some s ↔ x = some (.string s) := by
  rw [required_eq_some]
  constructor
  · rintro ⟨v, rfl, hv⟩
    rw [Value.asStr_eq_some.1 hv]
  · rintro rfl
    exact ⟨_, rfl, rfl⟩

theorem required_some : required some x = some v ↔ x = some v := by
  rw [required_eq_some]
  simp

/-- A field that may be missing or null. -/
theorem nullable_cases {read : Value → Option α}
    (h : orDefault (nullable read) none x = some o) :
    (o = none ∧ (x = none ∨ x = some .null)) ∨
      ∃ v a, x = some v ∧ v ≠ .null ∧ read v = some a ∧ o = some a := by
  cases x with
  | none =>
    cases h
    exact .inl ⟨rfl, .inl rfl⟩
  | some v =>
    by_cases hv : v = .null
    · subst hv
      cases h
      exact .inl ⟨rfl, .inr rfl⟩
    · have hread : (read v).map some = some o := by
        cases v with
        | null => exact absurd rfl hv
        | _ => exact h
      obtain ⟨a, ha, rfl⟩ := Option.map_eq_some_iff.1 hread
      exact .inr ⟨v, a, rfl, hv, ha, rfl⟩

end Json
