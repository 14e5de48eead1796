import Mathlib

namespace Json
set_option autoImplicit true

/-- A JSON number as the parser keeps it: an unsigned or a negative 64-bit integer, or the
bits of a binary64. -/
inductive Number where
  | posInt (n : UInt64)
  | negInt (n : Int64)
  | float (bits : UInt64)
  deriving DecidableEq

/-- A JSON value. An object is an insertion-ordered list of entries. -/
inductive Value where
  | null
  | bool (b : Bool)
  | number (n : Number)
  | string (s : String)
  | array (xs : List Value)
  | object (fields : List (String × Value))
  deriving Inhabited

@[elab_as_elim]
theorem Value.inductOn {P : Value → Prop} (v : Value) (null : P .null)
    (bool : ∀ b, P (.bool b)) (number : ∀ n, P (.number n)) (string : ∀ s, P (.string s))
    (array : ∀ xs, (∀ x ∈ xs, P x) → P (.array xs))
    (object : ∀ m, (∀ e ∈ m, P e.2) → P (.object m)) : P v := by
  match v with
  | .null => exact null
  | .bool b => exact bool b
  | .number n => exact number n
  | .string s => exact string s
  | .array xs =>
    exact array xs fun x hx => Value.inductOn x null bool number string array object
  | .object m =>
    exact object m fun e he => Value.inductOn e.2 null bool number string array object
termination_by sizeOf v
decreasing_by
  · have := List.sizeOf_lt_of_mem hx
    simp only [Value.array.sizeOf_spec]
    omega
  · have h := List.sizeOf_lt_of_mem he
    have h' : sizeOf e.2 < sizeOf e := by cases e; simp only [Prod.mk.sizeOf_spec]; omega
    simp only [Value.object.sizeOf_spec]
    omega

mutual

def Value.beq : Value → Value → Bool
  | .null, .null => true
  | .bool a, .bool b => a == b
  | .number a, .number b => a == b
  | .string a, .string b => a == b
  | .array xs, .array ys => Value.beqList xs ys
  | .object m, .object n => Value.beqFields m n
  | _, _ => false

def Value.beqList : List Value → List Value → Bool
  | [], [] => true
  | x :: xs, y :: ys => Value.beq x y && Value.beqList xs ys
  | _, _ => false

def Value.beqFields : List (String × Value) → List (String × Value) → Bool
  | [], [] => true
  | (k, x) :: m, (l, y) :: n => k == l && Value.beq x y && Value.beqFields m n
  | _, _ => false

end

theorem Value.beqList_iff {xs ys : List Value}
    (h : ∀ x ∈ xs, ∀ y, Value.beq x y = true ↔ x = y) :
    Value.beqList xs ys = true ↔ xs = ys := by
  induction xs generalizing ys with
  | nil => cases ys <;> simp [Value.beqList]
  | cons x xs ih =>
    cases ys with
    | nil => simp [Value.beqList]
    | cons y ys =>
      rw [Value.beqList, Bool.and_eq_true, h x (by simp) y, ih fun z hz => h z (by simp [hz]),
        List.cons.injEq]

theorem Value.beqFields_iff {m n : List (String × Value)}
    (h : ∀ e ∈ m, ∀ y, Value.beq e.2 y = true ↔ e.2 = y) :
    Value.beqFields m n = true ↔ m = n := by
  induction m generalizing n with
  | nil => cases n <;> simp [Value.beqFields]
  | cons e m ih =>
    obtain ⟨k, x⟩ := e
    cases n with
    | nil => simp [Value.beqFields]
    | cons e' n =>
      obtain ⟨l, y⟩ := e'
      rw [Value.beqFields, Bool.and_eq_true, Bool.and_eq_true, h (k, x) (by simp) y,
        ih fun z hz => h z (by simp [hz]), List.cons.injEq, Prod.mk.injEq, beq_iff_eq]

theorem Value.beq_iff (v w : Value) : Value.beq v w = true ↔ v = w := by
  induction v using Value.inductOn generalizing w with
  | null => cases w <;> simp [Value.beq]
  | bool b => cases w <;> simp [Value.beq]
  | number n => cases w <;> simp [Value.beq]
  | string s => cases w <;> simp [Value.beq]
  | array xs ih => cases w <;> simp [Value.beq, Value.beqList_iff ih]
  | object m ih => cases w <;> simp [Value.beq, Value.beqFields_iff ih]

instance : DecidableEq Value := fun v w => decidable_of_iff _ (Value.beq_iff v w)

/-! The entries of an object. -/

namespace Fields

def get : List (String × α) → String → Option α
  | [], _ => none
  | (l, v) :: m, k => if l = k then some v else get m k

/-- Overwrite the entry of a key in place, or append a new one. -/
def insert : List (String × α) → String → α → List (String × α)
  | [], k, v => [(k, v)]
  | (l, w) :: m, k, v => if l = k then (l, v) :: m else (l, w) :: insert m k v

/-- Remove the entry of a key; the last entry takes its place. -/
def remove : List (String × α) → String → List (String × α)
  | [], _ => []
  | (l, w) :: m, k =>
    if l = k then
      match m.getLast? with
      | none => []
      | some e => e :: m.dropLast
    else (l, w) :: remove m k

def keys (m : List (String × α)) : List String := m.map Prod.fst

/-- Insert entries one after another: a key keeps its first place and gets its last value. -/
def insertAll (m es : List (String × α)) : List (String × α) :=
  es.foldl (fun m e => insert m e.1 e.2) m

@[simp] theorem get_nil (k : String) : get ([] : List (String × α)) k = none := rfl

theorem get_cons (l : String) (v : α) (m : List (String × α)) (k : String) :
    get ((l, v) :: m) k = if l = k then some v else get m k := rfl

@[simp] theorem get_cons_self (k : String) (v : α) (m : List (String × α)) :
    get ((k, v) :: m) k = some v := if_pos rfl

theorem get_cons_of_ne (h : l ≠ k) (v : α) (m : List (String × α)) :
    get ((l, v) :: m) k = get m k := if_neg h

attribute [local simp] insert in
theorem get_insert (m : List (String × α)) (k l : String) (v : α) :
    get (insert m k v) l = if k = l then some v else get m l := by
  induction m with
  | nil => rfl
  | cons e m ih =>
    obtain ⟨k', w⟩ := e
    by_cases hk : k' = k
    · subst hk
      simp only [insert, if_true, get_cons]
      split <;> rfl
    · simp only [insert, if_neg hk, get_cons, ih]
      by_cases hl : k' = l
      · subst hl
        simp [Ne.symm hk]
      · simp [hl]

@[simp] theorem get_insert_self (m : List (String × α)) (k : String) (v : α) :
    get (insert m k v) k = some v := by
  rw [get_insert, if_pos rfl]

theorem get_insert_of_ne (h : k ≠ l) (m : List (String × α)) (v : α) :
    get (insert m k v) l = get m l := by
  rw [get_insert, if_neg h]

theorem insert_get {m : List (String × α)} (h : get m k = some v) :
    insert m k v = m := by
  induction m with
  | nil => cases h
  | cons e m ih =>
    obtain ⟨l, w⟩ := e
    by_cases hk : l = k
    · rw [get_cons, if_pos hk, Option.some.injEq] at h
      rw [insert, if_pos hk, h]
    · rw [get_cons_of_ne hk] at h
      rw [insert, if_neg hk, ih h]

theorem insert_insert (m : List (String × α)) (k : String) (v w : α) :
    insert (insert m k v) k w = insert m k w := by
  induction m with
  | nil => exact if_pos rfl
  | cons e m ih =>
    obtain ⟨l, x⟩ := e
    by_cases hk : l = k
    · simp only [insert, if_pos hk]
    · simp only [insert, if_neg hk, ih]

theorem keys_insert_of_mem {m : List (String × α)} (h : k ∈ keys m) (v : α) :
    keys (insert m k v) = keys m := by
  induction m with
  | nil => simp [keys] at h
  | cons e m ih =>
    obtain ⟨l, w⟩ := e
    by_cases hk : l = k
    · simp [insert, hk, keys]
    · have h' : k ∈ keys m := by simpa [keys, Ne.symm hk] using h
      simpa [insert, hk, keys] using ih h'

theorem insert_of_notMem {m : List (String × α)} (h : k ∉ keys m) (v : α) :
    insert m k v = m ++ [(k, v)] := by
  induction m with
  | nil => rfl
  | cons e m ih =>
    obtain ⟨l, w⟩ := e
    simp only [keys, List.map_cons, List.mem_cons, not_or] at h
    rw [insert, if_neg (Ne.symm h.1), ih h.2, List.cons_append]

theorem get_eq_none_iff {m : List (String × α)} : get m k = none ↔ k ∉ keys m := by
  induction m with
  | nil => simp [keys]
  | cons e m ih =>
    obtain ⟨l, w⟩ := e
    by_cases hk : l = k
    · simp [hk, keys]
    · rw [get_cons, if_neg hk, ih]
      simp [keys, Ne.symm hk]

theorem get_isSome_iff {m : List (String × α)} : (get m k).isSome = true ↔ k ∈ keys m := by
  rw [← not_iff_not, ← get_eq_none_iff, Bool.not_eq_true, Option.isSome_eq_false_iff,
    Option.isNone_iff_eq_none]

theorem mem_of_get {m : List (String × α)} (h : get m k = some v) : (k, v) ∈ m := by
  induction m with
  | nil => cases h
  | cons e m ih =>
    obtain ⟨l, w⟩ := e
    by_cases hk : l = k
    · rw [get_cons, if_pos hk, Option.some.injEq] at h
      simp [hk, h]
    · rw [get_cons, if_neg hk] at h
      exact List.mem_cons_of_mem _ (ih h)

theorem get_of_mem {m : List (String × α)} (hm : (keys m).Nodup) (h : (k, v) ∈ m) :
    get m k = some v := by
  induction m with
  | nil => cases h
  | cons e m ih =>
    obtain ⟨l, w⟩ := e
    simp only [keys, List.map_cons, List.nodup_cons] at hm
    rcases List.mem_cons.1 h with he | he
    · cases he
      exact get_cons_self _ _ _
    · have hk : k ∈ keys m := List.mem_map.2 ⟨_, he, rfl⟩
      rw [get_cons_of_ne (fun hl => hm.1 (by rwa [hl])), ih hm.2 he]

theorem get_iff_mem {m : List (String × α)} (hm : (keys m).Nodup) :
    get m k = some v ↔ (k, v) ∈ m :=
  ⟨mem_of_get, get_of_mem hm⟩

theorem remove_of_notMem {m : List (String × α)} (h : k ∉ keys m) : remove m k = m := by
  induction m with
  | nil => rfl
  | cons e m ih =>
    obtain ⟨l, w⟩ := e
    simp only [keys, List.map_cons, List.mem_cons, not_or] at h
    rw [remove, if_neg (Ne.symm h.1), ih h.2]

theorem cons_remove_perm {m : List (String × α)} (h : get m k = some v) :
    ((k, v) :: remove m k).Perm m := by
  induction m with
  | nil => cases h
  | cons e m ih =>
    obtain ⟨l, w⟩ := e
    by_cases hk : l = k
    · rw [get_cons, if_pos hk, Option.some.injEq] at h
      rw [remove, if_pos hk, hk, h]
      refine .cons _ ?_
      cases hm : m.getLast? with
      | none => rw [List.getLast?_eq_none_iff.1 hm]
      | some e =>
        obtain ⟨n, rfl⟩ := List.getLast?_eq_some_iff.1 hm
        simp only [List.dropLast_concat]
        exact (List.perm_append_singleton e n).symm
    · rw [get_cons_of_ne hk] at h
      rw [remove, if_neg hk]
      exact (List.Perm.swap _ _ _).trans ((ih h).cons _)

theorem keys_nodup_insert {m : List (String × α)} (hm : (keys m).Nodup) (k : String) (v : α) :
    (keys (insert m k v)).Nodup := by
  by_cases h : k ∈ keys m
  · rwa [keys_insert_of_mem h]
  · rw [insert_of_notMem h, keys, List.map_append, List.nodup_append]
    refine ⟨hm, by simp, ?_⟩
    rintro a ha b hb rfl
    simp only [List.map_cons, List.map_nil, List.mem_singleton] at hb
    exact h (hb ▸ ha)

theorem keys_cons_remove_perm {m : List (String × α)} (h : get m k = some v) :
    (k :: keys (remove m k)).Perm (keys m) :=
  (cons_remove_perm h).map Prod.fst

theorem keys_nodup_remove {m : List (String × α)} (hm : (keys m).Nodup) (k : String) :
    (keys (remove m k)).Nodup := by
  cases h : get m k with
  | none => rwa [remove_of_notMem (get_eq_none_iff.1 h)]
  | some v => exact (((keys_cons_remove_perm h).nodup_iff).2 hm).of_cons

theorem get_remove_of_ne {m : List (String × α)} (hm : (keys m).Nodup) (h : k ≠ l) :
    get (remove m k) l = get m l := by
  cases hk : get m k with
  | none => rw [remove_of_notMem (get_eq_none_iff.1 hk)]
  | some v =>
    apply Option.ext
    intro w
    rw [get_iff_mem (keys_nodup_remove hm k), get_iff_mem hm, ← (cons_remove_perm hk).mem_iff,
      List.mem_cons]
    simp [Ne.symm h]

theorem get_remove_self {m : List (String × α)} (hm : (keys m).Nodup) :
    get (remove m k) k = none := by
  cases hk : get m k with
  | none => rw [remove_of_notMem (get_eq_none_iff.1 hk), hk]
  | some v =>
    exact get_eq_none_iff.2 (((keys_cons_remove_perm hk).nodup_iff).2 hm).notMem

theorem mem_keys_insert {m : List (String × α)} {k l : String} {v : α} :
    l ∈ keys (insert m k v) ↔ l = k ∨ l ∈ keys m := by
  rw [← get_isSome_iff, ← get_isSome_iff, get_insert]
  split
  · next h => simp [h]
  · next h => simp [Ne.symm h]

theorem insertAll_cons (m : List (String × α)) (e : String × α) (es : List (String × α)) :
    insertAll m (e :: es) = insertAll (insert m e.1 e.2) es := rfl

theorem mem_keys_insertAll {m es : List (String × α)} :
    l ∈ keys (insertAll m es) ↔ l ∈ keys es ∨ l ∈ keys m := by
  induction es generalizing m with
  | nil => simp [insertAll, keys]
  | cons e es ih =>
    rw [insertAll_cons, ih, mem_keys_insert]
    simp only [keys, List.map_cons, List.mem_cons]
    tauto

theorem get_insertAll_of_notMem {m es : List (String × α)} (h : k ∉ keys es) :
    get (insertAll m es) k = get m k := by
  induction es generalizing m with
  | nil => rfl
  | cons e es ih =>
    simp only [keys, List.map_cons, List.mem_cons, not_or] at h
    rw [insertAll_cons, ih h.2, get_insert_of_ne (Ne.symm h.1)]

end Fields

/-! Reading and writing a value in place. -/

/-- The failure of `value["key"] = ..` on a scalar or an array. -/
structure Panic where
  key : String
  type : String
  deriving DecidableEq

namespace Value

def typeName : Value → String
  | .null => "null"
  | .bool _ => "boolean"
  | .number _ => "number"
  | .string _ => "string"
  | .array _ => "array"
  | .object _ => "object"

def get (v : Value) (k : String) : Option Value :=
  match v with
  | .object m => Fields.get m k
  | _ => none

def asObject : Value → Option (List (String × Value))
  | .object m => some m
  | _ => none

def asArray : Value → Option (List Value)
  | .array xs => some xs
  | _ => none

def asStr : Value → Option String
  | .string s => some s
  | _ => none

def asBool : Value → Option Bool
  | .bool b => some b
  | _ => none

def asU64 : Value → Option UInt64
  | .number (.posInt n) => some n
  | _ => none

def isNull : Value → Bool
  | .null => true
  | _ => false

def isObject : Value → Bool
  | .object _ => true
  | _ => false

def isString : Value → Bool
  | .string _ => true
  | _ => false

/-- An object, or the null that an assignment to a key turns into one. -/
def isObjectOrNull : Value → Bool
  | .object _ | .null => true
  | _ => false

/-- `value["key"] = x`. -/
def indexAssign (v : Value) (k : String) (x : Value) : Except Panic Value :=
  match v with
  | .null => .ok (.object [(k, x)])
  | .object m => .ok (.object (Fields.insert m k x))
  | v => .error ⟨k, v.typeName⟩

/-- Insertion into an object; other values stay as they are. -/
def put (v : Value) (k : String) (x : Value) : Value :=
  match v with
  | .object m => .object (Fields.insert m k x)
  | v => v

/-- Rewrite the value under a key, where there is one. -/
def update (v : Value) (k : String) (f : Value → Value) : Value :=
  match v.get k with
  | some x => v.put k (f x)
  | none => v

/-- Rewrite the value under a key, where there is one, by a step that may fail. -/
def updateM (v : Value) (k : String) (f : Value → Except ε Value) : Except ε Value :=
  match v.get k with
  | some x => (f x).map (v.put k)
  | none => .ok v

@[simp] theorem get_object (m : List (String × Value)) (k : String) :
    (Value.object m).get k = Fields.get m k := rfl

@[simp] theorem get_null (k : String) : Value.null.get k = none := rfl
@[simp] theorem get_bool (b : Bool) (k : String) : (Value.bool b).get k = none := rfl
@[simp] theorem get_number (n : Number) (k : String) : (Value.number n).get k = none := rfl
@[simp] theorem get_string (s k : String) : (Value.string s).get k = none := rfl
@[simp] theorem get_array (xs : List Value) (k : String) : (Value.array xs).get k = none := rfl

theorem object_of_get {v : Value} (h : v.get k = some x) : ∃ m, v = .object m := by
  cases v with
  | object m => exact ⟨m, rfl⟩
  | _ => cases h

theorem isObject_iff {v : Value} : v.isObject = true ↔ ∃ m, v = .object m := by
  cases v <;> simp [isObject]

theorem isNull_iff {v : Value} : v.isNull = true ↔ v = .null := by
  cases v <;> simp [isNull]

theorem asStr_eq_some {v : Value} : v.asStr = some s ↔ v = .string s := by
  cases v <;> simp [asStr]

theorem isString_iff {v : Value} : v.isString = true ↔ ∃ s, v = .string s := by
  cases v <;> simp [isString]

theorem asU64_eq_some {v : Value} : v.asU64 = some n ↔ v = .number (.posInt n) := by
  cases v with
  | number m => cases m <;> simp [asU64]
  | _ => simp [asU64]

theorem asArray_eq_some {v : Value} : v.asArray = some xs ↔ v = .array xs := by
  cases v <;> simp [asArray]

theorem asObject_eq_some {v : Value} : v.asObject = some m ↔ v = .object m := by
  cases v <;> simp [asObject]

theorem get_put {v : Value} (h : v.isObject = true) (k l : String) (x : Value) :
    (v.put k x).get l = if k = l then some x else v.get l := by
  obtain ⟨m, rfl⟩ := isObject_iff.1 h
  exact Fields.get_insert m k l x

@[simp] theorem get_put_of_get {v : Value} (h : v.get k = some y) (x : Value) :
    (v.put k x).get k = some x := by
  obtain ⟨m, rfl⟩ := object_of_get h
  exact Fields.get_insert_self m k x

theorem get_put_of_ne (h : k ≠ l) (v x : Value) : (v.put k x).get l = v.get l := by
  cases v with
  | object m => exact Fields.get_insert_of_ne h m x
  | _ => rfl

theorem get_update_of_ne (h : k ≠ l) (v : Value) (f : Value → Value) :
    (v.update k f).get l = v.get l := by
  unfold update
  cases v.get k with
  | none => rfl
  | some x => exact get_put_of_ne h v (f x)

theorem get_update (v : Value) (k : String) (f : Value → Value) :
    (v.update k f).get k = (v.get k).map f := by
  unfold update
  cases h : v.get k with
  | none => exact h
  | some x => exact get_put_of_get h (f x)

theorem indexAssign_of_isObject {v : Value} (h : v.isObject = true) (k : String) (x : Value) :
    v.indexAssign k x = .ok (v.put k x) := by
  obtain ⟨m, rfl⟩ := isObject_iff.1 h
  rfl

theorem indexAssign_isOk_iff (v : Value) (k : String) (x : Value) :
    (v.indexAssign k x).isOk = true ↔ v.isObjectOrNull = true := by
  cases v <;> simp [indexAssign, isObjectOrNull, Except.isOk, Except.toBool]

theorem updateM_of_get {v : Value} (h : v.get k = some x) (f : Value → Except ε Value) :
    v.updateM k f = (f x).map (v.put k) := by
  rw [updateM, h]

theorem updateM_of_get_none {v : Value} (h : v.get k = none) (f : Value → Except ε Value) :
    v.updateM k f = .ok v := by
  rw [updateM, h]

end Value

end Json
