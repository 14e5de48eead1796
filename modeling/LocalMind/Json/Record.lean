import LocalMind.Json.Codec
import LocalMind.Json.Entries

namespace Json
set_option autoImplicit true

/-! Types that are read from values and written back. -/

theorem Fields.get_append (m n : List (String × α)) (k : String) :
    get (m ++ n) k = (get m k).or (get n k) := by
  induction m with
  | nil => rfl
  | cons e m ih =>
    obtain ⟨l, v⟩ := e
    rw [List.cons_append, get_cons, get_cons, ih]
    split <;> rfl

/-- How a type is read and written, and which values come back the same. -/
structure Codec (α : Type) where
  decode : Value → Option α
  encode : α → Value
  Kept : Value → Prop
  kept_iff : ∀ v a, decode v = some a → (Same (encode a) v ↔ Kept v)

namespace Codec

/-- A codec that writes exactly what it read. -/
def exactly (decode : Value → Option α) (encode : α → Value)
    (h : ∀ v a, decode v = some a → encode a = v) : Codec α where
  decode := decode
  encode := encode
  Kept _ := True
  kept_iff v a hd := by
    rw [h v a hd]
    exact ⟨fun _ => trivial, fun _ => Same.refl v⟩

def string : Codec String :=
  exactly Value.asStr .string fun _ _ h => (Value.asStr_eq_some.1 h).symm

def bool : Codec Bool :=
  exactly Value.asBool .bool fun v b h => by
    cases v with
    | bool b => cases h; rfl
    | _ => cases h

def uint64 : Codec UInt64 :=
  exactly Value.asU64 u64 fun _ _ h => (Value.asU64_eq_some.1 h).symm

def asU32 (v : Value) : Option UInt32 :=
  v.asU64.bind fun n => if n.toNat < 2 ^ 32 then some (UInt32.ofNat n.toNat) else none

def uint32 : Codec UInt32 :=
  exactly asU32 (fun n => u64 n.toUInt64) fun v n h => by
    obtain ⟨m, hm, h⟩ := Option.bind_eq_some_iff.1 h
    rw [Value.asU64_eq_some.1 hm]
    split at h
    · next hlt =>
      cases h
      have hnat : (UInt32.ofNat m.toNat).toUInt64 = m := by
        apply UInt64.toNat_inj.1
        rw [UInt32.toNat_toUInt64, UInt32.toNat_ofNat_of_lt' hlt]
      rw [hnat]
      rfl
    · cases h

/-- A value as it is. -/
def value : Codec Value := exactly some id fun _ _ h => (Option.some.inj h).symm

end Codec

/-- The conversions of binary32 numbers. Reading rounds a number to one; one that is finite is
written as a text, which is a number again, or widened to a number. -/
structure SingleCodec where
  round : Number → UInt32
  write : UInt32 → Option Number
  widen : UInt32 → Option Number
  /-- a widened number rounds to the one it came from -/
  round_widen : ∀ b n, widen b = some n → round n = b
  /-- finite numbers are written and widened, others are not -/
  finite : ∀ b, (write b).isSome = (widen b).isSome

namespace Codec

def single (s : SingleCodec) : Codec UInt32 where
  decode v :=
    match v with
    | .number n => some (s.round n)
    | _ => none
  encode b := orNull .number (s.write b)
  Kept v := ∀ n, v = .number n → s.write (s.round n) = some n
  kept_iff v b h := by
    cases v with
    | number n =>
      cases h
      constructor
      · intro hs m hm
        cases hm
        cases hw : s.write (s.round n) with
        | none =>
          rw [hw] at hs
          cases hs
        | some m =>
          rw [hw] at hs
          rw [Same.number_iff.1 hs]
      · intro hk
        rw [hk n rfl]
        exact Same.refl _
    | _ => cases h

def nullable (c : Codec α) : Codec (Option α) where
  decode := Json.nullable c.decode
  encode := orNull c.encode
  Kept v := v ≠ .null → c.Kept v
  kept_iff v o h := by
    obtain ⟨rfl, hv | hv⟩ | ⟨w, a, hv, hne, ha, rfl⟩ := nullable_cases (x := some v) h
    · cases hv
    · cases hv
      exact ⟨fun _ hne => absurd rfl hne, fun _ => Same.null⟩
    · cases hv
      exact (c.kept_iff v a ha).trans ⟨fun hk _ => hk, fun hk => hk hne⟩

theorem mapM_eq_some {f : α → Option β} {as : List α} {bs : List β} (h : as.mapM f = some bs) :
    List.Forall₂ (fun a b => f a = some b) as bs := by
  induction as generalizing bs with
  | nil =>
    cases h
    exact .nil
  | cons a as ih =>
    rw [List.mapM_cons] at h
    obtain ⟨b, hb, h⟩ := Option.bind_eq_some_iff.1 h
    obtain ⟨bs, hbs, h⟩ := Option.bind_eq_some_iff.1 h
    cases h
    exact .cons hb (ih hbs)

theorem kept_items (c : Codec α) (h : List.Forall₂ (fun v a => c.decode v = some a) vs as) :
    List.Forall₂ Same (as.map c.encode) vs ↔ ∀ v ∈ vs, c.Kept v := by
  induction h with
  | nil => exact ⟨fun _ => List.forall_mem_nil _, fun _ => .nil⟩
  | cons ha _ ih =>
    rw [List.map_cons, List.forall₂_cons, List.forall_mem_cons, c.kept_iff _ _ ha, ih]

def list (c : Codec α) : Codec (List α) where
  decode := vec c.decode
  encode as := .array (as.map c.encode)
  Kept v := ∀ vs, v = .array vs → ∀ x ∈ vs, c.Kept x
  kept_iff v as h := by
    cases v with
    | array vs =>
      rw [Same.array_iff, kept_items c (mapM_eq_some h)]
      constructor
      · intro hk ws hws
        cases hws
        exact hk
      · intro hk
        exact hk vs rfl
    | _ => cases h

/-- A codec through a change of representation. -/
def iso (c : Codec α) (f : α → β) (g : β → α) (h : ∀ a, g (f a) = a) : Codec β where
  decode v := (c.decode v).map f
  encode b := c.encode (g b)
  Kept := c.Kept
  kept_iff v b hd := by
    obtain ⟨a, ha, rfl⟩ := Option.map_eq_some_iff.1 hd
    rw [h a]
    exact c.kept_iff v a ha

/-- One of two types, the first one that reads the value. -/
def untagged (c : Codec α) (d : Codec β) : Codec (α ⊕ β) where
  decode v := ((c.decode v).map .inl).or ((d.decode v).map .inr)
  encode := Sum.elim c.encode d.encode
  Kept v := if (c.decode v).isSome then c.Kept v else d.Kept v
  kept_iff v s h := by
    cases hc : c.decode v with
    | some a =>
      rw [hc] at h
      cases h
      rw [Option.isSome_some, if_pos rfl]
      exact c.kept_iff v a hc
    | none =>
      rw [hc] at h
      obtain ⟨b, hb, rfl⟩ := Option.map_eq_some_iff.1 h
      rw [Option.isSome_none, if_neg Bool.false_ne_true]
      exact d.kept_iff v b hb

/-- A type that does not read arrays of fewer elements. -/
def atLeast (n : Nat) (c : Codec α) : Codec α where
  decode v := if v.asArray.any (·.length < n) then none else c.decode v
  encode := c.encode
  Kept := c.Kept
  kept_iff v a h := by
    split at h
    · cases h
    · exact c.kept_iff v a h

end Codec

/-! Fields of a record. -/

structure Field (name : String) (α : Type) where
  decode : Option Value → Option α
  encode : α → Option Value
  Kept : Option Value → Prop
  kept_iff : ∀ x a, decode x = some a → (Option.Rel Same (encode a) x ↔ Kept x)

namespace Field

def required (name : String) (c : Codec α) : Field name α where
  decode := Json.required c.decode
  encode a := some (c.encode a)
  Kept x := ∀ v, x = some v → c.Kept v
  kept_iff x a h := by
    obtain ⟨v, rfl, hv⟩ := required_eq_some.1 h
    rw [Option.rel_some_some, c.kept_iff v a hv]
    constructor
    · intro hk w hw
      cases hw
      exact hk
    · intro hk
      exact hk v rfl

/-- A field that may be missing on reading and is always written. -/
def defaulted (name : String) (c : Codec α) (d : α) : Field name α where
  decode := orDefault c.decode d
  encode a := some (c.encode a)
  Kept x := ∃ v, x = some v ∧ c.Kept v
  kept_iff x a h := by
    cases x with
    | none =>
      constructor
      · intro hr
        cases hr
      · rintro ⟨v, hv, -⟩
        cases hv
    | some v =>
      rw [Option.rel_some_some, c.kept_iff v a h]
      constructor
      · intro hk
        exact ⟨v, rfl, hk⟩
      · rintro ⟨w, hw, hk⟩
        cases hw
        exact hk

/-- A field that may be missing or null on reading and is then not written. -/
def skipped (name : String) (c : Codec α) : Field name (Option α) where
  decode := orDefault (Json.nullable c.decode) none
  encode o := o.map c.encode
  Kept x := x ≠ some .null ∧ ∀ v, x = some v → c.Kept v
  kept_iff x o h := by
    obtain ⟨rfl, rfl | rfl⟩ | ⟨v, a, rfl, hne, ha, rfl⟩ := nullable_cases h
    · exact ⟨fun _ => ⟨by simp, by simp⟩, fun _ => .none⟩
    · constructor
      · intro hr
        cases hr
      · intro hk
        exact absurd rfl hk.1
    · rw [Option.map_some, Option.rel_some_some, c.kept_iff v a ha]
      constructor
      · intro hk
        refine ⟨fun hv => hne (Option.some.inj hv), ?_⟩
        intro w hw
        cases hw
        exact hk
      · intro hk
        exact hk.2 v rfl

end Field

/-! Records. -/

/-- The entry of a field, where it is written. -/
def written (k : String) (x : Option Value) : List (String × Value) := (x.map (k, ·)).toList

theorem get_written (k l : String) (x : Option Value) :
    Fields.get (written k x) l = if k = l then x else none := by
  cases x with
  | none => exact (ite_self _).symm
  | some v => rfl

theorem keys_written (k : String) (x : Option Value) :
    ∀ l ∈ Fields.keys (written k x), l = k := by
  cases x with
  | none => exact List.forall_mem_nil _
  | some v => exact List.forall_mem_singleton.2 rfl

structure Record (names : List String) (α : Type) where
  decode : (String → Option Value) → Option α
  encode : α → List (String × Value)
  Kept : (String → Option Value) → Prop
  keys_in : ∀ a, ∀ k ∈ Fields.keys (encode a), k ∈ names
  kept_iff : ∀ field a, decode field = some a →
    ((∀ k ∈ names, Option.Rel Same (Fields.get (encode a) k) (field k)) ↔ Kept field)

namespace Record

def nil : Record [] Unit where
  decode _ := some ()
  encode _ := []
  Kept _ := True
  keys_in _ := List.forall_mem_nil _
  kept_iff _ _ _ := ⟨fun _ => trivial, fun _ => List.forall_mem_nil _⟩

theorem get_encode_of_notMem (r : Record names α) (a : α) (h : k ∉ names) :
    Fields.get (r.encode a) k = none :=
  Fields.get_eq_none_iff.2 fun hk => h (r.keys_in a k hk)

/-- A field in front of others. -/
def cons (f : Field name α) (r : Record names β) (hname : name ∉ names := by decide) :
    Record (name :: names) (α × β) where
  decode field := do
    let a ← f.decode (field name)
    let b ← r.decode field
    some (a, b)
  encode p := written name (f.encode p.1) ++ r.encode p.2
  Kept field := f.Kept (field name) ∧ r.Kept field
  keys_in p k hk := by
    rw [Fields.keys, List.map_append] at hk
    obtain hk | hk := List.mem_append.1 hk
    · exact List.mem_cons.2 (.inl (keys_written _ _ k hk))
    · exact List.mem_cons_of_mem _ (r.keys_in p.2 k hk)
  kept_iff field p h := by
    obtain ⟨a, ha, h⟩ := Option.bind_eq_some_iff.1 h
    obtain ⟨b, hb, h⟩ := Option.bind_eq_some_iff.1 h
    cases h
    have hget : ∀ k, Fields.get (written name (f.encode a) ++ r.encode b) k =
        (if name = k then f.encode a else none).or (Fields.get (r.encode b) k) := by
      intro k
      rw [Fields.get_append, get_written]
    have hfirst : Fields.get (written name (f.encode a) ++ r.encode b) name =
        f.encode a := by
      rw [hget, if_pos rfl, r.get_encode_of_notMem b hname, Option.or_none]
    have hrest : ∀ k ∈ names, Fields.get (written name (f.encode a) ++ r.encode b) k =
        Fields.get (r.encode b) k := by
      intro k hk
      rw [hget, if_neg, Option.none_or]
      rintro rfl
      exact hname hk
    rw [List.forall_mem_cons, hfirst, f.kept_iff _ _ ha, ← r.kept_iff _ _ hb]
    apply and_congr_right
    intro _
    constructor
    · intro hk k hmem
      rw [← hrest k hmem]
      exact hk k hmem
    · intro hk k hmem
      rw [hrest k hmem]
      exact hk k hmem

/-- An object of the fields alone; what else is in one is lost. -/
def codec (r : Record names α) : Codec α where
  decode v := if shaped names v then r.decode (member names v) else none
  encode a := .object (r.encode a)
  Kept v := ∃ m, v = .object m ∧ KeysIn m names ∧ r.Kept (Fields.get m)
  kept_iff v a h := by
    split at h
    · by_cases hobj : v.isObject = true
      · obtain ⟨m, rfl⟩ := Value.isObject_iff.1 hobj
        rw [Same.object_iff_rel]
        constructor
        · intro hr
          refine ⟨m, rfl, ?_, (r.kept_iff _ a h).1 fun k _ => hr k⟩
          intro k x hk
          have hkey := hr k
          rw [hk] at hkey
          apply r.keys_in a k
          apply Fields.get_isSome_iff.1
          cases hx : Fields.get (r.encode a) k with
          | some _ => rfl
          | none =>
            rw [hx] at hkey
            cases hkey
        · rintro ⟨n, hn, hkeys, hkept⟩ k
          cases hn
          by_cases hk : k ∈ names
          · exact (r.kept_iff _ a h).2 hkept k hk
          · rw [r.get_encode_of_notMem a hk, hkeys.absent hk]
            exact .none
      · constructor
        · intro hs
          exact absurd hs.isObject.symm hobj
        · rintro ⟨m, rfl, -⟩
          exact absurd rfl hobj
    · cases h

/-- An object of the fields, with everything else beside them. -/
def flattened (r : Record names α) : Codec (α × List (String × Value)) where
  decode v := do
    let m ← v.asObject
    let a ← r.decode (Fields.get m)
    some (a, m.filter fun e => !names.contains e.1)
  encode p := .object (r.encode p.1 ++ p.2)
  Kept v := ∀ m, v = .object m → r.Kept (Fields.get m)
  kept_iff v p h := by
    obtain ⟨m, hm, h⟩ := Option.bind_eq_some_iff.1 h
    obtain ⟨a, ha, h⟩ := Option.bind_eq_some_iff.1 h
    cases h
    obtain rfl := Value.asObject_eq_some.1 hm
    have hextra : ∀ k, Fields.get (m.filter fun e => !names.contains e.1) k =
        if (!names.contains k) = true then Fields.get m k else none :=
      Fields.get_filter (fun k => !names.contains k) m
    have hin : ∀ k ∈ names, Fields.get (r.encode a ++ m.filter fun e =>
        !names.contains e.1) k = Fields.get (r.encode a) k := by
      intro k hk
      rw [Fields.get_append, hextra, if_neg (by simpa using hk), Option.or_none]
    rw [Same.object_iff_rel]
    constructor
    · intro hr n hn
      cases hn
      apply (r.kept_iff _ a ha).1
      intro k hk
      rw [← hin k hk]
      exact hr k
    · intro hkept k
      by_cases hk : k ∈ names
      · rw [hin k hk]
        exact (r.kept_iff _ a ha).2 (hkept m rfl) k hk
      · rw [Fields.get_append, r.get_encode_of_notMem a hk, hextra, if_pos (by simpa using hk),
          Option.none_or]
        cases Fields.get m k with
        | none => exact .none
        | some x => exact .some (Same.refl x)

end Record

end Json
