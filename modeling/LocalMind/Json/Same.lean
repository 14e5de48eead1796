import LocalMind.Json.Value

namespace Json
set_option autoImplicit true

/-! Equality of values as JSON: an object is a map. -/

inductive Same : Value → Value → Prop
  | null : Same .null .null
  | bool (b : Bool) : Same (.bool b) (.bool b)
  | number (n : Number) : Same (.number n) (.number n)
  | string (s : String) : Same (.string s) (.string s)
  | array (hlen : xs.length = ys.length)
      (h : ∀ (i : Nat) x y, xs[i]? = some x → ys[i]? = some y → Same x y) :
      Same (.array xs) (.array ys)
  | object (hkeys : ∀ k, (Fields.get m k).isSome = (Fields.get n k).isSome)
      (h : ∀ k x y, Fields.get m k = some x → Fields.get n k = some y → Same x y) :
      Same (.object m) (.object n)

namespace Same

theorem refl (v : Value) : Same v v := by
  induction v using Value.inductOn with
  | null => exact .null
  | bool b => exact .bool b
  | number n => exact .number n
  | string s => exact .string s
  | array xs ih =>
    apply Same.array rfl
    intro i x y hx hy
    obtain rfl : x = y := Option.some.inj (hx.symm.trans hy)
    exact ih x (List.mem_of_getElem? hx)
  | object m ih =>
    apply Same.object (fun _ => rfl)
    intro k x y hx hy
    obtain rfl : x = y := Option.some.inj (hx.symm.trans hy)
    exact ih (k, x) (Fields.mem_of_get hx)

theorem symm (h : Same v w) : Same w v := by
  induction h with
  | null => exact .null
  | bool b => exact .bool b
  | number n => exact .number n
  | string s => exact .string s
  | array hlen _ ih => exact .array hlen.symm fun i x y hx hy => ih i y x hy hx
  | object hkeys _ ih =>
    exact .object (fun k => (hkeys k).symm) fun k x y hx hy => ih k y x hy hx

theorem exists_of_isSome (h : x.isSome = y.isSome) (hx : x = some a) : ∃ b, y = some b := by
  rw [hx] at h
  exact Option.isSome_iff_exists.1 h.symm

theorem trans (h : Same u v) (h' : Same v w) : Same u w := by
  induction h generalizing w with
  | null => exact h'
  | bool b => exact h'
  | number n => exact h'
  | string s => exact h'
  | @array xs ys hlen _ ih =>
    cases h' with
    | array hlen' h' =>
      apply Same.array (hlen.trans hlen')
      intro i x z hx hz
      have hi : i < ys.length := by
        rw [← hlen]
        exact (List.getElem?_eq_some_iff.1 hx).1
      have hy := List.getElem?_eq_getElem hi
      exact ih i x _ hx hy (h' i _ z hy hz)
  | object hkeys _ ih =>
    cases h' with
    | object hkeys' h' =>
      apply Same.object fun k => (hkeys k).trans (hkeys' k)
      intro k x z hx hz
      obtain ⟨y, hy⟩ := exists_of_isSome (hkeys k) hx
      exact ih k x y hx hy (h' k y z hy hz)

theorem congr_left (h : Same u v) : Same u w ↔ Same v w :=
  ⟨h.symm.trans, h.trans⟩

theorem congr_right (h : Same u v) : Same w u ↔ Same w v :=
  ⟨fun hw => hw.trans h, fun hw => hw.trans h.symm⟩

/-! Values of one kind. -/

theorem string_iff : Same (.string s) (.string t) ↔ s = t := by
  constructor
  · intro h
    cases h
    rfl
  · rintro rfl
    exact .string s

theorem number_iff : Same (.number n) (.number p) ↔ n = p := by
  constructor
  · intro h
    cases h
    rfl
  · rintro rfl
    exact .number n

theorem array_iff : Same (.array xs) (.array ys) ↔ List.Forall₂ Same xs ys := by
  rw [List.forall₂_iff_get]
  constructor
  · intro h
    cases h with
    | array hlen h =>
      exact ⟨hlen, fun i hx hy => h i _ _ (List.getElem?_eq_getElem hx)
        (List.getElem?_eq_getElem hy)⟩
  · rintro ⟨hlen, h⟩
    apply Same.array hlen
    intro i x y hx hy
    obtain ⟨hi, rfl⟩ := List.getElem?_eq_some_iff.1 hx
    obtain ⟨hj, rfl⟩ := List.getElem?_eq_some_iff.1 hy
    exact h i hi hj

theorem keys_of_object (h : Same (.object m) (.object n)) (k : String) :
    (Fields.get m k).isSome = (Fields.get n k).isSome := by
  cases h with
  | object hkeys _ => exact hkeys k

theorem get_of_object (h : Same (.object m) (.object n)) (hx : Fields.get m k = some x)
    (hy : Fields.get n k = some y) : Same x y := by
  cases h with
  | object _ h => exact h k x y hx hy

theorem isObject (h : Same v w) : v.isObject = w.isObject := by
  cases h <;> rfl

/-- A value that is the same as a null. -/
theorem eq_null (h : Same v .null) : v = .null := by
  cases h
  rfl

end Same

/-! Objects entry by entry. -/

/-- All keys of an object are among these. -/
def KeysIn (m : List (String × Value)) (ks : List String) : Prop :=
  ∀ k x, Fields.get m k = some x → k ∈ ks

theorem KeysIn.absent (h : KeysIn m ks) (hk : k ∉ ks) : Fields.get m k = none := by
  rw [Option.eq_none_iff_forall_ne_some]
  intro x hx
  exact hk (h k x hx)

theorem KeysIn.without (h : KeysIn m (ks ++ [k])) (hk : Fields.get m k = none) : KeysIn m ks := by
  intro l x hl
  obtain hmem | hmem := List.mem_append.1 (h l x hl)
  · exact hmem
  · rw [List.mem_singleton.1 hmem, hk] at hl
    cases hl

theorem KeysIn.append (h : KeysIn m ks) (ls : List String) : KeysIn m (ks ++ ls) :=
  fun k x hk => List.mem_append_left ls (h k x hk)

/-- These entries are all in an object. -/
inductive EntriesIn (m : List (String × Value)) : List (String × Value) → Prop
  | nil : EntriesIn m []
  | cons (hk : Fields.get m k = some v) (h : EntriesIn m r) : EntriesIn m ((k, v) :: r)

theorem EntriesIn.get (h : EntriesIn m r) : ∀ e ∈ r, Fields.get m e.1 = some e.2 := by
  induction h with
  | nil => exact List.forall_mem_nil _
  | cons hk _ ih => exact List.forall_mem_cons.2 ⟨hk, ih⟩

namespace Same

/-- Objects are the same where one has all keys of the other and each of its entries is there. -/
theorem object_iff (hks : ks.Nodup) (hkeys : Fields.keys r = ks) :
    Same (.object r) (.object m) ↔
      KeysIn m ks ∧ ∀ e ∈ r, ∃ y, Fields.get m e.1 = some y ∧ Same e.2 y := by
  subst hkeys
  constructor
  · intro h
    constructor
    · intro k x hk
      rw [← Fields.get_isSome_iff, h.keys_of_object k, hk]
      rfl
    · intro e he
      have hx := Fields.get_of_mem hks he
      obtain ⟨y, hy⟩ := exists_of_isSome (h.keys_of_object e.1) hx
      exact ⟨y, hy, h.get_of_object hx hy⟩
  · rintro ⟨hkeys, hentries⟩
    apply Same.object
    · intro k
      rw [Bool.eq_iff_iff]
      constructor
      · intro hk
        obtain ⟨x, hx⟩ := Option.isSome_iff_exists.1 hk
        obtain ⟨y, hy, -⟩ := hentries _ (Fields.mem_of_get hx)
        rw [hy]
        rfl
      · intro hk
        obtain ⟨y, hy⟩ := Option.isSome_iff_exists.1 hk
        exact Fields.get_isSome_iff.2 (hkeys k y hy)
    · intro k x y hx hy
      obtain ⟨z, hz, hs⟩ := hentries _ (Fields.mem_of_get hx)
      obtain rfl : z = y := Option.some.inj (hz.symm.trans hy)
      exact hs

/-- Objects are the same where they are the same key by key. -/
theorem object_iff_rel : Same (.object m) (.object n) ↔
    ∀ k, Option.Rel Same (Fields.get m k) (Fields.get n k) := by
  constructor
  · intro h k
    have hkeys := h.keys_of_object k
    cases hm : Fields.get m k with
    | none =>
      cases hn : Fields.get n k with
      | none => exact .none
      | some y =>
        rw [hm, hn] at hkeys
        cases hkeys
    | some x =>
      obtain ⟨y, hy⟩ := exists_of_isSome hkeys hm
      rw [hy]
      exact .some (h.get_of_object hm hy)
  · intro h
    apply Same.object
    · intro k
      have hk := h k
      generalize Fields.get m k = x at hk
      generalize Fields.get n k = y at hk
      cases hk with
      | some _ => rfl
      | none => rfl
    · intro k x y hx hy
      have hk := h k
      rw [hx, hy] at hk
      exact Option.rel_some_some.1 hk

/-- Objects whose field is replaced on both sides. -/
theorem insert_iff (hm : Fields.get m k = some x) (hn : Fields.get n k = some y)
    (h : Same x' y' ↔ Same x y) :
    Same (.object (Fields.insert m k x')) (.object (Fields.insert n k y')) ↔
      Same (.object m) (.object n) := by
  rw [object_iff_rel, object_iff_rel]
  apply forall_congr'
  intro l
  rw [Fields.get_insert, Fields.get_insert]
  by_cases hl : k = l
  · subst hl
    rw [if_pos rfl, if_pos rfl, hm, hn, Option.rel_some_some, Option.rel_some_some, h]
  · rw [if_neg hl, if_neg hl]

/-- Entries of an object are the same as it where they have all its keys. -/
theorem object_iff_of_entries (h : EntriesIn m r) (hks : ks.Nodup)
    (hkeys : Fields.keys r = ks) : Same (.object r) (.object m) ↔ KeysIn m ks := by
  rw [object_iff hks hkeys]
  constructor
  · intro hs
    exact hs.1
  · intro hk
    exact ⟨hk, fun e he => ⟨e.2, h.get e he, Same.refl e.2⟩⟩

end Same

end Json
