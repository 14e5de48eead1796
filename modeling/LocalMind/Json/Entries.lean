import LocalMind.Json.Print

namespace Json
set_option autoImplicit true

/-! Entries as a map. -/

namespace Fields

/-- Entries with distinct keys, put over others. -/
theorem get_insertAll {m es : List (String × α)} (h : (keys es).Nodup) (k : String) :
    get (insertAll m es) k = (get es k).or (get m k) := by
  induction es generalizing m with
  | nil => rfl
  | cons e es ih =>
    obtain ⟨l, v⟩ := e
    obtain ⟨hl, hes⟩ := List.nodup_cons.1 h
    rw [insertAll_cons, ih hes, get_insert, get_cons]
    by_cases hk : l = k
    · rw [hk] at hl
      rw [if_pos hk, if_pos hk, get_eq_none_iff.2 hl]
      rfl
    · rw [if_neg hk, if_neg hk]

/-- Entries that are kept by their keys. -/
theorem get_filter (p : String → Bool) (m : List (String × α)) (k : String) :
    get (m.filter fun e => p e.1) k = if p k then get m k else none := by
  induction m with
  | nil => exact (ite_self _).symm
  | cons e m ih =>
    obtain ⟨l, v⟩ := e
    rw [List.filter_cons, get_cons]
    dsimp only
    by_cases hl : l = k
    · subst hl
      rw [if_pos rfl]
      cases hp : p l with
      | true => exact get_cons_self l v _
      | false =>
        rw [hp] at ih
        exact ih
    · rw [if_neg hl, ← ih]
      cases p l with
      | true => exact get_cons_of_ne hl v _
      | false => rfl

theorem filter_insert (p : String → Bool) (m : List (String × α)) (k : String) (v : α) :
    (insert m k v).filter (fun e => p e.1) =
      if p k then insert (m.filter fun e => p e.1) k v else m.filter fun e => p e.1 := by
  induction m with
  | nil => cases hp : p k <;> simp [insert, hp]
  | cons e m ih =>
    obtain ⟨l, w⟩ := e
    by_cases hl : l = k
    · subst hl
      cases hp : p l <;> simp [insert, hp]
    · rw [insert, if_neg hl]
      cases hp : p l with
      | true =>
        simp only [List.filter_cons, hp, if_true, ih]
        split
        · rw [insert, if_neg hl]
        · rfl
      | false => simpa [List.filter_cons, hp] using ih

theorem nodup_filter {m : List (String × α)} (h : (keys m).Nodup) (p : String × α → Bool) :
    (keys (m.filter p)).Nodup :=
  h.sublist (List.filter_sublist.map Prod.fst)

end Fields

/-- An object that names no key twice. -/
def Distinct (v : Value) : Prop := ∀ m, v = .object m → (Fields.keys m).Nodup

end Json
