import LocalMind.Switcher.Edits

namespace LocalMind.Switcher
open Json Text
set_option autoImplicit true

/-! What the edits of a number do to the cells of an object. -/

theorem leadingNumber_eq {mid ds rest : List Char} (hmid : ∀ c ∈ mid, isWhitespace c = true)
    (hne : ds ≠ []) (hds : ∀ c ∈ ds, c.isDigit = true) (hrest : Stops Char.isDigit rest) :
    leadingNumber (mid ++ ds ++ rest) = ⟨mid, ds, rest⟩ := by
  obtain ⟨d, t, rfl⟩ := List.exists_cons_of_ne_nil hne
  have hd : isWhitespace d = false := by
    have hrange := isDigit_range (hds d List.mem_cons_self)
    simp only [isWhitespace, Bool.or_eq_false_iff, decide_eq_false_iff_not, beq_eq_false_iff_ne]
    omega
  have htrim : trimStart (mid ++ (d :: t) ++ rest) = d :: t ++ rest := by
    rw [List.append_assoc, trimStart_append hmid, List.cons_append, trimStart_cons hd]
  have htake : (mid ++ (d :: t) ++ rest).takeWhile isWhitespace = mid := by
    rw [List.append_assoc, List.takeWhile_append_of_pos hmid, List.cons_append,
      List.takeWhile_cons_of_neg (by rw [hd]; exact Bool.false_ne_true), List.append_nil]
  obtain ⟨hspan, hdrop⟩ := span_digits hds hrest
  rw [leadingNumber, htrim, htake, hspan, hdrop]

theorem stops_trivia (h : Trivia g) (hd : d = ',' ∨ d = '}') (r : List Char) :
    Stops Char.isDigit (g ++ d :: r) := by
  cases h with
  | nil =>
    apply stops_cons
    rcases hd with rfl | rfl
    · rfl
    · rfl
  | @space c g hc _ =>
    apply stops_cons
    cases hdigit : c.isDigit with
    | false => rfl
    | true =>
      have hws := (isDigit_start hdigit).1
      rw [hc] at hws
      cases hws
  | line _ _ => exact stops_cons rfl _
  | block _ _ => exact stops_cons rfl _

theorem decimal_digits (n : UInt64) : ∀ c ∈ decimal n, c.isDigit = true := isDigit_toDigits _

theorem decimal_ne_nil (n : UInt64) : decimal n ≠ [] := Nat.toDigits_ne_nil

/-- The text behind the own key of an item. -/
theorem leadingNumber_item {i : Item} (hc : i.Counts) (ht : Trivia i.trail) (back : List Cell) :
    leadingNumber (i.mid ++ i.value ++ i.trail ++ (behind back ++ ['}'])) =
      ⟨i.mid, i.value, i.trail ++ (behind back ++ ['}'])⟩ := by
  obtain ⟨d, r, hr, hd⟩ := behind_close back
  rw [List.append_assoc (i.mid ++ i.value)]
  apply leadingNumber_eq hc.mid hc.ne_nil hc.digits
  rw [hr]
  exact stops_trivia ht hd r

section
variable {key : List Char} {i : Item} {front back : List Cell}

theorem findKey_item (hk : Word key) (hfront : AllFree key front) (hi : i.Owns key)
    (hlead : Trivia i.lead) (hn : '\n' ∉ i.lead) (back : List Cell) :
    findKey (objectOf (front ++ .item i :: back)) key =
      some ⟨'{' :: upTo front ++ i.lead, i.name,
        i.mid ++ i.value ++ i.trail ++ (behind back ++ ['}'])⟩ :=
  findKey_objectOf hk hfront (c := .item i) (owns_found hk hi hlead hn) back

theorem setNumberInObject_found (hk : Word key) (hfront : AllFree key front) (hi : i.Owns key)
    (hc : i.Counts) (hlead : Trivia i.lead) (hn : '\n' ∉ i.lead) (htrail : Trivia i.trail)
    (v : UInt64) :
    setNumberInObject (objectOf (front ++ .item i :: back)) key (some v) =
      objectOf (front ++ .item { i with value := decimal v } :: back) := by
  have hfind := findKey_item hk hfront hi hlead hn back
  rw [setNumberInObject.eq_def, hfind]
  dsimp only
  rw [leadingNumber_item hc htrail, objectOf_at, Cell.text, Item.text]
  simp [Item.name]

/-- The item of an inserted number. -/
def numberItem (key : List Char) (v : UInt64) (trail : List Char) : Item :=
  ⟨[' '], key, [], [' '], decimal v, trail⟩

theorem numberItem_text (key : List Char) (v : UInt64) (trail : List Char) :
    (numberItem key v trail).text = ' ' :: numberEntry key v ++ trail := by
  rw [Item.text, Item.name, numberItem, numberEntry]
  simp

theorem setNumberInObject_after (hfree : AllFree inputKey (front ++ .item i :: back))
    (hfront : AllFree contextKey front) (hi : i.Owns contextKey) (hc : i.Counts)
    (hlead : Trivia i.lead) (hn : '\n' ∉ i.lead) (htrail : Trivia i.trail) (v : UInt64) :
    setNumberInObject (objectOf (front ++ .item i :: back)) inputKey (some v) =
      objectOf (front ++ .item { i with trail := [] } ::
        .item (numberItem inputKey v i.trail) :: back) := by
  have hinput : Word inputKey := by decide
  have hcontext : Word contextKey := by decide
  have hfind := findKey_item hcontext hfront hi hlead hn back
  rw [setNumberInObject.eq_def, findKey_objectOf_free hinput hfree]
  dsimp only
  rw [if_pos rfl, hfind]
  dsimp only
  rw [leadingNumber_item hc htrail, objectOf_at]
  have hback : behind (.item (numberItem inputKey v i.trail) :: back) =
      ',' :: (' ' :: numberEntry inputKey v ++ i.trail) ++ behind back := by
    rw [behind, List.flatMap_cons, Cell.text, numberItem_text]
    rfl
  rw [hback, Cell.text, Item.text]
  simp [Item.name]

end

end LocalMind.Switcher
