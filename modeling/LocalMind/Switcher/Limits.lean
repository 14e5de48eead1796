import LocalMind.Json.Record
import LocalMind.Switcher.Numbers

namespace LocalMind.Switcher
open Json Text
set_option autoImplicit true

/-! Limit objects: their entries stand on one line, with nothing but whitespace between them. -/

structure Item.Tidy (i : Item) : Prop where
  lead : AllWs i.lead
  gap : AllWs i.gap
  mid : AllWs i.mid
  trail : AllWs i.trail
  value : Neutral '{' '}' i.value
  line : '\n' ∉ i.text

/-- A key stands in no other item's text, is spelled without escapes, and has a number that is
written in digits. -/
structure Item.Fits (key : List Char) (i : Item) : Prop where
  counts : i.key = key → ∃ n : UInt64, i.value = decimal n
  free : i.key ≠ key → findKey i.text key = none
  spelled : StrBody escape i.key key → i.key = key

structure LimitItems (codec : FloatCodec) (d : Nat) (is : List Item)
    (es : List (String × Value)) : Prop where
  holds : List.Forall₂ (Item.Holds codec d) is es
  tidy : ∀ i ∈ is, i.Tidy
  context : ∀ i ∈ is, i.Fits contextKey
  input : ∀ i ∈ is, i.Fits inputKey
  named : ∃ i ∈ is, i.key = contextKey
  keys : (Fields.keys es).Nodup

/-- Nothing behind the last entry, or a comma and whitespace. -/
def Tail (tail : List Cell) : Prop := tail = [] ∨ ∃ g, AllWs g ∧ '\n' ∉ g ∧ tail = [.blank g]

def limitText (is : List Item) (tail : List Cell) : List Char := objectOf (is.map .item ++ tail)

/-! The items of a key. -/

theorem StrBody.unique (h : StrBody escape body x) (h' : StrBody escape body y) : x = y := by
  have heq := (h []).symm.trans (h' [])
  rw [Option.some.injEq, Prod.mk.injEq] at heq
  exact heq.1

theorem Word.plain (hk : Word key) : Json.Plain key := by
  intro c hc
  have halpha := hk c hc
  refine ⟨?_, ?_, ?_⟩
  · rintro rfl
    cases halpha
  · rintro rfl
    cases halpha
  · simp only [Char.isAlpha, Char.isUpper, Char.isLower, Bool.or_eq_true, decide_eq_true_eq,
      Bool.and_eq_true] at halpha
    change (65 ≤ c.toNat ∧ c.toNat ≤ 90) ∨ (97 ≤ c.toNat ∧ c.toNat ≤ 122) at halpha
    simp only [isControl, decide_eq_false_iff_not]
    omega

/-- An entry has a key exactly when its item spells it. -/
theorem holds_key_iff {i : Item} (hk : Word key) (h : i.Holds codec d e) (hfit : i.Fits key) :
    e.1 = String.ofList key ↔ i.key = key := by
  obtain ⟨x, hx, he⟩ := h.key
  rw [he, String.ofList_inj]
  constructor
  · rintro rfl
    exact hfit.spelled hx
  · intro hi
    rw [hi] at hx
    exact StrBody.unique hx hk.plain.strBody

theorem nodup_items (h : List.Forall₂ (Item.Holds codec d) is es) (hk : (Fields.keys es).Nodup) :
    (is.map Item.key).Nodup := by
  induction h with
  | nil => exact List.nodup_nil
  | @cons i e is es hi his ih =>
    obtain ⟨hnew, hrest⟩ := List.nodup_cons.1 hk
    refine List.nodup_cons.2 ⟨fun hmem => ?_, ih hrest⟩
    obtain ⟨j, hj, hkey⟩ := List.mem_map.1 hmem
    obtain ⟨e', he', hholds⟩ : ∃ e' ∈ es, j.Holds codec d e' := by
      clear ih hnew hrest hk hmem
      induction his with
      | nil => cases hj
      | @cons i' e' is es hi' _ ih =>
        obtain rfl | hj := List.mem_cons.1 hj
        · exact ⟨e', List.mem_cons_self, hi'⟩
        · obtain ⟨e'', he'', hholds⟩ := ih hj
          exact ⟨e'', List.mem_cons_of_mem _ he'', hholds⟩
    obtain ⟨x, hx, he⟩ := hi.key
    obtain ⟨y, hy, he₂⟩ := hholds.key
    rw [hkey] at hy
    apply hnew
    rw [he, StrBody.unique hx hy, ← he₂]
    exact List.mem_map_of_mem he'

theorem split_at_key {is : List Item} (hn : (is.map Item.key).Nodup) (hi : i ∈ is) :
    ∃ f b, is = f ++ i :: b ∧ ∀ j ∈ f ++ b, j.key ≠ i.key := by
  obtain ⟨f, b, rfl⟩ := List.append_of_mem hi
  refine ⟨f, b, rfl, fun j hj hkey => ?_⟩
  rw [List.map_append, List.map_cons, List.nodup_middle, List.nodup_cons] at hn
  apply hn.1
  rw [← hkey, ← List.map_append]
  exact List.mem_map_of_mem hj

/-! The text with a number set. -/

def setItems (key : List Char) (v : UInt64) (is : List Item) : List Item :=
  is.map fun i => if i.key = key then { i with value := decimal v } else i

def setEntries (k : String) (v : UInt64) (es : List (String × Value)) : List (String × Value) :=
  es.map fun e => (e.1, if e.1 = k then u64 v else e.2)

theorem setItems_at {f b : List Item} (hi : i.key = key) (hother : ∀ j ∈ f ++ b, j.key ≠ i.key)
    (v : UInt64) : setItems key v (f ++ i :: b) = f ++ { i with value := decimal v } :: b := by
  have hkept : ∀ is : List Item, (∀ j ∈ is, j ∈ f ++ b) → setItems key v is = is := by
    intro is his
    have hid : setItems key v is = is.map id := by
      apply List.map_congr_left
      intro j hj
      exact if_neg (hi ▸ hother j (his j hj))
    rw [hid, List.map_id]
  have happ : setItems key v (f ++ i :: b) =
      setItems key v f ++ (if i.key = key then { i with value := decimal v } else i) ::
        setItems key v b := by
    rw [setItems, List.map_append, List.map_cons]
    rfl
  rw [happ, if_pos hi, hkept f fun j => List.mem_append_left b,
    hkept b fun j => List.mem_append_right f]

theorem free_blank (hk : Word key) (hg : AllWs g) : findKey g key = none := by
  have h := findKey_wsBehind hk (whitespace_of_allWs hg) []
  rw [List.nil_append, findKey_nil] at h
  exact h

theorem allFree_items {is : List Item} (hfits : ∀ i ∈ is, i.Fits key)
    (hne : ∀ i ∈ is, i.key ≠ key) : AllFree key (is.map .item) := by
  intro c hc
  obtain ⟨i, hi, rfl⟩ := List.mem_map.1 hc
  exact (hfits i hi).free (hne i hi)

theorem allFree_tail (hk : Word key) (h : Tail tail) : AllFree key tail := by
  obtain rfl | ⟨g, hg, -, rfl⟩ := h
  · intro c hc
    cases hc
  · intro c hc
    rw [List.mem_singleton.1 hc]
    exact free_blank hk hg

theorem AllFree.append (h : AllFree key cs) (h' : AllFree key cs') : AllFree key (cs ++ cs') :=
  fun c hc => (List.mem_append.1 hc).elim (h c) (h' c)

/-- What is needed of an item to find its number. -/
structure Item.Numbered (key : List Char) (i : Item) : Prop where
  owns : i.Owns key
  counts : i.Counts
  lead : Trivia i.lead
  line : '\n' ∉ i.lead
  trail : Trivia i.trail

theorem numbered {i : Item} (hk : Word key) (ht : i.Tidy) (hfit : i.Fits key) (hi : i.key = key) :
    i.Numbered key where
  owns := ⟨hi, free_blank hk ht.lead, whitespace_of_allWs ht.gap⟩
  counts := by
    obtain ⟨n, hn⟩ := hfit.counts hi
    refine ⟨whitespace_of_allWs ht.mid, ?_, ?_⟩
    · rw [hn]
      exact decimal_ne_nil n
    · rw [hn]
      exact decimal_digits n
  lead := ht.lead.trivia
  line hmem := ht.line (by rw [Item.text]; simp [hmem])
  trail := ht.trail.trivia

theorem setNumber_found (hk : Word key) {is : List Item} (hkeys : (is.map Item.key).Nodup)
    (htidy : ∀ i ∈ is, i.Tidy) (hfits : ∀ i ∈ is, i.Fits key) (hin : ∃ i ∈ is, i.key = key)
    (tail : List Cell) (v : UInt64) :
    setNumberInObject (limitText is tail) key (some v) = limitText (setItems key v is) tail := by
  obtain ⟨i, hmem, hi⟩ := hin
  obtain ⟨f, b, rfl, hother⟩ := split_at_key hkeys hmem
  have hfront : AllFree key (f.map .item) :=
    allFree_items (fun j hj => hfits j (List.mem_append_left _ hj)) fun j hj =>
      hi ▸ hother j (List.mem_append_left _ hj)
  have hnum := numbered hk (htidy i hmem) (hfits i hmem) hi
  rw [setItems_at hi hother, limitText, limitText, List.map_append, List.map_cons,
    List.append_assoc, List.cons_append]
  rw [setNumberInObject_found hk hfront hnum.owns hnum.counts hnum.lead hnum.line hnum.trail]
  simp

/-- An entry's number is the one that was set. -/
theorem raw_decimal (codec : FloatCodec) (d : Nat) (v : UInt64) :
    Raw codec d (decimal v) (u64 v) := by
  apply raw_of_tok
  have hreadable : Readable codec (.posInt v) := trivial
  have hnum := (printNumber_reads hreadable).1
  have hread := numberOf_printNumber hreadable
  have htok := Tok.leaf (.num (h := valueHandlers codec) hnum hread) d
  have htext : (printNumber codec (.posInt v)).text = decimal v := by
    simp [printNumber, NumLit.text, decimal]
  rw [htext] at htok
  exact htok

theorem holds_setItems (hk : Word key) (h : List.Forall₂ (Item.Holds codec d) is es)
    (hfits : ∀ i ∈ is, i.Fits key) (v : UInt64) :
    List.Forall₂ (Item.Holds codec d) (setItems key v is)
      (setEntries (String.ofList key) v es) := by
  induction h with
  | nil => exact .nil
  | @cons i e is es hi _ ih =>
    refine .cons ?_ (ih fun j hj => hfits j (List.mem_cons_of_mem _ hj))
    have hiff := holds_key_iff hk hi (hfits i List.mem_cons_self)
    dsimp only
    by_cases hkey : i.key = key
    · rw [if_pos hkey, if_pos (hiff.2 hkey)]
      exact ⟨hi.lead, hi.key, hi.free, hi.gap, hi.mid, raw_decimal codec d v, hi.trail⟩
    · rw [if_neg hkey, if_neg fun he => hkey (hiff.1 he)]
      exact hi

/-! What is kept of the items. -/

theorem free_number (hk : Word key) (hne : ds ≠ []) (hds : ∀ c ∈ ds, c.isDigit = true)
    (s t : List Char) :
    findKey (s ++ ds ++ t) key = none ↔ findKey s key = none ∧ findKey t key = none := by
  have hbehind : ∀ ds : List Char, (∀ c ∈ ds, c.isDigit = true) →
      (findKey (ds ++ t) key = none ↔ findKey t key = none) := by
    intro ds hds
    induction ds with
    | nil => rfl
    | cons c ds ih =>
      have hc : c ≠ '"' := (hk.digit (hds c List.mem_cons_self)).1
      rw [List.cons_append, findKey_cons hc, Option.map_eq_none_iff]
      exact ih fun d hd => hds d (List.mem_cons_of_mem c hd)
  obtain ⟨d, ds, rfl⟩ := List.exists_cons_of_ne_nil hne
  have hd := hk.digit (hds d List.mem_cons_self)
  rw [List.append_assoc, List.cons_append, findKey_free_split hd,
    hbehind ds fun c hc => hds c (List.mem_cons_of_mem d hc)]

theorem text_value (i : Item) : i.text = (i.lead ++ i.name ++ i.mid) ++ i.value ++ i.trail := by
  rw [Item.text]
  simp

theorem dull_digit (h : Char.isDigit c = true) : Dull '{' '}' c := by
  have hrange := isDigit_range h
  refine ⟨?_, ?_, ?_, ?_⟩ <;>
  · rintro rfl
    revert hrange
    decide

theorem newline_decimal (v : UInt64) : '\n' ∉ decimal v := by
  intro hmem
  cases decimal_digits v _ hmem

theorem Item.Tidy.set {i : Item} (h : i.Tidy) (v : UInt64) :
    Item.Tidy { i with value := decimal v } where
  lead := h.lead
  gap := h.gap
  mid := h.mid
  trail := h.trail
  value := neutral_dull fun c hc => dull_digit (decimal_digits v c hc)
  line := by
    have hline := h.line
    rw [text_value] at hline ⊢
    simp only [List.mem_append, not_or] at hline ⊢
    exact ⟨⟨hline.1.1, newline_decimal v⟩, hline.2⟩

theorem Item.Fits.set {i : Item} (h : i.Fits word) (hk : Word word) (hown : i.Fits own)
    (hi : i.key = own) (v : UInt64) : Item.Fits word { i with value := decimal v } where
  counts _ := ⟨v, rfl⟩
  free hne := by
    have hfree := h.free hne
    obtain ⟨n, hn⟩ := hown.counts hi
    rw [text_value, hn, free_number hk (decimal_ne_nil n) (decimal_digits n)] at hfree
    rw [text_value]
    exact (free_number hk (decimal_ne_nil v) (decimal_digits v) _ _).2 hfree
  spelled := h.spelled

theorem keys_setEntries (k : String) (v : UInt64) (es : List (String × Value)) :
    Fields.keys (setEntries k v es) = Fields.keys es := by
  rw [Fields.keys, Fields.keys, setEntries, List.map_map]
  rfl

/-- A limit object stays one when a number of it is set. -/
theorem LimitItems.set (h : LimitItems codec d is es) (hk : Word key)
    (hfits : ∀ i ∈ is, i.Fits key) (v : UInt64) :
    LimitItems codec d (setItems key v is) (setEntries (String.ofList key) v es) := by
  have hitem : ∀ {P : Item → Prop}, (∀ i ∈ is, P i) →
      (∀ i ∈ is, i.key = key → P i → P { i with value := decimal v }) →
      ∀ i ∈ setItems key v is, P i := by
    intro P hP hset i hi
    obtain ⟨j, hj, rfl⟩ := List.mem_map.1 hi
    split
    · next hkey => exact hset j hj hkey (hP j hj)
    · exact hP j hj
  refine ⟨holds_setItems hk h.holds hfits v, hitem h.tidy fun _ _ _ ht => ht.set v,
    hitem h.context fun i hi hkey hc => hc.set (by decide) (hfits i hi) hkey v,
    hitem h.input fun i hi hkey hc => hc.set (by decide) (hfits i hi) hkey v, ?_, ?_⟩
  · obtain ⟨i, hi, hkey⟩ := h.named
    refine ⟨_, List.mem_map_of_mem hi, ?_⟩
    split
    · exact hkey
    · exact hkey
  · rw [keys_setEntries]
    exact h.keys

/-! Items that come, go and move. -/

theorem forall_mem_middle {P : α → Prop} {f b : List α} :
    (∀ j ∈ f ++ i :: b, P j) ↔ P i ∧ ∀ j ∈ f ++ b, P j := by
  constructor
  · intro h
    refine ⟨h i (by simp), fun j hj => h j ?_⟩
    obtain hj | hj := List.mem_append.1 hj
    · exact List.mem_append_left _ hj
    · exact List.mem_append_right f (List.mem_cons_of_mem i hj)
  · rintro ⟨hi, h⟩ j hj
    obtain hj | hj := List.mem_append.1 hj
    · exact h j (List.mem_append_left b hj)
    · obtain rfl | hj := List.mem_cons.1 hj
      · exact hi
      · exact h j (List.mem_append_right f hj)

theorem forall₂_split {R : α → β → Prop} {f b : List α}
    (h : List.Forall₂ R (f ++ i :: b) es) :
    ∃ es₁ e es₂, es = es₁ ++ e :: es₂ ∧ List.Forall₂ R f es₁ ∧ R i e ∧ List.Forall₂ R b es₂ := by
  induction f generalizing es with
  | nil =>
    cases h with
    | cons hi hb => exact ⟨[], _, _, rfl, .nil, hi, hb⟩
  | cons j f ih =>
    cases h with
    | cons hj h =>
      obtain ⟨es₁, e, es₂, rfl, hf, hi, hb⟩ := ih h
      exact ⟨_ :: es₁, e, es₂, rfl, .cons hj hf, hi, hb⟩

/-- Whitespace on one line. -/
def Blank (g : List Char) : Prop := AllWs g ∧ '\n' ∉ g

theorem blank_nil : Blank [] := ⟨allWs_nil, List.not_mem_nil⟩

theorem Blank.append (h : Blank g) (h' : Blank g') : Blank (g ++ g') :=
  ⟨h.1.append h'.1, fun hmem => (List.mem_append.1 hmem).elim h.2 h'.2⟩

theorem Item.Tidy.blank_lead {i : Item} (h : i.Tidy) : Blank i.lead :=
  ⟨h.lead, fun hmem => h.line (by rw [Item.text]; simp [hmem])⟩

theorem Item.Tidy.blank_trail {i : Item} (h : i.Tidy) : Blank i.trail :=
  ⟨h.trail, fun hmem => h.line (by rw [Item.text]; simp [hmem])⟩

/-- The item with other whitespace around it. -/
def Item.respaced (i : Item) (lead trail : List Char) : Item :=
  { i with lead := lead, trail := trail }

theorem Item.Tidy.respaced {i : Item} (h : i.Tidy) (hl : Blank l) (ht : Blank t) :
    (i.respaced l t).Tidy where
  lead := hl.1
  gap := h.gap
  mid := h.mid
  trail := ht.1
  value := h.value
  line := by
    have hline := h.line
    rw [Item.text] at hline ⊢
    simp only [List.mem_append, not_or] at hline ⊢
    exact ⟨⟨hl.2, hline.1.2⟩, hline.2.1, ht.2⟩

theorem free_inside {i : Item} (hk : Word word) (hl : AllWs i.lead) (ht : AllWs i.trail) :
    findKey i.text word = none ↔ findKey (i.name ++ (i.mid ++ i.value)) word = none := by
  have happ : i.text = i.lead ++ (i.name ++ (i.mid ++ i.value)) ++ i.trail := by
    rw [Item.text]
    simp
  rw [happ, findKey_wsBehind hk (whitespace_of_allWs ht), Option.map_eq_none_iff,
    findKey_wsBefore (whitespace_of_allWs hl), Option.map_eq_none_iff]

theorem Item.Fits.respaced {i : Item} (h : i.Fits word) (hk : Word word) (htidy : i.Tidy)
    (hl : AllWs l) (ht : AllWs t) : (i.respaced l t).Fits word where
  counts := h.counts
  free hne := (free_inside hk hl ht).2 ((free_inside hk htidy.lead htidy.trail).1 (h.free hne))
  spelled := h.spelled

theorem Item.Holds.respaced {i : Item} (h : i.Holds codec d e) (hl : AllWs l) (ht : AllWs t) :
    (i.respaced l t).Holds codec d e :=
  ⟨hl.trivia, h.key, h.free, h.gap, h.mid, h.value, ht.trivia⟩

theorem LimitItems.respace {f b : List Item} (h : LimitItems codec d (f ++ i :: b) es)
    (hl : Blank l) (ht : Blank t) : LimitItems codec d (f ++ i.respaced l t :: b) es := by
  have htidy := forall_mem_middle.1 h.tidy
  have hcontext := forall_mem_middle.1 h.context
  have hinput := forall_mem_middle.1 h.input
  constructor
  · obtain ⟨es₁, e, es₂, rfl, hf, hi, hb⟩ := forall₂_split h.holds
    exact List.rel_append hf (.cons (hi.respaced hl.1 ht.1) hb)
  · exact forall_mem_middle.2 ⟨htidy.1.respaced hl ht, htidy.2⟩
  · exact forall_mem_middle.2
      ⟨hcontext.1.respaced (by decide) htidy.1 hl.1 ht.1, hcontext.2⟩
  · exact forall_mem_middle.2 ⟨hinput.1.respaced (by decide) htidy.1 hl.1 ht.1, hinput.2⟩
  · obtain ⟨j, hj, hkey⟩ := h.named
    obtain hj | hj := List.mem_append.1 hj
    · exact ⟨j, List.mem_append_left _ hj, hkey⟩
    · obtain rfl | hj := List.mem_cons.1 hj
      · exact ⟨_, List.mem_append_right f List.mem_cons_self, hkey⟩
      · exact ⟨j, List.mem_append_right f (List.mem_cons_of_mem _ hj), hkey⟩
  · exact h.keys

theorem keys_middle (es₁ es₂ : List (String × α)) (e : String × α) :
    (Fields.keys (es₁ ++ e :: es₂)).Nodup ↔
      e.1 ∉ Fields.keys (es₁ ++ es₂) ∧ (Fields.keys (es₁ ++ es₂)).Nodup := by
  rw [Fields.keys, Fields.keys, List.map_append, List.map_cons, List.nodup_middle,
    List.nodup_cons, List.map_append]

theorem get_middle {es₁ es₂ : List (String × α)} (h : k ∉ Fields.keys (es₁ ++ es₂)) (v : α)
    (l : String) : Fields.get (es₁ ++ (k, v) :: es₂) l =
      if l = k then some v else Fields.get (es₁ ++ es₂) l := by
  rw [Fields.get_append, Fields.get_append, Fields.get_cons]
  by_cases hl : l = k
  · subst hl
    have hnone : Fields.get es₁ l = none := by
      rw [Fields.get_eq_none_iff]
      intro hmem
      apply h
      rw [Fields.keys, List.map_append]
      exact List.mem_append_left _ hmem
    rw [hnone, if_pos rfl, if_pos rfl]
    rfl
  · rw [if_neg hl, if_neg (Ne.symm hl)]

/-- A limit object stays one without an item that is not its context. -/
theorem LimitItems.erase {f b : List Item} (h : LimitItems codec d (f ++ i :: b) es)
    (hne : i.key ≠ contextKey) :
    ∃ e es', LimitItems codec d (f ++ b) es' ∧ i.Holds codec d e ∧
      ∀ k, Fields.get es' k = if k = e.1 then none else Fields.get es k := by
  obtain ⟨es₁, ⟨k, v⟩, es₂, rfl, hf, hi, hb⟩ := forall₂_split h.holds
  obtain ⟨hnew, hkeys⟩ := (keys_middle es₁ es₂ (k, v)).1 h.keys
  refine ⟨(k, v), es₁ ++ es₂, ?_, hi, ?_⟩
  · constructor
    · exact List.rel_append hf hb
    · exact (forall_mem_middle.1 h.tidy).2
    · exact (forall_mem_middle.1 h.context).2
    · exact (forall_mem_middle.1 h.input).2
    · obtain ⟨j, hj, hkey⟩ := h.named
      refine ⟨j, ?_, hkey⟩
      obtain hj | hj := List.mem_append.1 hj
      · exact List.mem_append_left _ hj
      · obtain rfl | hj := List.mem_cons.1 hj
        · exact absurd hkey hne
        · exact List.mem_append_right f hj
    · exact hkeys
  · intro l
    rw [get_middle hnew]
    by_cases hl : l = k
    · rw [if_pos hl, hl]
      exact Fields.get_eq_none_iff.2 hnew
    · rw [if_neg hl, if_neg hl]

theorem notMem_keys (hk : Word key) (h : List.Forall₂ (Item.Holds codec d) is es)
    (hfits : ∀ i ∈ is, i.Fits key) (hne : ∀ i ∈ is, i.key ≠ key) :
    String.ofList key ∉ Fields.keys es := by
  induction h with
  | nil => exact List.not_mem_nil
  | @cons i e is es hi _ ih =>
    intro hmem
    obtain heq | hmem := List.mem_cons.1 hmem
    · exact hne i List.mem_cons_self
        ((holds_key_iff hk hi (hfits i List.mem_cons_self)).1 heq.symm)
    · exact ih (fun j hj => hfits j (List.mem_cons_of_mem i hj))
        (fun j hj => hne j (List.mem_cons_of_mem i hj)) hmem

theorem plain_input : Json.Plain inputKey := Word.plain (by decide)

theorem input_ne_context : inputKey ≠ contextKey := by decide

theorem numberItem_input (v : UInt64) (t : List Char) :
    (numberItem inputKey v t).Fits inputKey where
  counts _ := ⟨v, rfl⟩
  free h := absurd rfl h
  spelled _ := rfl

section
variable (v : UInt64) (ht : Blank t)
include ht

theorem numberItem_tidy : (numberItem inputKey v t).Tidy where
  lead := allWs_singleton rfl
  gap := allWs_nil
  mid := allWs_singleton rfl
  trail := ht.1
  value := neutral_dull fun c hc => dull_digit (decimal_digits v c hc)
  line := by
    rw [numberItem_text, numberEntry]
    simp [inputKey, newline_decimal v, ht.2]

theorem numberItem_context : (numberItem inputKey v t).Fits contextKey where
  counts h := absurd h input_ne_context
  free _ := by
    have hname : findKey [' ', '"', 'i', 'n', 'p', 'u', 't', '"', ':', ' '] contextKey = none := by
      decide
    rw [text_value]
    exact (free_number (by decide) (decimal_ne_nil v) (decimal_digits v) _ _).2
      ⟨hname, free_blank (by decide) ht.1⟩
  spelled h := StrBody.unique plain_input.strBody h

theorem numberItem_holds (codec : FloatCodec) (d : Nat) :
    (numberItem inputKey v t).Holds codec d (String.ofList inputKey, u64 v) where
  lead := (allWs_singleton rfl).trivia
  key := ⟨inputKey, plain_input.strBody, rfl⟩
  free := plain_input.quoteFree
  gap := allWs_nil.trivia
  mid := (allWs_singleton rfl).trivia
  value := raw_decimal codec d v
  trail := ht.1.trivia

/-- A limit object stays one with an input behind another item. -/
theorem LimitItems.insert {f b : List Item} (h : LimitItems codec d (f ++ i :: b) es)
    (hnone : ∀ j ∈ f ++ i :: b, j.key ≠ inputKey) :
    ∃ es', LimitItems codec d (f ++ i :: numberItem inputKey v t :: b) es' ∧
      ∀ k, Fields.get es' k =
        if k = String.ofList inputKey then some (u64 v) else Fields.get es k := by
  have hnew := notMem_keys (by decide) h.holds h.input hnone
  have happ : f ++ i :: numberItem inputKey v t :: b =
      (f ++ [i]) ++ numberItem inputKey v t :: b := by simp
  have hsame : f ++ i :: b = (f ++ [i]) ++ b := by simp
  have htidy := h.tidy
  have hcontext := h.context
  have hinput := h.input
  obtain ⟨j, hj, hkey⟩ := h.named
  rw [hsame] at htidy hcontext hinput hj
  obtain ⟨es₁, e, es₂, rfl, hf, hi, hb⟩ := forall₂_split h.holds
  have hes : es₁ ++ e :: es₂ = (es₁ ++ [e]) ++ es₂ := by simp
  have hkeys := h.keys
  rw [hes] at hnew hkeys
  refine ⟨(es₁ ++ [e]) ++ (String.ofList inputKey, u64 v) :: es₂, ?_, ?_⟩
  · rw [happ]
    constructor
    · exact List.rel_append (List.rel_append hf (.cons hi .nil))
        (.cons (numberItem_holds v ht codec d) hb)
    · exact forall_mem_middle.2 ⟨numberItem_tidy v ht, htidy⟩
    · exact forall_mem_middle.2 ⟨numberItem_context v ht, hcontext⟩
    · exact forall_mem_middle.2 ⟨numberItem_input v t, hinput⟩
    · refine ⟨j, ?_, hkey⟩
      obtain hj | hj := List.mem_append.1 hj
      · exact List.mem_append_left _ hj
      · exact List.mem_append_right _ (List.mem_cons_of_mem _ hj)
    · exact (keys_middle _ _ _).2 ⟨hnew, hkeys⟩
  · intro k
    rw [get_middle hnew, hes]

end

end LocalMind.Switcher
