import LocalMind.Switcher.Limits

namespace LocalMind.Switcher
open Json Text
set_option autoImplicit true

/-! The text without a number. -/

theorem rsplitOnce_mark (h : c ∉ b) (a : List Char) :
    rsplitOnce c (a ++ c :: b) = some (a, b) := by
  have hrev : (a ++ c :: b).reverse = b.reverse ++ c :: a.reverse := by simp
  rw [rsplitOnce, hrev, splitOnce_mark (by rwa [List.mem_reverse])]
  simp

theorem rsplitOnce_notMem (h : c ∉ s) : rsplitOnce c s = none := by
  rw [rsplitOnce, Option.map_eq_none_iff]
  cases hs : splitOnce [c] s.reverse with
  | none => rfl
  | some r =>
    have heq := splitOnce_eq_some hs
    apply absurd _ h
    rw [← List.mem_reverse, heq]
    simp

theorem trim_blank (hg : AllWs g) : trim g = [] := by
  rw [trim, trimStart, List.dropWhile_eq_nil_iff.2 (whitespace_of_allWs hg)]
  rfl

theorem comma_notMem (hg : AllWs g) : ',' ∉ g := by
  intro hmem
  cases hg _ hmem

theorem removeEntry_comma (hg : AllWs g) (a after : List Char) :
    removeEntry (a ++ ',' :: g) after = a ++ after := by
  have hempty : ((some (a, g)).filter fun r => (trim r.2).isEmpty) = some (a, g) := by
    simp [trim_blank hg]
  rw [removeEntry, rsplitOnce_mark (comma_notMem hg), hempty]

theorem removeEntry_first (hb : ',' ∉ before) (hg : AllWs g) (rest : List Char) :
    removeEntry before (g ++ ',' :: rest) = before ++ trimStart rest := by
  have htrim : trimStart (g ++ ',' :: rest) = ',' :: rest := by
    rw [trimStart_append (whitespace_of_allWs hg), trimStart_cons (by decide)]
  rw [removeEntry, rsplitOnce_notMem hb, Option.filter_none, htrim]
  rfl

theorem setNumberInObject_removed {front : List Cell} (hk : Word key)
    (hfront : AllFree key front) (hi : i.Numbered key) (back : List Cell) :
    setNumberInObject (objectOf (front ++ .item i :: back)) key none =
      removeEntry ('{' :: upTo front ++ i.lead) (i.trail ++ (behind back ++ ['}'])) := by
  have hfind := findKey_item hk hfront hi.owns hi.lead hi.line back
  rw [setNumberInObject.eq_def, hfind]
  dsimp only
  rw [leadingNumber_item hi.counts hi.trail]

/-- Behind another item, what follows moves up to that one. -/
theorem removed_behind {f b : List Item} (hk : Word key)
    (hfront : AllFree key ((f ++ [j]).map .item)) (hi : i.Numbered key) (hlead : AllWs i.lead)
    (tail : List Cell) :
    setNumberInObject (limitText (f ++ j :: i :: b) tail) key none =
      limitText (f ++ j.respaced j.lead (j.trail ++ i.trail) :: b) tail := by
  have hcells : (f ++ j :: i :: b).map Cell.item ++ tail =
      (f ++ [j]).map .item ++ .item i :: (b.map .item ++ tail) := by simp
  have hup : '{' :: upTo ((f ++ [j]).map .item) ++ i.lead =
      ('{' :: upTo (f.map .item) ++ j.text) ++ ',' :: i.lead := by
    simp [upTo, Cell.text]
  rw [limitText, limitText, hcells, setNumberInObject_removed hk hfront hi, hup,
    removeEntry_comma hlead]
  have hat : (f ++ j.respaced j.lead (j.trail ++ i.trail) :: b).map Cell.item ++ tail =
      f.map .item ++ .item (j.respaced j.lead (j.trail ++ i.trail)) :: (b.map .item ++ tail) := by
    simp
  rw [hat, objectOf_at, Cell.text, Item.text, Item.text, Item.respaced, Item.name, Item.name]
  simp

/-- Before all others, the next item comes to its place. -/
theorem removed_first {b : List Item} (hk : Word key) (hi : i.Numbered key) (hlead : AllWs i.lead)
    (htrail : AllWs i.trail) (hjlead : AllWs j.lead) (tail : List Cell) :
    setNumberInObject (limitText (i :: j :: b) tail) key none =
      limitText (j.respaced i.lead j.trail :: b) tail := by
  have hfree : AllFree key ([] : List Cell) := fun c hc => absurd hc List.not_mem_nil
  have hremoved := setNumberInObject_removed hk hfree hi (.item j :: (b.map .item ++ tail))
  have hbehind : behind (.item j :: (b.map .item ++ tail)) ++ ['}'] =
      ',' :: (j.lead ++ (j.name ++ (j.mid ++ j.value ++ j.trail ++
        (behind (b.map .item ++ tail) ++ ['}'])))) := by
    rw [behind, List.flatMap_cons, Cell.text, Item.text]
    simp [behind]
  have hname : ∀ r, trimStart (j.lead ++ (j.name ++ r)) = j.name ++ r := by
    intro r
    rw [trimStart_append (whitespace_of_allWs hjlead)]
    exact trimStart_cons (by decide) _
  have hbefore : ',' ∉ '{' :: upTo [] ++ i.lead := by
    simp [upTo, comma_notMem hlead]
  rw [List.nil_append, hbehind, removeEntry_first hbefore htrail, hname] at hremoved
  rw [limitText, limitText, List.map_cons, List.map_cons, List.map_cons, List.cons_append,
    List.cons_append, List.cons_append, hremoved]
  have hat := objectOf_at [] (b.map .item ++ tail) (.item (j.respaced i.lead j.trail))
  rw [List.nil_append] at hat
  rw [hat, Cell.text, Item.text, Item.respaced, Item.name, Item.name]
  simp

/-! What an edit of a number leaves of a limit object. -/

def Sets (k : String) (val : Option UInt64) (es es' : List (String × Value)) : Prop :=
  ∀ l, Fields.get es' l = if l = k then val.map u64 else Fields.get es l

/-- The edit gives the text of a limit object with the number set or removed. -/
def Edited (codec : FloatCodec) (d : Nat) (is : List Item) (tail : List Cell)
    (es : List (String × Value)) (key : List Char) (val : Option UInt64) : Prop :=
  ∃ is' es', setNumberInObject (limitText is tail) key val = limitText is' tail ∧
    LimitItems codec d is' es' ∧ Sets (String.ofList key) val es es'

theorem mem_keys {i : Item} (hk : Word key) (h : List.Forall₂ (Item.Holds codec d) is es)
    (hi : i ∈ is) (hfit : i.Fits key) (hkey : i.key = key) :
    String.ofList key ∈ Fields.keys es := by
  obtain ⟨f, b, rfl⟩ := List.append_of_mem hi
  obtain ⟨es₁, e, es₂, rfl, -, hholds, -⟩ := forall₂_split h
  rw [← (holds_key_iff hk hholds hfit).2 hkey]
  exact List.mem_map_of_mem (List.mem_append_right es₁ List.mem_cons_self)

theorem LimitItems.setFound (h : LimitItems codec d is es) (hk : Word key)
    (hfits : ∀ i ∈ is, i.Fits key) (hin : ∃ i ∈ is, i.key = key) (tail : List Cell)
    (v : UInt64) : Edited codec d is tail es key (some v) := by
  refine ⟨_, _, setNumber_found hk (nodup_items h.holds h.keys) h.tidy hfits hin tail v,
    h.set hk hfits v, ?_⟩
  intro l
  have hget := Fields.get_mapKeys (fun l w => if l = String.ofList key then u64 v else w) es l
  rw [setEntries, hget]
  by_cases hl : l = String.ofList key
  · subst hl
    obtain ⟨i, hi, hkey⟩ := hin
    have hmem := mem_keys hk h.holds hi (hfits i hi) hkey
    cases hes : Fields.get es (String.ofList key) with
    | none => exact absurd hmem (Fields.get_eq_none_iff.1 hes)
    | some w => simp
  · simp [hl]

theorem setNumber_absent {is : List Item} (hk : Word key) (hfits : ∀ i ∈ is, i.Fits key)
    (hnone : ∀ i ∈ is, i.key ≠ key) (ht : Tail tail) :
    setNumberInObject (limitText is tail) key none = limitText is tail := by
  have hfree : AllFree key (is.map .item ++ tail) :=
    (allFree_items hfits hnone).append (allFree_tail hk ht)
  rw [setNumberInObject.eq_def, limitText, findKey_objectOf_free hk hfree]

theorem cells_middle (f b : List Item) (i : Item) (tail : List Cell) :
    (f ++ i :: b).map Cell.item ++ tail = f.map .item ++ .item i :: (b.map .item ++ tail) := by
  simp

theorem LimitItems.inserted (h : LimitItems codec d is es) (ht : Tail tail)
    (hnone : ∀ i ∈ is, i.key ≠ inputKey) (v : UInt64) :
    Edited codec d is tail es inputKey (some v) := by
  have hinput : Word inputKey := by decide
  have hcontext : Word contextKey := by decide
  obtain ⟨i, hi, hkey⟩ := h.named
  have hnum := numbered hcontext (h.tidy i hi) (h.context i hi) hkey
  have hfree : AllFree inputKey (is.map .item ++ tail) :=
    (allFree_items h.input hnone).append (allFree_tail hinput ht)
  have hlead := (h.tidy i hi).blank_lead
  have htrail := (h.tidy i hi).blank_trail
  obtain ⟨f, b, rfl, hother⟩ := split_at_key (nodup_items h.holds h.keys) hi
  have hfront : AllFree contextKey (f.map .item) :=
    allFree_items (fun j hj => h.context j (List.mem_append_left _ hj)) fun j hj =>
      hkey ▸ hother j (List.mem_append_left b hj)
  have hafter := h.respace hlead blank_nil
  have hnone' : ∀ j ∈ f ++ i.respaced i.lead [] :: b, j.key ≠ inputKey :=
    forall_mem_middle.2 (forall_mem_middle.1 hnone)
  obtain ⟨es', hitems, hget⟩ := hafter.insert v htrail hnone'
  refine ⟨_, es', ?_, hitems, hget⟩
  rw [cells_middle] at hfree
  rw [limitText, cells_middle, setNumberInObject_after hfree hfront hnum.owns hnum.counts hnum.lead
    hnum.line hnum.trail]
  rw [limitText, cells_middle, List.map_cons, List.cons_append]
  rfl

theorem LimitItems.removed (h : LimitItems codec d is es) (hi : i ∈ is)
    (hkey : Item.key i = inputKey) (tail : List Cell) :
    Edited codec d is tail es inputKey none := by
  have hinput : Word inputKey := by decide
  have htidy := h.tidy i hi
  have hnum := numbered hinput htidy (h.input i hi) hkey
  obtain ⟨f, b, rfl, hother⟩ := split_at_key (nodup_items h.holds h.keys) hi
  obtain ⟨e, es', hitems, hholds, hget⟩ := h.erase (by rw [hkey]; exact input_ne_context)
  have he := (holds_key_iff hinput hholds (h.input i hi)).2 hkey
  have hsets : Sets (String.ofList inputKey) none es es' := by
    intro l
    rw [hget l, he]
    rfl
  obtain rfl | ⟨f, j, rfl⟩ := List.eq_nil_or_concat' f
  · cases b with
    | nil =>
      obtain ⟨j, hj, -⟩ := hitems.named
      cases hj
    | cons j b =>
      have hj := hitems.tidy j List.mem_cons_self
      refine ⟨_, es', removed_first hinput hnum htidy.lead htidy.trail hj.lead tail, ?_, hsets⟩
      exact hitems.respace (f := []) htidy.blank_lead hj.blank_trail
  · have hfront : AllFree inputKey ((f ++ [j]).map .item) :=
      allFree_items (fun k hk => h.input k (List.mem_append_left _ hk)) fun k hk =>
        hkey ▸ hother k (List.mem_append_left b hk)
    have happ : f ++ [j] ++ i :: b = f ++ j :: i :: b := by simp
    have happ' : f ++ [j] ++ b = f ++ j :: b := by simp
    rw [happ'] at hitems
    have hj := (forall_mem_middle.1 hitems.tidy).1
    refine ⟨_, es', ?_, hitems.respace hj.blank_lead (hj.blank_trail.append htidy.blank_trail),
      hsets⟩
    rw [happ]
    exact removed_behind hinput hfront hnum htidy.lead tail

/-- Setting a context, or setting or removing an input, keeps a limit object one. -/
theorem LimitItems.edited (h : LimitItems codec d is es) (ht : Tail tail)
    (hcase : key = contextKey ∧ val ≠ none ∨ key = inputKey) :
    Edited codec d is tail es key val := by
  obtain ⟨rfl, hval⟩ | rfl := hcase
  · obtain ⟨v, rfl⟩ := Option.ne_none_iff_exists'.1 hval
    exact h.setFound (by decide) h.context h.named tail v
  · by_cases hin : ∃ i ∈ is, i.key = inputKey
    · cases val with
      | some v => exact h.setFound (by decide) h.input hin tail v
      | none =>
        obtain ⟨i, hi, hkey⟩ := hin
        exact h.removed hi hkey tail
    · have hnone : ∀ i ∈ is, i.key ≠ inputKey := fun i hi hkey => hin ⟨i, hi, hkey⟩
      cases val with
      | some v => exact h.inserted ht hnone v
      | none =>
        refine ⟨is, es, setNumber_absent (by decide) h.input hnone ht, h, ?_⟩
        intro l
        by_cases hl : l = String.ofList inputKey
        · rw [if_pos hl, hl]
          exact Fields.get_eq_none_iff.2 (notMem_keys (by decide) h.holds h.input hnone)
        · rw [if_neg hl]

/-! Limit objects as values. -/

/-- The text of a limit object. -/
def LimitText (codec : FloatCodec) (d : Nat) (m : List Char) (v : Value) : Prop :=
  ∃ e is tail es, d = e + 1 ∧ m = limitText is tail ∧ Tail tail ∧ LimitItems codec e is es ∧
    v = .object es

theorem cellsHold_items (h : List.Forall₂ (Item.Holds codec d) is es) (ht : Tail tail) :
    CellsHold codec d (is.map .item ++ tail) es := by
  induction h with
  | nil =>
    obtain rfl | ⟨g, hg, -, rfl⟩ := ht
    · exact .nil
    · exact .blank hg.trivia .nil
  | cons hi _ ih => exact .item hi ih

theorem LimitItems.raw (h : LimitItems codec d is es) (ht : Tail tail) :
    Raw codec (d + 1) (limitText is tail) (.object es) := by
  have hne : is ≠ [] := by
    obtain ⟨i, hi, -⟩ := h.named
    exact List.ne_nil_of_mem hi
  have hshape : Shape (is.map .item ++ tail) := by
    obtain rfl | ⟨g, -, -, rfl⟩ := ht
    · rw [List.append_nil]
      exact .items hne
    · exact .trailing hne
  have hraw := raw_object (cellsHold_items h.holds ht) hshape
  have hes : Fields.insertAll [] es = es := Fields.insertAll_of_nodup (m := []) h.keys
  rw [hes] at hraw
  exact hraw

theorem LimitText.raw (h : LimitText codec d m v) : Raw codec d m v := by
  obtain ⟨e, is, tail, es, rfl, rfl, ht, hitems, rfl⟩ := h
  exact hitems.raw ht

theorem newline_cells {cs : List Cell} (h : ∀ c ∈ cs, '\n' ∉ c.text) : '\n' ∉ cellsText cs := by
  induction cs with
  | nil => exact List.not_mem_nil
  | cons c cs ih =>
    have hc := h c List.mem_cons_self
    by_cases hcs : cs = []
    · subst hcs
      rw [cellsText_singleton]
      exact hc
    · have hrest := ih fun c' hc' => h c' (List.mem_cons_of_mem c hc')
      rw [cellsText_cons c hcs]
      simp [hc, hrest]

theorem forall_cells {P : List Char → Prop} {is : List Item} (hitems : ∀ i ∈ is, P i.text)
    (ht : Tail tail) (hblank : ∀ g, Blank g → P g) : ∀ c ∈ is.map .item ++ tail, P c.text := by
  intro c hc
  obtain hc | hc := List.mem_append.1 hc
  · obtain ⟨i, hi, rfl⟩ := List.mem_map.1 hc
    exact hitems i hi
  · obtain rfl | ⟨g, hg, hline, rfl⟩ := ht
    · cases hc
    · rw [List.mem_singleton.1 hc]
      exact hblank g ⟨hg, hline⟩

theorem LimitItems.line (h : LimitItems codec d is es) (ht : Tail tail) :
    '\n' ∉ limitText is tail := by
  have hcells := newline_cells (forall_cells (fun i hi => (h.tidy i hi).line) ht fun g hg => hg.2)
  rw [limitText, objectOf]
  simp [hcells]

/-- Both keys that an edit may ask for are read off the text. -/
theorem LimitItems.fits (h : LimitItems codec d is es)
    (hcase : key = contextKey ∧ val ≠ (none : Option UInt64) ∨ key = inputKey) :
    Word key ∧ ∀ i ∈ is, i.Fits key := by
  obtain ⟨rfl, -⟩ | rfl := hcase
  · exact ⟨by decide, h.context⟩
  · exact ⟨by decide, h.input⟩

end LocalMind.Switcher
