import LocalMind.Switcher.Marked

namespace LocalMind.Switcher
open Json Text
set_option autoImplicit true

/-! Objects as the lists of their entries' texts. -/

/-- The text of an entry: a key and a value, and what stands before, between and behind them. -/
structure Item where
  lead : List Char
  key : List Char
  gap : List Char
  mid : List Char
  value : List Char
  trail : List Char

/-- The text up to the colon. -/
def Item.name (i : Item) : List Char := '"' :: i.key ++ '"' :: i.gap ++ [':']

def Item.text (i : Item) : List Char := i.lead ++ i.name ++ (i.mid ++ i.value ++ i.trail)

/-- What stands between two commas of an object: an entry, or none. -/
inductive Cell where
  | item (i : Item)
  | blank (g : List Char)

def Cell.text : Cell → List Char
  | .item i => i.text
  | .blank g => g

/-- The cells' texts between commas. -/
def cellsText (cs : List Cell) : List Char := [','].intercalate (cs.map Cell.text)

def objectOf (cs : List Cell) : List Char := '{' :: cellsText cs ++ ['}']

/-- The cells before a cell, with their commas. -/
def upTo (front : List Cell) : List Char := front.flatMap fun c => c.text ++ [',']

def behind (back : List Cell) : List Char := back.flatMap fun c => ',' :: c.text

/-- The item is the text of an entry. -/
structure Item.Holds (codec : FloatCodec) (d : Nat) (i : Item) (e : String × Value) : Prop where
  lead : Trivia i.lead
  key : ∃ x, StrBody escape i.key x ∧ e.1 = String.ofList x
  free : QuoteFree i.key
  gap : Trivia i.gap
  mid : Trivia i.mid
  value : Raw codec d i.value e.2
  trail : Trivia i.trail

/-- The cells with entries have these, and the others only trivia. -/
inductive CellsHold (codec : FloatCodec) (d : Nat) : List Cell → List (String × Value) → Prop where
  | nil : CellsHold codec d [] []
  | item : Item.Holds codec d i e → CellsHold codec d cs es →
    CellsHold codec d (.item i :: cs) (e :: es)
  | blank : Trivia g → CellsHold codec d cs es → CellsHold codec d (.blank g :: cs) es

/-- An object's cells have entries, but for one behind a trailing comma; an object without entries
has no comma, or one. -/
inductive Shape : List Cell → Prop where
  | items : is ≠ [] → Shape (is.map .item)
  | trailing : is ≠ [] → Shape (is.map .item ++ [.blank g])
  | empty : Shape [.blank g]
  | comma : Shape [.blank g, .blank e]

theorem cellsText_cons (c : Cell) (h : cs ≠ []) :
    cellsText (c :: cs) = c.text ++ ',' :: cellsText cs := by
  obtain ⟨c', cs, rfl⟩ := List.exists_cons_of_ne_nil h
  rw [cellsText, List.map_cons, List.map_cons, List.intercalate_cons_cons, List.append_assoc]
  rfl

theorem cellsText_singleton (c : Cell) : cellsText [c] = c.text := by
  rw [cellsText, List.map_singleton, List.intercalate_singleton]

theorem cellsText_behind (c : Cell) (back : List Cell) :
    cellsText (c :: back) = c.text ++ behind back := by
  induction back generalizing c with
  | nil =>
    rw [cellsText_singleton]
    exact (List.append_nil _).symm
  | cons c' back ih =>
    rw [cellsText_cons c (List.cons_ne_nil c' back), ih]
    rfl

/-- The text before a cell, its own, and the text behind it. -/
theorem cellsText_at (front back : List Cell) (c : Cell) :
    cellsText (front ++ c :: back) = upTo front ++ c.text ++ behind back := by
  induction front with
  | nil => exact cellsText_behind c back
  | cons c' front ih =>
    rw [List.cons_append, cellsText_cons c' (by simp), ih, upTo, upTo, List.flatMap_cons]
    simp

theorem objectOf_at (front back : List Cell) (c : Cell) :
    objectOf (front ++ c :: back) = '{' :: upTo front ++ c.text ++ (behind back ++ ['}']) := by
  rw [objectOf, cellsText_at]
  simp

theorem CellsHold.append (h : CellsHold codec d cs es) (h' : CellsHold codec d cs' es') :
    CellsHold codec d (cs ++ cs') (es ++ es') := by
  induction h with
  | nil => exact h'
  | item hi _ ih => exact .item hi ih
  | blank hg _ ih => exact .blank hg ih

theorem CellsHold.split (h : CellsHold codec d (cs ++ cs') es) :
    ∃ es₁ es₂, es = es₁ ++ es₂ ∧ CellsHold codec d cs es₁ ∧ CellsHold codec d cs' es₂ := by
  induction cs generalizing es with
  | nil => exact ⟨[], es, rfl, .nil, h⟩
  | cons c cs ih =>
    cases h with
    | @item i e _ es hi h =>
      obtain ⟨es₁, es₂, rfl, h₁, h₂⟩ := ih h
      exact ⟨e :: es₁, es₂, rfl, .item hi h₁, h₂⟩
    | blank hg h =>
      obtain ⟨es₁, es₂, rfl, h₁, h₂⟩ := ih h
      exact ⟨es₁, es₂, rfl, .blank hg h₁, h₂⟩

/-- The entry of an item among the cells. -/
theorem CellsHold.at_item {front back : List Cell}
    (h : CellsHold codec d (front ++ .item i :: back) es) :
    ∃ es₁ e es₂, es = es₁ ++ e :: es₂ ∧ CellsHold codec d front es₁ ∧ i.Holds codec d e ∧
      CellsHold codec d back es₂ := by
  obtain ⟨es₁, es₂, rfl, h₁, h₂⟩ := h.split
  cases h₂ with
  | item hi h₂ => exact ⟨es₁, _, _, rfl, h₁, hi, h₂⟩

theorem CellsHold.items (h : CellsHold codec d (is.map .item) es) :
    List.Forall₂ (Item.Holds codec d) is es := by
  induction is generalizing es with
  | nil =>
    cases h
    exact .nil
  | cons i is ih =>
    cases h with
    | item hi h => exact .cons hi (ih h)

/-! An object's text is that of its entries. -/

/-- A text without comments. -/
theorem raw_of_tok {codec : FloatCodec} (h : Tok (valueHandlers codec) d t v) :
    Raw codec d t v := by
  obtain ⟨s, hs, ht⟩ := stripped_value h.paired
  have htok := ht.swap.left (fun w w' (h : respaced.gap w' w) => h.2)
    fun x x' (h : respaced.tail x' x) => h.2
  exact ⟨s, hs, htok⟩

/-- A text has one value. -/
theorem Raw.unique {codec : FloatCodec} (h : Raw codec d t v) (h' : Raw codec d t v') : v = v' := by
  obtain ⟨s, hs, ht⟩ := h
  obtain ⟨s', hs', ht'⟩ := h'
  rw [← hs'.eq, hs.eq] at ht'
  have hread := reads_value (valueHandlers codec) d [] s v [] allWs_nil ht (ends_of_allWs allWs_nil)
  have hread' := reads_value (valueHandlers codec) d [] s v' [] allWs_nil ht'
    (ends_of_allWs allWs_nil)
  exact (Prod.mk.inj (Option.some.inj (hread.symm.trans hread'))).1

/-- The text of a value, whatever stands for it in the other text. -/
def RawBeside (codec : FloatCodec) (d : Nat) (_ t : List Char) (v : Value) : Prop := Raw codec d t v

def TokBeside (codec : FloatCodec) (d : Nat) (_ t : List Char) (v : Value) : Prop :=
  Tok (valueHandlers codec) d t v

section
variable {codec : FloatCodec}

/-- The text of an entry against one of its key alone. -/
theorem paired_item {i : Item} (h : i.Holds codec d e) :
    ∃ t, PairedEntry decorated escape (RawBeside codec d) t
      (i.name ++ (i.mid ++ i.value)) e := by
  obtain ⟨x, hx, he⟩ := h.key
  have hgap : decorated.gap [] i.gap := ⟨allWs_nil, h.gap⟩
  have hmid : decorated.gap [] i.mid := ⟨allWs_nil, h.mid⟩
  have hvalue : RawBeside codec d [] i.value e.2 := h.value
  have hentry : PairedEntry decorated escape (RawBeside codec d) _ _ (String.ofList x, e.2) :=
    .mk hx h.free hgap hmid hvalue
  have happ : i.name ++ (i.mid ++ i.value) =
      '"' :: i.key ++ '"' :: i.gap ++ ':' :: i.mid ++ i.value := by
    rw [Item.name]
    simp
  rw [← he, ← happ] at hentry
  exact ⟨_, hentry⟩

theorem paired_items (h : List.Forall₂ (Item.Holds codec d) is es) (hne : is ≠ [])
    (hx : decorated.tail [] tail) :
    ∃ b, PairedItems decorated (PairedEntry decorated escape (RawBeside codec d)) b
      (cellsText (is.map .item) ++ tail) es := by
  induction h with
  | nil => exact absurd rfl hne
  | @cons i e is es hi his ih =>
    obtain ⟨t, hentry⟩ := paired_item hi
    have hlead : decorated.gap [] i.lead := ⟨allWs_nil, hi.lead⟩
    have htrail : decorated.gap [] i.trail := ⟨allWs_nil, hi.trail⟩
    by_cases hlast : is = []
    · subst hlast
      cases his
      have hitems := PairedItems.last hlead hentry htrail hx
      have happ : cellsText ([i].map .item) ++ tail =
          i.lead ++ (i.name ++ (i.mid ++ i.value)) ++ i.trail ++ tail := by
        rw [List.map_singleton, cellsText_singleton, Cell.text, Item.text]
        simp
      rw [← happ] at hitems
      exact ⟨_, hitems⟩
    · obtain ⟨b, hb⟩ := ih hlast
      have hitems := PairedItems.cons hlead hentry htrail hb
      have hmap : is.map Cell.item ≠ [] := by simpa using hlast
      have happ : cellsText ((i :: is).map .item) ++ tail =
          i.lead ++ (i.name ++ (i.mid ++ i.value)) ++ i.trail ++
            ',' :: (cellsText (is.map .item) ++ tail) := by
        rw [List.map_cons, cellsText_cons _ hmap, Cell.text, Item.text]
        simp
      rw [← happ] at hitems
      exact ⟨_, hitems⟩

/-- A body with nothing but a comma. -/
theorem stripped_comma (hg : Trivia g) (he : Trivia e) :
    ∃ w, AllWs w ∧ Stripped ('{' :: (g ++ ',' :: e) ++ ['}']) ('{' :: w ++ ['}']) := by
  obtain ⟨v, hv, hgv⟩ := strips_trivia hg
  obtain ⟨u, hu, heu⟩ := strips_trivia he
  have hcomma : Strips [','] [','] := strips_plain (by simp)
  refine ⟨v ++ u, hv.append hu, ?_⟩
  apply stripped_container (.inr rfl) (by decide) (hgv.append (hcomma.append heu))
  intro r
  have hkeep := keeps_ws hv (',' :: u ++ '}' :: r)
  have happ : v ++ ([','] ++ u) ++ '}' :: r = v ++ (',' :: u ++ '}' :: r) := by simp
  rw [happ, hkeep, List.cons_append, removeTrailingCommas, if_pos (closesNext_close (.inr rfl) hu r),
    keeps_ws hu]
  simp

/-- The text of an object is that of its entries. -/
theorem raw_object (h : CellsHold codec d cs es) (hs : Shape cs) :
    Raw codec (d + 1) (objectOf cs) (.object (Fields.insertAll [] es)) := by
  have hobject : ∀ {s es}, BodyText (EntryText escape (Tok (valueHandlers codec) d)) s es →
      Tok (valueHandlers codec) (d + 1) ('{' :: s ++ ['}']) (.object (Fields.insertAll [] es)) :=
    fun hb => .inr (.inr ⟨_, _, hb, rfl, rfl⟩)
  have hempty : ∀ {t w}, AllWs w → Stripped t ('{' :: w ++ ['}']) →
      Raw codec (d + 1) t (.object (Fields.insertAll [] [])) :=
    fun hw hs => ⟨_, hs, hobject (.empty hw)⟩
  have hitems : ∀ {is tail}, List.Forall₂ (Item.Holds codec d) is es → is ≠ [] →
      decorated.tail [] tail →
      Raw codec (d + 1) ('{' :: (cellsText (is.map .item) ++ tail) ++ ['}'])
        (.object (Fields.insertAll [] es)) := by
    intro is tail his hne hx
    obtain ⟨b, hb⟩ := paired_items his hne hx
    have hvalue : ∀ t t' v, RawBeside codec d t t' v →
        ∃ s, Stripped t' s ∧ TokBeside codec d t s v := fun _ _ _ hv => hv
    have hentry : ∀ t t' e, PairedEntry decorated escape (RawBeside codec d) t t' e →
        ∃ s, Stripped t' s ∧ PairedEntry respaced escape (TokBeside codec d) t s e :=
      fun _ _ _ he => stripped_entry hvalue he
    obtain ⟨m, s, hm, hclose, hs⟩ := stripped_body hentry (.items hb)
    have hgap : ∀ w w', respaced.swap.gap w w' → AllWs w := fun _ _ hw => hw.2
    have htail : ∀ x x', respaced.swap.tail x x' → x = [] := fun _ _ hx => hx.2
    have hswap : PairedBody respaced.swap
        (PairedEntry respaced.swap escape fun t t' => TokBeside codec d t' t) s b es :=
      hs.swap fun _ _ _ he => he.swap fun _ _ _ hv => hv
    have hbody : BodyText (EntryText escape (Tok (valueHandlers codec) d)) s es :=
      hswap.left hgap htail fun _ _ _ he => he.left hgap fun _ _ _ hv => hv
    refine ⟨_, ?_, hobject hbody⟩
    exact stripped_container (.inr rfl) (by decide) hm fun r => hclose '}' r (.inr rfl)
  cases hs with
  | @items is hne =>
    have hraw := hitems h.items hne ⟨rfl, .inl rfl⟩
    rw [List.append_nil] at hraw
    exact hraw
  | @trailing is g hne =>
    obtain ⟨es₁, es₂, rfl, h₁, h₂⟩ := h.split
    cases h₂ with
    | blank hg h₂ =>
      cases h₂
      rw [List.append_nil] at hitems ⊢
      have hraw := hitems h₁.items hne ⟨rfl, .inr ⟨g, hg, rfl⟩⟩
      have happ : cellsText (is.map .item ++ [.blank g]) = cellsText (is.map .item) ++ ',' :: g := by
        obtain ⟨front, i, rfl⟩ := (List.eq_nil_or_concat' is).resolve_left hne
        rw [List.map_append, List.append_assoc, List.map_singleton, List.singleton_append,
          cellsText_at, cellsText_at]
        simp [behind, Cell.text]
      rw [objectOf, happ]
      exact hraw
  | empty =>
    cases h with
    | blank hg h =>
      cases h
      obtain ⟨w, hw, hgw⟩ := strips_trivia hg
      rw [objectOf, cellsText_singleton]
      exact hempty hw (stripped_container (.inr rfl) (by decide) hgw fun r =>
        keeps_ws hw ('}' :: r))
  | comma =>
    cases h with
    | blank hg h =>
      cases h with
      | blank he h =>
        cases h
        obtain ⟨w, hw, hs⟩ := stripped_comma hg he
        rw [objectOf, cellsText_cons _ (List.cons_ne_nil _ _), cellsText_singleton]
        exact hempty hw hs

end

end LocalMind.Switcher
