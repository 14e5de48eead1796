import LocalMind.Json.Lexical

namespace Json
set_option autoImplicit true

/-! The texts of values, as the reader takes them apart. -/

/-- Items between commas, with whitespace around them. -/
inductive ItemsText (R : List Char → α → Prop) : List Char → List α → Prop where
  | one : AllWs w → R tok a → AllWs w' → ItemsText R (w ++ tok ++ w') [a]
  | cons : AllWs w → R tok a → AllWs w' → ItemsText R body as →
      ItemsText R (w ++ tok ++ w' ++ ',' :: body) (a :: as)

/-- What stands between the brackets of a container. -/
inductive BodyText (R : List Char → α → Prop) : List Char → List α → Prop where
  | empty : AllWs w → BodyText R w []
  | items : ItemsText R body as → BodyText R body as

/-- An entry of an object: a key, a colon and a value. -/
inductive EntryText (esc : List Char → Option (Char × Nat)) (R : List Char → α → Prop) :
    List Char → String × α → Prop where
  | mk : StrBody esc key k → QuoteFree key → AllWs w → AllWs w' → R tok v →
      EntryText esc R ('"' :: key ++ '"' :: w ++ ':' :: w' ++ tok) (String.ofList k, v)

inductive LeafText (h : Handlers α) : List Char → α → Prop where
  | null : LeafText h ['n', 'u', 'l', 'l'] h.null
  | true : LeafText h ['t', 'r', 'u', 'e'] (h.bool true)
  | false : LeafText h ['f', 'a', 'l', 's', 'e'] (h.bool false)
  | str : StrBody h.esc body x → QuoteFree body → LeafText h ('"' :: body ++ ['"']) (h.str x)
  | num : NumText l → h.num l = some a → LeafText h l.text a

/-- A text that a value with at most `d` nested containers is read from. -/
def Tok (h : Handlers α) : Nat → List Char → α → Prop
  | 0, t, a => LeafText h t a
  | d + 1, t, a => LeafText h t a ∨
    (∃ body as, BodyText (Tok h d) body as ∧ t = '[' :: body ++ [']'] ∧ a = h.arr as) ∨
    ∃ body es, BodyText (EntryText h.esc (Tok h d)) body es ∧ t = '{' :: body ++ ['}'] ∧
      a = h.obj es

theorem ItemsText.mono {R S : List Char → α → Prop} (h : ItemsText R body as)
    (hRS : ∀ tok a, R tok a → S tok a) : ItemsText S body as := by
  induction h with
  | one hw ht hw' => exact .one hw (hRS _ _ ht) hw'
  | cons hw ht hw' _ ih => exact .cons hw (hRS _ _ ht) hw' ih

theorem BodyText.mono {R S : List Char → α → Prop} (h : BodyText R body as)
    (hRS : ∀ tok a, R tok a → S tok a) : BodyText S body as := by
  cases h with
  | empty hw => exact .empty hw
  | items hi => exact .items (hi.mono hRS)

theorem EntryText.mono {R S : List Char → α → Prop} (h : EntryText esc R tok e)
    (hRS : ∀ tok a, R tok a → S tok a) : EntryText esc S tok e := by
  cases h with
  | mk hk hf hw hw' ht => exact .mk hk hf hw hw' (hRS _ _ ht)

theorem BodyText.exists_of_mem {R : List Char → α → Prop} (h : BodyText R body as)
    (ha : a ∈ as) : ∃ tok, R tok a := by
  cases h with
  | empty hw => cases ha
  | items hi =>
    induction hi with
    | one _ ht _ =>
      rw [List.mem_singleton.1 ha]
      exact ⟨_, ht⟩
    | cons _ ht _ _ ih =>
      rcases List.mem_cons.1 ha with rfl | ha
      · exact ⟨_, ht⟩
      · exact ih ha

theorem Tok.leaf {h : Handlers α} (ht : LeafText h t a) (d : Nat) : Tok h d t a := by
  cases d with
  | zero => exact ht
  | succ d => exact .inl ht

/-- A deeper reader reads what a shallower one does. -/
theorem Tok.succ {h : Handlers α} (ht : Tok h d t a) : Tok h (d + 1) t a := by
  induction d generalizing t a with
  | zero => exact .inl ht
  | succ d ih =>
    rcases ht with ht | ⟨body, as, hb, rfl, rfl⟩ | ⟨body, es, hb, rfl, rfl⟩
    · exact .inl ht
    · exact .inr (.inl ⟨body, as, hb.mono fun _ _ => ih, rfl, rfl⟩)
    · exact .inr (.inr ⟨body, es, hb.mono fun _ _ he => he.mono fun _ _ => ih, rfl, rfl⟩)

theorem Tok.mono {h : Handlers α} (ht : Tok h d t a) (hd : d ≤ e) : Tok h e t a := by
  induction hd with
  | refl => exact ht
  | step _ ih => exact ih.succ

theorem ItemsText.bound {R : List Char → α → Prop} (h : ItemsText R body as)
    (hn : body.length ≤ n) : ItemsText (fun tok a => R tok a ∧ tok.length ≤ n) body as := by
  induction h with
  | one hw ht hw' =>
    simp only [List.length_append] at hn
    exact .one hw ⟨ht, by omega⟩ hw'
  | cons hw ht hw' _ ih =>
    simp only [List.length_append, List.length_cons] at hn
    exact .cons hw ⟨ht, by omega⟩ hw' (ih (by omega))

theorem BodyText.bound {R : List Char → α → Prop} (h : BodyText R body as) :
    BodyText (fun tok a => R tok a ∧ tok.length ≤ body.length) body as := by
  cases h with
  | empty hw => exact .empty hw
  | items hi => exact .items (hi.bound (Nat.le_refl _))

theorem EntryText.bound {R : List Char → α → Prop} (h : EntryText esc R tok e) :
    EntryText esc (fun val v => R val v ∧ val.length ≤ tok.length) tok e := by
  cases h with
  | mk hk hf hw hw' ht =>
    refine .mk hk hf hw hw' ⟨ht, ?_⟩
    simp only [List.length_append, List.length_cons]
    omega

/-- A text has no more nested containers than characters. -/
theorem Tok.length {h : Handlers α} (ht : Tok h d t a) : Tok h t.length t a := by
  induction d generalizing t a with
  | zero => exact Tok.leaf ht _
  | succ d ih =>
    rcases ht with ht | ⟨body, as, hb, rfl, rfl⟩ | ⟨body, es, hb, rfl, rfl⟩
    · exact .leaf ht _
    · refine .inr (.inl ⟨body, as, hb.bound.mono ?_, rfl, rfl⟩)
      rintro tok a ⟨htok, hlen⟩
      exact (ih htok).mono (by simp only [List.append_eq, List.length_append]; omega)
    · refine .inr (.inr ⟨body, es, hb.bound.mono ?_, rfl, rfl⟩)
      rintro tok e ⟨he, hlen⟩
      refine he.bound.mono ?_
      rintro val v ⟨hval, hlen'⟩
      exact (ih hval).mono (by simp only [List.append_eq, List.length_append]; omega)

/-- How the text of a value starts. -/
def StartsValue (t : List Char) : Prop :=
  ∃ c u, t = c :: u ∧ isWs c = false ∧ c ≠ ']' ∧ c ≠ '}'

theorem isDigit_start (h : Char.isDigit c = true) : isWs c = false ∧ c ≠ ']' ∧ c ≠ '}' := by
  refine ⟨?_, ?_, ?_⟩
  · cases hw : isWs c with
    | false => rfl
    | true =>
      simp only [isWs, Bool.or_eq_true, beq_iff_eq] at hw
      rcases hw with ((rfl | rfl) | rfl) | rfl <;> cases h
  · rintro rfl
    cases h
  · rintro rfl
    cases h

theorem LeafText.start {h : Handlers α} (ht : LeafText h t a) : StartsValue t := by
  cases ht with
  | null => exact ⟨_, _, rfl, rfl, by decide, by decide⟩
  | true => exact ⟨_, _, rfl, rfl, by decide, by decide⟩
  | false => exact ⟨_, _, rfl, rfl, by decide, by decide⟩
  | str hs hf => exact ⟨_, _, rfl, rfl, by decide, by decide⟩
  | num hl ha =>
    obtain ⟨c, u, he, hc⟩ := hl.head
    rcases hc with rfl | hc
    · exact ⟨_, _, he, rfl, by decide, by decide⟩
    · exact ⟨_, _, he, isDigit_start hc⟩

theorem Tok.start {h : Handlers α} (ht : Tok h d t a) : StartsValue t := by
  cases d with
  | zero => exact LeafText.start ht
  | succ d =>
    rcases ht with ht | ⟨body, as, hb, rfl, rfl⟩ | ⟨body, es, hb, rfl, rfl⟩
    · exact ht.start
    · exact ⟨_, _, rfl, rfl, by decide, by decide⟩
    · exact ⟨_, _, rfl, rfl, by decide, by decide⟩

theorem EntryText.start {R : List Char → α → Prop} (h : EntryText esc R tok e) :
    StartsValue tok := by
  cases h with
  | mk hk hf hw hw' ht => exact ⟨_, _, rfl, rfl, by decide, by decide⟩

/-! What is read from a text. -/

/-- The characters that end an item. -/
def isDelim (c : Char) : Bool := isWs c || c == ',' || c == ']' || c == '}'

/-- A text that an item can stand before. -/
def Ends (r : List Char) : Prop := Stops (fun c => !isDelim c) r

/-- The reader takes every text of the relation, whatever follows it. -/
def Reads (item : Reader α) (R : List Char → α → Prop) : Prop :=
  ∀ w tok a r, AllWs w → R tok a → Ends r → item (w ++ tok ++ r) = some (a, r)

/-- Whatever the reader takes is a text of the relation. -/
def SoundFor (item : Reader α) (R : List Char → α → Prop) : Prop :=
  ∀ s a r, item s = some (a, r) → ∃ w tok, s = w ++ tok ++ r ∧ AllWs w ∧ R tok a

theorem stops_cons {p : Char → Bool} (h : p c = false) (r : List Char) : Stops p (c :: r) := by
  intro d t he
  cases he
  exact h

theorem isDelim_iff : isDelim c = true ↔
    (c = ' ' ∨ c = '\n' ∨ c = '\t' ∨ c = '\r') ∨ c = ',' ∨ c = ']' ∨ c = '}' := by
  simp only [isDelim, isWs, Bool.or_eq_true, beq_iff_eq]
  tauto

theorem Ends.stops (h : Ends r) : Stops isNumChar r := by
  refine h.mono fun c hc => ?_
  cases hd : isDelim c with
  | false => rfl
  | true =>
    rcases isDelim_iff.1 hd with (rfl | rfl | rfl | rfl) | rfl | rfl | rfl <;> cases hc

theorem ends_cons (h : isDelim c = true) (r : List Char) : Ends (c :: r) :=
  stops_cons (by rw [h]; rfl) r

theorem ends_ws (hw : AllWs w) (h : Ends r) : Ends (w ++ r) := by
  refine stops_append (fun c ds he => ?_) h
  have hc : isWs c = true := hw c (by rw [he]; exact List.mem_cons_self)
  simp [isDelim, hc]

theorem skipWs_value (hw : AllWs w) (ht : StartsValue t) (r : List Char) :
    ∃ c u, skipWs (w ++ t ++ r) = c :: (u ++ r) ∧ t = c :: u ∧ c ≠ ']' ∧ c ≠ '}' := by
  obtain ⟨c, u, rfl, hc, h₁, h₂⟩ := ht
  refine ⟨c, u, ?_, rfl, h₁, h₂⟩
  rw [List.append_assoc, skipWs_append hw, List.cons_append, skipWs_cons hc]

theorem afterItem_comma (hw : AllWs w) (close : Char) (t : List Char) :
    afterItem close (w ++ ',' :: t) = some (true, t) := by
  rw [afterItem, skipWs_append hw, skipWs_cons rfl]
  rfl

theorem afterItem_close (hw : AllWs w) (hc : isWs close = false) (hne : close ≠ ',')
    (t : List Char) : afterItem close (w ++ close :: t) = some (false, t) := by
  rw [afterItem, skipWs_append hw, skipWs_cons hc]
  dsimp only
  rw [if_neg hne, if_pos rfl]

theorem afterItem_sound {t : List Char} (h : afterItem close t = some (b, r)) :
    ∃ w, AllWs w ∧ t = w ++ (if b then ',' else close) :: r := by
  obtain ⟨w, hw, ht⟩ := skipWs_spec t
  rw [afterItem] at h
  cases hs : skipWs t with
  | nil =>
    rw [hs] at h
    cases h
  | cons c u =>
    rw [hs] at h ht
    dsimp only at h
    split at h
    · next hc =>
      cases h
      exact ⟨w, hw, by rw [ht, hc]; rfl⟩
    · split at h
      · next hc =>
        cases h
        exact ⟨w, hw, by rw [ht, hc]; rfl⟩
      · cases h

/-- The brackets that close a container. -/
def IsClose (close : Char) : Prop := close = ']' ∨ close = '}'

theorem IsClose.spec (h : IsClose close) :
    isWs close = false ∧ close ≠ ',' ∧ isDelim close = true := by
  rcases h with rfl | rfl <;> exact ⟨rfl, by decide, rfl⟩

theorem Reads.items {item : Reader α} {R : List Char → α → Prop} (hr : Reads item R)
    (hc : IsClose close) (h : ItemsText R body as) (hfuel : as.length ≤ fuel) (r : List Char) :
    items item close fuel (body ++ close :: r) = some (as, r) := by
  obtain ⟨hws, hcomma, hdelim⟩ := hc.spec
  induction h generalizing fuel with
  | @one w tok a w' hw ht hw' =>
    obtain ⟨fuel, rfl⟩ : ∃ n, fuel = n + 1 := ⟨fuel - 1, by simp at hfuel; omega⟩
    rw [Json.items, List.append_assoc, hr w tok a _ hw ht (ends_ws hw' (ends_cons hdelim r))]
    dsimp only
    rw [afterItem_close hw' hws hcomma]
  | @cons w tok a w' body as hw ht hw' _ ih =>
    obtain ⟨fuel, rfl⟩ : ∃ n, fuel = n + 1 := ⟨fuel - 1, by simp at hfuel; omega⟩
    have happ : w ++ tok ++ w' ++ ',' :: body ++ close :: r =
        w ++ tok ++ (w' ++ ',' :: (body ++ close :: r)) := by simp
    rw [happ, Json.items, hr w tok a _ hw ht (ends_ws hw' (ends_cons rfl _))]
    dsimp only
    rw [afterItem_comma hw']
    dsimp only
    rw [ih (by simpa using hfuel)]
    rfl

theorem ItemsText.length_le {R : List Char → α → Prop} (h : ItemsText R body as) :
    as.length ≤ body.length + 1 := by
  induction h with
  | one _ _ _ => simp
  | cons _ _ _ _ ih =>
    simp only [List.length_cons, List.length_append]
    omega

theorem ItemsText.start {R : List Char → α → Prop} (hR : ∀ tok a, R tok a → StartsValue tok)
    (h : ItemsText R body as) :
    ∃ w tok r, AllWs w ∧ StartsValue tok ∧ body = w ++ tok ++ r := by
  cases h with
  | one hw ht hw' => exact ⟨_, _, _, hw, hR _ _ ht, rfl⟩
  | @cons w tok a w' body as hw ht _ _ =>
    exact ⟨w, tok, w' ++ ',' :: body, hw, hR _ _ ht, by simp⟩

theorem Reads.itemsOf {item : Reader α} {R : List Char → α → Prop} (hr : Reads item R)
    (hR : ∀ tok a, R tok a → StartsValue tok) (hc : IsClose close) (h : BodyText R body as)
    (r : List Char) : itemsOf item close (body ++ close :: r) = some (as, r) := by
  rw [Json.itemsOf]
  cases h with
  | empty hw =>
    rw [skipWs_append hw, skipWs_cons hc.spec.1]
    dsimp only
    rw [if_pos rfl]
  | items hi =>
    obtain ⟨w, tok, u, hw, ht, hbody⟩ := hi.start hR
    obtain ⟨c, t, hskip, -, h₁, h₂⟩ := skipWs_value hw ht (u ++ close :: r)
    rw [← List.append_assoc, ← hbody] at hskip
    rw [hskip]
    dsimp only
    rw [if_neg]
    · refine hr.items hc hi ?_ r
      have := hi.length_le
      simp only [List.length_append, List.length_cons]
      omega
    · rcases hc with rfl | rfl
      · exact h₁
      · exact h₂

theorem SoundFor.items {item : Reader α} {R : List Char → α → Prop} (hs : SoundFor item R)
    {s : List Char} (h : items item close fuel s = some (as, r)) :
    ∃ body, s = body ++ close :: r ∧ ItemsText R body as := by
  induction fuel generalizing s as with
  | zero => cases h
  | succ fuel ih =>
    rw [Json.items] at h
    cases hi : item s with
    | none =>
      rw [hi] at h
      cases h
    | some p =>
      obtain ⟨a, t⟩ := p
      obtain ⟨w, tok, rfl, hw, ht⟩ := hs _ _ _ hi
      rw [hi] at h
      dsimp only at h
      cases ha : afterItem close t with
      | none =>
        rw [ha] at h
        cases h
      | some p =>
        obtain ⟨b, u⟩ := p
        obtain ⟨w', hw', rfl⟩ := afterItem_sound ha
        rw [ha] at h
        cases b with
        | false =>
          cases h
          exact ⟨w ++ tok ++ w', by simp, .one hw ht hw'⟩
        | true =>
          obtain ⟨⟨as', r'⟩, hrest, hq⟩ := Option.map_eq_some_iff.1 h
          cases hq
          obtain ⟨body, rfl, hitems⟩ := ih hrest
          exact ⟨w ++ tok ++ w' ++ ',' :: body, by simp, .cons hw ht hw' hitems⟩

theorem SoundFor.itemsOf {item : Reader α} {R : List Char → α → Prop} (hs : SoundFor item R)
    {t : List Char} (h : itemsOf item close t = some (as, r)) :
    ∃ body, t = body ++ close :: r ∧ BodyText R body as := by
  rw [Json.itemsOf] at h
  obtain ⟨w, hw, ht⟩ := skipWs_spec t
  cases hsk : skipWs t with
  | nil =>
    rw [hsk] at h
    cases h
  | cons c u =>
    rw [hsk] at h ht
    dsimp only at h
    split at h
    · next hc =>
      cases h
      exact ⟨w, by rw [ht, hc], .empty hw⟩
    · obtain ⟨body, hb, hi⟩ := hs.items h
      exact ⟨body, hb, .items hi⟩

theorem expect_append (hw : AllWs w) (hc : isWs c = false) (t : List Char) :
    expect c (w ++ c :: t) = some t := by
  rw [expect, skipWs_append hw, skipWs_cons hc, List.head?_cons, if_pos rfl]
  rfl

theorem expect_sound {s : List Char} (h : expect c s = some t) :
    ∃ w, AllWs w ∧ s = w ++ c :: t := by
  obtain ⟨w, hw, hs⟩ := skipWs_spec s
  rw [expect] at h
  split at h
  · next hc =>
    cases hsk : skipWs s with
    | nil =>
      rw [hsk] at hc
      cases hc
    | cons d u =>
      rw [hsk] at h hc hs
      cases h
      cases hc
      exact ⟨w, hw, hs⟩
  · cases h

theorem Reads.entryOf {value : Reader α} {R : List Char → α → Prop} (hr : Reads value R)
    (esc : List Char → Option (Char × Nat)) :
    Reads (entryOf (stringFrom esc 0) value) (EntryText esc R) := by
  intro w tok e r hw he hstop
  cases he with
  | @mk key k w₁ w₂ tok v hk hf hw₁ hw₂ ht =>
    have happ : w ++ ('"' :: key ++ '"' :: w₁ ++ ':' :: w₂ ++ tok) ++ r =
        w ++ '"' :: (key ++ '"' :: (w₁ ++ ':' :: (w₂ ++ tok ++ r))) := by simp
    rw [happ, Json.entryOf, expect_append hw rfl]
    change (stringFrom esc 0 (key ++ '"' :: _) >>= _) = _
    rw [hk]
    change (expect ':' (w₁ ++ ':' :: _) >>= _) = _
    rw [expect_append hw₁ rfl]
    change (value (w₂ ++ tok ++ r) >>= _) = _
    rw [hr w₂ tok v r hw₂ ht hstop]
    rfl

theorem SoundFor.entryOf {value : Reader α} {R : List Char → α → Prop}
    (hs : SoundFor value R) (hesc : Local esc) :
    SoundFor (entryOf (stringFrom esc 0) value) (EntryText esc R) := by
  intro s e r h
  rw [Json.entryOf] at h
  obtain ⟨t, hq, h⟩ := Option.bind_eq_some_iff.1 h
  obtain ⟨⟨k, t₁⟩, hk, h⟩ := Option.bind_eq_some_iff.1 h
  obtain ⟨t₂, hcolon, h⟩ := Option.bind_eq_some_iff.1 h
  obtain ⟨⟨v, t₃⟩, hv, h⟩ := Option.bind_eq_some_iff.1 h
  cases h
  obtain ⟨w, hw, rfl⟩ := expect_sound hq
  obtain ⟨key, rfl, hkey, hf⟩ := stringFrom_sound hesc hk
  obtain ⟨w₁, hw₁, rfl⟩ := expect_sound hcolon
  obtain ⟨w₂, tok, rfl, hw₂, ht⟩ := hs _ _ _ hv
  exact ⟨w, _, by simp, hw, .mk hkey hf hw₁ hw₂ ht⟩

/-! Values. -/

theorem ident_sound {word t : List Char} (h : ident word a t = some (b, r)) :
    b = a ∧ t = word ++ r := by
  rw [ident] at h
  split at h
  · next hp =>
    cases h
    obtain ⟨u, rfl⟩ := List.isPrefixOf_iff_prefix.1 hp
    rw [List.drop_left]
    exact ⟨rfl, rfl⟩
  · cases h

theorem ident_append (word : List Char) (a : α) (r : List Char) :
    ident word a (word ++ r) = some (a, r) := by
  rw [ident, if_pos (List.isPrefixOf_iff_prefix.2 (List.prefix_append word r)), List.drop_left]

theorem readValue_ws {h : Handlers α} (hw : AllWs w) (d : Nat) (s : List Char) :
    readValue h d (w ++ s) = readValue h d s := by
  rw [readValue.eq_def, readValue.eq_def h d s, skipWs_append hw]

theorem readValue_str (h : Handlers α) (d : Nat) (t : List Char) :
    readValue h d ('"' :: t) = (stringFrom h.esc 0 t).map fun r => (h.str r.1, r.2) := by
  cases d <;> rfl

theorem readValue_arr (h : Handlers α) (d : Nat) (t : List Char) :
    readValue h (d + 1) ('[' :: t) =
      (itemsOf (readValue h d) ']' t).map fun r => (h.arr r.1, r.2) := rfl

theorem readValue_obj (h : Handlers α) (d : Nat) (t : List Char) :
    readValue h (d + 1) ('{' :: t) =
      (itemsOf (entryOf (stringFrom h.esc 0) (readValue h d)) '}' t).map fun r =>
        (h.obj r.1, r.2) := rfl

theorem isDigit_not_mark (h : Char.isDigit c = true) :
    c ≠ 'n' ∧ c ≠ 't' ∧ c ≠ 'f' ∧ c ≠ '"' ∧ c ≠ '[' ∧ c ≠ '{' := by
  refine ⟨?_, ?_, ?_, ?_, ?_, ?_⟩ <;> rintro rfl <;> cases h

theorem readValue_num (h : Handlers α) (hc : c = '-' ∨ Char.isDigit c = true) (d : Nat)
    (t : List Char) : readValue h d (c :: t) =
      (lexNumber (c :: t)).bind fun r => (h.num r.1).map fun a => (a, r.2) := by
  rcases hc with rfl | hc
  · cases d <;> rfl
  · obtain ⟨h₁, h₂, h₃, h₄, h₅, h₆⟩ := isDigit_not_mark hc
    rw [readValue.eq_def, skipWs_cons (isDigit_start hc).1]
    dsimp only
    rw [if_neg h₁, if_neg h₂, if_neg h₃, if_neg h₄, if_neg h₅, if_neg h₆]

theorem readValue_leaf {h : Handlers α} (ht : LeafText h tok a) (hr : Stops isNumChar r)
    (d : Nat) : readValue h d (tok ++ r) = some (a, r) := by
  cases ht with
  | null => exact (by cases d <;> rfl : _ = ident _ _ _).trans (ident_append ['u', 'l', 'l'] _ r)
  | true => exact (by cases d <;> rfl : _ = ident _ _ _).trans (ident_append ['r', 'u', 'e'] _ r)
  | false =>
    exact (by cases d <;> rfl : _ = ident _ _ _).trans (ident_append ['a', 'l', 's', 'e'] _ r)
  | @str body x hs hf =>
    have happ : '"' :: body ++ ['"'] ++ r = '"' :: (body ++ '"' :: r) := by simp
    rw [happ, readValue_str, hs]
    rfl
  | @num l a hl ha =>
    obtain ⟨c, t, he, hc⟩ := hl.head
    have hn := hl.again r hr
    rw [he, List.cons_append] at hn ⊢
    rw [readValue_num h hc, hn, Option.bind_some, ha]
    rfl

/-- The reader takes the text of a value, whatever follows it. -/
theorem reads_value (h : Handlers α) (d : Nat) : Reads (readValue h d) (Tok h d) := by
  induction d with
  | zero =>
    intro w tok a r hw ht hr
    rw [List.append_assoc, readValue_ws hw]
    exact readValue_leaf ht hr.stops 0
  | succ d ih =>
    intro w tok a r hw ht hr
    rw [List.append_assoc, readValue_ws hw]
    rcases ht with ht | ⟨body, as, hb, rfl, rfl⟩ | ⟨body, es, hb, rfl, rfl⟩
    · exact readValue_leaf ht hr.stops _
    · have hitems := ih.itemsOf (fun _ _ => Tok.start) (.inl rfl) hb r
      have happ : '[' :: body ++ [']'] ++ r = '[' :: (body ++ ']' :: r) := by simp
      rw [happ, readValue_arr, hitems]
      rfl
    · have hitems := (ih.entryOf h.esc).itemsOf (fun _ _ => EntryText.start) (.inr rfl) hb r
      have happ : '{' :: body ++ ['}'] ++ r = '{' :: (body ++ '}' :: r) := by simp
      rw [happ, readValue_obj, hitems]
      rfl

/-- What the reader takes, less its containers, is the text of a leaf. -/
theorem readValue_sound {h : Handlers α} (hesc : Local h.esc) {t : List Char}
    (hread : readValue h d (c :: t) = some (a, r)) (hws : isWs c = false) (h₁ : c ≠ '[')
    (h₂ : c ≠ '{') : ∃ tok, c :: t = tok ++ r ∧ LeafText h tok a := by
  rw [readValue.eq_def, skipWs_cons hws] at hread
  dsimp only at hread
  split at hread
  · next hc =>
    obtain ⟨rfl, rfl⟩ := ident_sound hread
    exact ⟨_, by rw [hc]; rfl, .null⟩
  split at hread
  · next hc =>
    obtain ⟨rfl, rfl⟩ := ident_sound hread
    exact ⟨_, by rw [hc]; rfl, .true⟩
  split at hread
  · next hc =>
    obtain ⟨rfl, rfl⟩ := ident_sound hread
    exact ⟨_, by rw [hc]; rfl, .false⟩
  split at hread
  · next hc =>
    obtain ⟨⟨x, r'⟩, hs, hq⟩ := Option.map_eq_some_iff.1 hread
    cases hq
    obtain ⟨body, rfl, hb, hf⟩ := stringFrom_sound hesc hs
    exact ⟨_, by rw [hc]; simp, .str hb hf⟩
  obtain ⟨⟨l, r'⟩, hl, hn⟩ := Option.bind_eq_some_iff.1 hread
  obtain ⟨b, hb, hq⟩ := Option.map_eq_some_iff.1 hn
  cases hq
  obtain ⟨hs, ht⟩ := lexNumber_sound hl
  exact ⟨_, hs, .num ht hb⟩

/-- The reader is sound on values when it is on those that start where it stands. -/
theorem soundFor_of_cons {h : Handlers α} (hcons : ∀ c t a r, isWs c = false →
    readValue h d (c :: t) = some (a, r) → ∃ tok, c :: t = tok ++ r ∧ Tok h d tok a) :
    SoundFor (readValue h d) (Tok h d) := by
  intro s a r hread
  obtain ⟨w, hw, hs⟩ := skipWs_spec s
  rw [hs, readValue_ws hw] at hread
  cases hsk : skipWs s with
  | nil =>
    rw [hsk] at hread
    cases d <;> cases hread
  | cons c t =>
    have hc : isWs c = false := by
      have := List.head?_dropWhile_not isWs s
      rw [← skipWs, hsk] at this
      simpa using this
    rw [hsk] at hread hs
    obtain ⟨tok, ht, htok⟩ := hcons c t a r hc hread
    exact ⟨w, tok, by rw [hs, ht, List.append_assoc], hw, htok⟩

/-- What the reader takes is the text of a value. -/
theorem soundFor_value {h : Handlers α} (hesc : Local h.esc) (d : Nat) :
    SoundFor (readValue h d) (Tok h d) := by
  induction d with
  | zero =>
    refine soundFor_of_cons fun c t a r hc hread => ?_
    by_cases h₁ : c = '['
    · subst h₁
      cases hread
    by_cases h₂ : c = '{'
    · subst h₂
      cases hread
    exact readValue_sound hesc hread hc h₁ h₂
  | succ d ih =>
    refine soundFor_of_cons fun c t a r hc hread => ?_
    by_cases h₁ : c = '['
    · subst h₁
      obtain ⟨⟨as, r'⟩, hi, hq⟩ := Option.map_eq_some_iff.1 hread
      cases hq
      obtain ⟨body, rfl, hb⟩ := ih.itemsOf hi
      exact ⟨_, by simp, .inr (.inl ⟨body, as, hb, rfl, rfl⟩)⟩
    by_cases h₂ : c = '{'
    · subst h₂
      obtain ⟨⟨es, r'⟩, hi, hq⟩ := Option.map_eq_some_iff.1 hread
      cases hq
      obtain ⟨body, rfl, hb⟩ := (ih.entryOf hesc).itemsOf hi
      exact ⟨_, by simp, .inr (.inr ⟨body, es, hb, rfl, rfl⟩)⟩
    obtain ⟨tok, ht, hl⟩ := readValue_sound hesc hread hc h₁ h₂
    exact ⟨tok, ht, .leaf hl _⟩

/-! Whole texts. -/

theorem allWs_of_skipWs (h : (skipWs s).isEmpty = true) : AllWs s := by
  obtain ⟨w, hw, hs⟩ := skipWs_spec s
  rw [List.isEmpty_iff.1 h, List.append_nil] at hs
  rwa [hs]

theorem skipWs_of_allWs (h : AllWs s) : skipWs s = [] := by
  have := skipWs_append h []
  rwa [List.append_nil] at this

theorem ends_of_allWs (h : AllWs s) : Ends s := by
  have := ends_ws h (show Ends [] from nofun)
  rwa [List.append_nil] at this

/-- A whole text is valid when it is one value between whitespace. -/
theorem fromStr_eq_some_iff {codec : FloatCodec} {s : List Char} :
    fromStr codec s = some v ↔ ∃ w tok w', s = w ++ tok ++ w' ∧ AllWs w ∧ AllWs w' ∧
      Tok (valueHandlers codec) MAX_DEPTH tok v := by
  constructor
  · intro h
    rw [fromStr] at h
    cases hp : parseValue codec MAX_DEPTH s with
    | none =>
      rw [hp] at h
      cases h
    | some p =>
      obtain ⟨a, t⟩ := p
      rw [hp, atEnd] at h
      split at h
      · next ht =>
        cases h
        obtain ⟨w, tok, hs, hw, htok⟩ := soundFor_value local_escape MAX_DEPTH s _ t hp
        exact ⟨w, tok, t, hs, hw, allWs_of_skipWs ht, htok⟩
      · cases h
  · rintro ⟨w, tok, w', rfl, hw, hw', htok⟩
    rw [fromStr, parseValue, reads_value _ _ w tok v w' hw htok (ends_of_allWs hw'), atEnd,
      skipWs_of_allWs hw']
    rfl

end Json
