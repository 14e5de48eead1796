import LocalMind.Fixes.JsonScan

namespace LocalMind
open Json Utf8
set_option autoImplicit true

/-! The scanner's byte offsets. A position is the rest of the text that starts there. -/

def byteLength (s : List Char) : Nat := (encode s).length

def offsetOf (json rest : List Char) : Nat := byteLength json - byteLength rest

/-- The bytes of a range of the text. -/
def slice (json : List Char) (range : Nat × Nat) : List UInt8 :=
  ((encode json).drop range.1).take (range.2 - range.1)

/-- The text from a byte offset on. -/
def restAt : Nat → List Char → List Char
  | 0, s => s
  | _ + 1, [] => []
  | n + 1, c :: t => restAt (n + 1 - (String.utf8EncodeChar c).length) t

/-- Where an entry's key, with its quotes, and its value stand. -/
structure KeyRange where
  key : Nat × Nat
  value : Nat × Nat
deriving DecidableEq

/-- The walk over an entry, with its offsets in `json`. -/
def scanRange (json s : List Char) : Option ((KeyRange × KeySpan) × List Char) := do
  let start := skipWs s
  let t ← expect '"' start
  let (key, afterKey) ← scanString t
  let t ← expect ':' afterKey
  let valueStart := skipWs t
  let (value, valueEnd) ← scanValue valueStart
  some ((⟨(offsetOf json start, offsetOf json afterKey),
    (offsetOf json valueStart, offsetOf json valueEnd)⟩, ⟨key, value⟩), valueEnd)

def topLevelKeyRanges (json : List Char) (key : String) : List KeyRange :=
  (((scanRoot (scanRange json) json).getD []).filter fun r => r.2.decodeKey = some key).map
    Prod.fst

def keysAfterAt (json : List Char) (start : Nat) : List String := keysAfter (restAt start json)

/-- The entries of the root object as the parser's stream yields them. -/
def streamEntries (codec : FloatCodec) (json : List Char) : Option (List (String × Value)) :=
  scanRoot (entryOf parseStr (parseValue codec (MAX_DEPTH - 1))) json

/-! A direct child of the root object within its text. -/

structure Child where
  key : String
  value : Value
  keyBody : List Char
  gap : List Char
  valueText : List Char
  post : List Char

namespace Child

def keyText (c : Child) : List Char := '"' :: c.keyBody ++ ['"']

def fromValue (c : Child) : List Char := c.valueText ++ c.post

def afterKey (c : Child) : List Char := c.gap ++ c.fromValue

/-- The text from the child's key to the end of the document. -/
def text (c : Child) : List Char := c.keyText ++ c.afterKey

def entry (c : Child) : String × Value := (c.key, c.value)

def span (c : Child) : KeySpan := ⟨c.keyBody, c.valueText⟩

def range (json : List Char) (c : Child) : KeyRange :=
  ⟨(offsetOf json c.text, offsetOf json c.afterKey),
    (offsetOf json c.fromValue, offsetOf json c.post)⟩

structure Valid (codec : FloatCodec) (c : Child) : Prop where
  key : StrBody escape c.keyBody c.key.toList
  quoteFree : QuoteFree c.keyBody
  gap : ∃ w w', AllWs w ∧ AllWs w' ∧ c.gap = w ++ ':' :: w'
  value : Tok (valueHandlers codec) (MAX_DEPTH - 1) c.valueText c.value
  ends : Ends c.post

end Child

/-- A text that goes on with these children, up to the closing brace and beyond. -/
inductive Children (codec : FloatCodec) : List Char → List Child → Prop where
  | one {w w' r : List Char} {c : Child} : AllWs w → c.Valid codec → AllWs w' →
      c.post = w' ++ '}' :: r → Children codec (w ++ c.text) [c]
  | cons {w w' t : List Char} {c : Child} {cs : List Child} : AllWs w → c.Valid codec →
      AllWs w' → c.post = w' ++ ',' :: t → Children codec t cs →
      Children codec (w ++ c.text) (c :: cs)

/-- An object text with its children. -/
inductive Root (codec : FloatCodec) : List Char → List Child → Prop where
  | empty : AllWs w → AllWs w' → Root codec (w ++ '{' :: (w' ++ '}' :: r)) []
  | children : AllWs w → Children codec t cs → Root codec (w ++ '{' :: t) cs

/-- What the scanner and the parser say of the children of one text. -/
structure ScannerAgrees (codec : FloatCodec) (json : List Char) (children : List Child) : Prop where
  /-- the parser's stream yields these children -/
  parsed : streamEntries codec json = some (children.map Child.entry)
  keys : depth1Keys json = some (children.map Child.key)
  spans : ∀ key, topLevelKeyRanges json key =
    (children.filter fun c => c.key = key).map (Child.range json)
  count : ∀ key, topLevelKeyCount json key = (topLevelKeyRanges json key).length
  after : ∀ (i : Nat), ∀ c ∈ children[i]?,
    keysAfterAt json (c.range json).value.2 = (children.drop (i + 1)).map Child.key
  /-- the key slice is a string token that names the key -/
  keySlice : ∀ c ∈ children, slice json (c.range json).key = encode c.keyText ∧
    fromStrString c.keyText = some c.key.toList
  /-- the value slice is a token of the value, without whitespace around it -/
  valueSlice : ∀ c ∈ children, slice json (c.range json).value = encode c.valueText ∧
    fromStr codec c.valueText = some c.value ∧
    (∀ a ∈ c.valueText.head?, isWs a = false) ∧ ∀ a ∈ c.valueText.getLast?, isWs a = false
  ordered : children.Pairwise fun a b => (a.range json).value.2 ≤ (b.range json).key.1

/-! The texts of the grammar have children. -/

theorem Child.Valid.start {c : Child} (_ : c.Valid codec) : StartsValue c.text :=
  ⟨_, _, rfl, rfl, by decide, by decide⟩

theorem Children.start (h : Children codec t cs) : ∃ w u, AllWs w ∧ t = w ++ '"' :: u := by
  cases h with
  | one hw _ _ _ => exact ⟨_, _, hw, rfl⟩
  | cons hw _ _ _ _ => exact ⟨_, _, hw, rfl⟩

theorem Children.ne_nil (h : Children codec t cs) : cs ≠ [] := by
  cases h with
  | one _ _ _ _ => exact List.cons_ne_nil _ _
  | cons _ _ _ _ _ => exact List.cons_ne_nil _ _

theorem Children.length_le (h : Children codec t cs) : cs.length ≤ t.length := by
  induction h with
  | @one w w' r c _ _ _ _ =>
    simp only [Child.text, Child.keyText, List.length_append, List.length_cons, List.length_nil]
    omega
  | @cons w w' t c cs _ _ _ hpost _ ih =>
    simp only [Child.text, Child.keyText, Child.afterKey, Child.fromValue, hpost,
      List.length_append, List.length_cons, List.length_nil]
    omega

theorem ItemsText.children {codec : FloatCodec} {body : List Char} {es : List (String × Value)}
    (h : ItemsText (EntryText escape (Tok (valueHandlers codec) (MAX_DEPTH - 1))) body es)
    (r : List Char) : ∃ cs, Children codec (body ++ '}' :: r) cs ∧ cs.map Child.entry = es ∧
      ∀ c ∈ cs.getLast?, ∃ w, AllWs w ∧ c.post = w ++ '}' :: r := by
  induction h with
  | @one w tok e w' hw he hw' =>
    cases he with
    | @mk key k w₁ w₂ val v hk hf hw₁ hw₂ ht =>
      refine ⟨[⟨String.ofList k, v, key, w₁ ++ ':' :: w₂, val, w' ++ '}' :: r⟩], ?_, rfl, ?_⟩
      swap
      · intro c hc
        cases hc
        exact ⟨w', hw', rfl⟩
      have hchild : Children codec _ [_] := .one hw (c := ⟨String.ofList k, v, key,
        w₁ ++ ':' :: w₂, val, w' ++ '}' :: r⟩) ⟨by simpa using hk, hf, ⟨_, _, hw₁, hw₂, rfl⟩, ht,
          ends_ws hw' (ends_cons rfl r)⟩ hw' rfl
      simpa [Child.text, Child.keyText, Child.afterKey, Child.fromValue] using hchild
  | @cons w tok e w' body es hw he hw' _ ih =>
    obtain ⟨cs, hcs, hmap, hlast⟩ := ih
    cases he with
    | @mk key k w₁ w₂ val v hk hf hw₁ hw₂ ht =>
      refine ⟨⟨String.ofList k, v, key, w₁ ++ ':' :: w₂, val,
        w' ++ ',' :: (body ++ '}' :: r)⟩ :: cs, ?_, by rw [List.map_cons, hmap]; rfl, ?_⟩
      swap
      · rwa [List.getLast?_cons_of_ne_nil hcs.ne_nil]
      have hchild : Children codec _ (_ :: cs) := .cons hw (c := ⟨String.ofList k, v, key,
        w₁ ++ ':' :: w₂, val, w' ++ ',' :: (body ++ '}' :: r)⟩) ⟨by simpa using hk, hf,
          ⟨_, _, hw₁, hw₂, rfl⟩, ht, ends_ws hw' (ends_cons rfl _)⟩ hw' rfl hcs
      simpa [Child.text, Child.keyText, Child.afterKey, Child.fromValue] using hchild

theorem root_of_fromStr (h : fromStr codec json = some (.object m)) :
    ∃ cs, Root codec json cs ∧ m = Fields.insertAll [] (cs.map Child.entry) := by
  obtain ⟨w, tok, w', rfl, hw, hw', ht⟩ := fromStr_eq_some_iff.1 h
  obtain ht | ⟨body, as, -, rfl, hm⟩ | ⟨body, es, hb, rfl, hm⟩ := ht
  · generalize hv : Value.object m = v at ht
    cases ht with
    | num _ hn => cases hv; cases (Option.map_eq_some_iff.1 hn).choose_spec.2
    | _ => cases hv
  · cases hm
  · cases hm
    have happ : w ++ ('{' :: body ++ ['}']) ++ w' = w ++ '{' :: (body ++ '}' :: w') := by simp
    rw [happ]
    cases hb with
    | empty hb => exact ⟨[], .empty hw hb, rfl⟩
    | items hi =>
      obtain ⟨cs, hcs, hmap, -⟩ := ItemsText.children hi w'
      exact ⟨cs, .children hw hcs, by rw [hmap]⟩

/-! What a reader of entries makes of a text with children. -/

/-- A reader of entries takes each child whole and makes `f c` of it. -/
def ReadsEach (codec : FloatCodec) (item : Reader α) (f : Child → α) (cs : List Child) : Prop :=
  ∀ c ∈ cs, ∀ w, AllWs w → c.Valid codec → item (w ++ c.text) = some (f c, c.post)

theorem Children.items (h : Children codec t cs) (hr : ReadsEach codec item f cs)
    (hfuel : cs.length ≤ fuel) : ∃ r, items item '}' fuel t = some (cs.map f, r) := by
  induction h generalizing fuel with
  | @one w w' r c hw hc hw' hpost =>
    obtain ⟨n, rfl⟩ := Nat.exists_eq_add_of_le' hfuel
    refine ⟨r, ?_⟩
    rw [List.length_singleton, Json.items, hr c (List.mem_singleton_self c) w hw hc]
    dsimp only
    rw [hpost, afterItem_close hw' rfl (by decide)]
    rfl
  | @cons w w' t c cs hw hc hw' hpost _ ih =>
    obtain ⟨n, rfl⟩ := Nat.exists_eq_add_of_le' hfuel
    obtain ⟨r, hrest⟩ := ih (fun d hd => hr d (List.mem_cons_of_mem c hd))
      (Nat.le_add_left cs.length n)
    refine ⟨r, ?_⟩
    rw [List.length_cons, ← Nat.add_assoc, Json.items, hr c List.mem_cons_self w hw hc]
    dsimp only
    rw [hpost, afterItem_comma hw']
    dsimp only
    rw [hrest]
    rfl

theorem scanRoot_root (h : Root codec json cs) (hr : ReadsEach codec item f cs) :
    scanRoot item json = some (cs.map f) := by
  cases h with
  | @empty w w' r hw hw' =>
    rw [scanRoot, expect_append hw rfl, Option.bind_some, itemsOf, skipWs_append hw',
      skipWs_cons rfl]
    rfl
  | @children w t cs hw hcs =>
    obtain ⟨w', u, hw', rfl⟩ := hcs.start
    obtain ⟨r, hitems⟩ := hcs.items hr hcs.length_le
    rw [scanRoot, expect_append hw rfl, Option.bind_some, itemsOf, skipWs_append hw',
      skipWs_cons rfl]
    dsimp only
    rw [if_neg (by decide), hitems]
    rfl

theorem Child.Valid.spanText {c : Child} (h : c.Valid codec) (w : List Char) :
    ∃ tok, SpanText (Tok (valueHandlers codec) (MAX_DEPTH - 1)) tok c.span ∧
      w ++ c.text = w ++ tok ++ c.post := by
  obtain ⟨w₁, w₂, hw₁, hw₂, hgap⟩ := h.gap
  refine ⟨_, .mk h.quoteFree hw₁ hw₂ h.value, ?_⟩
  simp [text, keyText, afterKey, fromValue, hgap]

theorem readsEach_span (codec : FloatCodec) (cs : List Child) :
    ReadsEach codec scanSpan Child.span cs := by
  intro c hmem w hw hc
  obtain ⟨tok, hspan, heq⟩ := hc.spanText w
  rw [heq]
  exact reads_span _ _ w tok c.span c.post hw hspan hc.ends

/-- A body without a backslash stands for itself. -/
theorem stringFrom_self (h : QuoteFree body) (hb : '\\' ∉ body) (r : List Char) :
    stringFrom escape 0 (body ++ '"' :: r) = some (body, r) := by
  induction h with
  | nil => rfl
  | @plain c s h₁ h₂ h₃ _ ih =>
    rw [List.cons_append, stringFrom_plain h₁ h₂ h₃,
      ih fun hmem => hb (List.mem_cons_of_mem c hmem)]
    rfl
  | @escaped s c _ ih => exact absurd List.mem_cons_self hb

theorem fromStrString_key (h : StrBody escape body x) :
    fromStrString ('"' :: body ++ ['"']) = some x := by
  have hopen : expect '"' ('"' :: (body ++ ['"'])) = some (body ++ ['"']) :=
    expect_append allWs_nil rfl _
  rw [fromStrString, List.cons_append, hopen, Option.bind_some, parseStr, h []]
  rfl

theorem Child.Valid.decodeKey {c : Child} (h : c.Valid codec) : c.span.decodeKey = some c.key := by
  rw [KeySpan.decodeKey]
  split
  · rw [show c.span.key = c.keyBody from rfl, fromStrString_key h.key, Option.map_some,
      String.ofList_toList]
  · next hb =>
    have hread := (h.key []).symm.trans (stringFrom_self h.quoteFree hb [])
    have hself : c.key.toList = c.keyBody := (Prod.mk.inj (Option.some.inj hread)).1
    rw [show c.span.key = c.keyBody from rfl, ← hself, String.ofList_toList]

theorem readsEach_entry (codec : FloatCodec) (cs : List Child) :
    ReadsEach codec scanEntry Child.key cs := by
  intro c hmem w hw hc
  rw [scanEntry, readsEach_span codec cs c hmem w hw hc]
  change (c.span.decodeKey >>= _) = _
  rw [hc.decodeKey]
  rfl

theorem readsEach_parse (codec : FloatCodec) (cs : List Child) :
    ReadsEach codec (entryOf parseStr (parseValue codec (MAX_DEPTH - 1))) Child.entry cs := by
  intro c hmem w hw hc
  obtain ⟨w₁, w₂, hw₁, hw₂, hgap⟩ := hc.gap
  have hentry := EntryText.mk hc.key hc.quoteFree hw₁ hw₂ hc.value
  have hread := (reads_value (valueHandlers codec) (MAX_DEPTH - 1)).entryOf escape w _ _ c.post hw
    hentry hc.ends
  rw [String.ofList_toList] at hread
  change entryOf (stringFrom escape 0) (readValue _ _) _ = some ((c.key, c.value), c.post)
  simpa [Child.text, Child.keyText, Child.afterKey, Child.fromValue, hgap] using hread

theorem readsEach_range (codec : FloatCodec) (json : List Char) (cs : List Child) :
    ReadsEach codec (scanRange json) (fun c => (c.range json, c.span)) cs := by
  intro c hmem w hw hc
  obtain ⟨w₁, w₂, hw₁, hw₂, hgap⟩ := hc.gap
  obtain ⟨d, u, hskip, hd, -, -⟩ := skipWs_value hw₂ hc.value.start c.post
  rw [← List.cons_append, ← hd] at hskip
  have hstart : skipWs (w ++ c.text) = c.text := by
    rw [skipWs_append hw]
    exact skipWs_cons (c := '"') rfl _
  have hquote : expect '"' c.text = some (c.keyBody ++ '"' :: c.afterKey) := by
    rw [Child.text, Child.keyText, List.append_assoc]
    exact expect_append allWs_nil rfl _
  have hcolon : expect ':' c.afterKey = some (w₂ ++ c.fromValue) := by
    rw [Child.afterKey, hgap, List.append_assoc]
    exact expect_append hw₁ rfl _
  have hvalue : skipWs (w₂ ++ c.fromValue) = c.fromValue := by
    rw [Child.fromValue, ← List.append_assoc]
    exact hskip
  rw [scanRange, hstart]
  dsimp only
  rw [hquote]
  change (scanString (c.keyBody ++ '"' :: c.afterKey) >>= _) = _
  rw [scanString, scanStringFrom_quoteFree hc.quoteFree]
  change (expect ':' c.afterKey >>= _) = _
  rw [hcolon]
  change (scanValue (skipWs (w₂ ++ c.fromValue)) >>= _) = _
  rw [hvalue, Child.fromValue, scanValue_tok hc.value hc.ends]
  rfl

/-! The walk that skips values sees the same entries. -/

/-- What is skipped of an escape that is read; a surrogate pair is skipped as two escapes. -/
theorem ignored_escape {t : List Char} (h : escape t = some (d, n)) :
    (∃ e, ignoredEscape t = some (e, n)) ∨ n = 10 ∧ ∃ e e' u, ignoredEscape t = some (e, 4) ∧
      t.drop 5 = '\\' :: u ∧ ignoredEscape u = some (e', 4) := by
  cases t with
  | nil => cases h
  | cons c t =>
    by_cases hc : c = 'u'
    · subst hc
      change unicodeEscape t = some (d, n) at h
      rw [unicodeEscape] at h
      cases hx : hex4 t with
      | none =>
        rw [hx] at h
        cases h
      | some m =>
        have hskip : ignoredEscape ('u' :: t) = some (Char.ofNat m, 4) := by
          rw [ignoredEscape, hx]
          rfl
        rw [hx] at h
        dsimp only at h
        split at h
        · cases h
        · split at h
          · cases h
            exact .inl ⟨_, hskip⟩
          · obtain ⟨rfl, u, hu, -, -, -⟩ := trailingSurrogate_eq_some h
            rw [hu, trailingSurrogate_cons] at h
            cases hy : hex4 u with
            | none =>
              rw [hy] at h
              cases h
            | some k =>
              refine .inr ⟨rfl, _, Char.ofNat k, 'u' :: u, hskip, hu, ?_⟩
              rw [ignoredEscape, hy]
              rfl
    · apply Or.inl
      rw [escape] at h
      · obtain ⟨e, he, hq⟩ := Option.map_eq_some_iff.1 h
        cases hq
        refine ⟨d, ?_⟩
        rw [ignoredEscape, he]
        · rfl
        · exact hc
      · exact hc

/-- A string that the parser reads is one that it can skip. -/
theorem ignored_of_escape (h : stringFrom escape 0 s = some (x, r)) :
    ∃ y, stringFrom ignoredEscape 0 s = some (y, r) := by
  generalize hn : s.length = n
  induction n using Nat.strong_induction_on generalizing s x with
  | _ n ih =>
    cases s with
    | nil => cases h
    | cons c t =>
      rw [List.length_cons] at hn
      by_cases h₁ : c = '"'
      · subst h₁
        cases h
        exact ⟨[], rfl⟩
      · by_cases h₂ : c = '\\'
        · subst h₂
          rw [stringFrom_backslash] at h ⊢
          cases he : escape t with
          | none =>
            rw [he] at h
            cases h
          | some e =>
            obtain ⟨d, k⟩ := e
            rw [he] at h
            obtain ⟨p, hp, hq⟩ := Option.map_eq_some_iff.1 h
            cases hq
            obtain ⟨y, hy⟩ := ih (t.drop (k + 1)).length (by rw [List.length_drop]; omega) hp rfl
            obtain ⟨e, hskip⟩ | ⟨rfl, e, e', u, hskip, hu, hskip'⟩ := ignored_escape he
            · rw [hskip]
              dsimp only
              rw [hy]
              exact ⟨_, rfl⟩
            · have hdrop : u.drop 5 = t.drop 11 := by
                rw [← List.drop_succ_cons (a := '\\'), ← hu, List.drop_drop]
              rw [hskip]
              dsimp only
              rw [hu, stringFrom_backslash, hskip']
              dsimp only
              rw [hdrop, hy]
              exact ⟨_, rfl⟩
        · cases h₃ : isControl c with
          | true =>
            rw [stringFrom, if_neg h₁, if_neg h₂, if_pos h₃] at h
            cases h
          | false =>
            rw [stringFrom_plain h₁ h₂ h₃] at h ⊢
            obtain ⟨p, hp, hq⟩ := Option.map_eq_some_iff.1 h
            cases hq
            obtain ⟨y, hy⟩ := ih t.length (by omega) hp rfl
            rw [hy]
            exact ⟨_, rfl⟩

theorem StrBody.ignored (h : StrBody escape body x) : ∃ y, StrBody ignoredEscape body y := by
  obtain ⟨y, hy⟩ := ignored_of_escape (h [])
  obtain ⟨body', hbody, hstr, -⟩ := stringFrom_sound local_ignoredEscape hy
  rw [List.append_cancel_right hbody]
  exact ⟨y, hstr⟩

theorem LeafText.ignored {codec : FloatCodec} (h : LeafText (valueHandlers codec) tok v) :
    LeafText ignoreHandlers tok () := by
  cases h with
  | null => exact .null
  | true => exact .true
  | false => exact .false
  | str hs hq =>
    obtain ⟨y, hy⟩ := StrBody.ignored hs
    exact .str (h := ignoreHandlers) hy hq
  | num hl _ => exact .num hl rfl

theorem EntryText.ignored {R : List Char → α → Prop} {S : List Char → Unit → Prop}
    (hRS : ∀ tok a, R tok a → S tok ()) (h : EntryText escape R tok e) :
    ∃ e', EntryText ignoredEscape S tok e' := by
  cases h with
  | mk hk hf hw hw' ht =>
    obtain ⟨y, hy⟩ := StrBody.ignored hk
    exact ⟨_, .mk hy hf hw hw' (hRS _ _ ht)⟩

theorem Tok.ignored {codec : FloatCodec} (h : Tok (valueHandlers codec) d tok v) :
    Tok ignoreHandlers d tok () := by
  induction d generalizing tok v with
  | zero => exact LeafText.ignored h
  | succ d ih =>
    obtain h | ⟨body, as, hb, rfl, -⟩ | ⟨body, es, hb, rfl, -⟩ := h
    · exact .inl (LeafText.ignored h)
    · obtain ⟨bs, hbs⟩ := BodyText.exists_map hb fun tok a ht => ⟨(), ih ht⟩
      exact .inr (.inl ⟨body, bs, hbs, rfl, rfl⟩)
    · obtain ⟨bs, hbs⟩ := BodyText.exists_map (S := EntryText ignoredEscape (Tok ignoreHandlers d))
        hb fun tok e he => EntryText.ignored (fun _ _ => ih) he
      exact .inr (.inr ⟨body, bs, hbs, rfl, rfl⟩)

theorem readsEach_skip (codec : FloatCodec) (n : Nat) (cs : List Child)
    (hn : ∀ c ∈ cs, c.valueText.length ≤ n) :
    ReadsEach codec (entryOf parseStr (readValue ignoreHandlers n)) (fun c => (c.key, ())) cs := by
  intro c hmem w hw hc
  obtain ⟨w₁, w₂, hw₁, hw₂, hgap⟩ := hc.gap
  have htok : Tok ignoreHandlers n c.valueText () :=
    (Tok.length (Tok.ignored hc.value)).mono (hn c hmem)
  have hentry := EntryText.mk hc.key hc.quoteFree hw₁ hw₂ htok
  have hread := (reads_value ignoreHandlers n).entryOf escape w _ _ c.post hw hentry hc.ends
  rw [String.ofList_toList] at hread
  change entryOf (stringFrom escape 0) (readValue _ _) _ = _
  simpa [Child.text, Child.keyText, Child.afterKey, Child.fromValue, hgap] using hread

/-! Offsets. -/

theorem byteLength_append (s t : List Char) :
    byteLength (s ++ t) = byteLength s + byteLength t := by
  rw [byteLength, encode_append, List.length_append]
  rfl

theorem offsetOf_append (s t : List Char) : offsetOf (s ++ t) t = byteLength s := by
  rw [offsetOf, byteLength_append, Nat.add_sub_cancel]

theorem slice_append (s t u : List Char) :
    slice (s ++ t ++ u) (offsetOf (s ++ t ++ u) (t ++ u), offsetOf (s ++ t ++ u) u) = encode t := by
  have hstart : offsetOf (s ++ t ++ u) (t ++ u) = byteLength s := by
    rw [List.append_assoc, offsetOf_append]
  rw [slice, hstart, offsetOf_append, byteLength_append, Nat.add_sub_cancel_left, encode_append,
    encode_append, List.append_assoc]
  change ((encode s ++ (encode t ++ encode u)).drop (encode s).length).take (encode t).length = _
  rw [List.drop_left, List.take_left]

theorem restAt_append (s t : List Char) : restAt (byteLength s) (s ++ t) = t := by
  induction s with
  | nil => exact restAt.eq_1 t
  | cons c s ih =>
    have hlen : byteLength (c :: s) = (String.utf8EncodeChar c).length + byteLength s := by
      rw [← List.singleton_append, byteLength_append, byteLength, encode, List.flatMap_singleton]
    have hpos : (String.utf8EncodeChar c).length ≠ 0 := by
      rw [String.length_utf8EncodeChar]
      exact (Char.utf8Size_pos c).ne'
    obtain ⟨n, hn⟩ := Nat.exists_eq_succ_of_ne_zero hpos
    rw [Nat.succ_eq_add_one] at hn
    rw [hlen, hn, Nat.add_right_comm, List.cons_append, restAt, hn,
      Nat.add_right_comm, Nat.add_sub_cancel_left, ih]

theorem Children.suffix (h : Children codec t cs) : ∀ c ∈ cs, c.text <:+ t := by
  induction h with
  | one _ _ _ _ =>
    intro c hc
    rw [List.mem_singleton.1 hc]
    exact List.suffix_append _ _
  | @cons w w' t c cs _ _ _ hpost _ ih =>
    intro d hd
    obtain rfl | hd := List.mem_cons.1 hd
    · exact List.suffix_append _ _
    · have hrest : t <:+ w ++ c.text := by
        rw [Child.text, Child.afterKey, Child.fromValue, hpost]
        exact ⟨w ++ (c.keyText ++ (c.gap ++ (c.valueText ++ (w' ++ [','])))), by simp⟩
      exact (ih d hd).trans hrest

theorem Root.suffix (h : Root codec json cs) : ∀ c ∈ cs, c.text <:+ json := by
  intro c hc
  cases h with
  | empty => cases hc
  | @children w t cs hw hcs =>
    exact (hcs.suffix c hc).trans ((List.suffix_cons _ _).trans (List.suffix_append _ _))

theorem keysAfterFrom_close (hw : AllWs w) (fuel : Nat) (r : List Char) :
    keysAfterFrom fuel (w ++ '}' :: r) = [] := by
  cases fuel with
  | zero => exact keysAfterFrom.eq_1 _
  | succ n =>
    rw [keysAfterFrom.eq_2, expect, skipWs_append hw, skipWs_cons rfl, List.head?_cons,
      if_neg (by decide)]

theorem Children.keysAfter (h : Children codec t cs) (hw : AllWs w) (hfuel : cs.length ≤ fuel) :
    keysAfterFrom fuel (w ++ ',' :: t) = cs.map Child.key := by
  induction h generalizing fuel w with
  | @one w₁ w₂ r c hw₁ hc hw₂ hpost =>
    obtain ⟨n, rfl⟩ := Nat.exists_eq_add_of_le' hfuel
    rw [List.length_singleton, keysAfterFrom.eq_2, expect_append hw rfl]
    dsimp only
    rw [readsEach_entry codec [c] c List.mem_cons_self w₁ hw₁ hc]
    dsimp only
    rw [hpost, keysAfterFrom_close hw₂]
    rfl
  | @cons w₁ w₂ t c cs hw₁ hc hw₂ hpost _ ih =>
    obtain ⟨n, rfl⟩ := Nat.exists_eq_add_of_le' hfuel
    rw [List.length_cons, ← Nat.add_assoc, keysAfterFrom.eq_2, expect_append hw rfl]
    dsimp only
    rw [readsEach_entry codec [c] c List.mem_cons_self w₁ hw₁ hc]
    dsimp only
    rw [hpost, ih hw₂ (Nat.le_add_left cs.length n), List.map_cons]

theorem Children.after (h : Children codec t cs) (i : Nat) : ∀ c ∈ cs[i]?,
    LocalMind.keysAfter c.post = (cs.drop (i + 1)).map Child.key := by
  induction h generalizing i with
  | @one w w' r c hw _ hw' hpost =>
    intro d hd
    cases i with
    | zero =>
      cases hd
      rw [LocalMind.keysAfter, hpost, keysAfterFrom_close hw']
      rfl
    | succ i => cases hd
  | @cons w w' t c cs hw _ hw' hpost hcs ih =>
    intro d hd
    cases i with
    | zero =>
      cases hd
      have hlen : cs.length ≤ (w' ++ ',' :: t).length := by
        have := hcs.length_le
        rw [List.length_append, List.length_cons]
        omega
      rw [LocalMind.keysAfter, hpost, hcs.keysAfter hw' hlen, List.drop_succ_cons, List.drop_zero]
    | succ i => exact ih i d hd

theorem Children.ordered (h : Children codec t cs) :
    cs.Pairwise fun a b => b.text <:+ a.post := by
  induction h with
  | one _ _ _ _ => exact List.pairwise_singleton _ _
  | @cons w w' t c cs _ _ _ hpost hcs ih =>
    apply List.pairwise_cons.2
    refine ⟨fun d hd => ?_, ih⟩
    rw [hpost]
    exact (hcs.suffix d hd).trans ((List.suffix_cons _ _).trans (List.suffix_append _ _))

theorem Tok.head (h : Tok (valueHandlers codec) d tok v) : ∀ a ∈ tok.head?, isWs a = false := by
  intro a ha
  obtain ⟨c, t, rfl, hc, -, -⟩ := h.start
  rw [List.head?_cons, Option.mem_some_iff] at ha
  rw [← ha, hc]

theorem isNumChar_not_ws (h : isNumChar c = true) : isWs c = false := by
  cases hw : isWs c with
  | false => rfl
  | true =>
    simp only [isWs, Bool.or_eq_true, beq_iff_eq] at hw
    obtain ((rfl | rfl) | rfl) | rfl := hw <;> cases h

theorem Tok.last (h : Tok (valueHandlers codec) d tok v) :
    ∀ a ∈ tok.getLast?, isWs a = false := by
  have hclose : ∀ (t : List Char) c, isWs c = false →
      ∀ a ∈ (t ++ [c]).getLast?, isWs a = false := by
    intro t c hc a ha
    rw [List.getLast?_concat, Option.mem_some_iff] at ha
    rw [← ha, hc]
  have hleaf : LeafText (valueHandlers codec) tok v → ∀ a ∈ tok.getLast?, isWs a = false := by
    intro h
    cases h with
    | null => exact hclose ['n', 'u', 'l'] 'l' rfl
    | true => exact hclose ['t', 'r', 'u'] 'e' rfl
    | false => exact hclose ['f', 'a', 'l', 's'] 'e' rfl
    | str _ _ => exact hclose _ _ rfl
    | num hl _ => exact fun a ha => isNumChar_not_ws (hl.chars a (List.mem_of_getLast? ha))
  cases d with
  | zero => exact hleaf h
  | succ d =>
    obtain h | ⟨body, as, -, rfl, -⟩ | ⟨body, es, -, rfl, -⟩ := h
    · exact hleaf h
    · exact hclose _ _ rfl
    · exact hclose _ _ rfl

theorem Children.valid (h : Children codec t cs) : ∀ c ∈ cs, c.Valid codec := by
  induction h with
  | one _ hc _ _ =>
    intro d hd
    rw [List.mem_singleton.1 hd]
    exact hc
  | cons _ hc _ _ _ ih =>
    intro d hd
    obtain rfl | hd := List.mem_cons.1 hd
    · exact hc
    · exact ih d hd

theorem Root.valid (h : Root codec json cs) : ∀ c ∈ cs, c.Valid codec := by
  cases h with
  | empty => exact fun c hc => by cases hc
  | children _ hcs => exact hcs.valid

/-- The scan for a key keeps the children with that key. -/
theorem Root.ranges (h : Root codec json cs) (key : String) : topLevelKeyRanges json key =
    (cs.filter fun c => c.key = key).map (Child.range json) := by
  rw [topLevelKeyRanges, scanRoot_root h (readsEach_range codec json cs), Option.getD_some,
    List.filter_map, List.map_map]
  congr 1
  apply List.filter_congr
  intro c hc
  rw [Function.comp, (h.valid c hc).decodeKey]
  simp

theorem Root.streamKeys (h : Root codec json cs) : streamKeys json = some (cs.map Child.key) := by
  have hlen : ∀ c ∈ cs, c.valueText.length ≤ json.length := by
    intro c hc
    have hle := (h.suffix c hc).length_le
    rw [Child.text, Child.afterKey, Child.fromValue] at hle
    simp only [List.length_append] at hle
    omega
  have hread := scanRoot_root h (readsEach_skip codec json.length cs hlen)
  rw [scanRoot] at hread
  rw [Json.streamKeys]
  obtain ⟨p, hp, hmap⟩ := Option.map_eq_some_iff.1 hread
  obtain ⟨t, ht, hitems⟩ := Option.bind_eq_some_iff.1 hp
  rw [ht]
  change (itemsOf _ '}' t >>= _) = _
  rw [hitems]
  change some (p.1.map Prod.fst) = _
  rw [hmap, List.map_map]
  rfl

theorem Root.after (h : Root codec json cs) (i : Nat) : ∀ c ∈ cs[i]?,
    keysAfter c.post = (cs.drop (i + 1)).map Child.key := by
  cases h with
  | empty =>
    intro c hc
    cases hc
  | children _ hcs => exact hcs.after i

theorem Root.ordered (h : Root codec json cs) : cs.Pairwise fun a b => b.text <:+ a.post := by
  cases h with
  | empty => exact List.Pairwise.nil
  | children _ hcs => exact hcs.ordered

theorem restAt_suffix (h : t <:+ json) : restAt (offsetOf json t) json = t := by
  obtain ⟨s, rfl⟩ := h
  rw [offsetOf_append, restAt_append]

theorem offsetOf_anti (h : t <:+ u) : offsetOf json u ≤ offsetOf json t := by
  obtain ⟨s, rfl⟩ := h
  rw [offsetOf, offsetOf, byteLength_append]
  omega

/-- The bytes between two places of the text. -/
theorem slice_suffix (h : t ++ u <:+ json) :
    slice json (offsetOf json (t ++ u), offsetOf json u) = encode t := by
  obtain ⟨s, rfl⟩ := h
  rw [← List.append_assoc]
  exact slice_append s t u

theorem Child.post_suffix (c : Child) : c.post <:+ c.text :=
  ((List.suffix_append _ _).trans (List.suffix_append _ _)).trans (List.suffix_append _ _)

theorem Child.Valid.fromStr {c : Child} (h : c.Valid codec) :
    fromStr codec c.valueText = some c.value :=
  fromStr_eq_some_iff.2 ⟨[], c.valueText, [], by simp, allWs_nil, allWs_nil,
    h.value.mono (by decide)⟩

theorem scannerAgrees_of_root (h : Root codec json cs) : ScannerAgrees codec json cs where
  parsed := scanRoot_root h (readsEach_parse codec cs)
  keys := scanRoot_root h (readsEach_entry codec cs)
  spans := h.ranges
  count := by
    intro key
    rw [topLevelKeyCount, h.streamKeys, Option.getD_some, h.ranges, List.length_map,
      ← List.countP_eq_length_filter, List.count, List.countP_map]
    rfl
  after := by
    intro i c hc
    have hsuffix := (c.post_suffix).trans (h.suffix c (List.mem_of_getElem? hc))
    rw [keysAfterAt, Child.range, restAt_suffix hsuffix, h.after i c hc]
  keySlice := by
    intro c hc
    exact ⟨slice_suffix (h.suffix c hc), fromStrString_key (h.valid c hc).key⟩
  valueSlice := by
    intro c hc
    have hsuffix : c.fromValue <:+ json := ((List.suffix_append _ _).trans
      (List.suffix_append _ _)).trans (h.suffix c hc)
    have hvalid := h.valid c hc
    exact ⟨slice_suffix hsuffix, hvalid.fromStr, Tok.head hvalid.value, Tok.last hvalid.value⟩
  ordered := h.ordered.imp offsetOf_anti

/-- On every text that parses as an object the scanner finds what the parser finds. -/
theorem scanner_agrees (h : fromStr codec json = some (.object m)) :
    ∃ children, ScannerAgrees codec json children ∧
      m = Fields.insertAll [] (children.map Child.entry) := by
  obtain ⟨cs, hroot, hm⟩ := root_of_fromStr h
  exact ⟨cs, scannerAgrees_of_root hroot, hm⟩

/-- A key given plainly and again through an escape, over a bracket in a string. -/
def twiceKeyed : List Char := " \x7b\"a\" : [\"\x7d\\\"\"] ,\n\"\\u0061\":2\x7d ".toList

theorem scanner_agrees_twiceKeyed : ∃ children, ScannerAgrees integersOnly twiceKeyed children ∧
    [("a", .number (.posInt 2))] = Fields.insertAll [] (children.map Child.entry) :=
  scanner_agrees (by decide +kernel)

example : topLevelKeyRanges twiceKeyed "a" = [⟨(2, 5), (8, 15)⟩, ⟨(18, 26), (27, 28)⟩] := by
  decide +kernel

end LocalMind
