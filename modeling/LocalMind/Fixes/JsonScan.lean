import LocalMind.Json.Print

namespace LocalMind
open Json
set_option autoImplicit true

/-! The structural scanner of the fixes: it delimits the direct entries of the root object in the
raw text. Byte offsets into the text are kept as the texts they delimit. -/

/-- Keep a character in front of what is taken. -/
def keepChar (c : Char) (r : Option (List Char × List Char)) : Option (List Char × List Char) :=
  r.map fun r => (c :: r.1, r.2)

/-- The text up to the closing quote of a string, `skip` of it already passed. A backslash
passes one character unseen. -/
def scanStringFrom (skip : Nat) : List Char → Option (List Char × List Char)
  | [] => none
  | c :: t =>
    match skip with
    | n + 1 => keepChar c (scanStringFrom n t)
    | 0 =>
      if c = '\\' then keepChar c (scanStringFrom 1 t)
      else if c = '"' then some ([], t)
      else if isControl c then none
      else keepChar c (scanStringFrom 0 t)

def scanString : List Char → Option (List Char × List Char) := scanStringFrom 0

def bracketStep (c : Char) : Int :=
  if c = '{' ∨ c = '[' then 1 else if c = '}' ∨ c = ']' then -1 else 0

/-- A container up to the bracket that closes it: strings are passed whole. -/
def scanNest (depth : Int) (skip : Nat) : List Char → Option (List Char × List Char)
  | [] => none
  | c :: t =>
    match skip with
    | n + 1 => keepChar c (scanNest depth n t)
    | 0 =>
      if c = '"' then
        match scanString t with
        | some (inner, _) => keepChar c (scanNest depth (inner.length + 1) t)
        | none => none
      else if depth + bracketStep c = 0 then some ([c], t)
      else if depth + bracketStep c < 0 then none
      else keepChar c (scanNest (depth + bracketStep c) 0 t)

/-- A value: a string, a container, or a literal that runs up to the next delimiter. -/
def scanValue : List Char → Option (List Char × List Char)
  | [] => none
  | c :: t =>
    if c = '"' then (scanString t).map fun r => ('"' :: r.1 ++ ['"'], r.2)
    else if c = '{' ∨ c = '[' then scanNest 0 0 (c :: t)
    else some ((c :: t).takeWhile (!isDelim ·), (c :: t).dropWhile (!isDelim ·))

/-- The texts of an entry: its key between the quotes, and its value. -/
structure KeySpan where
  key : List Char
  value : List Char
  deriving DecidableEq

def scanSpan (s : List Char) : Option (KeySpan × List Char) := do
  let t ← expect '"' s
  let (key, t) ← scanString t
  let t ← expect ':' t
  let (value, t) ← scanValue (skipWs t)
  some (⟨key, value⟩, t)

/-- The key a span names. A key without escapes is taken as it stands. -/
def KeySpan.decodeKey (span : KeySpan) : Option String :=
  if '\\' ∈ span.key then (fromStrString ('"' :: span.key ++ ['"'])).map String.ofList
  else some (String.ofList span.key)

def scanEntry (s : List Char) : Option (String × List Char) := do
  let (span, t) ← scanSpan s
  let key ← span.decodeKey
  some (key, t)

def scanRoot (item : Reader α) (json : List Char) : Option (List α) :=
  ((expect '{' json).bind (itemsOf item '}')).map Prod.fst

def topLevelKeyCount (json : List Char) (key : String) : Nat :=
  ((streamKeys json).getD []).count key

def topLevelKeySpans (json : List Char) (key : String) : List KeySpan :=
  ((scanRoot scanSpan json).getD []).filter fun span => span.decodeKey = some key

def depth1Keys (json : List Char) : Option (List String) := scanRoot scanEntry json

/-- The keys of the entries after a value, up to the first one that does not scan. -/
def keysAfterFrom : Nat → List Char → List String
  | 0, _ => []
  | fuel + 1, s =>
    match expect ',' s with
    | none => []
    | some t =>
      match scanEntry t with
      | none => []
      | some (key, t) => key :: keysAfterFrom fuel t

def keysAfter (s : List Char) : List String := keysAfterFrom s.length s

/-! What the scanner leaves is the end of what it was given. -/

theorem keepChar_suffix (h : keepChar c q = some (x, r)) (hq : ∀ y, q = some (y, r) → r <:+ t) :
    r <:+ c :: t := by
  obtain ⟨⟨y, r'⟩, hy, hx⟩ := Option.map_eq_some_iff.1 h
  cases hx
  exact (hq y hy).trans (List.suffix_cons c t)

theorem scanStringFrom_suffix (h : scanStringFrom n s = some (x, r)) : r <:+ s := by
  induction s generalizing n x with
  | nil => cases h
  | cons c t ih =>
    rw [scanStringFrom.eq_def] at h
    dsimp only at h
    split at h
    · exact keepChar_suffix h fun y => ih
    · split at h
      · exact keepChar_suffix h fun y => ih
      · split at h
        · cases h
          exact List.suffix_cons c _
        · split at h
          · cases h
          · exact keepChar_suffix h fun y => ih

theorem scanNest_suffix (h : scanNest depth n s = some (x, r)) : r <:+ s := by
  induction s generalizing depth n x with
  | nil => cases h
  | cons c t ih =>
    rw [scanNest.eq_def] at h
    dsimp only at h
    split at h
    · exact keepChar_suffix h fun y => ih
    · split at h
      · split at h
        · exact keepChar_suffix h fun y => ih
        · cases h
      · split at h
        · cases h
          exact List.suffix_cons c _
        · split at h
          · cases h
          · exact keepChar_suffix h fun y => ih

theorem scanValue_suffix (h : scanValue s = some (x, r)) : r <:+ s := by
  cases s with
  | nil => cases h
  | cons c t =>
    rw [scanValue] at h
    split at h
    · obtain ⟨⟨y, r'⟩, hy, hx⟩ := Option.map_eq_some_iff.1 h
      cases hx
      exact (scanStringFrom_suffix hy).trans (List.suffix_cons c t)
    · split at h
      · exact scanNest_suffix h
      · cases h
        exact List.dropWhile_suffix _

theorem expect_suffix (h : expect c s = some t) : c :: t <:+ s := by
  obtain ⟨w, -, rfl⟩ := expect_sound h
  exact List.suffix_append w _

theorem scanEntry_suffix (h : scanEntry s = some (key, t)) : t <:+ s := by
  obtain ⟨⟨span, u⟩, hspan, h⟩ := Option.bind_eq_some_iff.1 h
  obtain ⟨k, -, h⟩ := Option.bind_eq_some_iff.1 h
  cases h
  obtain ⟨t₁, h₁, h⟩ := Option.bind_eq_some_iff.1 hspan
  obtain ⟨⟨k', t₂⟩, h₂, h⟩ := Option.bind_eq_some_iff.1 h
  obtain ⟨t₃, h₃, h⟩ := Option.bind_eq_some_iff.1 h
  obtain ⟨⟨v, t₄⟩, h₄, h⟩ := Option.bind_eq_some_iff.1 h
  cases h
  exact (scanValue_suffix h₄).trans ((List.dropWhile_suffix _).trans
    (((List.suffix_cons _ _).trans (expect_suffix h₃)).trans
      ((scanStringFrom_suffix h₂).trans ((List.suffix_cons _ _).trans (expect_suffix h₁)))))

/-! The scanner takes what the parser takes. -/

theorem keepChar_some (c : Char) (r : List Char × List Char) :
    keepChar c (some r) = some (c :: r.1, r.2) := rfl

theorem scanStringFrom_quoteFree (h : QuoteFree body) (r : List Char) :
    scanStringFrom 0 (body ++ '"' :: r) = some (body, r) := by
  induction h with
  | nil => rfl
  | @plain c s h₁ h₂ h₃ _ ih =>
    rw [List.cons_append, scanStringFrom.eq_def]
    dsimp only
    rw [if_neg h₂, if_neg h₁, if_neg (by rw [h₃]; decide), ih]
    rfl
  | @escaped s c _ ih =>
    change keepChar '\\' (keepChar c (scanStringFrom 0 (s ++ '"' :: r))) = _
    rw [ih]
    rfl

/-- What the container scan passes over inside its brackets. -/
def Passes (t : List Char) : Prop :=
  ∀ depth r, 0 < depth → scanNest depth 0 (t ++ r) =
    (scanNest depth 0 r).map fun p => (t ++ p.1, p.2)

theorem Passes.nil : Passes [] := by
  intro depth r _
  rw [List.nil_append]
  cases scanNest depth 0 r <;> rfl

theorem Passes.append (h : Passes s) (ht : Passes t) : Passes (s ++ t) := by
  intro depth r hd
  rw [List.append_assoc, h depth _ hd, ht depth r hd, Option.map_map]
  congr 1
  funext p
  simp

theorem Passes.plain (h₁ : c ≠ '"') (h₂ : bracketStep c = 0) : Passes [c] := by
  intro depth r hd
  rw [List.singleton_append, scanNest.eq_def]
  dsimp only
  rw [if_neg h₁, h₂, Int.add_zero, if_neg (by omega), if_neg (by omega)]
  rfl

theorem Passes.all (h : ∀ c ∈ t, c ≠ '"' ∧ bracketStep c = 0) : Passes t := by
  induction t with
  | nil => exact .nil
  | cons c t ih =>
    obtain ⟨h₁, h₂⟩ := h c List.mem_cons_self
    exact (Passes.plain h₁ h₂).append (ih fun d hd => h d (List.mem_cons_of_mem _ hd))

theorem scanNest_skip (depth : Int) (t r : List Char) :
    scanNest depth t.length (t ++ r) = (scanNest depth 0 r).map fun p => (t ++ p.1, p.2) := by
  induction t with
  | nil =>
    change scanNest depth 0 r = _
    cases scanNest depth 0 r <;> rfl
  | cons c t ih =>
    rw [List.cons_append, List.length_cons, scanNest, ih, keepChar, Option.map_map]
    rfl

theorem Passes.str (h : QuoteFree body) : Passes ('"' :: body ++ ['"']) := by
  intro depth r hd
  have happ : '"' :: body ++ ['"'] ++ r = '"' :: (body ++ '"' :: r) := by simp
  have hskip := scanNest_skip depth (body ++ ['"']) r
  rw [List.append_assoc, List.singleton_append] at hskip
  rw [happ, scanNest.eq_def]
  dsimp only
  rw [if_pos rfl, scanString, scanStringFrom_quoteFree h]
  simp only [List.length_append, List.length_singleton] at hskip
  dsimp only
  rw [hskip, keepChar, Option.map_map]
  rfl

/-- The brackets of a container. -/
def Brackets (o c : Char) : Prop := (o = '[' ∧ c = ']') ∨ (o = '{' ∧ c = '}')

theorem Brackets.spec (h : Brackets o c) :
    o ≠ '"' ∧ c ≠ '"' ∧ bracketStep o = 1 ∧ bracketStep c = -1 ∧ (o = '{' ∨ o = '[') := by
  rcases h with ⟨rfl, rfl⟩ | ⟨rfl, rfl⟩ <;> decide

theorem scanNest_open (h : Brackets o c) (hd : 0 ≤ depth) (t : List Char) :
    scanNest depth 0 (o :: t) = keepChar o (scanNest (depth + 1) 0 t) := by
  obtain ⟨h₁, -, h₂, -, -⟩ := h.spec
  rw [scanNest.eq_def]
  dsimp only
  rw [if_neg h₁, h₂, if_neg (by omega), if_neg (by omega)]

theorem Passes.container (hb : Brackets o c) (h : Passes t) : Passes (o :: t ++ [c]) := by
  intro depth r hd
  obtain ⟨-, h₁, -, h₂, -⟩ := hb.spec
  have happ : o :: t ++ [c] ++ r = o :: (t ++ c :: r) := by simp
  have hclose : scanNest (depth + 1) 0 (c :: r) = keepChar c (scanNest depth 0 r) := by
    rw [scanNest.eq_def]
    dsimp only
    rw [if_neg h₁, h₂, if_neg (by omega), if_neg (by omega), Int.add_neg_cancel_right]
  rw [happ, scanNest_open hb (by omega), h _ _ (by omega), hclose]
  cases scanNest depth 0 r <;> simp [keepChar]

theorem scanNest_container (hb : Brackets o c) (h : Passes t) (r : List Char) :
    scanNest 0 0 (o :: t ++ [c] ++ r) = some (o :: t ++ [c], r) := by
  obtain ⟨-, h₁, -, h₂, -⟩ := hb.spec
  have happ : o :: t ++ [c] ++ r = o :: (t ++ c :: r) := by simp
  have hclose : scanNest (0 + 1) 0 (c :: r) = some ([c], r) := by
    rw [scanNest.eq_def]
    dsimp only
    rw [if_neg h₁, h₂, if_pos (by decide)]
  rw [happ, scanNest_open hb (Int.le_refl 0), h _ _ (by decide), hclose]
  rfl

theorem bracketStep_eq_zero (h : c ≠ '{' ∧ c ≠ '[' ∧ c ≠ '}' ∧ c ≠ ']') : bracketStep c = 0 := by
  obtain ⟨h₁, h₂, h₃, h₄⟩ := h
  simp [bracketStep, h₁, h₂, h₃, h₄]

theorem isWs_passes (h : isWs c = true) : c ≠ '"' ∧ bracketStep c = 0 := by
  simp only [isWs, Bool.or_eq_true, beq_iff_eq] at h
  rcases h with ((rfl | rfl) | rfl) | rfl <;> decide

theorem isNumChar_passes (h : isNumChar c = true) :
    c ≠ '"' ∧ bracketStep c = 0 ∧ isDelim c = false := by
  have hq : c ≠ '"' ∧ c ≠ '{' ∧ c ≠ '[' ∧ c ≠ '}' ∧ c ≠ ']' := by
    refine ⟨?_, ?_, ?_, ?_, ?_⟩ <;> rintro rfl <;> cases h
  refine ⟨hq.1, bracketStep_eq_zero hq.2, ?_⟩
  cases hd : isDelim c with
  | false => rfl
  | true =>
    rcases isDelim_iff.1 hd with (rfl | rfl | rfl | rfl) | rfl | rfl | rfl <;> cases h

theorem Passes.ws (h : AllWs w) : Passes w := .all fun c hc => isWs_passes (h c hc)

theorem Passes.leaf {h : Handlers α} (ht : LeafText h tok a) : Passes tok := by
  cases ht with
  | null => exact .all (by simp [bracketStep])
  | true => exact .all (by simp [bracketStep])
  | false => exact .all (by simp [bracketStep])
  | str _ hf => exact .str hf
  | num hl _ =>
    refine .all fun c hc => ?_
    obtain ⟨h₁, h₂, -⟩ := isNumChar_passes (hl.chars c hc)
    exact ⟨h₁, h₂⟩

theorem Passes.items {R : List Char → α → Prop} (hR : ∀ tok a, R tok a → Passes tok)
    (h : ItemsText R body as) : Passes body := by
  induction h with
  | one hw ht hw' => exact ((ws hw).append (hR _ _ ht)).append (ws hw')
  | cons hw ht hw' _ ih =>
    have hcomma : Passes [','] := .plain (by decide) rfl
    simpa using (((ws hw).append (hR _ _ ht)).append (ws hw')).append (hcomma.append ih)

theorem Passes.bodyText {R : List Char → α → Prop} (hR : ∀ tok a, R tok a → Passes tok)
    (h : BodyText R body as) : Passes body := by
  cases h with
  | empty hw => exact .ws hw
  | items hi => exact .items hR hi

theorem Passes.entry {R : List Char → α → Prop} (hR : ∀ tok a, R tok a → Passes tok)
    (h : EntryText esc R tok e) : Passes tok := by
  cases h with
  | @mk key k w w' tok v _ hf hw hw' ht =>
    have hcolon : Passes [':'] := .plain (by decide) rfl
    simpa using (((Passes.str hf).append (.ws hw)).append hcolon).append
      ((Passes.ws hw').append (hR _ _ ht))

theorem Passes.value {h : Handlers α} (ht : Tok h d tok a) : Passes tok := by
  induction d generalizing tok a with
  | zero => exact .leaf ht
  | succ d ih =>
    rcases ht with ht | ⟨body, as, hb, rfl, rfl⟩ | ⟨body, es, hb, rfl, rfl⟩
    · exact .leaf ht
    · exact .container (.inl ⟨rfl, rfl⟩) (.bodyText (fun _ _ => ih) hb)
    · exact .container (.inr ⟨rfl, rfl⟩) (.bodyText (fun _ _ => .entry fun _ _ => ih) hb)

theorem scanValue_str (h : QuoteFree body) (r : List Char) :
    scanValue ('"' :: body ++ ['"'] ++ r) = some ('"' :: body ++ ['"'], r) := by
  have happ : '"' :: body ++ ['"'] ++ r = '"' :: (body ++ '"' :: r) := by simp
  rw [happ, scanValue, if_pos rfl, scanString, scanStringFrom_quoteFree h]
  rfl

theorem scanValue_container (hb : Brackets o c) (h : Passes t) (r : List Char) :
    scanValue (o :: t ++ [c] ++ r) = some (o :: t ++ [c], r) := by
  obtain ⟨h₁, -, -, -, ho⟩ := hb.spec
  change (if o = '"' then _ else if o = '{' ∨ o = '[' then _ else _) = _
  rw [if_neg h₁, if_pos ho]
  exact scanNest_container hb h r

theorem scanValue_literal (hne : tok ≠ []) (h : ∀ c ∈ tok, c ≠ '"' ∧ c ≠ '{' ∧ c ≠ '[' ∧
    isDelim c = false) (hr : Ends r) : scanValue (tok ++ r) = some (tok, r) := by
  obtain ⟨c, t, rfl⟩ := List.exists_cons_of_ne_nil hne
  obtain ⟨h₁, h₂, h₃, -⟩ := h c List.mem_cons_self
  have hall : ∀ d ∈ c :: t, (!isDelim d) = true := fun d hd => by rw [(h d hd).2.2.2]; rfl
  have htake : r.takeWhile (!isDelim ·) = [] ∧ r.dropWhile (!isDelim ·) = r := by
    cases r with
    | nil => exact ⟨rfl, rfl⟩
    | cons d u =>
      have hd : (!isDelim d) = false := hr d u rfl
      exact ⟨List.takeWhile_cons_of_neg (by rw [hd]; decide),
        List.dropWhile_cons_of_neg (by rw [hd]; decide)⟩
  rw [List.cons_append, scanValue, if_neg h₁, if_neg (by simp [h₂, h₃]), ← List.cons_append,
    List.takeWhile_append_of_pos hall, List.dropWhile_append_of_pos hall, htake.1, htake.2,
    List.append_nil]

/-- The scanner takes the text of a value whole. -/
theorem scanValue_tok {h : Handlers α} (ht : Tok h d tok a) (hr : Ends r) :
    scanValue (tok ++ r) = some (tok, r) := by
  have hleaf : LeafText h tok a → scanValue (tok ++ r) = some (tok, r) := by
    intro ht
    cases ht with
    | null => exact scanValue_literal (by decide) (by simp [isDelim, isWs]) hr
    | true => exact scanValue_literal (by decide) (by simp [isDelim, isWs]) hr
    | false => exact scanValue_literal (by decide) (by simp [isDelim, isWs]) hr
    | str _ hf => exact scanValue_str hf r
    | num hl _ =>
      obtain ⟨c, u, hc, -⟩ := hl.head
      refine scanValue_literal (by rw [hc]; exact List.cons_ne_nil c u) (fun c hc => ?_) hr
      obtain ⟨h₁, -, h₂⟩ := isNumChar_passes (hl.chars c hc)
      refine ⟨h₁, ?_, ?_, h₂⟩ <;> rintro rfl <;> cases hl.chars _ hc
  cases d with
  | zero => exact hleaf ht
  | succ d =>
    rcases ht with ht | ⟨body, as, hb, rfl, rfl⟩ | ⟨body, es, hb, rfl, rfl⟩
    · exact hleaf ht
    · exact scanValue_container (.inl ⟨rfl, rfl⟩) (.bodyText (fun _ _ => .value) hb) r
    · exact scanValue_container (.inr ⟨rfl, rfl⟩)
        (.bodyText (fun _ _ => .entry fun _ _ => .value) hb) r

/-- The text of an entry and what the scanner keeps of it: its value's text is the text of a
value. -/
inductive SpanText (R : List Char → α → Prop) : List Char → KeySpan → Prop where
  | mk : QuoteFree key → AllWs w → AllWs w' → R tok v →
      SpanText R ('"' :: key ++ '"' :: w ++ ':' :: w' ++ tok) ⟨key, tok⟩

theorem EntryText.span {R : List Char → α → Prop} (h : EntryText esc R tok e) :
    ∃ span, SpanText R tok span := by
  cases h with
  | mk _ hf hw hw' ht => exact ⟨_, .mk hf hw hw' ht⟩

theorem SpanText.start {R : List Char → α → Prop} (h : SpanText R tok span) :
    StartsValue tok := by
  cases h with
  | mk _ _ _ _ => exact ⟨_, _, rfl, rfl, by decide, by decide⟩

theorem reads_span (h : Handlers α) (d : Nat) : Reads scanSpan (SpanText (Tok h d)) := by
  intro w tok span r hw hs hr
  cases hs with
  | @mk key w₁ w₂ tok v hf hw₁ hw₂ ht =>
    have happ : w ++ ('"' :: key ++ '"' :: w₁ ++ ':' :: w₂ ++ tok) ++ r =
        w ++ '"' :: (key ++ '"' :: (w₁ ++ ':' :: (w₂ ++ tok ++ r))) := by simp
    obtain ⟨c, u, hskip, hc, -, -⟩ := skipWs_value hw₂ ht.start r
    rw [← List.cons_append, ← hc] at hskip
    rw [happ, scanSpan, expect_append hw rfl]
    change (scanString (key ++ '"' :: _) >>= _) = _
    rw [scanString, scanStringFrom_quoteFree hf]
    change (expect ':' (w₁ ++ ':' :: _) >>= _) = _
    rw [expect_append hw₁ rfl]
    change (scanValue (skipWs (w₂ ++ tok ++ r)) >>= _) = _
    rw [hskip, scanValue_tok ht hr]
    rfl

theorem BodyText.exists_map {R : List Char → α → Prop} {S : List Char → β → Prop}
    (h : BodyText R body as) (hRS : ∀ tok a, R tok a → ∃ b, S tok b) :
    ∃ bs, BodyText S body bs := by
  cases h with
  | empty hw => exact ⟨[], .empty hw⟩
  | items hi =>
    suffices ∃ bs, ItemsText S body bs by
      obtain ⟨bs, hbs⟩ := this
      exact ⟨bs, .items hbs⟩
    induction hi with
    | one hw ht hw' =>
      obtain ⟨b, hb⟩ := hRS _ _ ht
      exact ⟨[b], .one hw hb hw'⟩
    | cons hw ht hw' _ ih =>
      obtain ⟨b, hb⟩ := hRS _ _ ht
      obtain ⟨bs, hbs⟩ := ih
      exact ⟨b :: bs, .cons hw hb hw' hbs⟩

theorem scanRoot_object {item : Reader α} {R : List Char → α → Prop} (hr : Reads item R)
    (hR : ∀ tok a, R tok a → StartsValue tok) (hw : AllWs w) (h : BodyText R body as)
    (r : List Char) : scanRoot item (w ++ ('{' :: body ++ ['}']) ++ r) = some as := by
  have happ : w ++ ('{' :: body ++ ['}']) ++ r = w ++ '{' :: (body ++ '}' :: r) := by simp
  rw [scanRoot, happ, expect_append hw rfl, Option.bind_some, hr.itemsOf hR (.inr rfl) h]
  rfl

theorem streamKeys_of_head (hw : isWs c = false) (hc : c ≠ '{') (t : List Char) :
    streamKeys (c :: t) = none := by
  rw [streamKeys, expect, skipWs_cons hw, List.head?_cons, if_neg fun h => hc (Option.some.inj h)]
  rfl

/-- A printed value has no key twice. -/
theorem count_print {codec : FloatCodec} {v : Value} (hfit : Fits codec (d + 1) v)
    (key : String) : topLevelKeyCount (print codec v) key ≤ 1 := by
  have hnone : streamKeys (print codec v) = none → topLevelKeyCount (print codec v) key ≤ 1 := by
    intro h
    rw [topLevelKeyCount, h]
    exact Nat.zero_le 1
  cases v with
  | null => exact hnone (streamKeys_of_head rfl (by decide) _)
  | bool b => cases b <;> exact hnone (streamKeys_of_head rfl (by decide) _)
  | number n =>
    obtain ⟨c, t, hc, hd⟩ := (printNumber_reads hfit).1.head
    refine hnone ?_
    rw [print, hc]
    rcases hd with rfl | hd
    · exact streamKeys_of_head rfl (by decide) t
    · exact streamKeys_of_head (isDigit_start hd).1 (isDigit_not_mark hd).2.2.2.2.2 t
  | string s => exact hnone (streamKeys_of_head rfl (by decide) _)
  | array xs => exact hnone (streamKeys_of_head rfl (by decide) _)
  | object m =>
    rw [topLevelKeyCount, streamKeys_print hfit]
    exact List.nodup_iff_count_le_one.1 hfit.1 key

/-- Every span of a valid text delimits the text of a value that the parser takes, one level
below the root. -/
theorem span_of_fromStr {codec : FloatCodec} (h : fromStr codec json = some v)
    (hs : span ∈ topLevelKeySpans json key) :
    ∃ x, fromStr codec span.value = some x ∧ Fits codec (MAX_DEPTH - 1) x := by
  obtain ⟨w, tok, w', rfl, hw, hw', ht⟩ := fromStr_eq_some_iff.1 h
  obtain ⟨c, u, htok, hc, -, -⟩ := ht.start
  have hroot : ∀ spans, scanRoot scanSpan (w ++ tok ++ w') = some spans → c = '{' := by
    intro spans hsp
    obtain ⟨p, hp, -⟩ := Option.map_eq_some_iff.1 hsp
    obtain ⟨t, hbrace, -⟩ := Option.bind_eq_some_iff.1 hp
    rw [expect, htok, List.append_assoc, skipWs_append hw, List.cons_append, skipWs_cons hc,
      List.head?_cons] at hbrace
    split at hbrace
    · next he => exact Option.some.inj he
    · cases hbrace
  have hmem := (List.mem_filter.1 hs).1
  cases hspans : scanRoot scanSpan (w ++ tok ++ w') with
  | none =>
    rw [hspans] at hmem
    cases hmem
  | some spans =>
    rw [hspans] at hmem
    have hbrace := hroot spans hspans
    rcases ht with ht | ⟨body, as, hb, rfl, rfl⟩ | ⟨body, es, hb, rfl, rfl⟩
    · cases ht with
      | num hl _ =>
        obtain ⟨d, u', hd, hdig⟩ := hl.head
        rw [htok] at hd
        cases hd
        rw [hbrace] at hdig
        rcases hdig with hdig | hdig <;> cases hdig
      | _ =>
        cases htok
        cases hbrace
    · cases htok
      cases hbrace
    · obtain ⟨spans', hb'⟩ := BodyText.exists_map hb fun _ _ => EntryText.span
      have hscan := scanRoot_object (reads_span (valueHandlers codec) 126)
        (fun _ _ => SpanText.start) hw hb' w'
      rw [hscan, Option.some.injEq] at hspans
      subst hspans
      obtain ⟨tok, hspan⟩ := hb'.exists_of_mem hmem
      cases hspan with
      | @mk key w₁ w₂ tok x hf hw₁ hw₂ ht =>
        refine ⟨x, fromStr_eq_some_iff.2 ⟨[], tok, [], by simp, allWs_nil, allWs_nil, ?_⟩,
          fits_of_tok ht⟩
        exact ht.mono (by decide)

end LocalMind
