import LocalMind.Fixes.FilepathOutcome
import LocalMind.Fixes.JsonScanAgreement
import LocalMind.Json.Quotes

namespace LocalMind
open Json
set_option autoImplicit true

/-! What the cut of unparseable arguments keeps. -/

/-- The text of a whole entry of the root object. -/
def WholeEntry (codec : FloatCodec) (tok : List Char) (e : String × Value) : Prop :=
  EntryText escape (Tok (valueHandlers codec) (MAX_DEPTH - 1)) tok e

/-- Whole entries between commas at the start of a text, and the rest of it. -/
inductive Opening (codec : FloatCodec) : List Char → List (List Char) → List Char → Prop where
  | none : Opening codec t [] t
  | one : AllWs w → WholeEntry codec tok e → Ends rest →
      Opening codec (w ++ tok ++ rest) [tok] rest
  | cons : AllWs w → WholeEntry codec tok e → AllWs w' → Opening codec t toks rest →
      Opening codec (w ++ tok ++ (w' ++ ',' :: t)) (tok :: toks) rest

def Child.entryText (c : Child) : List Char := c.keyText ++ (c.gap ++ c.valueText)

/-! Entries that stand after one another, with commas before them. -/

/-- The text is passed over entry by entry: whole ones, or what the scanner takes for one. -/
inductive Passed (codec : FloatCodec) : List Char → List Char → Prop where
  | refl : Passed codec t t
  | entry : AllWs w → AllWs w' → WholeEntry codec tok e → Ends t → Passed codec t u →
      Passed codec (w ++ ',' :: (w' ++ tok ++ t)) u
  | scanned : AllWs w → scanEntry s = some (key, t) → Passed codec t u →
      Passed codec (w ++ ',' :: s) u

/-- A whole entry with this key follows before the first text that is none. -/
def EntryFollows (codec : FloatCodec) (key : String) (s : List Char) : Prop :=
  ∃ w w' tok v t, Passed codec s (w ++ ',' :: (w' ++ tok ++ t)) ∧ AllWs w ∧ AllWs w' ∧
    WholeEntry codec tok (key, v)

namespace ToolcallBadFilepathFix

/-- The first marker and the string token after it. -/
def FirstToken (args before lead body rest : List Char) : Prop :=
  Text.splitOnce FILEPATH_KEY args = some (before, lead ++ '"' :: (body ++ '"' :: rest)) ∧
    AllWs lead ∧ QuoteFree body

/-- The arguments start with these entries, all before the text from the marker on. -/
def EntriesBefore (codec : FloatCodec) (args marked : List Char) (toks : List (List Char)) :
    Prop :=
  ∃ w t rest, AllWs w ∧ args = w ++ '{' :: t ∧ Opening codec t toks rest ∧ marked <:+ rest

/-- An object whose last child is a `filePath` with the token that stands after the text. -/
structure NamesToken (codec : FloatCodec) (r before lead body : List Char)
    (m : List (String × Value)) (cs : List Child) (c : Child) : Prop where
  object : fromStr codec r = some (.object m)
  children : Root codec r (cs ++ [c])
  named : c.key = "filePath"
  token : c.valueText = '"' :: (body ++ ['"'])
  place : r = before ++ FILEPATH_KEY ++ lead ++ c.valueText ++ c.post
  given : Fields.get m "filePath" = some c.value

/-- What the repair is to keep of arguments that do not parse. -/
def Keeps (codec : FloatCodec) (args r : List Char) : Prop :=
  (∃ kept, kept <+: args ∧ r = kept ++ ['}']) ∧
  ∃ before lead body rest, FirstToken args before lead body rest ∧
    (∃ m cs c, NamesToken codec r before lead body m cs c ∧
      ∀ toks, EntriesBefore codec args (FILEPATH_KEY ++ (lead ++ '"' :: (body ++ '"' :: rest)))
        toks → toks <+: cs.map Child.entryText) ∧
    ¬ EntryFollows codec SCHEMA_BODY_KEY rest

/-- The first marker stands inside a string: its quote is escaped. -/
def MarkerEscaped (args : List Char) : Prop :=
  ∃ before after, Text.splitOnce FILEPATH_KEY args = some (before, after) ∧
    escapesNext before = true

end ToolcallBadFilepathFix

/-! The children of an object that closes right after a string. -/

theorem Child.Valid.spanText_text {c : Child} (h : c.Valid codec) :
    WholeEntry codec c.entryText c.entry := by
  obtain ⟨w₁, w₂, hw₁, hw₂, hgap⟩ := h.gap
  have hentry := EntryText.mk h.key h.quoteFree hw₁ hw₂ h.value
  rw [String.ofList_toList] at hentry
  have htext : c.entryText = '"' :: c.keyBody ++ '"' :: w₁ ++ ':' :: w₂ ++ c.valueText := by
    simp [Child.entryText, Child.keyText, hgap]
  rw [WholeEntry, htext]
  exact hentry

theorem Child.text_eq (c : Child) : c.text = c.entryText ++ c.post := by
  simp [Child.text, Child.afterKey, Child.fromValue, Child.entryText]

theorem WholeEntry.skip {codec : FloatCodec} (he : WholeEntry codec tok e) (hw : AllWs w) :
    skipWs (w ++ tok) = tok := by
  cases he with
  | mk _ _ _ _ _ =>
    rw [skipWs_append hw]
    exact skipWs_cons rfl _

/-- An entry at the place of a child is that child. -/
theorem Child.Valid.same {c : Child} (hc : c.Valid codec) (hw : AllWs w) (hw' : AllWs w')
    (he : WholeEntry codec tok e) (hends : Ends rest)
    (heq : w ++ tok ++ rest = w' ++ c.text) : tok = c.entryText ∧ rest = c.post := by
  obtain ⟨span, hspan⟩ := EntryText.span he
  have hread := reads_span _ _ w tok span rest hw hspan hends
  rw [heq, readsEach_span codec [c] c List.mem_cons_self w' hw' hc] at hread
  obtain rfl : c.post = rest := (Prod.mk.inj (Option.some.inj hread)).2
  rw [c.text_eq, ← List.append_assoc] at heq
  have hcut := congrArg skipWs (List.append_cancel_right heq)
  rw [he.skip hw, hc.spanText_text.skip hw'] at hcut
  exact ⟨hcut, rfl⟩

/-- Entries that open a text of children are the first of them. -/
theorem Opening.children (h : Opening codec t toks rest) (hcs : Children codec t cs) :
    toks <+: cs.map Child.entryText ∧
      (toks.length = cs.length → ∀ c ∈ cs.getLast?, rest = c.post) := by
  induction h generalizing cs with
  | none =>
    refine ⟨List.nil_prefix, ?_⟩
    intro hlen
    exact absurd (List.length_eq_zero_iff.1 hlen.symm) hcs.ne_nil
  | @one w tok e rest hw he hends =>
    generalize ht : w ++ tok ++ rest = t at hcs
    cases hcs with
    | @one w₁ w₂ r c hw₁ hc _ _ =>
      obtain ⟨htok, hrest⟩ := hc.same hw hw₁ he hends ht
      refine ⟨⟨[], by rw [htok]; rfl⟩, ?_⟩
      intro _ d hd
      cases hd
      exact hrest
    | @cons w₁ w₂ u c cs hw₁ hc _ _ hcs =>
      obtain ⟨htok, -⟩ := hc.same hw hw₁ he hends ht
      refine ⟨⟨cs.map Child.entryText, by rw [htok]; rfl⟩, ?_⟩
      intro hlen
      exact absurd (List.length_eq_zero_iff.1 (Nat.succ.inj hlen).symm) hcs.ne_nil
  | @cons w tok e w' t toks rest hw he hw' _ ih =>
    generalize ht : w ++ tok ++ (w' ++ ',' :: t) = s at hcs
    have hends : Ends (w' ++ ',' :: t) := ends_ws hw' (ends_cons rfl t)
    cases hcs with
    | @one w₁ w₂ r c hw₁ hc hw₂ hpost =>
      obtain ⟨-, hrest⟩ := hc.same hw hw₁ he hends ht
      have hcomma := afterItem_comma hw' '}' t
      rw [hrest, hpost, afterItem_close hw₂ rfl (by decide)] at hcomma
      cases hcomma
    | @cons w₁ w₂ u c cs hw₁ hc hw₂ hpost hcs =>
      obtain ⟨htok, hrest⟩ := hc.same hw hw₁ he hends ht
      have hcomma := afterItem_comma hw' '}' t
      rw [hrest, hpost, afterItem_comma hw₂] at hcomma
      cases hcomma
      obtain ⟨⟨later, hlater⟩, hlast⟩ := ih hcs
      refine ⟨⟨later, by rw [htok, List.map_cons, List.cons_append, hlater]⟩, ?_⟩
      intro hlen d hd
      apply hlast (Nat.succ.inj hlen)
      rwa [List.getLast?_cons_of_ne_nil hcs.ne_nil] at hd

/-- What opens a text opens it whatever comes after the first character of the rest. -/
theorem Opening.swap (h : Opening codec t toks rest) : ∃ u, t = u ++ rest ∧
    ∀ rest', rest'.head? = rest.head? → Opening codec (u ++ rest') toks rest' := by
  induction h with
  | none => exact ⟨[], rfl, fun _ _ => .none⟩
  | @one w tok e rest hw he hends =>
    refine ⟨w ++ tok, rfl, ?_⟩
    intro rest' hhead
    apply Opening.one hw he
    intro c t hr
    rw [hr] at hhead
    cases rest with
    | nil => cases hhead
    | cons d u =>
      cases hhead
      exact hends c u rfl
  | @cons w tok e w' t toks rest hw he hw' _ ih =>
    obtain ⟨u, rfl, hswap⟩ := ih
    refine ⟨w ++ tok ++ (w' ++ ',' :: u), by simp, ?_⟩
    intro rest' hhead
    have hopen := Opening.cons hw he hw' (hswap rest' hhead)
    simpa using hopen

theorem Root.opens {codec : FloatCodec} (h : Root codec json cs) (hne : cs ≠ []) :
    ∃ w t, AllWs w ∧ json = w ++ '{' :: t ∧ Children codec t cs := by
  cases h with
  | empty => exact absurd rfl hne
  | children hw hcs => exact ⟨_, _, hw, rfl, hcs⟩

/-- What stands before a child of the root does not escape its quote. -/
theorem Children.before (h : Children codec t cs) (hc : c ∈ cs) :
    ∃ u, t = u ++ c.text ∧ escapesNext u = false := by
  induction h with
  | one hw _ _ _ =>
    rw [List.mem_singleton.1 hc]
    exact ⟨_, rfl, escapesNext_of_free (hw.notMem rfl)⟩
  | @cons w w' t d cs hw _ _ hpost _ ih =>
    obtain rfl | hc := List.mem_cons.1 hc
    · exact ⟨_, rfl, escapesNext_of_free (hw.notMem rfl)⟩
    · obtain ⟨u, rfl, hu⟩ := ih hc
      refine ⟨w ++ (d.entryText ++ w') ++ ',' :: u, ?_, ?_⟩
      · rw [d.text_eq, hpost]
        simp
      · rwa [escapesNext_append (by decide)]

theorem Root.before (h : Root codec json cs) (hc : c ∈ cs) :
    ∃ u, json = u ++ c.text ∧ escapesNext u = false := by
  cases h with
  | empty => cases hc
  | @children w t cs hw hcs =>
    obtain ⟨u, rfl, hu⟩ := hcs.before hc
    refine ⟨w ++ '{' :: u, by simp, ?_⟩
    rwa [escapesNext_append (by decide)]

/-- The last character of a leaf's text. -/
theorem LeafText.last {codec : FloatCodec} (h : LeafText (valueHandlers codec) tok v) :
    (∃ body, tok = '"' :: (body ++ ['"']) ∧ QuoteFree body) ∨
      ∃ c ∈ tok.getLast?, c ≠ '"' ∧ c ≠ '}' := by
  cases h with
  | null => exact .inr ⟨'l', rfl, by decide, by decide⟩
  | true => exact .inr ⟨'e', rfl, by decide, by decide⟩
  | false => exact .inr ⟨'e', rfl, by decide, by decide⟩
  | str _ hf => exact .inl ⟨_, rfl, hf⟩
  | @num l a hl _ =>
    right
    obtain ⟨c, t, hhead, -⟩ := hl.head
    have hne : l.text ≠ [] := by
      rw [hhead]
      exact List.cons_ne_nil c t
    refine ⟨_, List.getLast?_eq_some_getLast hne, ?_⟩
    have hnum := hl.chars _ (List.getLast_mem hne)
    constructor
    · intro hc
      rw [hc] at hnum
      cases hnum
    · intro hc
      rw [hc] at hnum
      cases hnum

/-- A value whose text ends in a quote is a string. -/
theorem Tok.string_of_quote {codec : FloatCodec} (h : Tok (valueHandlers codec) d tok v)
    (hq : tok.getLast? = some '"') : ∃ body, tok = '"' :: (body ++ ['"']) ∧ QuoteFree body := by
  have hleaf : LeafText (valueHandlers codec) tok v →
      ∃ body, tok = '"' :: (body ++ ['"']) ∧ QuoteFree body := by
    intro h
    obtain h | ⟨c, hc, hne, -⟩ := LeafText.last h
    · exact h
    · rw [hq] at hc
      cases hc
      exact absurd rfl hne
  cases d with
  | zero => exact hleaf h
  | succ d =>
    obtain h | ⟨body, as, -, rfl, -⟩ | ⟨body, es, -, rfl, -⟩ := h
    · exact hleaf h
    · rw [List.getLast?_concat] at hq
      cases hq
    · rw [List.getLast?_concat] at hq
      cases hq

/-- A value whose text ends in a brace is an object. -/
theorem Tok.object_of_brace {codec : FloatCodec} (h : Tok (valueHandlers codec) (d + 1) tok v)
    (hq : tok.getLast? = some '}') : ∃ body es, tok = '{' :: body ++ ['}'] ∧
      BodyText (EntryText escape (Tok (valueHandlers codec) d)) body es ∧
        v = .object (Fields.insertAll [] es) := by
  obtain h | ⟨body, as, -, rfl, -⟩ | ⟨body, es, hb, rfl, hv⟩ := h
  · obtain ⟨body, rfl, -⟩ | ⟨c, hc, -, hne⟩ := LeafText.last h
    · rw [← List.cons_append, List.getLast?_concat] at hq
      cases hq
    · rw [hq] at hc
      cases hc
      exact absurd rfl hne
  · rw [List.getLast?_concat] at hq
    cases hq
  · exact ⟨body, es, rfl, hb, hv⟩

/-- A text that closes its root right after a quote has a last child that ends there. -/
theorem children_of_closed {codec : FloatCodec}
    (h : fromStr codec (s ++ ['"', '}']) = some v) : ∃ cs c,
      Root codec (s ++ ['"', '}']) (cs ++ [c]) ∧
        v = .object (Fields.insertAll [] ((cs ++ [c]).map Child.entry)) ∧ c.post = ['}'] := by
  have happ : s ++ ['"', '}'] = s ++ ['"'] ++ ['}'] := by simp
  rw [happ] at h ⊢
  obtain ⟨w, tok, w', heq, hw, hw', ht⟩ := fromStr_eq_some_iff.1 h
  obtain rfl : w' = [] := hw'.nil_of_suffix ⟨_, heq.symm⟩ rfl
  rw [List.append_nil] at heq
  have hlast : tok.getLast? = some '}' := by
    have hget := congrArg List.getLast? heq
    obtain ⟨c, t, rfl, -, -, -⟩ := ht.start
    rwa [List.getLast?_concat, List.getLast?_append, List.getLast?_cons, Option.some_or,
      ← List.getLast?_cons, eq_comm] at hget
  obtain ⟨body, es, rfl, hb, rfl⟩ := Tok.object_of_brace (d := MAX_DEPTH - 1) ht hlast
  rw [← List.append_assoc, List.append_cancel_right_eq] at heq
  cases hb with
  | empty hb =>
    have hget := congrArg List.getLast? heq
    rw [List.getLast?_concat, List.getLast?_append, List.getLast?_cons, Option.some_or,
      ← List.getLast?_cons] at hget
    obtain hm | hm := List.mem_cons.1 (List.mem_of_getLast? hget.symm)
    · cases hm
    · cases hb _ hm
  | items hi =>
    obtain ⟨cs, hcs, hmap, hclose⟩ := ItemsText.children hi []
    obtain ⟨init, c, rfl⟩ := (List.eq_nil_or_concat' cs).resolve_left hcs.ne_nil
    obtain ⟨w₂, hw₂, hpost⟩ := hclose c List.getLast?_concat
    have htext : s ++ ['"'] ++ ['}'] = w ++ '{' :: (body ++ ['}']) := by
      rw [heq]
      simp
    have hsuffix : w₂ <:+ s ++ ['"'] := by
      have hc : c.post <:+ s ++ ['"'] ++ ['}'] := by
        rw [htext]
        exact c.post_suffix.trans ((hcs.suffix c (by simp)).trans
          ((List.suffix_cons _ _).trans (List.suffix_append _ _)))
      rw [hpost] at hc
      obtain ⟨u, hu⟩ := hc
      rw [← List.append_assoc, List.append_cancel_right_eq] at hu
      exact ⟨u, hu⟩
    obtain rfl : w₂ = [] := hw₂.nil_of_suffix hsuffix rfl
    refine ⟨init, c, ?_, by rw [hmap], hpost⟩
    rw [htext]
    exact .children hw hcs

/-- The scanner finds a value wherever the text of one stands. -/
theorem scanValue_isSome {h : Handlers α} (ht : Tok h d tok a) (r : List Char) :
    ∃ p, scanValue (tok ++ r) = some p := by
  have hleaf : LeafText h tok a → ∃ p, scanValue (tok ++ r) = some p := by
    intro ht
    cases ht with
    | null => exact ⟨_, rfl⟩
    | true => exact ⟨_, rfl⟩
    | false => exact ⟨_, rfl⟩
    | str _ hf => exact ⟨_, scanValue_str hf r⟩
    | num hl _ =>
      obtain ⟨c, u, hc, -⟩ := hl.head
      have hnum := hl.chars c (by rw [hc]; exact List.mem_cons_self)
      rw [hc, List.cons_append, scanValue, if_neg (isNumChar_passes hnum).1, if_neg]
      · exact ⟨_, rfl⟩
      · rintro (rfl | rfl)
        · cases hnum
        · cases hnum
  cases d with
  | zero => exact hleaf ht
  | succ d =>
    obtain ht | ⟨body, as, hb, rfl, -⟩ | ⟨body, es, hb, rfl, -⟩ := ht
    · exact hleaf ht
    · exact ⟨_, scanValue_container (.inl ⟨rfl, rfl⟩) (.bodyText (fun _ _ => .value) hb) r⟩
    · exact ⟨_, scanValue_container (.inr ⟨rfl, rfl⟩)
        (.bodyText (fun _ _ => .entry fun _ _ => .value) hb) r⟩

theorem decodeKey_body (hk : StrBody escape body k) (hf : QuoteFree body) :
    KeySpan.decodeKey ⟨body, value⟩ = some (String.ofList k) := by
  rw [KeySpan.decodeKey]
  dsimp only
  split
  · rw [fromStrString_key hk]
    rfl
  · next hb =>
    have hread := (hk []).symm.trans (stringFrom_self hf hb [])
    cases hread
    rfl

/-- The scanner takes an entry as far as it takes its value. -/
theorem scanEntry_of_value {codec : FloatCodec} (he : WholeEntry codec tok (key, v))
    (hw : AllWs w) (r : List Char) : ∃ val, Tok (valueHandlers codec) (MAX_DEPTH - 1) val v ∧
      ∀ x t, scanValue (val ++ r) = some (x, t) → scanEntry (w ++ tok ++ r) = some (key, t) := by
  generalize hq : (key, v) = e at he
  cases he with
  | @mk body k w₁ w₂ val v' hk hf hw₁ hw₂ ht =>
    cases hq
    refine ⟨val, ht, ?_⟩
    intro x t hx
    have happ : w ++ ('"' :: body ++ '"' :: w₁ ++ ':' :: w₂ ++ val) ++ r =
        w ++ '"' :: (body ++ '"' :: (w₁ ++ ':' :: (w₂ ++ val ++ r))) := by simp
    obtain ⟨c, u, hskip, hc, -, -⟩ := skipWs_value hw₂ ht.start r
    rw [← List.cons_append, ← hc] at hskip
    have hspan : scanSpan (w ++ '"' :: (body ++ '"' :: (w₁ ++ ':' :: (w₂ ++ val ++ r)))) =
        some (⟨body, x⟩, t) := by
      rw [scanSpan, expect_append hw rfl]
      change (scanString (body ++ '"' :: _) >>= _) = _
      rw [scanString, scanStringFrom_quoteFree hf]
      change (expect ':' (w₁ ++ ':' :: _) >>= _) = _
      rw [expect_append hw₁ rfl]
      change (scanValue (skipWs (w₂ ++ val ++ r)) >>= _) = _
      rw [hskip, hx]
      rfl
    rw [happ, scanEntry, hspan]
    change (KeySpan.decodeKey ⟨body, x⟩ >>= _) = _
    rw [decodeKey_body hk hf]
    rfl

theorem scanEntry_whole {codec : FloatCodec} (he : WholeEntry codec tok (key, v)) (hw : AllWs w)
    (r : List Char) : ∃ t, scanEntry (w ++ tok ++ r) = some (key, t) := by
  obtain ⟨val, ht, hscan⟩ := scanEntry_of_value he hw r
  obtain ⟨⟨x, t⟩, hx⟩ := scanValue_isSome ht r
  exact ⟨t, hscan x t hx⟩

theorem scanEntry_ends {codec : FloatCodec} (he : WholeEntry codec tok e) (hw : AllWs w)
    (hr : Ends r) : scanEntry (w ++ tok ++ r) = some (e.1, r) := by
  obtain ⟨val, ht, hscan⟩ := scanEntry_of_value he hw r
  exact hscan val r (scanValue_tok ht hr)

theorem Passed.keysAfter (h : Passed codec s t)
    (ht : ∀ fuel, t.length ≤ fuel → key ∈ keysAfterFrom fuel t) (hfuel : s.length ≤ fuel) :
    key ∈ keysAfterFrom fuel s := by
  have hstep : ∀ {w s t : List Char} {key' : String} {fuel : Nat}, AllWs w →
      scanEntry s = some (key', t) → (∀ fuel, t.length ≤ fuel → key ∈ keysAfterFrom fuel t) →
      (w ++ ',' :: s).length ≤ fuel → key ∈ keysAfterFrom fuel (w ++ ',' :: s) := by
    intro w s t key' fuel hw hscan ht hfuel
    have hlen := (scanEntry_suffix hscan).length_le
    rw [List.length_append, List.length_cons] at hfuel
    obtain ⟨n, rfl⟩ : ∃ n, fuel = n + 1 := ⟨fuel - 1, by omega⟩
    rw [keysAfterFrom.eq_2, expect_append hw rfl]
    dsimp only
    rw [hscan]
    exact List.mem_cons_of_mem key' (ht n (by omega))
  induction h generalizing fuel with
  | refl => exact ht fuel hfuel
  | @entry w w' tok e t u hw hw' he hends _ ih =>
    exact hstep hw (scanEntry_ends he hw' hends) (fun n hn => ih ht hn) hfuel
  | scanned hw hscan _ ih => exact hstep hw hscan (fun n hn => ih ht hn) hfuel

theorem EntryFollows.keysAfter {codec : FloatCodec} (h : EntryFollows codec key s) :
    key ∈ keysAfter s := by
  obtain ⟨w, w', tok, v, t, hpassed, hw, hw', he⟩ := h
  obtain ⟨u, hu⟩ := scanEntry_whole he hw' t
  apply hpassed.keysAfter _ (Nat.le_refl _)
  intro fuel hfuel
  rw [List.length_append, List.length_cons] at hfuel
  obtain ⟨n, rfl⟩ : ∃ n, fuel = n + 1 := ⟨fuel - 1, by omega⟩
  rw [keysAfterFrom.eq_2, expect_append hw rfl]
  dsimp only
  rw [hu]
  exact List.mem_cons_self

/-! The value after the first marker. -/

namespace ToolcallBadFilepathFix

theorem swallowsQuote_append (h : swallowsQuote (a ++ b) = false) (ha : '\\' ∉ a) :
    swallowsQuote b = false := by
  induction a with
  | nil => exact h
  | cons c a ih =>
    apply ih _ fun hm => ha (List.mem_cons_of_mem c hm)
    rw [List.cons_append, swallowsQuote.eq_4] at h
    · exact h
    · rintro rfl
      exact absurd List.mem_cons_self ha
    · rintro d t rfl
      exact absurd List.mem_cons_self ha

theorem closingQuoteFrom_ne_nil (h : closingQuoteFrom n s = some (x, r)) : x ≠ [] := by
  rintro rfl
  cases closingQuoteFrom_ends h

/-- A value that swallows no quote has none inside. -/
theorem closingQuoteFrom_free (h : closingQuoteFrom 0 t = some (x, r))
    (hq : swallowsQuote x.dropLast = false) :
    ∃ body, x = body ++ ['"'] ∧ t = body ++ '"' :: r ∧ '"' ∉ body := by
  generalize hn : t.length = n
  induction n using Nat.strong_induction_on generalizing t x with
  | _ n ih =>
    cases t with
    | nil => cases h
    | cons c t =>
      rw [List.length_cons] at hn
      rw [closingQuoteFrom] at h
      split at h
      · next hc =>
        subst hc
        obtain ⟨⟨y, r'⟩, hy, hx⟩ := Option.map_eq_some_iff.1 h
        cases hx
        cases t with
        | nil => cases hy
        | cons d t =>
          obtain ⟨⟨z, r'⟩, hz, hx⟩ := Option.map_eq_some_iff.1 hy
          cases hx
          have hne : z ≠ [] := closingQuoteFrom_ne_nil hz
          rw [List.dropLast_cons_of_ne_nil (List.cons_ne_nil d z),
            List.dropLast_cons_of_ne_nil hne, swallowsQuote] at hq
          split at hq
          · cases hq
          · next hd =>
            rw [List.length_cons] at hn
            obtain ⟨body, rfl, rfl, hbody⟩ := ih t.length (by omega) hz hq rfl
            refine ⟨'\\' :: d :: body, rfl, rfl, ?_⟩
            intro hm
            obtain hm | hm := List.mem_cons.1 hm
            · cases hm
            · obtain rfl | hm := List.mem_cons.1 hm
              · exact hd rfl
              · exact hbody hm
      · next h₁ =>
        split at h
        · next hc =>
          cases h
          exact ⟨[], rfl, by rw [hc]; rfl, List.not_mem_nil⟩
        · next h₂ =>
          obtain ⟨⟨y, r'⟩, hy, hx⟩ := Option.map_eq_some_iff.1 h
          cases hx
          rw [List.dropLast_cons_of_ne_nil (closingQuoteFrom_ne_nil hy), swallowsQuote.eq_4] at hq
          · obtain ⟨body, rfl, rfl, hbody⟩ := ih t.length (by omega) hy hq rfl
            refine ⟨c :: body, rfl, rfl, ?_⟩
            intro hm
            obtain rfl | hm := List.mem_cons.1 hm
            · exact h₂ rfl
            · exact hbody hm
          · intro hc
            exact absurd hc h₁
          · intro d t hc
            exact absurd hc h₁

theorem findStringEnd_parts (h : findStringEnd s = some (value, rest)) :
    ∃ lead x t, value = lead ++ '"' :: x ∧ s = lead ++ '"' :: t ∧ (∀ c ∈ lead, isLead c = true) ∧
      closingQuoteFrom 0 t = some (x, rest) := by
  rw [findStringEnd] at h
  cases hd : s.dropWhile isLead with
  | nil =>
    rw [hd] at h
    cases h
  | cons c t =>
    rw [hd] at h
    dsimp only at h
    split at h
    · next hc =>
      subst hc
      obtain ⟨⟨x, r⟩, hx, hq⟩ := Option.map_eq_some_iff.1 h
      cases hq
      refine ⟨s.takeWhile isLead, x, t, rfl, ?_, fun c hc => List.mem_takeWhile_imp hc, hx⟩
      rw [← hd, List.takeWhile_append_dropWhile]
    · cases h

theorem isLead_ne (h : isLead c = true) : c ≠ '"' ∧ c ≠ '\\' := by
  constructor
  · rintro rfl
    cases h
  · rintro rfl
    cases h

theorem FILEPATH_KEY_eq : FILEPATH_KEY = '"' :: ("filePath".toList ++ ['"', ':']) := by decide

/-- The child that ends where the cut does: its key is the marker's, or ends in the marker. -/
theorem marker_child {codec : FloatCodec} {c : Child} (hroot : Root codec r cs) (hc : c ∈ cs)
    (hpost : c.post = ['}'])
    (hr : r = before ++ FILEPATH_KEY ++ lead ++ '"' :: (body ++ ['"', '}']))
    (hlead : ∀ d ∈ lead, isLead d = true) (hbody : '"' ∉ body) :
    (c.valueText = '"' :: (body ++ ['"']) ∧ AllWs lead ∧ QuoteFree body) ∧
      ((c.keyBody = "filePath".toList ∧ escapesNext before = false) ∨
        ∃ x, c.keyBody = x ++ '"' :: "filePath".toList ∧ escapesNext before = true) := by
  obtain ⟨u, hu, hescape⟩ := hroot.before hc
  have hvalid := hroot.valid c hc
  obtain ⟨w₁, w₂, hw₁, hw₂, hgap⟩ := hvalid.gap
  have hwhole : u ++ c.entryText = before ++ FILEPATH_KEY ++ lead ++ '"' :: (body ++ ['"']) := by
    rw [hr, c.text_eq, hpost, ← List.append_assoc] at hu
    have hsplit : before ++ FILEPATH_KEY ++ lead ++ '"' :: (body ++ ['"', '}']) =
        before ++ FILEPATH_KEY ++ lead ++ '"' :: (body ++ ['"']) ++ ['}'] := by simp
    rw [hsplit, List.append_cancel_right_eq] at hu
    exact hu.symm
  have hstring : c.valueText.getLast? = some '"' := by
    obtain ⟨d, t, hd, -, -, -⟩ := hvalid.value.start
    have hget := congrArg List.getLast? hwhole
    rwa [← List.cons_append, ← List.append_assoc, List.getLast?_concat, Child.entryText,
      ← List.append_assoc, ← List.append_assoc, hd, List.getLast?_append, List.getLast?_cons,
      Option.some_or, ← List.getLast?_cons, ← hd] at hget
  obtain ⟨text, htext, hfree⟩ := Tok.string_of_quote hvalid.value hstring
  have hlead' : '\\' ∉ lead ∧ '"' ∉ lead :=
    ⟨fun hm => (isLead_ne (hlead _ hm)).2 rfl, fun hm => (isLead_ne (hlead _ hm)).1 rfl⟩
  have hbefore : (u ++ c.keyText ++ c.gap) ++ '"' :: text =
      (before ++ FILEPATH_KEY ++ lead) ++ '"' :: body := by
    rw [Child.entryText, htext] at hwhole
    apply (List.append_left_inj ['"']).1
    simpa using hwhole
  have hplain : '"' ∉ text := by
    intro hm
    obtain ⟨x, y, rfl, hy⟩ := exists_last_quote hm
    rw [← List.cons_append, ← List.append_assoc] at hbefore
    obtain ⟨hcut, -⟩ := last_quote hbefore hy hbody
    have hmarker : before ++ FILEPATH_KEY ++ lead =
        before ++ '"' :: ("filePath".toList ++ ['"']) ++ ':' :: lead := by
      rw [FILEPATH_KEY_eq]
      simp
    have hodd := congrArg escapesNext hcut
    rw [escapesNext_append (by decide), hfree.escapes rfl, hmarker,
      escapesNext_append (by decide), escapesNext_of_free hlead'.1] at hodd
    cases hodd
  obtain ⟨hcut, rfl⟩ := last_quote hbefore hplain hbody
  have hkeys : (u ++ '"' :: c.keyBody) ++ '"' :: c.gap =
      (before ++ '"' :: "filePath".toList) ++ '"' :: ':' :: lead := by
    rw [FILEPATH_KEY_eq, Child.keyText] at hcut
    simpa using hcut
  have hgapFree : '"' ∉ c.gap := by
    rw [hgap]
    intro hm
    obtain hm | hm := List.mem_append.1 hm
    · exact hw₁.notMem rfl hm
    · obtain hm | hm := List.mem_cons.1 hm
      · cases hm
      · exact hw₂.notMem rfl hm
  obtain ⟨hkey, hgap'⟩ := last_quote hkeys hgapFree (by simpa using hlead'.2)
  have hws : AllWs lead := by
    rw [hgap] at hgap'
    cases w₁ with
    | nil =>
      cases hgap'
      exact hw₂
    | cons d w₁ =>
      cases hgap'
      cases hw₁ ':' List.mem_cons_self
  refine ⟨⟨htext, hws, hfree⟩, ?_⟩
  by_cases hm : '"' ∈ c.keyBody
  · obtain ⟨x, y, hx, hy⟩ := exists_last_quote hm
    rw [hx, ← List.cons_append, ← List.append_assoc] at hkey
    obtain ⟨hlast, rfl⟩ := last_quote hkey hy (by decide)
    right
    refine ⟨x, hx, ?_⟩
    rw [← hlast, escapesNext_append (by decide)]
    exact hvalid.quoteFree.escapes hx
  · obtain ⟨rfl, hname⟩ := last_quote hkey hm (by decide)
    exact .inl ⟨hname, hescape⟩

theorem swallowsQuote_value (h : swallowsQuote (lead ++ '"' :: x).tail.dropLast = false)
    (hlead : '\\' ∉ lead) (hx : x ≠ []) : swallowsQuote x.dropLast = false := by
  cases lead with
  | nil => exact h
  | cons c lead =>
    have hdrop : (lead ++ '"' :: x).dropLast = lead ++ ['"'] ++ x.dropLast := by
      rw [List.dropLast_append_of_ne_nil (List.cons_ne_nil _ _),
        List.dropLast_cons_of_ne_nil hx, List.append_assoc]
      rfl
    rw [List.cons_append, List.tail_cons, hdrop] at h
    apply swallowsQuote_append h
    simpa using fun hm => hlead (List.mem_cons_of_mem c hm)

/-- What a cut that succeeds has found. -/
theorem truncateArguments_cut {codec : FloatCodec} (h : truncateArguments codec args = .ok r) :
    ∃ before lead body rest,
      Text.splitOnce FILEPATH_KEY args = some (before, lead ++ '"' :: (body ++ '"' :: rest)) ∧
      r = before ++ FILEPATH_KEY ++ lead ++ '"' :: (body ++ ['"', '}']) ∧
      (∀ c ∈ lead, isLead c = true) ∧ '"' ∉ body ∧ SCHEMA_BODY_KEY ∉ keysAfter rest ∧
      isValid codec r = true := by
  have hvalid := truncateArguments_valid h
  rw [truncateArguments] at h
  cases hs : Text.splitOnce FILEPATH_KEY args with
  | none =>
    rw [hs] at h
    cases h
  | some p =>
    obtain ⟨before, after⟩ := p
    rw [hs] at h
    dsimp only at h
    cases hf : findStringEnd after with
    | none =>
      rw [hf] at h
      cases h
    | some q =>
      obtain ⟨value, rest⟩ := q
      obtain ⟨lead, x, t, rfl, rfl, hlead, hx⟩ := findStringEnd_parts hf
      have hplain : '\\' ∉ lead := fun hm => (isLead_ne (hlead _ hm)).2 rfl
      rw [hf] at h
      dsimp only at h
      rw [swallowedQuoteInValue_eq hf] at h
      by_cases hone : (lead ++ '"' :: x).head?.any (·.utf8Size == 1) = true
      · rw [if_pos hone] at h
        cases hq : swallowsQuote (lead ++ '"' :: x).tail.dropLast with
        | true =>
          rw [hq] at h
          cases h
        | false =>
          rw [hq] at h
          dsimp only at h
          obtain ⟨body, rfl, rfl, hbody⟩ := closingQuoteFrom_free hx
            (swallowsQuote_value hq hplain (closingQuoteFrom_ne_nil hx))
          split at h
          · cases h
          · next hkeys =>
            split at h
            · cases h
              refine ⟨before, lead, body, rest, rfl, ?_, hlead, hbody, hkeys, hvalid⟩
              simp [truncated]
            · cases h
      · rw [if_neg hone] at h
        cases h

theorem get_last (es : List (String × Value)) (e : String × Value) :
    Fields.get (Fields.insertAll [] (es ++ [e])) e.1 = some e.2 := by
  rw [Fields.insertAll, List.foldl_append, List.foldl_cons, List.foldl_nil]
  exact Fields.get_insert_self _ _ _

/-- The entries before the marker are the children before the last. -/
theorem earlier_children {codec : FloatCodec} {c : Child}
    (hroot : Root codec (before ++ (FILEPATH_KEY ++ x)) (cs ++ [c])) (hpost : c.post = ['}'])
    (h : EntriesBefore codec (before ++ (FILEPATH_KEY ++ after)) (FILEPATH_KEY ++ after) toks) :
    toks <+: cs.map Child.entryText := by
  obtain ⟨w, t, rest, hw, hargs, hopen, q, rfl⟩ := h
  obtain ⟨u, rfl, hswap⟩ := hopen.swap
  have hbefore : before = w ++ '{' :: (u ++ q) := by
    apply (List.append_left_inj (FILEPATH_KEY ++ after)).1
    simpa using hargs
  have hhead : (q ++ (FILEPATH_KEY ++ x)).head? = (q ++ (FILEPATH_KEY ++ after)).head? := by
    rw [FILEPATH_KEY_eq]
    cases q <;> rfl
  obtain ⟨w₁, t₁, hw₁, hjson, hcs⟩ := hroot.opens (by simp)
  have ht : t₁ = u ++ (q ++ (FILEPATH_KEY ++ x)) := by
    have hexpect := expect_append hw₁ (rfl : isWs '{' = false) t₁
    have htext : before ++ (FILEPATH_KEY ++ x) = w ++ '{' :: (u ++ (q ++ (FILEPATH_KEY ++ x))) := by
      rw [hbefore]
      simp
    rw [← hjson, htext, expect_append hw rfl] at hexpect
    exact (Option.some.inj hexpect).symm
  rw [ht] at hcs
  obtain ⟨hopening, hlast⟩ := (hswap _ hhead).children hcs
  rw [List.map_append, List.map_cons, List.map_nil, List.prefix_concat_iff] at hopening
  obtain hall | hopening := hopening
  · have hend := hlast (by rw [hall]; simp) c List.getLast?_concat
    rw [hpost] at hend
    have hquote : '"' ∈ q ++ (FILEPATH_KEY ++ x) := by
      rw [FILEPATH_KEY_eq]
      simp
    rw [hend] at hquote
    cases List.mem_singleton.1 hquote
  · exact hopening

/-- The token that a child names at the cut is the one the cut took. -/
theorem NamesToken.post {codec : FloatCodec} {c : Child}
    (h : NamesToken codec r before lead' body' m cs c)
    (hr : r = before ++ FILEPATH_KEY ++ lead ++ '"' :: (body ++ ['"', '}'])) (hlead' : '"' ∉ lead')
    (hlead : '"' ∉ lead) (hbody : '"' ∉ body) : c.post = ['}'] := by
  have hplace := h.place
  rw [hr, h.token] at hplace
  have hcut : lead ++ '"' :: (body ++ ['"', '}']) = lead' ++ '"' :: (body' ++ '"' :: c.post) := by
    apply (List.append_right_inj (before ++ FILEPATH_KEY)).1
    simpa using hplace
  obtain ⟨rfl, htail⟩ := first_quote hcut hlead hlead'
  by_cases hm : '"' ∈ body'
  · obtain ⟨a, b, rfl, ha⟩ := List.eq_append_cons_of_mem hm
    rw [List.append_assoc] at htail
    obtain ⟨rfl, hrest⟩ := first_quote htail hbody ha
    have hquote : '"' ∈ ['}'] := by
      rw [hrest]
      simp
    cases List.mem_singleton.1 hquote
  · obtain ⟨rfl, hrest⟩ := first_quote htail hbody hm
    exact hrest.symm

/-- The arguments that the cut keeps: those whose first marker is not inside a string. -/
theorem fixArguments_keeps_iff {codec : FloatCodec} (hinvalid : fromStr codec args = none)
    (h : fixArguments codec args = .ok r) : Keeps codec args r ↔ ¬ MarkerEscaped args := by
  rw [fixArguments, hinvalid] at h
  obtain ⟨before, lead, body, rest, hs, hr, hlead, hbody, hkeys, hvalid⟩ := truncateArguments_cut h
  have hplain : '"' ∉ lead := fun hm => (isLead_ne (hlead _ hm)).1 rfl
  constructor
  · rintro ⟨-, before', lead', body', rest', ⟨hs', hws, -⟩, ⟨m, cs, c, hnames, -⟩, -⟩
    rintro ⟨before'', after, hs'', hescaped⟩
    rw [hs] at hs' hs''
    cases hs''
    obtain rfl := (Prod.mk.inj (Option.some.inj hs')).1
    have hpost := hnames.post hr (hws.notMem rfl) hplain hbody
    obtain ⟨-, ⟨-, hfree⟩ | ⟨x, hkey, -⟩⟩ :=
      marker_child hnames.children (by simp) hpost hr hlead hbody
    · rw [hescaped] at hfree
      cases hfree
    · have hquote := (hnames.children.valid c (by simp)).key.quote (by rw [hkey]; simp)
      rw [hnames.named] at hquote
      revert hquote
      decide
  · intro hplainMarker
    have hargs := Text.splitOnce_eq_some hs
    obtain ⟨v, hv⟩ := Option.isSome_iff_exists.1 hvalid
    have hclosed : r = before ++ FILEPATH_KEY ++ lead ++ '"' :: body ++ ['"', '}'] := by
      rw [hr]
      simp
    have hcut : r = before ++ (FILEPATH_KEY ++ (lead ++ '"' :: (body ++ ['"', '}']))) := by
      rw [hr]
      simp
    rw [hclosed] at hv
    obtain ⟨cs, c, hroot, rfl, hpost⟩ := children_of_closed hv
    rw [← hclosed] at hv hroot
    obtain ⟨⟨htoken, hws, hfree⟩, ⟨hkey, -⟩ | ⟨x, -, hescaped⟩⟩ :=
      marker_child hroot (by simp) hpost hr hlead hbody
    · have hnamed : c.key = "filePath" := by
        have hc := (hroot.valid c (by simp)).key []
        rw [hkey, stringFrom_self (by rw [← hkey]; exact (hroot.valid c (by simp)).quoteFree)
          (by decide)] at hc
        exact (String.toList_inj.1 (Prod.mk.inj (Option.some.inj hc)).1).symm
      have hgiven : Fields.get (Fields.insertAll [] (cs.map Child.entry ++ [c.entry])) c.key =
          some c.value := get_last (cs.map Child.entry) c.entry
      rw [hnamed] at hgiven
      refine ⟨⟨before ++ FILEPATH_KEY ++ lead ++ '"' :: (body ++ ['"']), ⟨rest, ?_⟩, ?_⟩,
        before, lead, body, rest, ⟨hs, hws, hfree⟩,
        ⟨_, cs, c, ⟨hv, hroot, hnamed, htoken, ?_, ?_⟩, ?_⟩, fun hf => hkeys hf.keysAfter⟩
      · rw [hargs]
        simp
      · rw [hr]
        simp
      · rw [hr, htoken, hpost]
        simp
      · rw [List.map_append]
        exact hgiven
      · intro toks htoks
        rw [hcut] at hroot
        rw [hargs, List.append_assoc] at htoks
        exact earlier_children hroot hpost htoks
    · exact absurd ⟨before, _, hs, hescaped⟩ hplainMarker

/-- A marker in its place. -/
def keyedMarker : List Char := "\x7b\"content\":1, \"filePath\": \"/a\", \"filePath".toList

theorem fixArguments_keeps_keyed :
    Keeps integersOnly keyedMarker "\x7b\"content\":1, \"filePath\": \"/a\"\x7d".toList ↔
      ¬ MarkerEscaped keyedMarker :=
  fixArguments_keeps_iff (by decide +kernel) (by decide +kernel)

/-- A marker that ends another key. -/
def escapedMarker : List Char := "\x7b\"ab\\\"filePath\":\"v\"".toList

/-- The cut object has no `filePath`. -/
theorem fixArguments_loses :
    fromStr integersOnly escapedMarker = none ∧
      ∃ r, fixArguments integersOnly escapedMarker = .ok r ∧ r = escapedMarker ++ ['}'] ∧
        (fromStr integersOnly r).map (fun v => v.get "filePath") = some none ∧
          ¬ Keeps integersOnly escapedMarker r := by
  have hnone : (fromStr integersOnly (escapedMarker ++ ['}'])).map (fun v => v.get "filePath") =
      some none := by decide +kernel
  refine ⟨by decide +kernel, escapedMarker ++ ['}'], by decide +kernel, rfl, hnone, ?_⟩
  rintro ⟨-, before, lead, body, rest, -, ⟨m, cs, c, hnames, -⟩, -⟩
  rw [hnames.object, Option.map_some, Value.get_object, hnames.given] at hnone
  cases hnone

end ToolcallBadFilepathFix

end LocalMind
