import LocalMind.Json.Grammar

namespace Json
set_option autoImplicit true

/-! Writing JSON text. -/

/-- A character of a string: an escape where it needs one. -/
def escapeChar (c : Char) : List Char :=
  match c with
  | '"' => ['\\', '"']
  | '\\' => ['\\', '\\']
  | '\x08' => ['\\', 'b']
  | '\t' => ['\\', 't']
  | '\n' => ['\\', 'n']
  | '\x0c' => ['\\', 'f']
  | '\r' => ['\\', 'r']
  | c =>
    if isControl c then
      ['\\', 'u', '0', '0', Nat.digitChar (c.toNat / 16), Nat.digitChar (c.toNat % 16)]
    else [c]

def printStr (s : List Char) : List Char := '"' :: s.flatMap escapeChar ++ ['"']

def printNumber (codec : FloatCodec) : Number → NumLit
  | .posInt n => ⟨false, Nat.toDigits 10 n.toNat, [], []⟩
  | .negInt n => ⟨decide (n < 0), Nat.toDigits 10 n.toInt.natAbs, [], []⟩
  | .float bits => codec.print bits

mutual

/-- `serde_json::to_string`. -/
def print (codec : FloatCodec) : Value → List Char
  | .null => ['n', 'u', 'l', 'l']
  | .bool true => ['t', 'r', 'u', 'e']
  | .bool false => ['f', 'a', 'l', 's', 'e']
  | .number n => (printNumber codec n).text
  | .string s => printStr s.toList
  | .array xs => '[' :: printItems codec xs ++ [']']
  | .object m => '{' :: printEntries codec m ++ ['}']

def printItems (codec : FloatCodec) : List Value → List Char
  | [] => []
  | x :: xs => print codec x ++ printMoreItems codec xs

def printMoreItems (codec : FloatCodec) : List Value → List Char
  | [] => []
  | x :: xs => ',' :: (print codec x ++ printMoreItems codec xs)

def printEntries (codec : FloatCodec) : List (String × Value) → List Char
  | [] => []
  | (k, v) :: m => printStr k.toList ++ ':' :: (print codec v ++ printMoreEntries codec m)

def printMoreEntries (codec : FloatCodec) : List (String × Value) → List Char
  | [] => []
  | (k, v) :: m => ',' :: (printStr k.toList ++ ':' :: (print codec v ++ printMoreEntries codec m))

end

/-! Strings. -/

/-- What an escape reader makes of a printed character. -/
def Unescapes (esc : List Char → Option (Char × Nat)) (c : Char) : Prop :=
  (escapeChar c = [c] ∧ c ≠ '"' ∧ c ≠ '\\' ∧ isControl c = false) ∨
    ∃ e, escapeChar c = '\\' :: e ∧ esc e = some (c, e.length - 1)

instance (esc : List Char → Option (Char × Nat)) (c : Char) : Decidable (Unescapes esc c) :=
  decidable_of_iff ((escapeChar c = [c] ∧ c ≠ '"' ∧ c ≠ '\\' ∧ isControl c = false) ∨
    ((escapeChar c).head? = some '\\' ∧
      esc (escapeChar c).tail = some (c, (escapeChar c).tail.length - 1))) <| by
    refine or_congr_right ⟨?_, ?_⟩
    · rintro ⟨hh, ht⟩
      cases he : escapeChar c with
      | nil => rw [he] at hh; cases hh
      | cons d e =>
        rw [he] at hh ht
        cases hh
        exact ⟨e, rfl, ht⟩
    · rintro ⟨e, he, ht⟩
      rw [he]
      exact ⟨rfl, ht⟩

theorem escapeChar_plain (h₁ : c ≠ '"') (h₂ : c ≠ '\\') (h₃ : isControl c = false) :
    escapeChar c = [c] := by
  rw [escapeChar.eq_def]
  split <;> first | rfl | contradiction | (cases h₃) | rw [if_neg (by rw [h₃]; decide)]

theorem unescapes_of_control {esc : List Char → Option (Char × Nat)}
    (h : ∀ n < 0x20, Unescapes esc (Char.ofNat n)) (hq : Unescapes esc '"')
    (hb : Unescapes esc '\\') (c : Char) : Unescapes esc c := by
  by_cases h₁ : c = '"'
  · rwa [h₁]
  by_cases h₂ : c = '\\'
  · rwa [h₂]
  cases h₃ : isControl c with
  | false => exact .inl ⟨escapeChar_plain h₁ h₂ h₃, h₁, h₂, h₃⟩
  | true =>
    have := h c.toNat (of_decide_eq_true h₃)
    rwa [Char.ofNat_toNat] at this

theorem unescapes_escape : ∀ c, Unescapes escape c :=
  unescapes_of_control (by decide) (by decide) (by decide)

theorem unescapes_ignoredEscape : ∀ c, Unescapes ignoredEscape c :=
  unescapes_of_control (by decide) (by decide) (by decide)

/-- A printed string reads as itself. -/
theorem strBody_print (hl : Local esc) (he : ∀ c, Unescapes esc c) (s : List Char) :
    StrBody esc (s.flatMap escapeChar) s ∧ QuoteFree (s.flatMap escapeChar) := by
  induction s with
  | nil => exact ⟨strBody_nil, .nil⟩
  | cons c s ih =>
    rw [List.flatMap_cons]
    rcases he c with ⟨hc, h₁, h₂, h₃⟩ | ⟨e, hc, hesc⟩
    · rw [hc]
      exact ⟨ih.1.cons h₁ h₂ h₃, ih.2.plain h₁ h₂ h₃⟩
    · obtain ⟨hlen, hr⟩ := hl.take hesc
      have hfree := hl.free hesc
      have htake : e.take (e.length - 1 + 1) = e := by rw [List.take_of_length_le (by omega)]
      rw [htake] at hr hfree
      rw [hc]
      exact ⟨ih.1.escape (by omega) hr, hfree.append ih.2⟩

/-! Numbers. -/

theorem toDigits_head (h : 0 < n) : ∃ c ds, Nat.toDigits 10 n = c :: ds ∧ c ≠ '0' := by
  induction n using Nat.strong_induction_on with
  | _ n ih =>
    by_cases hn : n < 10
    · refine ⟨Nat.digitChar n, [], Nat.toDigits_of_lt_base hn, ?_⟩
      have : ∀ m < 10, 0 < m → Nat.digitChar m ≠ '0' := by decide
      exact this n hn h
    · obtain ⟨c, ds, hd, hc⟩ := ih (n / 10) (by omega) (by omega)
      refine ⟨c, ds ++ [Nat.digitChar (n % 10)], ?_, hc⟩
      rw [Nat.toDigits_of_base_le (by decide) (by omega), hd]
      rfl

theorem isDigit_toDigits (n : Nat) : ∀ c ∈ Nat.toDigits 10 n, Char.isDigit c = true :=
  fun _ hc => Nat.isDigit_of_mem_toDigits (by decide) (by decide) hc

theorem lexInt_toDigits (n : Nat) (h : Stops Char.isDigit r) :
    lexInt (Nat.toDigits 10 n ++ r) = some (Nat.toDigits 10 n, r) := by
  by_cases hn : n = 0
  · rw [hn, Nat.toDigits_zero]
    exact lexInt_again_zero h
  · obtain ⟨c, ds, hd, hc⟩ := toDigits_head (Nat.pos_of_ne_zero hn)
    have hdig := isDigit_toDigits n
    rw [hd] at hdig ⊢
    exact lexInt_again hc hdig h

theorem lexUnsigned_toDigits (neg : Bool) (n : Nat) (h : Stops isNumChar r) :
    lexUnsigned neg (Nat.toDigits 10 n ++ r) = some (⟨neg, Nat.toDigits 10 n, [], []⟩, r) := by
  have hdot : Stops (· == '.') r := by
    refine h.mono fun c hc => ?_
    rw [beq_iff_eq.1 hc]
    rfl
  rw [lexUnsigned, lexInt_toDigits n h.digit]
  change (lexFrac r >>= _) = _
  rw [lexFrac_again_nil hdot]
  change (lexExp r >>= _) = _
  rw [lexExp_again_nil h]
  rfl

theorem numText_toDigits (neg : Bool) (n : Nat) : NumText ⟨neg, Nat.toDigits 10 n, [], []⟩ := by
  obtain ⟨c, ds, hd⟩ := List.exists_cons_of_ne_nil (Nat.toDigits_ne_nil (n := n) (b := 10))
  have hdig : Char.isDigit c = true := isDigit_toDigits n c (by rw [hd]; exact List.mem_cons_self)
  have hchars : ∀ c ∈ Nat.toDigits 10 n, isNumChar c = true :=
    fun c hc => isNumChar_of_isDigit (isDigit_toDigits n c hc)
  cases neg with
  | true =>
    refine ⟨⟨'-', Nat.toDigits 10 n, by simp [NumLit.text], .inl rfl⟩, ?_, ?_⟩
    · intro b hb
      obtain rfl | hb : b = '-' ∨ b ∈ Nat.toDigits 10 n := by simpa [NumLit.text] using hb
      · rfl
      · exact hchars b hb
    · intro r hr
      have htext : (⟨true, Nat.toDigits 10 n, [], []⟩ : NumLit).text ++ r =
          '-' :: (Nat.toDigits 10 n ++ r) := by simp [NumLit.text]
      rw [htext, lexNumber, List.head?_cons, if_pos rfl]
      exact lexUnsigned_toDigits true n hr
  | false =>
    refine ⟨⟨c, ds, by simp [NumLit.text, hd], .inr hdig⟩, ?_, ?_⟩
    · intro b hb
      exact hchars b (by simpa [NumLit.text] using hb)
    · intro r hr
      have htext : (⟨false, Nat.toDigits 10 n, [], []⟩ : NumLit).text ++ r =
          Nat.toDigits 10 n ++ r := by simp [NumLit.text]
      rw [htext, lexNumber, if_neg]
      · exact lexUnsigned_toDigits false n hr
      · rw [hd]
        rintro ⟨⟩
        cases hdig

/-- A number that a parser can have made. -/
def Readable (codec : FloatCodec) : Number → Prop
  | .posInt _ => True
  | .negInt n => n < 0
  | .float bits => ∃ t, codec.read t = some bits

theorem readable_of_numberOf {codec : FloatCodec} (h : numberOf codec l = some n) :
    Readable codec n := by
  rw [numberOf] at h
  split at h
  · next hneg =>
    cases h
    simp only [Bool.and_eq_true, decide_eq_true_eq] at hneg
    obtain ⟨-, hpos, hle⟩ := hneg
    rw [Readable, Int64.lt_iff_toInt_lt, Int64.toInt_ofInt_of_le (by omega) (by omega)]
    simp
    omega
  · split at h
    · cases h
      trivial
    · obtain ⟨bits, hb, hq⟩ := Option.map_eq_some_iff.1 h
      cases hq
      exact ⟨_, hb⟩

/-- A printed number reads as a number again. -/
theorem printNumber_reads {codec : FloatCodec} (h : Readable codec n) :
    NumText (printNumber codec n) ∧ (numberOf codec (printNumber codec n)).isSome = true := by
  cases n with
  | posInt n =>
    refine ⟨numText_toDigits false _, ?_⟩
    have hlt : n.toNat < 2 ^ 64 := n.toNat_lt
    rw [printNumber, numberOf, if_neg (by simp),
      if_pos (by simpa [NumLit.isInteger, Nat.ofDigitChars_ten_toDigits] using hlt)]
    rfl
  | negInt n =>
    refine ⟨numText_toDigits _ _, ?_⟩
    have hlo : -2 ^ 63 ≤ n.toInt := n.le_toInt
    have hneg : n.toInt < 0 := Int64.lt_iff_toInt_lt.1 h
    have hrange : 0 < n.toInt.natAbs ∧ n.toInt.natAbs ≤ 2 ^ 63 := by omega
    have hn : n < 0 := h
    rw [printNumber, numberOf,
      if_pos (by simpa [NumLit.isInteger, Nat.ofDigitChars_ten_toDigits, hn] using hrange)]
    rfl
  | float bits =>
    obtain ⟨t, ht⟩ := h
    obtain ⟨hl, hi, hs⟩ := codec.readable t bits ht
    refine ⟨(lexNumber_sound hl).2, ?_⟩
    rw [printNumber, numberOf, hi]
    simpa using hs

/-! Values. -/

/-- A value with at most `d` nested containers, distinct keys and numbers as the parser makes
them. -/
def Fits (codec : FloatCodec) : Nat → Value → Prop
  | _, .null | _, .bool _ | _, .string _ => True
  | _, .number n => Readable codec n
  | 0, .array _ | 0, .object _ => False
  | d + 1, .array xs => ∀ x ∈ xs, Fits codec d x
  | d + 1, .object m => (Fields.keys m).Nodup ∧ ∀ e ∈ m, Fits codec d e.2

theorem Fields.keys_nodup_insertAll {m es : List (String × α)} (h : (Fields.keys m).Nodup) :
    (Fields.keys (Fields.insertAll m es)).Nodup := by
  induction es generalizing m with
  | nil => exact h
  | cons e es ih => exact ih (Fields.keys_nodup_insert h e.1 e.2)

theorem Fields.mem_insert {m : List (String × α)} (h : e ∈ Fields.insert m k v) :
    e = (k, v) ∨ e ∈ m := by
  induction m with
  | nil => exact .inl (List.mem_singleton.1 h)
  | cons e' m ih =>
    obtain ⟨l, w⟩ := e'
    rw [Fields.insert] at h
    split at h
    · next hl =>
      rcases List.mem_cons.1 h with rfl | h
      · exact .inl (by rw [hl])
      · exact .inr (List.mem_cons_of_mem _ h)
    · rcases List.mem_cons.1 h with rfl | h
      · exact .inr List.mem_cons_self
      · exact (ih h).imp_right (List.mem_cons_of_mem _)

theorem Fields.mem_insertAll {m es : List (String × α)} (h : e ∈ Fields.insertAll m es) :
    e ∈ es ∨ e ∈ m := by
  induction es generalizing m with
  | nil => exact .inr h
  | cons e' es ih =>
    rcases ih h with h | h
    · exact .inl (List.mem_cons_of_mem _ h)
    · rcases Fields.mem_insert h with rfl | h
      · exact .inl List.mem_cons_self
      · exact .inr h

theorem fits_of_leaf {codec : FloatCodec} (h : LeafText (valueHandlers codec) t v) (d : Nat) :
    Fits codec d v := by
  cases h with
  | null => cases d <;> trivial
  | true => cases d <;> trivial
  | false => cases d <;> trivial
  | str hs hf => cases d <;> trivial
  | num hl ha =>
    obtain ⟨n, hn, rfl⟩ := Option.map_eq_some_iff.1 ha
    cases d <;> exact readable_of_numberOf hn

/-- What is parsed fits. -/
theorem fits_of_tok {codec : FloatCodec} (h : Tok (valueHandlers codec) d t v) :
    Fits codec d v := by
  induction d generalizing t v with
  | zero => exact fits_of_leaf h 0
  | succ d ih =>
    rcases h with h | ⟨body, as, hb, -, rfl⟩ | ⟨body, es, hb, -, rfl⟩
    · exact fits_of_leaf h _
    · intro x hx
      obtain ⟨tok, ht⟩ := hb.exists_of_mem hx
      exact ih ht
    · refine ⟨Fields.keys_nodup_insertAll List.nodup_nil, ?_⟩
      intro e he
      rcases Fields.mem_insertAll he with he | he
      · obtain ⟨tok, ht⟩ := hb.exists_of_mem he
        cases ht with
        | mk _ _ _ _ ht => exact ih ht
      · cases he

theorem fits_of_fromStr {codec : FloatCodec} (h : fromStr codec s = some v) :
    Fits codec MAX_DEPTH v := by
  obtain ⟨w, tok, w', -, -, -, ht⟩ := fromStr_eq_some_iff.1 h
  exact fits_of_tok ht

theorem fits_put {codec : FloatCodec} {v x : Value} (hv : Fits codec (d + 1) v)
    (hx : Fits codec d x) (k : String) : Fits codec (d + 1) (v.put k x) := by
  cases v with
  | object m =>
    refine ⟨Fields.keys_nodup_insert hv.1 k x, fun e he => ?_⟩
    rcases Fields.mem_insert he with rfl | he
    · exact hx
    · exact hv.2 e he
  | _ => exact hv

/-- A reader that takes what is printed. -/
structure Printed (codec : FloatCodec) (h : Handlers α) : Prop where
  esc : Local h.esc
  unescapes : ∀ c, Unescapes h.esc c
  num : ∀ n, Readable codec n → (h.num (printNumber codec n)).isSome = true

theorem printed_valueHandlers (codec : FloatCodec) : Printed codec (valueHandlers codec) where
  esc := local_escape
  unescapes := unescapes_escape
  num := fun n hn => by
    rw [valueHandlers, Option.isSome_map]
    exact (printNumber_reads hn).2

theorem printed_ignoreHandlers (codec : FloatCodec) : Printed codec ignoreHandlers where
  esc := local_ignoredEscape
  unescapes := unescapes_ignoredEscape
  num := fun _ _ => rfl

/-- The pieces of a container, with commas between them. -/
def joinMore : List (List Char) → List Char
  | [] => []
  | p :: ps => ',' :: (p ++ joinMore ps)

def joinItems : List (List Char) → List Char
  | [] => []
  | p :: ps => p ++ joinMore ps

theorem joinItems_text {R : List Char → α → Prop} (h : List.Forall₂ R ps as) :
    BodyText R (joinItems ps) as := by
  cases h with
  | nil => exact .empty allWs_nil
  | @cons p a ps as hp hps =>
    refine .items ?_
    induction hps generalizing p a with
    | nil => exact .one allWs_nil hp allWs_nil
    | @cons q b ps as hq _ ih =>
      simpa [joinItems, joinMore] using ItemsText.cons allWs_nil hp allWs_nil (ih hq)

def entryPiece (codec : FloatCodec) (e : String × Value) : List Char :=
  printStr e.1.toList ++ ':' :: print codec e.2

theorem printItems_eq (codec : FloatCodec) (vs : List Value) :
    printItems codec vs = joinItems (vs.map (print codec)) := by
  have hmore : ∀ vs, printMoreItems codec vs = joinMore (vs.map (print codec)) := by
    intro vs
    induction vs with
    | nil => rfl
    | cons v vs ih => rw [printMoreItems, ih, List.map_cons, joinMore]
  cases vs with
  | nil => rfl
  | cons v vs => rw [printItems, hmore, List.map_cons, joinItems]

theorem printEntries_eq (codec : FloatCodec) (m : List (String × Value)) :
    printEntries codec m = joinItems (m.map (entryPiece codec)) := by
  have hmore : ∀ m, printMoreEntries codec m = joinMore (m.map (entryPiece codec)) := by
    intro m
    induction m with
    | nil => rfl
    | cons e m ih =>
      rw [printMoreEntries, ih, List.map_cons, joinMore, entryPiece]
      simp
  cases m with
  | nil => rfl
  | cons e m =>
    rw [printEntries, hmore, List.map_cons, joinItems, entryPiece]
    simp

theorem exists_forall₂_map {R : β → γ → Prop} {f : α → β} {xs : List α}
    (h : ∀ x ∈ xs, ∃ a, R (f x) a) : ∃ as, List.Forall₂ R (xs.map f) as := by
  induction xs with
  | nil => exact ⟨[], .nil⟩
  | cons x xs ih =>
    obtain ⟨a, ha⟩ := h x List.mem_cons_self
    obtain ⟨as, has⟩ := ih fun y hy => h y (List.mem_cons_of_mem _ hy)
    exact ⟨a :: as, .cons ha has⟩

theorem entryPiece_text {codec : FloatCodec} (hl : Local esc) (hu : ∀ c, Unescapes esc c)
    {R : List Char → α → Prop} (hv : R (print codec v) a) (k : String) :
    EntryText esc R (entryPiece codec (k, v)) (k, a) := by
  obtain ⟨hb, hf⟩ := strBody_print hl hu k.toList
  have := EntryText.mk hb hf allWs_nil allWs_nil hv
  rw [String.ofList_toList] at this
  simpa [entryPiece, printStr] using this

/-- The entries of a printed object keep their keys. -/
theorem printEntries_text {codec : FloatCodec} (hl : Local esc) (hu : ∀ c, Unescapes esc c)
    {R : List Char → α → Prop} {m : List (String × Value)}
    (hm : ∀ e ∈ m, ∃ a, R (print codec e.2) a) :
    ∃ es, BodyText (EntryText esc R) (printEntries codec m) es ∧
      es.map Prod.fst = m.map Prod.fst := by
  rw [printEntries_eq]
  have hes : ∃ es, List.Forall₂ (EntryText esc R) (m.map (entryPiece codec)) es ∧
      es.map Prod.fst = m.map Prod.fst := by
    induction m with
    | nil => exact ⟨[], .nil, rfl⟩
    | cons e m ih =>
      obtain ⟨a, ha⟩ := hm e List.mem_cons_self
      obtain ⟨es, hes, hk⟩ := ih fun e' he' => hm e' (List.mem_cons_of_mem _ he')
      exact ⟨(e.1, a) :: es, .cons (entryPiece_text hl hu ha e.1) hes, congrArg (e.1 :: ·) hk⟩
  obtain ⟨es, hes, hk⟩ := hes
  exact ⟨es, joinItems_text hes, hk⟩

theorem print_leaf {codec : FloatCodec} {h : Handlers α} (hp : Printed codec h) {v : Value}
    (hf : Fits codec d v) (harr : ∀ xs, v ≠ .array xs) (hobj : ∀ m, v ≠ .object m) :
    ∃ a, LeafText h (print codec v) a := by
  cases v with
  | null => exact ⟨_, .null⟩
  | bool b =>
    cases b with
    | true => exact ⟨_, .true⟩
    | false => exact ⟨_, .false⟩
  | number n =>
    have hn : Readable codec n := by cases d <;> exact hf
    obtain ⟨a, ha⟩ := Option.isSome_iff_exists.1 (hp.num n hn)
    exact ⟨a, .num (printNumber_reads hn).1 ha⟩
  | string s =>
    obtain ⟨hb, hq⟩ := strBody_print hp.esc hp.unescapes s.toList
    exact ⟨_, .str hb hq⟩
  | array xs => exact absurd rfl (harr xs)
  | object m => exact absurd rfl (hobj m)

/-- What is printed of a value that fits is the text of a value. -/
theorem print_tok {codec : FloatCodec} {h : Handlers α} (hp : Printed codec h) {v : Value}
    (hf : Fits codec d v) : ∃ a, Tok h d (print codec v) a := by
  induction d generalizing v with
  | zero => exact print_leaf hp hf (by rintro xs rfl; cases hf) (by rintro m rfl; cases hf)
  | succ d ih =>
    cases v with
    | array xs =>
      obtain ⟨as, has⟩ := exists_forall₂_map (f := print codec) fun x hx => ih (hf x hx)
      refine ⟨_, .inr (.inl ⟨_, as, joinItems_text has, ?_, rfl⟩)⟩
      rw [print, printItems_eq]
    | object m =>
      obtain ⟨es, hes, -⟩ := printEntries_text hp.esc hp.unescapes fun e he => ih (hf.2 e he)
      exact ⟨_, .inr (.inr ⟨_, es, hes, rfl, rfl⟩)⟩
    | null | bool | number | string =>
      obtain ⟨a, ha⟩ := print_leaf hp hf (by simp) (by simp)
      exact ⟨a, .leaf ha _⟩

/-- A printed value is valid. -/
theorem isValid_print {codec : FloatCodec} {v : Value} (hf : Fits codec MAX_DEPTH v) :
    isValid codec (print codec v) = true := by
  obtain ⟨w, hw⟩ := print_tok (printed_valueHandlers codec) hf
  rw [isValid, Option.isSome_iff_exists]
  exact ⟨w, fromStr_eq_some_iff.2 ⟨[], _, [], by simp, allWs_nil, allWs_nil, hw⟩⟩

/-- The stream of an object text yields the keys of its entries. -/
theorem streamKeys_text {es : List (String × Unit)}
    (h : BodyText (EntryText escape (Tok ignoreHandlers d)) body es) :
    streamKeys ('{' :: body ++ ['}']) = some (es.map Prod.fst) := by
  have hdeep : BodyText
      (EntryText escape (Tok ignoreHandlers ('{' :: body ++ ['}']).length)) body es := by
    refine h.bound.mono ?_
    rintro tok e ⟨he, hlen⟩
    refine he.bound.mono ?_
    rintro val v ⟨hval, hlen'⟩
    exact hval.length.mono (by simp only [List.length_append, List.length_cons]; omega)
  have hread := ((reads_value ignoreHandlers _).entryOf escape).itemsOf
    (fun _ _ => EntryText.start) (.inr rfl) hdeep []
  have hopen : expect '{' ('{' :: body ++ ['}']) = some (body ++ ['}']) :=
    expect_append allWs_nil rfl _
  rw [streamKeys, hopen]
  change (itemsOf _ '}' (body ++ '}' :: []) >>= _) = _
  rw [parseStr, hread]
  rfl

theorem streamKeys_print {codec : FloatCodec} {m : List (String × Value)}
    (hf : Fits codec (d + 1) (.object m)) :
    streamKeys (print codec (.object m)) = some (Fields.keys m) := by
  obtain ⟨es, hes, hk⟩ := printEntries_text local_escape unescapes_escape
    fun e he => print_tok (printed_ignoreHandlers codec) (hf.2 e he)
  rw [Fields.keys, ← hk]
  exact streamKeys_text hes

end Json
