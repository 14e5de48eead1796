import LocalMind.Json.Reread

namespace PyJson
open Json
set_option autoImplicit true

/-! The `json` module of Python: its values, `loads` and `dumps`. -/

/-- A `float`, whose finite numbers are those of `F`. -/
inductive PyFloat (F : Type) where
  | finite (x : F)
  | nan
  | infinity
  | negInfinity
  deriving DecidableEq

inductive PyValue (F : Type) where
  | none
  | bool (b : Bool)
  | int (n : Int)
  | float (x : PyFloat F)
  | str (s : String)
  | list (xs : List (PyValue F))
  | dict (m : List (String × PyValue F))

/-- `float(text)` and the `repr` of a finite float, which reads as that float again. -/
structure FloatTexts (F : Type) where
  read : List Char → PyFloat F
  repr : F → NumLit
  numText : ∀ x, NumText (repr x)
  fractional : ∀ x, (repr x).isInteger = false
  read_repr : ∀ x, read (repr x).text = .finite x

/-- The limit of `int` on the digits of a text. -/
def MAX_STR_DIGITS : Nat := 4300

def intOf (l : NumLit) : Int :=
  if l.neg then -(Nat.ofDigitChars 10 l.int 0 : Int) else Nat.ofDigitChars 10 l.int 0

/-- What a reader makes of the parts of a value, and of the constants that JSON does not have. -/
structure PyHandlers (α : Type) extends Handlers α where
  nan : α
  infinity : α
  negInfinity : α

section
variable (f : FloatTexts F)

def handlers : PyHandlers (PyValue F) where
  esc := escape
  null := .none
  bool := .bool
  str x := .str (String.ofList x)
  num l :=
    if l.isInteger then
      if l.int.length ≤ MAX_STR_DIGITS then some (.int (intOf l)) else none
    else some (.float (f.read l.text))
  arr := .list
  obj es := .dict (Fields.insertAll [] es)
  nan := .float .nan
  infinity := .float .infinity
  negInfinity := .float .negInfinity

end

/-- A text is accepted, whatever its surrogates. -/
def acceptHandlers : PyHandlers Unit where
  esc := ignoredEscape
  null := ()
  bool _ := ()
  str _ := ()
  num l := if l.isInteger ∧ MAX_STR_DIGITS < l.int.length then none else some ()
  arr _ := ()
  obj _ := ()
  nan := ()
  infinity := ()
  negInfinity := ()

def NAN : List Char := ['N', 'a', 'N']
def INFINITY : List Char := ['I', 'n', 'f', 'i', 'n', 'i', 't', 'y']
def NEG_INFINITY : List Char := '-' :: INFINITY

def constant (h : PyHandlers α) (s : List Char) : Option (α × List Char) :=
  if NAN.isPrefixOf s then some (h.nan, s.drop 3)
  else if INFINITY.isPrefixOf s then some (h.infinity, s.drop 8)
  else if NEG_INFINITY.isPrefixOf s then some (h.negInfinity, s.drop 9)
  else none

/-- A value with at most `depth` nested containers. -/
def scan (h : PyHandlers α) (depth : Nat) (s : List Char) : Option (α × List Char) :=
  match skipWs s with
  | [] => none
  | c :: t =>
    match constant h (c :: t) with
    | some r => some r
    | none =>
      if c = '[' then
        match depth with
        | 0 => none
        | d + 1 => (itemsOf (scan h d) ']' t).map fun r => (h.arr r.1, r.2)
      else if c = '{' then
        match depth with
        | 0 => none
        | d + 1 =>
          (itemsOf (entryOf (stringFrom h.esc 0) (scan h d)) '}' t).map fun r => (h.obj r.1, r.2)
      else readValue h.toHandlers 0 (c :: t)

inductive Loaded (F : Type) where
  | value (v : PyValue F)
  /-- A value with a surrogate that is not one of a pair. -/
  | surrogates
  /-- `ValueError` -/
  | invalid

def loads (f : FloatTexts F) (s : List Char) : Loaded F :=
  match atEnd (scan (handlers f) s.length s) with
  | some v => .value v
  | none => if (atEnd (scan acceptHandlers s.length s)).isSome then .surrogates else .invalid

def intLit (n : Int) : NumLit := ⟨decide (n < 0), Nat.toDigits 10 n.natAbs, [], []⟩

/-- Pieces with `, ` between them. -/
def joinSpaced : List (List Char) → List Char
  | [] => []
  | [p] => p
  | p :: ps => p ++ ',' :: ' ' :: joinSpaced ps

def dumpsFloat (f : FloatTexts F) : PyFloat F → List Char
  | .finite x => (f.repr x).text
  | .nan => NAN
  | .infinity => INFINITY
  | .negInfinity => NEG_INFINITY

mutual

/-- `json.dumps(value, ensure_ascii=False)`. -/
def dumps (f : FloatTexts F) : PyValue F → List Char
  | .none => ['n', 'u', 'l', 'l']
  | .bool true => ['t', 'r', 'u', 'e']
  | .bool false => ['f', 'a', 'l', 's', 'e']
  | .int n => (intLit n).text
  | .float x => dumpsFloat f x
  | .str s => printStr s.toList
  | .list xs => '[' :: joinSpaced (dumpsItems f xs) ++ [']']
  | .dict m => '{' :: joinSpaced (dumpsEntries f m) ++ ['}']

def dumpsItems (f : FloatTexts F) : List (PyValue F) → List (List Char)
  | [] => []
  | x :: xs => dumps f x :: dumpsItems f xs

def dumpsEntries (f : FloatTexts F) : List (String × PyValue F) → List (List Char)
  | [] => []
  | (k, x) :: m => (printStr k.toList ++ ':' :: ' ' :: dumps f x) :: dumpsEntries f m

end

def dumpsEntry (f : FloatTexts F) (e : String × PyValue F) : List Char :=
  printStr e.1.toList ++ ':' :: ' ' :: dumps f e.2

theorem dumpsItems_eq (f : FloatTexts F) (xs : List (PyValue F)) :
    dumpsItems f xs = xs.map (dumps f) := by
  induction xs with
  | nil => rw [dumpsItems]; rfl
  | cons x xs ih => rw [dumpsItems, ih, List.map_cons]

theorem dumpsEntries_eq (f : FloatTexts F) (m : List (String × PyValue F)) :
    dumpsEntries f m = m.map (dumpsEntry f) := by
  induction m with
  | nil => rw [dumpsEntries]; rfl
  | cons e m ih => rw [dumpsEntries, ih, List.map_cons, dumpsEntry]

/-! JSON texts are loaded. -/

theorem constant_none {h : PyHandlers α} (hn : c ≠ 'N') (hi : c ≠ 'I')
    (hm : c = '-' → INFINITY.isPrefixOf t = false) : constant h (c :: t) = none := by
  have hnan : NAN.isPrefixOf (c :: t) = false := by
    rw [NAN, List.isPrefixOf, beq_false_of_ne hn.symm, Bool.false_and]
  have hinf : INFINITY.isPrefixOf (c :: t) = false := by
    rw [INFINITY, List.isPrefixOf, beq_false_of_ne hi.symm, Bool.false_and]
  have hneg : NEG_INFINITY.isPrefixOf (c :: t) = false := by
    rw [NEG_INFINITY, List.isPrefixOf]
    by_cases hc : c = '-'
    · rw [hm hc, Bool.and_false]
    · rw [beq_false_of_ne (fun he => hc he.symm), Bool.false_and]
  rw [constant, hnan, hinf, hneg]
  rfl

/-- No number goes on with a word. -/
theorem lexNumber_infinity (h : INFINITY.isPrefixOf t = true) : lexNumber ('-' :: t) = none := by
  obtain ⟨u, rfl⟩ := List.isPrefixOf_iff_prefix.1 h
  rfl

theorem constant_leaf {h : PyHandlers α} (ht : LeafText h.toHandlers tok a) (hr : Ends r) :
    constant h (tok ++ r) = none := by
  cases ht with
  | null => exact constant_none (by decide) (by decide) (fun hc => absurd hc (by decide))
  | true => exact constant_none (by decide) (by decide) (fun hc => absurd hc (by decide))
  | false => exact constant_none (by decide) (by decide) (fun hc => absurd hc (by decide))
  | str _ _ => exact constant_none (by decide) (by decide) (fun hc => absurd hc (by decide))
  | num hl _ =>
    obtain ⟨c, u, he, hc⟩ := hl.head
    have hread := hl.again r hr.stops
    rw [he, List.cons_append] at hread ⊢
    have hletter : c ≠ 'N' ∧ c ≠ 'I' := by
      rcases hc with rfl | hc
      · decide
      · refine ⟨?_, ?_⟩
        · rintro rfl
          cases hc
        · rintro rfl
          cases hc
    apply constant_none hletter.1 hletter.2
    intro hminus
    rw [hminus] at hread
    cases hinf : INFINITY.isPrefixOf (u ++ r) with
    | false => rfl
    | true =>
      rw [lexNumber_infinity hinf] at hread
      cases hread

theorem scan_ws {h : PyHandlers α} (hw : AllWs w) (d : Nat) (s : List Char) :
    scan h d (w ++ s) = scan h d s := by
  rw [scan.eq_def, scan.eq_def h d s, skipWs_append hw]

theorem scan_leaf {h : PyHandlers α} (ht : LeafText h.toHandlers tok a) (hr : Ends r) (d : Nat) :
    scan h d (tok ++ r) = some (a, r) := by
  obtain ⟨c, u, he, hws, _, _⟩ := ht.start
  have hconstant := constant_leaf ht hr
  have hread := readValue_leaf ht hr.stops 0
  have hbracket : c ≠ '[' ∧ c ≠ '{' := by
    cases ht with
    | null => cases he; decide
    | true => cases he; decide
    | false => cases he; decide
    | str _ _ => cases he; decide
    | num hl _ =>
      obtain ⟨c', u', he', hc⟩ := hl.head
      rw [he'] at he
      cases he
      rcases hc with rfl | hc
      · decide
      · refine ⟨?_, ?_⟩
        · rintro rfl
          cases hc
        · rintro rfl
          cases hc
  rw [he, List.cons_append] at hconstant hread ⊢
  rw [scan.eq_def, skipWs_cons hws]
  dsimp only
  rw [hconstant]
  dsimp only
  rw [if_neg hbracket.1, if_neg hbracket.2, hread]

theorem scan_bracket (h : PyHandlers α) (d : Nat) (t : List Char) :
    scan h (d + 1) ('[' :: t) = (itemsOf (scan h d) ']' t).map fun r => (h.arr r.1, r.2) := rfl

theorem scan_brace (h : PyHandlers α) (d : Nat) (t : List Char) :
    scan h (d + 1) ('{' :: t) =
      (itemsOf (entryOf (stringFrom h.esc 0) (scan h d)) '}' t).map fun r => (h.obj r.1, r.2) :=
  rfl

theorem reads_scan (h : PyHandlers α) (d : Nat) : Reads (scan h d) (Tok h.toHandlers d) := by
  induction d with
  | zero =>
    intro w tok a r hw ht hr
    rw [List.append_assoc, scan_ws hw]
    exact scan_leaf ht hr 0
  | succ d ih =>
    intro w tok a r hw ht hr
    rw [List.append_assoc, scan_ws hw]
    rcases ht with ht | ⟨body, as, hb, rfl, rfl⟩ | ⟨body, es, hb, rfl, rfl⟩
    · exact scan_leaf ht hr _
    · have hitems := ih.itemsOf (fun _ _ => Tok.start) (.inl rfl) hb r
      have happ : '[' :: body ++ [']'] ++ r = '[' :: (body ++ ']' :: r) := by
        rw [List.append_assoc]
        rfl
      rw [happ, scan_bracket, hitems]
      rfl
    · have hitems := (ih.entryOf h.esc).itemsOf (fun _ _ => EntryText.start) (.inr rfl) hb r
      have happ : '{' :: body ++ ['}'] ++ r = '{' :: (body ++ '}' :: r) := by
        rw [List.append_assoc]
        rfl
      rw [happ, scan_brace, hitems]
      rfl

/-- A JSON text is loaded as the value that it is a text of. -/
theorem loads_tok {f : FloatTexts F} (h : Tok (handlers f).toHandlers d s v) :
    loads f s = .value v := by
  have hread := reads_scan (handlers f) s.length [] s v [] allWs_nil h.length
    (ends_of_allWs allWs_nil)
  rw [List.nil_append, List.append_nil] at hread
  rw [loads, hread, atEnd, skipWs_of_allWs allWs_nil]
  rfl

/-! What is dumped is JSON. -/

def IsJson (s : List Char) : Prop := ∃ d, Tok ignoreHandlers d s ()

theorem joinSpaced_items {R : List Char → α → Prop} (hw : AllWs w) (hp : R p a)
    (h : List.Forall₂ R ps as) : ItemsText R (w ++ joinSpaced (p :: ps)) (a :: as) := by
  induction h generalizing w p a with
  | nil =>
    have hone := ItemsText.one hw hp allWs_nil
    rw [List.append_nil] at hone
    exact hone
  | @cons q b ps as hq _ ih =>
    have hspace : AllWs [' '] := by
      intro c hc
      rw [List.mem_singleton.1 hc]
      rfl
    have hcons := ItemsText.cons hw hp allWs_nil (ih hspace hq)
    rw [List.append_nil, List.append_assoc] at hcons
    exact hcons

theorem joinSpaced_text {R : List Char → α → Prop} (h : List.Forall₂ R ps as) :
    BodyText R (joinSpaced ps) as := by
  cases h with
  | nil => exact .empty allWs_nil
  | cons hp hps => exact .items (joinSpaced_items allWs_nil hp hps)

theorem entry_text (hl : Local esc) (hu : ∀ c, Unescapes esc c) {R : List Char → α → Prop}
    (hv : R t a) (k : String) :
    EntryText esc R (printStr k.toList ++ ':' :: ' ' :: t) (k, a) := by
  obtain ⟨hb, hf⟩ := strBody_print hl hu k.toList
  have hspace : AllWs [' '] := by
    intro c hc
    rw [List.mem_singleton.1 hc]
    rfl
  have hentry := EntryText.mk hb hf allWs_nil hspace hv
  rw [String.ofList_toList] at hentry
  have htext : printStr k.toList ++ ':' :: ' ' :: t = printStr k.toList ++ [':', ' '] ++ t := by
    rw [List.append_assoc]
    rfl
  rw [htext]
  exact hentry

/-- A value without the constants that JSON does not have. -/
inductive Finite : PyValue F → Prop where
  | none : Finite .none
  | bool (b : Bool) : Finite (.bool b)
  | int (n : Int) : Finite (.int n)
  | float (x : F) : Finite (.float (.finite x))
  | str (s : String) : Finite (.str s)
  | list {xs : List (PyValue F)} : (∀ x ∈ xs, Finite x) → Finite (.list xs)
  | dict {m : List (String × PyValue F)} : (∀ e ∈ m, Finite e.2) → Finite (.dict m)

/-- A value that comes back whole. -/
inductive Proper : PyValue F → Prop where
  | none : Proper .none
  | bool (b : Bool) : Proper (.bool b)
  | int : (Nat.toDigits 10 n.natAbs).length ≤ MAX_STR_DIGITS → Proper (.int n)
  | float (x : F) : Proper (.float (.finite x))
  | str (s : String) : Proper (.str s)
  | list {xs : List (PyValue F)} : (∀ x ∈ xs, Proper x) → Proper (.list xs)
  | dict {m : List (String × PyValue F)} : (Fields.keys m).Nodup → (∀ e ∈ m, Proper e.2) →
      Proper (.dict m)

theorem numText_intLit (n : Int) : NumText (intLit n) := numText_toDigits _ _

theorem intOf_intLit (n : Int) : intOf (intLit n) = n := by
  rw [intOf, intLit]
  dsimp only
  rw [Nat.ofDigitChars_ten_toDigits]
  by_cases hn : n < 0
  · rw [if_pos (decide_eq_true hn)]
    omega
  · rw [if_neg (by simpa using hn)]
    omega

/-- A bound for the depths of some texts. -/
theorem exists_depth {h : Handlers α} {text : β → List Char} {value : β → α} (bs : List β)
    (hb : ∀ b ∈ bs, ∃ d, Tok h d (text b) (value b)) :
    ∃ d, ∀ b ∈ bs, Tok h d (text b) (value b) := by
  induction bs with
  | nil => exact ⟨0, fun b hmem => absurd hmem List.not_mem_nil⟩
  | cons b bs ih =>
    obtain ⟨d, hd⟩ := hb b List.mem_cons_self
    obtain ⟨e, he⟩ := ih fun c hc => hb c (List.mem_cons_of_mem b hc)
    refine ⟨max d e, ?_⟩
    intro c hc
    rcases List.mem_cons.1 hc with rfl | hc
    · exact hd.mono (Nat.le_max_left d e)
    · exact (he c hc).mono (Nat.le_max_right d e)

theorem forall₂_map {R : List Char → α → Prop} {text : β → List Char} {value : β → α}
    (bs : List β) (h : ∀ b ∈ bs, R (text b) (value b)) :
    List.Forall₂ R (bs.map text) (bs.map value) := by
  induction bs with
  | nil => exact .nil
  | cons b bs ih =>
    exact .cons (h b List.mem_cons_self) (ih fun c hc => h c (List.mem_cons_of_mem b hc))

theorem dumps_list {h : Handlers α} (value : PyValue F → α) (f : FloatTexts F)
    {xs : List (PyValue F)}
    (hxs : ∀ x ∈ xs, ∃ d, Tok h d (dumps f x) (value x)) :
    ∃ d, Tok h d (dumps f (.list xs)) (h.arr (xs.map value)) := by
  obtain ⟨d, hd⟩ := exists_depth xs hxs
  refine ⟨d + 1, .inr (.inl ⟨_, _, joinSpaced_text (forall₂_map xs hd), ?_, rfl⟩)⟩
  rw [dumps, dumpsItems_eq]

theorem dumps_dict {h : Handlers α} (value : PyValue F → α) (f : FloatTexts F)
    {m : List (String × PyValue F)}
    (hl : Local h.esc) (hu : ∀ c, Unescapes h.esc c)
    (hm : ∀ e ∈ m, ∃ d, Tok h d (dumps f e.2) (value e.2)) :
    ∃ d, Tok h d (dumps f (.dict m)) (h.obj (m.map fun e => (e.1, value e.2))) := by
  obtain ⟨d, hd⟩ := exists_depth m hm
  have hentries : ∀ e ∈ m, EntryText h.esc (Tok h d) (dumpsEntry f e) (e.1, value e.2) :=
    fun e he => entry_text hl hu (hd e he) e.1
  refine ⟨d + 1, .inr (.inr ⟨_, _, joinSpaced_text (forall₂_map m hentries), ?_, rfl⟩)⟩
  rw [dumps, dumpsEntries_eq]

/-- What is dumped of a finite value is JSON. -/
theorem isJson_dumps (f : FloatTexts F) {v : PyValue F} (hv : Finite v) : IsJson (dumps f v) := by
  induction hv with
  | none => exact ⟨0, .null⟩
  | bool b =>
    cases b with
    | true => exact ⟨0, .true⟩
    | false => exact ⟨0, .false⟩
  | int n => exact ⟨0, .num (numText_intLit n) rfl⟩
  | float x => exact ⟨0, .num (f.numText x) rfl⟩
  | str s =>
    obtain ⟨hb, hq⟩ := strBody_print local_ignoredEscape unescapes_ignoredEscape s.toList
    exact ⟨0, .str hb hq⟩
  | list _ ih => exact dumps_list (fun _ => ()) f ih
  | dict _ ih => exact dumps_dict (fun _ => ()) f local_ignoredEscape unescapes_ignoredEscape ih

/-- What is dumped of a proper value is a JSON text of that value. -/
theorem dumps_tok (f : FloatTexts F) {v : PyValue F} (hv : Proper v) :
    ∃ d, Tok (handlers f).toHandlers d (dumps f v) v := by
  induction hv with
  | none => exact ⟨0, .null⟩
  | bool b =>
    cases b with
    | true => exact ⟨0, .true⟩
    | false => exact ⟨0, .false⟩
  | @int n hn =>
    refine ⟨0, .num (numText_intLit n) ?_⟩
    have hint : (handlers f).num (intLit n) =
        if (intLit n).int.length ≤ MAX_STR_DIGITS then some (.int (intOf (intLit n))) else none := rfl
    have hlen : (intLit n).int.length ≤ MAX_STR_DIGITS := hn
    rw [hint, if_pos hlen, intOf_intLit]
  | float x =>
    refine ⟨0, .num (f.numText x) ?_⟩
    rw [handlers]
    dsimp only
    rw [f.fractional x, f.read_repr]
    rfl
  | str s =>
    obtain ⟨hb, hq⟩ := strBody_print local_escape unescapes_escape s.toList
    have htok := LeafText.str (h := (handlers f).toHandlers) hb hq
    have hstr : (handlers f).str s.toList = .str s := congrArg PyValue.str String.ofList_toList
    rw [hstr] at htok
    exact ⟨0, htok⟩
  | @list xs _ ih =>
    obtain ⟨d, hd⟩ := dumps_list (fun x => x) f ih
    rw [List.map_id'] at hd
    exact ⟨d, hd⟩
  | @dict m hm _ ih =>
    obtain ⟨d, hd⟩ := dumps_dict (fun x => x) f local_escape unescapes_escape ih
    have hsame : (m.map fun e => (e.1, e.2)) = m := List.map_id' m
    have hobj : (handlers f).obj m = .dict m :=
      congrArg PyValue.dict (Fields.insertAll_of_nodup (m := []) hm)
    rw [hsame, hobj] at hd
    exact ⟨d, hd⟩

end PyJson
