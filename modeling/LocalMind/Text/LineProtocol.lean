import Mathlib.Data.List.Basic

namespace LineProtocol
set_option autoImplicit true

/-! The line protocol of a time series store, for points without string fields. -/

def isDelimiter (c : Char) : Bool := c == ',' || c == '=' || c == ' '

/-- A character that is written and read as it stands. -/
def isPlain (c : Char) : Bool := !isDelimiter c && c != '\\' && c != '\n'

structure Codec (V : Type) where
  text : V → List Char
  read : List Char → Option V
  plain : ∀ x, ∀ c ∈ text x, isPlain c = true

structure Point (V : Type) where
  measurement : String
  tags : List (String × String)
  fields : List (String × V)
  timestamp : Option Int

/-! Writing. -/

def escaped (v : List Char) : List Char :=
  v.flatMap fun c => if isDelimiter c then ['\\', c] else [c]

def tagsText (tags : List (String × String)) : List Char :=
  tags.flatMap fun t => ',' :: (t.1.toList ++ '=' :: escaped t.2.toList)

def fieldText (codec : Codec V) (f : String × V) : List Char := f.1.toList ++ '=' :: codec.text f.2

def fieldsText (codec : Codec V) : List (String × V) → List Char
  | [] => []
  | [f] => fieldText codec f
  | f :: g :: fs => fieldText codec f ++ ',' :: fieldsText codec (g :: fs)

def intText (n : Int) : List Char :=
  if n < 0 then '-' :: Nat.toDigits 10 n.natAbs else Nat.toDigits 10 n.natAbs

def timestampText : Option Int → List Char
  | none => []
  | some n => ' ' :: intText n

def Point.line (codec : Codec V) (p : Point V) : List Char :=
  p.measurement.toList ++
    (tagsText p.tags ++ ' ' :: (fieldsText codec p.fields ++ timestampText p.timestamp))

def Point.render (codec : Codec V) (p : Point V) : List Char := p.line codec ++ ['\n']

/-! Reading. -/

/-- The text before the first delimiter, and each delimiter with the text after it; a backslash
before a delimiter takes it into the text. -/
def pieces : List Char → List Char × List (Char × List Char)
  | [] => ([], [])
  | [c] => if isDelimiter c then ([], [(c, [])]) else ([c], [])
  | c :: d :: s =>
    if isDelimiter c then ([], (c, (pieces (d :: s)).1) :: (pieces (d :: s)).2)
    else if c = '\\' ∧ isDelimiter d then (d :: (pieces s).1, (pieces s).2)
    else (c :: (pieces (d :: s)).1, (pieces (d :: s)).2)

/-- The tags of a line, and what is left from its first space on. -/
def readTags : List (Char × List Char) → Option (List (String × String) × List (Char × List Char))
  | (',', k) :: ('=', v) :: rest =>
    if k = [] ∨ v = [] then none
    else (readTags rest).map fun r => ((String.ofList k, String.ofList v) :: r.1, r.2)
  | (' ', k) :: rest => some ([], (' ', k) :: rest)
  | _ => none

def readNat (s : List Char) : Option Nat :=
  if s ≠ [] ∧ s.all Char.isDigit then some (Nat.ofDigitChars 10 s 0) else none

def readInt : List Char → Option Int
  | '-' :: s => (readNat s).map fun n : Nat => -(n : Int)
  | s => (readNat s).map fun n : Nat => (n : Int)

def readFields (codec : Codec V) (k : List Char) :
    List (Char × List Char) → Option (List (String × V) × Option Int)
  | [('=', v)] => (codec.read v).map fun x => ([(String.ofList k, x)], none)
  | [('=', v), (' ', t)] =>
    (codec.read v).bind fun x => (readInt t).map fun n => ([(String.ofList k, x)], some n)
  | ('=', v) :: (',', k') :: rest =>
    (codec.read v).bind fun x =>
      (readFields codec k' rest).map fun r => ((String.ofList k, x) :: r.1, r.2)
  | _ => none

def readRest (codec : Codec V) (measurement : List Char) (tags : List (String × String)) :
    List (Char × List Char) → Option (Point V)
  | (' ', k) :: rest =>
    (readFields codec k rest).map fun r => ⟨String.ofList measurement, tags, r.1, r.2⟩
  | _ => none

def readLine (codec : Codec V) (s : List Char) : Option (Point V) :=
  (readTags (pieces s).2).bind fun r => readRest codec (pieces s).1 r.1 r.2

def readLines (codec : Codec V) (s : List Char) : Option (List (Point V)) :=
  ((s.splitOn '\n').filter fun l => !l.isEmpty).mapM (readLine codec)

/-! Pieces of a text that was written. -/

/-- A rest that the text before it does not run into. -/
def Stops (s : List Char) : Prop := ∀ c ∈ s.head?, isDelimiter c = true

theorem Stops.cons (h : isDelimiter c = true) : Stops (c :: s) := by
  intro d hd
  cases hd
  exact h

theorem pieces_delimiter (h : isDelimiter d = true) (s : List Char) :
    pieces (d :: s) = ([], (d, (pieces s).1) :: (pieces s).2) := by
  cases s with
  | nil => exact if_pos h
  | cons c s => rw [pieces, if_pos h]

theorem pieces_of_stops (h : Stops s) : (pieces s).1 = [] := by
  cases s with
  | nil => rw [pieces]
  | cons c s => rw [pieces_delimiter (h c rfl)]

theorem pieces_escape (h : isDelimiter d = true) (s : List Char) :
    pieces ('\\' :: d :: s) = (d :: (pieces s).1, (pieces s).2) := by
  rw [pieces, if_neg (by decide), if_pos ⟨rfl, h⟩]

/-- A character that neither is a delimiter nor escapes one. -/
theorem pieces_cons (hc : isDelimiter c = false)
    (h : c = '\\' → ∀ d ∈ s.head?, isDelimiter d = false) :
    pieces (c :: s) = (c :: (pieces s).1, (pieces s).2) := by
  cases s with
  | nil => exact if_neg (Bool.eq_false_iff.1 hc)
  | cons d s =>
    rw [pieces, if_neg (Bool.eq_false_iff.1 hc), if_neg]
    intro ⟨hback, hd⟩
    rw [h hback d rfl] at hd
    cases hd

theorem escaped_cons (c : Char) (v : List Char) :
    escaped (c :: v) = (if isDelimiter c then ['\\', c] else [c]) ++ escaped v := rfl

theorem escaped_head (v : List Char) : ∀ d ∈ (escaped v).head?, isDelimiter d = false := by
  cases v with
  | nil =>
    intro d hd
    cases hd
  | cons c v =>
    intro d hd
    rw [escaped_cons] at hd
    by_cases hc : isDelimiter c = true
    · rw [if_pos hc] at hd
      cases hd
      rfl
    · rw [if_neg hc] at hd
      cases hd
      exact Bool.eq_false_iff.2 hc

/-- A value that does not end in a backslash is read as it was. -/
theorem pieces_escaped (h : v.getLast? ≠ some '\\') (hs : Stops s) :
    pieces (escaped v ++ s) = (v, (pieces s).2) := by
  induction v with
  | nil =>
    rw [escaped, List.flatMap_nil, List.nil_append]
    exact Prod.ext (pieces_of_stops hs) rfl
  | cons c v ih =>
    have hv : v.getLast? ≠ some '\\' := by
      intro hlast
      cases v with
      | nil => cases hlast
      | cons d v => exact h (by rw [List.getLast?_cons_cons, hlast])
    rw [escaped_cons]
    by_cases hc : isDelimiter c = true
    · rw [if_pos hc, List.append_assoc, List.cons_append, List.cons_append, List.nil_append,
        pieces_escape hc, ih hv]
    · rw [if_neg hc, List.append_assoc, List.cons_append, List.nil_append,
        pieces_cons (Bool.eq_false_iff.2 hc), ih hv]
      intro hback d hd
      cases v with
      | nil =>
        rw [hback] at h
        exact absurd rfl h
      | cons e v =>
        apply escaped_head (e :: v) d
        cases hv' : escaped (e :: v) with
        | nil =>
          rw [escaped_cons] at hv'
          split at hv'
          · cases hv'
          · cases hv'
        | cons f t =>
          rw [hv'] at hd
          exact hd

theorem escaped_append (v w : List Char) : escaped (v ++ w) = escaped v ++ escaped w :=
  List.flatMap_append

/-- A value that ends in a backslash takes the delimiter after it, and what follows that. -/
theorem pieces_backslash (hd : isDelimiter d = true) (w s : List Char) :
    pieces (escaped (w ++ ['\\']) ++ d :: s) = (w ++ d :: (pieces s).1, (pieces s).2) := by
  induction w with
  | nil => exact pieces_escape hd s
  | cons c w ih =>
    rw [List.cons_append, escaped_cons]
    by_cases hc : isDelimiter c = true
    · rw [if_pos hc, List.append_assoc, List.cons_append, List.cons_append, List.nil_append,
        pieces_escape hc, ih]
      rfl
    · rw [if_neg hc, List.append_assoc, List.cons_append, List.nil_append,
        pieces_cons (Bool.eq_false_iff.2 hc), ih]
      · rfl
      · intro _ e he
        apply escaped_head (w ++ ['\\']) e
        rw [escaped_append] at he ⊢
        cases hw : escaped w with
        | nil =>
          rw [hw] at he
          exact he
        | cons f t =>
          rw [hw] at he
          exact he

theorem not_isDelimiter (h : isPlain c = true) : isDelimiter c = false := by
  rw [isPlain, Bool.and_eq_true, Bool.and_eq_true, Bool.not_eq_true'] at h
  exact h.1.1

theorem escaped_plain (h : ∀ c ∈ w, isPlain c = true) : escaped w = w := by
  induction w with
  | nil => rfl
  | cons c w ih =>
    rw [escaped_cons, ih fun d hd => h d (List.mem_cons_of_mem c hd),
      not_isDelimiter (h c List.mem_cons_self)]
    rfl

theorem pieces_plain (h : ∀ c ∈ w, isPlain c = true) (hs : Stops s) :
    pieces (w ++ s) = (w, (pieces s).2) := by
  have hlast : w.getLast? ≠ some '\\' := by
    intro hlast
    have hplain := h '\\' (List.mem_of_getLast? hlast)
    cases hplain
  have hread := pieces_escaped hlast hs
  rw [escaped_plain h] at hread
  exact hread

/-! Tags. -/

/-- A value that a tag can carry. -/
def Kept (v : String) : Prop := v ≠ "" ∧ v.toList.getLast? ≠ some '\\'

instance (v : String) : Decidable (Kept v) :=
  inferInstanceAs (Decidable (v ≠ "" ∧ v.toList.getLast? ≠ some '\\'))

def PlainTag (t : String × String) : Prop :=
  t.1 ≠ "" ∧ (∀ c ∈ t.1.toList, isPlain c = true) ∧ '\n' ∉ t.2.toList

theorem tagsText_cons (t : String × String) (ts : List (String × String)) :
    tagsText (t :: ts) = ',' :: (t.1.toList ++ '=' :: escaped t.2.toList) ++ tagsText ts := rfl

theorem stops_tagsText (hs : Stops s) (ts : List (String × String)) :
    Stops (tagsText ts ++ s) := by
  cases ts with
  | nil => exact hs
  | cons t ts =>
    rw [tagsText_cons]
    exact Stops.cons rfl

theorem pieces_tag (hkey : ∀ c ∈ t.1.toList, isPlain c = true) (ts : List (String × String))
    (s : List Char) :
    (pieces (tagsText (t :: ts) ++ s)).2 =
      (',', t.1.toList) :: ('=', (pieces (escaped t.2.toList ++ (tagsText ts ++ s))).1) ::
        (pieces (escaped t.2.toList ++ (tagsText ts ++ s))).2 := by
  rw [tagsText_cons, List.append_assoc, List.cons_append, List.append_assoc, List.cons_append,
    pieces_delimiter rfl, pieces_plain hkey (Stops.cons rfl), pieces_delimiter rfl]

theorem toList_ne_nil {v : String} (h : v ≠ "") : v.toList ≠ [] := by
  intro hv
  exact h (String.toList_eq_nil_iff.1 hv)

theorem readTags_of_kept (hplain : ∀ t ∈ ts, PlainTag t) (hkept : ∀ t ∈ ts, Kept t.2)
    (r : List Char) : readTags (pieces (tagsText ts ++ ' ' :: r)).2 =
      some (ts, (' ', (pieces r).1) :: (pieces r).2) := by
  induction ts with
  | nil =>
    change readTags (pieces (' ' :: r)).2 = _
    rw [pieces_delimiter rfl, readTags]
  | cons t ts ih =>
    obtain ⟨hne, hkey, _⟩ := hplain t List.mem_cons_self
    obtain ⟨hv, hlast⟩ := hkept t List.mem_cons_self
    have hstops : Stops (tagsText ts ++ ' ' :: r) := stops_tagsText (Stops.cons rfl) ts
    rw [pieces_tag hkey, pieces_escaped hlast hstops, readTags, if_neg]
    · rw [ih (fun u hu => hplain u (List.mem_cons_of_mem t hu))
        fun u hu => hkept u (List.mem_cons_of_mem t hu)]
      rw [String.ofList_toList, String.ofList_toList]
      rfl
    · intro h
      obtain h | h := h
      · exact toList_ne_nil hne h
      · exact toList_ne_nil hv h

/-- After a tag comes a delimiter with a name and its equals sign. -/
theorem tagsText_next (hplain : ∀ t ∈ ts, PlainTag t) (hkey : ∀ c ∈ k, isPlain c = true)
    (r : List Char) : ∃ d w q, tagsText ts ++ ' ' :: (k ++ '=' :: r) = d :: (w ++ '=' :: q) ∧
      isDelimiter d = true ∧ ∀ c ∈ w, isPlain c = true := by
  cases ts with
  | nil => exact ⟨' ', k, r, rfl, rfl, hkey⟩
  | cons t ts =>
    refine ⟨',', t.1.toList, escaped t.2.toList ++ (tagsText ts ++ ' ' :: (k ++ '=' :: r)), ?_, rfl,
      (hplain t List.mem_cons_self).2.1⟩
    rw [tagsText_cons, List.append_assoc, List.cons_append, List.append_assoc, List.cons_append]

/-- A line with a value that is empty or ends in a backslash is refused. -/
theorem readTags_of_not_kept (hplain : ∀ t ∈ ts, PlainTag t)
    (hkey : ∀ c ∈ k, isPlain c = true) (hbad : ∃ t ∈ ts, ¬ Kept t.2) (r : List Char) :
    readTags (pieces (tagsText ts ++ ' ' :: (k ++ '=' :: r))).2 = none := by
  induction ts with
  | nil =>
    obtain ⟨t, ht, _⟩ := hbad
    cases ht
  | cons t ts ih =>
    have hplain' : ∀ u ∈ ts, PlainTag u := fun u hu => hplain u (List.mem_cons_of_mem t hu)
    rw [pieces_tag (hplain t List.mem_cons_self).2.1]
    by_cases hlast : t.2.toList.getLast? = some '\\'
    · obtain ⟨w, hw⟩ := List.getLast?_eq_some_iff.1 hlast
      obtain ⟨d, name, q, hnext, hd, hname⟩ := tagsText_next hplain' hkey r
      rw [hnext, hw, pieces_backslash hd, pieces_plain hname (Stops.cons rfl), readTags]
      split
      · rfl
      · rw [pieces_delimiter rfl, readTags]
        · rfl
        · intro _ _ _ h
          cases h
        · intro _ _ h
          cases h
    · have hstops : Stops (tagsText ts ++ ' ' :: (k ++ '=' :: r)) :=
        stops_tagsText (Stops.cons rfl) ts
      rw [pieces_escaped hlast hstops, readTags]
      split
      · rfl
      · rename_i hne
        rw [ih hplain']
        · rfl
        · obtain ⟨u, hu, hbad⟩ := hbad
          obtain rfl | hu := List.mem_cons.1 hu
          · refine absurd ⟨?_, hlast⟩ hbad
            intro hempty
            exact hne (.inr (String.toList_eq_nil_iff.2 hempty))
          · exact ⟨u, hu, hbad⟩

/-! Numbers. -/

theorem isPlain_of_isDigit (h : Char.isDigit c = true) : isPlain c = true := by
  have hne : ∀ d, Char.isDigit d = false → (c == d) = false := by
    intro d hd
    apply beq_false_of_ne
    intro hcd
    rw [hcd, hd] at h
    cases h
  have hback : (c != '\\') = true := by rw [bne, hne _ rfl]; rfl
  have hline : (c != '\n') = true := by rw [bne, hne _ rfl]; rfl
  rw [isPlain, isDelimiter, hne ',' rfl, hne '=' rfl, hne ' ' rfl, hback, hline]
  rfl

theorem isDigit_toDigits (n : Nat) : ∀ c ∈ Nat.toDigits 10 n, Char.isDigit c = true :=
  fun _ hc => Nat.isDigit_of_mem_toDigits (by decide) (by decide) hc

theorem intText_plain (n : Int) : ∀ c ∈ intText n, isPlain c = true := by
  intro c hc
  rw [intText] at hc
  split at hc
  · obtain rfl | hc := List.mem_cons.1 hc
    · rfl
    · exact isPlain_of_isDigit (isDigit_toDigits _ c hc)
  · exact isPlain_of_isDigit (isDigit_toDigits _ c hc)

theorem readNat_toDigits (n : Nat) : readNat (Nat.toDigits 10 n) = some n := by
  rw [readNat, if_pos ⟨Nat.toDigits_ne_nil, List.all_eq_true.2 (isDigit_toDigits n)⟩,
    Nat.ofDigitChars_ten_toDigits]

theorem readInt_intText (n : Int) : readInt (intText n) = some n := by
  rw [intText]
  split
  · rename_i hneg
    rw [readInt, readNat_toDigits, Option.map_some]
    congr 1
    omega
  · rename_i hpos
    rw [readInt.eq_def]
    split
    · rename_i s hs
      have hdigit := isDigit_toDigits n.natAbs '-' (by rw [hs]; exact List.mem_cons_self)
      cases hdigit
    · rw [readNat_toDigits, Option.map_some]
      congr 1
      omega

/-! Fields. -/

def PlainField (f : String × V) : Prop := ∀ c ∈ f.1.toList, isPlain c = true

theorem stops_timestampText (n : Option Int) : Stops (timestampText n) := by
  cases n with
  | none =>
    intro c hc
    cases hc
  | some n => exact Stops.cons rfl

theorem pieces_timestampText (n : Option Int) :
    (pieces (timestampText n)).2 = (n.map fun n => (' ', intText n)).toList := by
  cases n with
  | none => rfl
  | some n =>
    have hread := pieces_plain (intText_plain n) (s := []) fun c hc => by cases hc
    rw [List.append_nil] at hread
    rw [timestampText, pieces_delimiter rfl, hread]
    rfl

theorem fieldsText_cons (codec : Codec V) (f g : String × V) (fs : List (String × V)) :
    fieldsText codec (f :: g :: fs) = fieldText codec f ++ ',' :: fieldsText codec (g :: fs) := rfl

theorem pieces_field (codec : Codec V) (hf : PlainField f) (hs : Stops s) :
    pieces (fieldText codec f ++ s) = (f.1.toList, ('=', codec.text f.2) :: (pieces s).2) := by
  rw [fieldText, List.append_assoc, List.cons_append, pieces_plain hf (Stops.cons rfl),
    pieces_delimiter rfl, pieces_plain (codec.plain f.2) hs]

/-- A field with the value that its text is read as. -/
def reread (codec : Codec V) (f : String × V) : Option (String × V) :=
  (codec.read (codec.text f.2)).map fun x => (f.1, x)

theorem mapM_reread_cons (codec : Codec V) (f : String × V) (fs : List (String × V)) :
    (f :: fs).mapM (reread codec) =
      (reread codec f).bind fun g => (fs.mapM (reread codec)).map fun gs => g :: gs := by
  rw [List.mapM_cons]
  cases reread codec f with
  | none => rfl
  | some g =>
    cases fs.mapM (reread codec) with
    | none => rfl
    | some gs => rfl

theorem readFields_text (codec : Codec V) (hplain : ∀ g ∈ f :: fs, PlainField g) (n : Option Int) :
    readFields codec f.1.toList
      (pieces (fieldsText codec (f :: fs) ++ timestampText n)).2 =
        ((f :: fs).mapM (reread codec)).map fun fs => (fs, n) := by
  induction fs generalizing f with
  | nil =>
    rw [fieldsText, pieces_field codec (hplain f List.mem_cons_self) (stops_timestampText n),
      pieces_timestampText]
    cases n with
    | none =>
      change readFields codec _ [('=', _)] = _
      rw [readFields, String.ofList_toList, List.mapM_cons, List.mapM_nil, reread]
      cases codec.read (codec.text f.2) with
      | none => rfl
      | some x => rfl
    | some n =>
      change readFields codec _ [('=', _), (' ', _)] = _
      rw [readFields, String.ofList_toList, List.mapM_cons, List.mapM_nil, reread, readInt_intText]
      cases codec.read (codec.text f.2) with
      | none => rfl
      | some x => rfl
  | cons g gs ih =>
    rw [fieldsText_cons, List.append_assoc, List.cons_append,
      pieces_field codec (hplain f List.mem_cons_self) (Stops.cons rfl), pieces_delimiter rfl]
    have hgs : ∀ h ∈ g :: gs, PlainField h := fun h hh => hplain h (List.mem_cons_of_mem f hh)
    have hname : (pieces (fieldsText codec (g :: gs) ++ timestampText n)).1 = g.1.toList := by
      cases gs with
      | nil => rw [fieldsText, pieces_field codec (hgs g List.mem_cons_self) (stops_timestampText n)]
      | cons h hs =>
        rw [fieldsText_cons, List.append_assoc, List.cons_append,
          pieces_field codec (hgs g List.mem_cons_self) (Stops.cons rfl)]
    rw [hname, readFields, ih hgs, String.ofList_toList, mapM_reread_cons codec f, reread]
    cases codec.read (codec.text f.2) with
    | none => rfl
    | some x =>
      cases (g :: gs).mapM (reread codec) with
      | none => rfl
      | some rest => rfl

theorem mapM_reread_iff (codec : Codec V) (fs : List (String × V)) :
    fs.mapM (reread codec) = some fs ↔ ∀ f ∈ fs, codec.read (codec.text f.2) = some f.2 := by
  induction fs with
  | nil =>
    constructor
    · intro _ f hf
      cases hf
    · intro _
      rfl
  | cons f fs ih =>
    rw [mapM_reread_cons, List.forall_mem_cons, ← ih, reread]
    cases codec.read (codec.text f.2) with
    | none =>
      constructor
      · intro h
        cases h
      · intro h
        cases h.1
    | some x =>
      rw [Option.map_some, Option.bind_some]
      cases fs.mapM (reread codec) with
      | none =>
        constructor
        · intro h
          cases h
        · intro h
          cases h.2
      | some gs =>
        rw [Option.map_some, Option.some.injEq, Option.some.injEq, Option.some.injEq,
          List.cons.injEq]
        constructor
        · intro h
          exact ⟨congrArg Prod.snd h.1, h.2⟩
        · intro h
          exact ⟨Prod.ext rfl h.1, h.2⟩

/-! Lines. -/

structure Point.Plain (p : Point V) : Prop where
  measurement : ∀ c ∈ p.measurement.toList, isPlain c = true
  tags : ∀ t ∈ p.tags, PlainTag t
  fields : ∀ f ∈ p.fields, PlainField f
  nonempty : p.fields ≠ []

theorem not_newline {w : List Char} (h : ∀ c ∈ w, isPlain c = true) : '\n' ∉ w := by
  intro hmem
  have hplain := h '\n' hmem
  cases hplain

theorem escaped_newline {v : List Char} (h : '\n' ∉ v) : '\n' ∉ escaped v := by
  intro hmem
  obtain ⟨c, hc, hmem⟩ := List.mem_flatMap.1 hmem
  split at hmem
  · obtain hmem | hmem := List.mem_cons.1 hmem
    · cases hmem
    · rw [List.mem_singleton.1 hmem] at h
      exact h hc
  · rw [List.mem_singleton.1 hmem] at h
    exact h hc

theorem fieldText_newline (codec : Codec V) (hf : PlainField f) : '\n' ∉ fieldText codec f := by
  intro hmem
  obtain hmem | hmem := List.mem_append.1 hmem
  · exact not_newline hf hmem
  · obtain hmem | hmem := List.mem_cons.1 hmem
    · cases hmem
    · exact not_newline (codec.plain f.2) hmem

theorem fieldsText_newline (codec : Codec V) (h : ∀ f ∈ fs, PlainField f) :
    '\n' ∉ fieldsText codec fs := by
  induction fs with
  | nil => exact List.not_mem_nil
  | cons f fs ih =>
    have hf := fieldText_newline codec (h f List.mem_cons_self)
    cases fs with
    | nil => exact hf
    | cons g gs =>
      rw [fieldsText_cons]
      intro hmem
      obtain hmem | hmem := List.mem_append.1 hmem
      · exact hf hmem
      · obtain hmem | hmem := List.mem_cons.1 hmem
        · cases hmem
        · exact ih (fun g hg => h g (List.mem_cons_of_mem f hg)) hmem

theorem line_newline (codec : Codec V) {p : Point V} (h : p.Plain) : '\n' ∉ p.line codec := by
  intro hmem
  obtain hmem | hmem := List.mem_append.1 hmem
  · exact not_newline h.measurement hmem
  · obtain hmem | hmem := List.mem_append.1 hmem
    · obtain ⟨t, ht, hmem⟩ := List.mem_flatMap.1 hmem
      obtain ⟨_, hkey, hvalue⟩ := h.tags t ht
      obtain hmem | hmem := List.mem_cons.1 hmem
      · cases hmem
      · obtain hmem | hmem := List.mem_append.1 hmem
        · exact not_newline hkey hmem
        · obtain hmem | hmem := List.mem_cons.1 hmem
          · cases hmem
          · exact escaped_newline hvalue hmem
    · obtain hmem | hmem := List.mem_cons.1 hmem
      · cases hmem
      · obtain hmem | hmem := List.mem_append.1 hmem
        · exact fieldsText_newline codec h.fields hmem
        · cases hn : p.timestamp with
          | none =>
            rw [hn] at hmem
            cases hmem
          | some n =>
            rw [hn] at hmem
            obtain hmem | hmem := List.mem_cons.1 hmem
            · cases hmem
            · exact not_newline (intText_plain n) hmem

theorem splitOn_render (codec : Codec V) {p : Point V} (h : p.Plain) :
    ((p.render codec).splitOn '\n').filter (fun l => !l.isEmpty) = [p.line codec] := by
  have hline : (p.line codec).isEmpty = false := by
    rw [List.isEmpty_eq_false_iff, Point.line]
    intro hnil
    have hspace := (List.append_eq_nil_iff.1 (List.append_eq_nil_iff.1 hnil).2).2
    cases hspace
  rw [Point.render, List.splitOn_append_cons_self_of_not_mem (line_newline codec h),
    List.splitOn_nil, List.filter_cons, hline]
  rfl

/-- A point's text reads as that one point just when its tags carry their values and its fields'
values are read back. -/
theorem readLines_render_iff (codec : Codec V) {p : Point V} (h : p.Plain) :
    readLines codec (p.render codec) = some [p] ↔
      (∀ t ∈ p.tags, Kept t.2) ∧ ∀ f ∈ p.fields, codec.read (codec.text f.2) = some f.2 := by
  obtain ⟨f, fs, hfs⟩ := List.exists_cons_of_ne_nil h.nonempty
  have hplain := h.fields
  rw [hfs] at hplain
  have hfirst : ∃ r, fieldsText codec p.fields ++ timestampText p.timestamp =
      f.1.toList ++ '=' :: r := by
    rw [hfs]
    cases fs with
    | nil => exact ⟨_, by rw [fieldsText, fieldText, List.append_assoc, List.cons_append]⟩
    | cons g gs =>
      exact ⟨_, by rw [fieldsText_cons, fieldText, List.append_assoc, List.append_assoc,
        List.cons_append]⟩
  obtain ⟨r, hr⟩ := hfirst
  have hkey := hplain f List.mem_cons_self
  have hstops : Stops (tagsText p.tags ++
      ' ' :: (fieldsText codec p.fields ++ timestampText p.timestamp)) :=
    stops_tagsText (Stops.cons rfl) p.tags
  have hread : readLines codec (p.render codec) = (readLine codec (p.line codec)).map fun q => [q] := by
    rw [readLines, splitOn_render codec h, List.mapM_cons, List.mapM_nil]
    cases readLine codec (p.line codec) with
    | none => rfl
    | some q => rfl
  rw [hread, readLine, Point.line, pieces_plain h.measurement hstops]
  by_cases hkept : ∀ t ∈ p.tags, Kept t.2
  · rw [readTags_of_kept h.tags hkept, Option.bind_some]
    have hname : (pieces (fieldsText codec p.fields ++ timestampText p.timestamp)).1 = f.1.toList := by
      rw [hr, pieces_plain hkey (Stops.cons rfl)]
    rw [hname, hfs, readRest, readFields_text codec hplain, String.ofList_toList, ← mapM_reread_iff codec]
    cases hgs : (f :: fs).mapM (reread codec) with
    | none =>
      constructor
      · intro hnone
        cases hnone
      · intro hnone
        cases hnone.2
    | some gs =>
      rw [Option.map_some, Option.map_some, Option.map_some, Option.some.injEq, Option.some.injEq,
        List.cons.injEq]
      constructor
      · intro heq
        have hfields := congrArg Point.fields heq.1
        rw [hfs] at hfields
        exact ⟨hkept, hfields⟩
      · intro heq
        refine ⟨?_, rfl⟩
        rw [heq.2, ← hfs]
  · have hbad : ∃ t ∈ p.tags, ¬ Kept t.2 := by
      simpa only [not_forall, exists_prop] using hkept
    rw [hr, readTags_of_not_kept h.tags hkey hbad]
    constructor
    · intro hnone
      cases hnone
    · intro hall
      exact absurd hall.1 hkept

/-- The same point with its tags and fields in some order. -/
structure Point.Reorders (q p : Point V) : Prop where
  measurement : q.measurement = p.measurement
  tags : q.tags.Perm p.tags
  fields : q.fields.Perm p.fields
  timestamp : q.timestamp = p.timestamp

/-- However its tags and fields are ordered, the point is written as one line that reads as it. -/
def Point.OneLine (codec : Codec V) (p : Point V) : Prop :=
  ∀ q, Reorders q p → readLines codec (q.render codec) = some [q]

theorem Point.Plain.reorders {q p : Point V} (h : p.Plain) (hq : Reorders q p) : q.Plain := by
  constructor
  · rw [hq.measurement]
    exact h.measurement
  · intro t ht
    exact h.tags t (hq.tags.mem_iff.1 ht)
  · intro f hf
    exact h.fields f (hq.fields.mem_iff.1 hf)
  · intro hnil
    apply h.nonempty
    have hperm := hq.fields
    rw [hnil] at hperm
    exact List.Perm.nil_eq hperm ▸ rfl

theorem oneLine_iff (codec : Codec V) {p : Point V} (h : p.Plain) :
    p.OneLine codec ↔
      (∀ t ∈ p.tags, Kept t.2) ∧ ∀ f ∈ p.fields, codec.read (codec.text f.2) = some f.2 := by
  constructor
  · intro hall
    exact (readLines_render_iff codec h).1 (hall p ⟨rfl, .refl _, .refl _, rfl⟩)
  · intro ⟨hkept, hread⟩ q hq
    apply (readLines_render_iff codec (h.reorders hq)).2
    constructor
    · intro t ht
      exact hkept t (hq.tags.mem_iff.1 ht)
    · intro f hf
      exact hread f (hq.fields.mem_iff.1 hf)

end LineProtocol
