import LocalMind.Atem.Markers
import LocalMind.Atem.Tools
import LocalMind.Json.Record
import LocalMind.Stream.Fallible

namespace LocalMind
open Text PyJson
set_option autoImplicit true

namespace Atem

/-! Tool calls on the wire. -/

def CALLS_CLOSE : List Char := "</atem:function_calls>".toList

def NAME_IS : List Char := " name=".toList

/-- The name in a tag, and the end of the tag. -/
def nameTag (name rest : List Char) : List Char := NAME_IS ++ '"' :: (name ++ '"' :: '>' :: rest)

/-- The parameters of a call, each on a line of its own. -/
def renderParams : List (List Char × List Char) → List Char
  | [] => ['\n']
  | p :: ps => '\n' :: (PARAM_OPEN ++ nameTag p.1 (p.2 ++ (PARAM_CLOSE ++ renderParams ps)))

/-- A call in its wrapper. -/
def renderCall (name : List Char) (ps : List (List Char × List Char)) : List Char :=
  CALLS_OPEN ++ '\n' :: (INVOKE_OPEN ++
    nameTag name (renderParams ps ++ (INVOKE_CLOSE ++ '\n' :: CALLS_CLOSE)))

theorem quotedName_of (hq : '"' ∉ name) (rest : List Char) :
    quotedName (name ++ '"' :: '>' :: rest) = some (name, rest) := by
  have hplain : ∀ c ∈ name, decide (c ≠ '"') = true := by
    intro c hc
    apply decide_eq_true
    intro he
    exact hq (he ▸ hc)
  rw [quotedName, List.dropWhile_append_of_pos hplain, List.takeWhile_append_of_pos hplain]
  exact congrArg (fun k => some (k, rest)) (List.append_nil name)

theorem nameAttribute_nameTag (hq : '"' ∉ name) (rest : List Char) :
    nameAttribute (nameTag name rest) = some (name, rest) := by
  have hspace : (nameTag name rest).dropWhile isSpace =
      NAME_IS.tail ++ '"' :: (name ++ '"' :: '>' :: rest) := rfl
  have hshort : ((nameTag name rest).dropWhile isSpace).length < (nameTag name rest).length ∧
      NAME.isPrefixOf ((nameTag name rest).dropWhile isSpace) = true := by
    rw [hspace]
    exact ⟨Nat.lt_succ_self _, rfl⟩
  rw [nameAttribute, if_pos hshort]
  exact quotedName_of hq rest

theorem openTag_nameTag (hq : '"' ∉ name) (word rest : List Char) :
    openTag word (word ++ nameTag name rest) = some (name, rest) := by
  have hword : word.isPrefixOf (word ++ nameTag name rest) = true :=
    List.isPrefixOf_iff_prefix.2 (List.prefix_append word _)
  rw [openTag, if_pos hword, List.drop_left, nameAttribute_nameTag hq]

theorem findTag_open (h : openTag word (c :: s) = some (name, rest)) :
    findTag word (c :: s) = some ⟨[], name, rest⟩ := by
  rw [findTag, h]

theorem findTag_skip (h : openTag word (c :: s) = none) :
    findTag word (c :: s) = (findTag word s).map fun o => { o with before := c :: o.before } := by
  rw [findTag, h]

/-- Nothing is found before the first angle bracket. -/
theorem findTag_lead (h : '<' ∉ lead) (w s : List Char) :
    findTag ('<' :: w) (lead ++ s) =
      (findTag ('<' :: w) s).map fun o => { o with before := lead ++ o.before } := by
  induction lead with
  | nil => exact Option.map_id'.symm
  | cons c lead ih =>
    obtain ⟨hc, hlead⟩ := List.ne_and_not_mem_of_not_mem_cons h
    have hno : openTag ('<' :: w) (c :: (lead ++ s)) = none := by
      rw [openTag, List.isPrefixOf, beq_false_of_ne hc]
      rfl
    rw [List.cons_append, findTag_skip hno, ih hlead, Option.map_map]
    rfl

/-- A tag behind a text without angle brackets. -/
theorem findTag_nameTag (h : '<' ∉ lead) (hq : '"' ∉ name) (w rest : List Char) :
    findTag ('<' :: w) (lead ++ ('<' :: w ++ nameTag name rest)) = some ⟨lead, name, rest⟩ := by
  have hopen : findTag ('<' :: w) ('<' :: w ++ nameTag name rest) = some ⟨[], name, rest⟩ :=
    findTag_open (openTag_nameTag hq ('<' :: w) rest)
  rw [findTag_lead h, hopen]
  exact congrArg (fun l => some (Opening.mk l name rest)) (List.append_nil lead)

theorem elementsFrom_found (h : findTag word s = some ⟨before, name, body ++ ('<' :: u ++ rest)⟩)
    (hu : '<' ∉ u) (hbody : ¬ ('<' :: u) <:+: body) (n : Nat) :
    elementsFrom word ('<' :: u) (n + 1) s =
      ⟨name, body, true⟩ :: elementsFrom word ('<' :: u) n rest := by
  rw [elementsFrom, h]
  dsimp only
  rw [splitOnce_led hu hbody]

theorem elementsFrom_none (h : findTag word s = none) (n : Nat) :
    elementsFrom word close n s = [] := by
  cases n with
  | zero => rfl
  | succ n => rw [elementsFrom, h]

/-! The elements of a rendered call. -/

/-- A parameter that is found where it is rendered. -/
structure Renders (p : List Char × List Char) : Prop where
  name : '"' ∉ p.1
  text : ¬ PARAM_CLOSE <:+: p.2

theorem elementsFrom_renderParams {ps : List (List Char × List Char)} (h : ∀ p ∈ ps, Renders p)
    (hn : ps.length ≤ n) :
    elementsFrom PARAM_OPEN PARAM_CLOSE n (renderParams ps) = ps.map fun p => ⟨p.1, p.2, true⟩ := by
  induction ps generalizing n with
  | nil => exact elementsFrom_none rfl n
  | cons p ps ih =>
    obtain ⟨n, rfl⟩ := Nat.exists_eq_add_of_le' (Nat.le_trans (Nat.succ_pos ps.length) hn)
    obtain ⟨hname, htext⟩ := h p List.mem_cons_self
    have hlead : '<' ∉ ['\n'] := by decide
    have hfound := findTag_nameTag hlead hname PARAM_OPEN.tail
      (p.2 ++ (PARAM_CLOSE ++ renderParams ps))
    have hclose : '<' ∉ PARAM_CLOSE.tail := by decide
    have hcons := elementsFrom_found hfound hclose htext n
    have hrest := ih (fun q hq => h q (List.mem_cons_of_mem p hq)) (Nat.le_of_succ_le_succ hn)
    rw [List.map_cons, ← hrest]
    exact hcons

theorem length_renderParams (ps : List (List Char × List Char)) :
    ps.length ≤ (renderParams ps).length := by
  induction ps with
  | nil => exact Nat.zero_le _
  | cons p ps ih =>
    rw [renderParams, nameTag]
    simp only [List.length_cons, List.length_append]
    omega

theorem parseParams_renderParams {ps : List (List Char × List Char)} (h : ∀ p ∈ ps, Renders p) :
    parseParams (renderParams ps) = ps.map fun p => ⟨p.1, p.2, true⟩ :=
  elementsFrom_renderParams h (length_renderParams ps)

/-- A word in angle brackets that no tag of a parameter has. -/
structure Foreign (u : List Char) : Prop where
  led : ∃ t, u = '<' :: t ∧ '<' ∉ t
  newline : '\n' ∉ u
  quote : '"' ∉ u
  opens : ¬ u <:+: PARAM_OPEN ++ NAME_IS
  closes : ¬ u <:+: PARAM_CLOSE

theorem infix_nameTag (hu : '"' ∉ u) (h : u <:+: word ++ nameTag name rest) :
    u <:+: word ++ NAME_IS ∨ u <:+: name ∨ u <:+: '>' :: rest := by
  rw [nameTag, ← List.append_assoc] at h
  obtain h | h := infix_mark hu h
  · exact .inl h
  · obtain h | h := infix_mark hu h
    · exact .inr (.inl h)
    · exact .inr (.inr h)

theorem infix_behind (h : '<' :: t <:+: '>' :: s) : '<' :: t <:+: s := by
  obtain h | h := List.infix_cons_iff.1 h
  · obtain ⟨hc, -⟩ := List.cons_prefix_cons.1 h
    cases hc
  · exact h

theorem infix_of_cons (hc : c ∉ u) {q : List Char} (h : u <:+: c :: q) : u <:+: q := by
  obtain h | h := infix_mark (p := []) hc h
  · rw [List.infix_nil.1 h]
    exact List.nil_infix
  · exact h

theorem renderParams_line (ps : List (List Char × List Char)) :
    ∃ rest, renderParams ps = '\n' :: rest := by
  cases ps with
  | nil => exact ⟨[], rfl⟩
  | cons p ps => exact ⟨_, by rw [renderParams]⟩

/-- A foreign word stands in the name or in the text of a parameter. -/
theorem Foreign.infix_renderParams (hu : Foreign u) {ps : List (List Char × List Char)}
    (h : u <:+: renderParams ps) : ∃ p ∈ ps, u <:+: p.1 ∨ u <:+: p.2 := by
  obtain ⟨t, rfl, ht⟩ := hu.led
  induction ps with
  | nil =>
    rw [renderParams] at h
    cases List.infix_nil.1 (infix_of_cons hu.newline h)
  | cons p ps ih =>
    rw [renderParams] at h
    obtain h | h | h := infix_nameTag hu.quote (infix_of_cons hu.newline h)
    · exact absurd h hu.opens
    · exact ⟨p, List.mem_cons_self, .inl h⟩
    · have hclose : PARAM_CLOSE = '<' :: PARAM_CLOSE.tail := rfl
      have htext := infix_behind h
      rw [hclose, List.cons_append] at htext
      obtain h | h := infix_led ht htext
      · exact ⟨p, List.mem_cons_self, .inr h⟩
      · obtain ⟨rest, hrest⟩ := renderParams_line ps
        rw [← List.cons_append, ← hclose, hrest] at h
        obtain h | h := infix_mark hu.newline h
        · exact absurd h hu.closes
        · have hin : '<' :: t <:+: renderParams ps := by
            rw [hrest]
            exact h.trans (List.suffix_cons _ rest).isInfix
          obtain ⟨q, hq, hin⟩ := ih hin
          exact ⟨q, List.mem_cons_of_mem p hq, hin⟩

theorem not_infix_of (h : contains s u = false) : ¬ u <:+: s := by
  rw [← contains_iff, h]
  exact Bool.false_ne_true

theorem foreign_invokeClose : Foreign INVOKE_CLOSE where
  led := ⟨INVOKE_CLOSE.tail, rfl, by decide⟩
  newline := by decide
  quote := by decide
  opens := not_infix_of (by decide)
  closes := not_infix_of (by decide)

theorem foreign_message : Foreign MESSAGE where
  led := ⟨MESSAGE.tail, rfl, by decide⟩
  newline := by decide
  quote := by decide
  opens := not_infix_of (by decide)
  closes := not_infix_of (by decide)

theorem findTag_renderCall (hq : '"' ∉ name) (ps : List (List Char × List Char)) :
    findTag INVOKE_OPEN (renderCall name ps) = some ⟨CALLS_OPEN ++ ['\n'], name,
      renderParams ps ++ (INVOKE_CLOSE ++ '\n' :: CALLS_CLOSE)⟩ := by
  have hsplit : renderCall name ps = '<' :: (CALLS_OPEN.tail ++ ['\n'] ++
      (INVOKE_OPEN ++ nameTag name (renderParams ps ++ (INVOKE_CLOSE ++ '\n' :: CALLS_CLOSE)))) := by
    rw [renderCall, List.append_assoc]
    rfl
  have hopen : openTag INVOKE_OPEN (renderCall name ps) = none := rfl
  have hlead : '<' ∉ CALLS_OPEN.tail ++ ['\n'] := by decide
  have hbehind := findTag_nameTag hlead hq INVOKE_OPEN.tail
    (renderParams ps ++ (INVOKE_CLOSE ++ '\n' :: CALLS_CLOSE))
  have hinvoke : INVOKE_OPEN = '<' :: INVOKE_OPEN.tail := rfl
  rw [← hinvoke] at hbehind
  rw [hsplit] at hopen ⊢
  rw [findTag_skip hopen, hbehind]
  rfl

theorem parseInvokes_renderCall {ps : List (List Char × List Char)} (hq : '"' ∉ name)
    (h : ∀ p ∈ ps, Renders p)
    (hclose : ∀ p ∈ ps, ¬ INVOKE_CLOSE <:+: p.1 ∧ ¬ INVOKE_CLOSE <:+: p.2) :
    parseInvokes (renderCall name ps) =
      [⟨name, ps.map fun p => ⟨p.1, p.2, true⟩, true⟩] := by
  have hfree : ¬ INVOKE_CLOSE <:+: renderParams ps := by
    intro hin
    obtain ⟨p, hp, hname | htext⟩ := foreign_invokeClose.infix_renderParams hin
    · exact (hclose p hp).1 hname
    · exact (hclose p hp).2 htext
  have hled : '<' ∉ INVOKE_CLOSE.tail := by decide
  have hpos : 0 < (renderCall name ps).length := by
    rw [renderCall, List.length_append, List.length_cons]
    exact Nat.succ_pos _
  obtain ⟨n, hn⟩ := Nat.exists_eq_add_of_le' hpos
  have hclosed : INVOKE_CLOSE = '<' :: INVOKE_CLOSE.tail := rfl
  have hfound := findTag_renderCall hq ps
  have hone : elementsFrom INVOKE_OPEN INVOKE_CLOSE (n + 1) (renderCall name ps) =
      ⟨name, renderParams ps, true⟩ ::
        elementsFrom INVOKE_OPEN INVOKE_CLOSE n ('\n' :: CALLS_CLOSE) := by
    rw [hclosed] at hfound hfree ⊢
    exact elementsFrom_found hfound hled hfree n
  have hnone : elementsFrom INVOKE_OPEN INVOKE_CLOSE n ('\n' :: CALLS_CLOSE) = [] :=
    elementsFrom_none (by decide) n
  rw [parseInvokes, elements, hn, hone, hnone, List.map_singleton, parseParams_renderParams h]

theorem Foreign.infix_renderCall (hu : Foreign u)
    (hwrap : ∀ w ∈ [CALLS_OPEN, INVOKE_OPEN ++ NAME_IS, INVOKE_CLOSE, CALLS_CLOSE], ¬ u <:+: w)
    {ps : List (List Char × List Char)} (h : u <:+: renderCall name ps) :
    u <:+: name ∨ ∃ p ∈ ps, u <:+: p.1 ∨ u <:+: p.2 := by
  obtain ⟨t, rfl, ht⟩ := hu.led
  rw [renderCall] at h
  obtain h | h := infix_mark hu.newline h
  · exact absurd h (hwrap _ (by simp only [List.mem_cons, true_or]))
  · obtain h | h | h := infix_nameTag hu.quote h
    · exact absurd h (hwrap _ (by simp only [List.mem_cons, true_or, or_true]))
    · exact .inl h
    · have hclosed : INVOKE_CLOSE = '<' :: INVOKE_CLOSE.tail := rfl
      have hbody := infix_behind h
      rw [hclosed, List.cons_append] at hbody
      obtain h | h := infix_led ht hbody
      · exact .inr (hu.infix_renderParams h)
      · rw [← List.cons_append, ← hclosed] at h
        obtain h | h := infix_mark hu.newline h
        · exact absurd h (hwrap _ (by simp only [List.mem_cons, true_or, or_true]))
        · exact absurd h (hwrap _ (by simp only [List.mem_cons, true_or, or_true]))

theorem contentOf_renderCall {ps : List (List Char × List Char)} (hname : ¬ MESSAGE <:+: name)
    (h : ∀ p ∈ ps, ¬ MESSAGE <:+: p.1 ∧ ¬ MESSAGE <:+: p.2) :
    contentOf (renderCall name ps) = renderCall name ps := by
  have hwrap : ∀ w ∈ [CALLS_OPEN, INVOKE_OPEN ++ NAME_IS, INVOKE_CLOSE, CALLS_CLOSE],
      ¬ MESSAGE <:+: w := by
    intro w hw
    apply not_infix_of
    have hnone : ∀ w ∈ [CALLS_OPEN, INVOKE_OPEN ++ NAME_IS, INVOKE_CLOSE, CALLS_CLOSE],
        contains w MESSAGE = false := by decide
    exact hnone w hw
  have hcontains : contains (renderCall name ps) MESSAGE = false := by
    apply Bool.eq_false_iff.2
    intro hin
    obtain hin | ⟨p, hp, hkey | htext⟩ :=
      foreign_message.infix_renderCall hwrap (contains_iff.1 hin)
    · exact hname hin
    · exact (h p hp).1 hkey
    · exact (h p hp).2 htext
  rw [contentOf, hcontains]
  rfl

theorem contentEnd_renderCall (hq : '"' ∉ name) (ps : List (List Char × List Char)) :
    contentEnd (renderCall name ps) = 0 := by
  have hopen : ∃ rest, splitOnce CALLS_OPEN (renderCall name ps) = some ([], rest) :=
    ⟨_, splitOnce_led (s := []) (by decide : '<' ∉ CALLS_OPEN.tail) (by decide) _⟩
  obtain ⟨rest, hopen⟩ := hopen
  rw [contentEnd, findTag_renderCall hq, hopen]
  exact Nat.zero_min _

/-! The values of a rendered call. -/

theorem isNumChar_not_isSpace (h : Json.isNumChar c = true) : isSpace c = false := by
  have hdigit : Char.isDigit c = true → 48 ≤ c.toNat ∧ c.toNat ≤ 57 := by
    intro hd
    simp only [Char.isDigit, Bool.and_eq_true, decide_eq_true_eq, UInt32.le_iff_toNat_le] at hd
    exact hd
  simp only [Json.isNumChar, Bool.or_eq_true, beq_iff_eq] at h
  rcases h with ((((h | rfl) | rfl) | rfl) | rfl) | rfl
  · have hc := hdigit h
    simp only [isSpace, isWhitespace, Bool.or_eq_false_iff, decide_eq_false_iff_not,
      beq_eq_false_iff_ne]
    omega
  · rfl
  · rfl
  · rfl
  · rfl
  · rfl

/-- A text with no space at its ends. -/
structure Edged (t : List Char) : Prop where
  head : ∀ c, t.head? = some c → isSpace c = false
  last : ∀ c, t.getLast? = some c → isSpace c = false

theorem Edged.wrap (ha : isSpace a = false) (hb : isSpace b = false) (s : List Char) :
    Edged (a :: s ++ [b]) where
  head := by
    intro c hc
    cases hc
    exact ha
  last := by
    intro c hc
    rw [List.getLast?_concat] at hc
    cases hc
    exact hb

theorem edged_tok {h : Json.Handlers α} (ht : Json.Tok h d t a) : Edged t := by
  have hleaf : ∀ {t a}, Json.LeafText h t a → Edged t := by
    intro t a ht
    cases ht with
    | null => exact .wrap (s := ['u', 'l']) rfl rfl
    | true => exact .wrap (s := ['r', 'u']) rfl rfl
    | false => exact .wrap (s := ['a', 'l', 's']) rfl rfl
    | str _ _ => exact .wrap rfl rfl _
    | num hl _ =>
      refine ⟨?_, ?_⟩
      · intro c hc
        exact isNumChar_not_isSpace (hl.chars c (List.mem_of_mem_head? hc))
      · intro c hc
        exact isNumChar_not_isSpace (hl.chars c (List.mem_of_mem_getLast? hc))
  cases d with
  | zero => exact hleaf ht
  | succ d =>
    rcases ht with ht | ⟨body, as, _, rfl, _⟩ | ⟨body, es, _, rfl, _⟩
    · exact hleaf ht
    · exact .wrap rfl rfl body
    · exact .wrap rfl rfl body

theorem Edged.tight (h : Edged t) : tight t = t := by
  have hhead : ¬ t.head? = some '\n' := by
    intro hc
    cases h.head _ hc
  have hlast : ¬ t.getLast? = some '\n' := by
    intro hc
    cases h.last _ hc
  rw [Atem.tight, if_neg hhead]
  exact if_neg hlast

theorem Edged.strip (h : Edged t) : strip isSpace t = t := by
  have hdrop : t.dropWhile isSpace = t := by
    cases t with
    | nil => rfl
    | cons c t => exact List.dropWhile_cons_of_neg (Bool.eq_false_iff.1 (h.head c rfl))
  rw [Text.strip, hdrop]
  apply List.rdropWhile_eq_self_iff.2
  intro hne
  exact Bool.eq_false_iff.1 (h.last _ (List.getLast?_eq_getLast_of_ne_nil hne))

/-- How a value is written under the type that its schema declares. -/
inductive Writes (f : FloatTexts F) (declared : Option String) :
    PyValue F → List Char → Prop where
  | raw (s : String) : declared = some "string" → Writes f declared (.str s) s.toList
  | json : declared ≠ some "string" → (∀ s, v ≠ .str s) →
      Json.Tok (handlers f).toHandlers d t v → Writes f declared v t

/-- A string comes back without a line feed at either end. -/
def tightened : PyValue F → PyValue F
  | .str s => .str (String.ofList (tight s.toList))
  | v => v

theorem coerce_writes {f : FloatTexts F} (h : Writes f declared v t) :
    coerce f t declared = some (tightened v) := by
  cases h with
  | raw s hs =>
    rw [coerce, if_pos hs]
    rfl
  | json hd hv ht =>
    have hedged := edged_tok ht
    rw [coerce, if_neg hd, hedged.tight, hedged.strip, loads_tok ht]
    cases v with
    | str s => exact absurd rfl (hv s)
    | none => rfl
    | bool b => rfl
    | int n => rfl
    | float x => rfl
    | list xs => rfl
    | dict m => rfl

theorem proper_tightened {v : PyValue F} (h : Proper v) : Proper (tightened v) := by
  cases h with
  | str s => exact .str _
  | none => exact .none
  | bool b => exact .bool b
  | int hn => exact .int hn
  | float x => exact .float x
  | list hxs => exact .list hxs
  | dict hm he => exact .dict hm he

theorem finite_of_proper {v : PyValue F} (h : Proper v) : Finite v := by
  induction h with
  | none => exact .none
  | bool b => exact .bool b
  | int _ => exact .int _
  | float x => exact .float x
  | str s => exact .str s
  | list _ ih => exact .list ih
  | dict _ _ ih => exact .dict ih

/-- A parameter on the wire of an argument. -/
structure Wired (f : FloatTexts F) (types : ParamTypes) (a : String × PyValue F)
    (p : List Char × List Char) : Prop where
  name : p.1 = a.1.toList
  text : Writes f (Json.Fields.get types a.1) a.2 p.2
  proper : Proper a.2
  renders : Renders p
  closes : ¬ INVOKE_CLOSE <:+: p.1 ∧ ¬ INVOKE_CLOSE <:+: p.2
  message : ¬ MESSAGE <:+: p.1 ∧ ¬ MESSAGE <:+: p.2

/-- What comes back of the arguments. -/
def tightArgs (args : List (String × PyValue F)) : List (String × PyValue F) :=
  args.map fun a => (a.1, tightened a.2)

theorem keys_tightArgs (args : List (String × PyValue F)) :
    Json.Fields.keys (tightArgs args) = Json.Fields.keys args := by
  rw [Json.Fields.keys, tightArgs, List.map_map]
  rfl

theorem proper_tightArgs {args : List (String × PyValue F)}
    (hkeys : (Json.Fields.keys args).Nodup) (h : ∀ a ∈ args, Proper a.2) :
    Proper (.dict (tightArgs args)) := by
  rw [← keys_tightArgs] at hkeys
  apply Proper.dict hkeys
  intro e he
  obtain ⟨a, ha, rfl⟩ := List.mem_map.1 he
  exact proper_tightened (h a ha)

theorem readParam_wired {f : FloatTexts F} {a : String × PyValue F} (h : Wired f types a p) :
    readParam f types ⟨p.1, p.2, true⟩ = some (a.1, tightened a.2) := by
  have hkey : String.ofList p.1 = a.1 := by
    rw [h.name, String.ofList_toList]
  have htext := coerce_writes h.text
  rw [readParam]
  dsimp only
  rw [hkey, htext]
  rfl

theorem mapM_readParam {f : FloatTexts F} {args : List (String × PyValue F)}
    (h : List.Forall₂ (Wired f types) args ps) :
    (ps.map fun p => (⟨p.1, p.2, true⟩ : Param)).mapM (readParam f types) =
      some (tightArgs args) := by
  induction h with
  | nil => rfl
  | cons ha _ ih =>
    rw [List.map_cons, List.mapM_cons, readParam_wired ha, ih]
    rfl

theorem arguments_wired {f : FloatTexts F} {args : List (String × PyValue F)}
    (h : List.Forall₂ (Wired f types) args ps) (hkeys : (Json.Fields.keys args).Nodup) :
    arguments f types (ps.map fun p => ⟨p.1, p.2, true⟩) = some (tightArgs args) := by
  rw [← keys_tightArgs] at hkeys
  have hall : Json.Fields.insertAll [] (tightArgs args) = tightArgs args :=
    Json.Fields.insertAll_of_nodup (m := []) hkeys
  rw [arguments, mapM_readParam h, Option.map_some, hall]

/-- A rendered call is extracted as one call, with its arguments. -/
theorem extractToolCalls_renderCall {f : FloatTexts F} {tools : List (Tool F)}
    {args : List (String × PyValue F)} (htypes : paramTypes f tools name = some types)
    (hname : '"' ∉ name) (hmessage : ¬ MESSAGE <:+: name)
    (h : List.Forall₂ (Wired f types) args ps) (hkeys : (Json.Fields.keys args).Nodup) :
    extractToolCalls f tools (renderCall name ps) =
      some ⟨true, [⟨name, dumps f (.dict (tightArgs args))⟩], none⟩ := by
  have hp : ∀ p ∈ ps, ∃ a ∈ args, Wired f types a p := by
    intro p hp
    exact Fallible.exists_left_of_forall₂ h hp
  have hcontent : contentOf (renderCall name ps) = renderCall name ps := by
    apply contentOf_renderCall hmessage
    intro p hmem
    obtain ⟨a, _, ha⟩ := hp p hmem
    exact ha.message
  have hinvokes : parseInvokes (renderCall name ps) =
      [⟨name, ps.map fun p => ⟨p.1, p.2, true⟩, true⟩] := by
    apply parseInvokes_renderCall hname
    · intro p hmem
      obtain ⟨a, _, ha⟩ := hp p hmem
      exact ha.renders
    · intro p hmem
      obtain ⟨a, _, ha⟩ := hp p hmem
      exact ha.closes
  have htyped : typed f tools [⟨name, ps.map fun p => ⟨p.1, p.2, true⟩, true⟩] =
      some [(⟨name, ps.map fun p => ⟨p.1, p.2, true⟩, true⟩, types)] := by
    rw [typed, List.mapM_cons]
    simp only [htypes]
    rfl
  have hcall : [((⟨name, ps.map fun p => ⟨p.1, p.2, true⟩, true⟩ : Invoke), types)].mapM
      (toolCall f) = some [⟨name, dumps f (.dict (tightArgs args))⟩] := by
    rw [List.mapM_cons, toolCall]
    dsimp only
    rw [arguments_wired h hkeys]
    rfl
  rw [extractToolCalls, hcontent, hinvokes, contentEnd_renderCall hname]
  rw [List.isEmpty_cons, if_neg Bool.false_ne_true, htyped]
  dsimp only
  rw [hcall]
  rfl

end Atem

end LocalMind
