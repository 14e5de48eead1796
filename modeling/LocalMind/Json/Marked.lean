import LocalMind.Json.Reread
import LocalMind.Json.Same

namespace Json
set_option autoImplicit true

/-! Texts in which the values along a path are marked. -/

/-- A character of a text, or a part that is marked. -/
inductive Piece where
  | char (c : Char)
  | mark (t : List Char)

def Piece.text : Piece → List Char
  | .char c => [c]
  | .mark t => t

def Piece.map (f : List Char → List Char) : Piece → Piece
  | .char c => .char c
  | .mark t => .mark (f t)

def Piece.marked : Piece → Option (List Char)
  | .char _ => none
  | .mark t => some t

abbrev MarkedText := List Piece

namespace MarkedText

def text (t : MarkedText) : List Char := t.flatMap Piece.text

/-- A rewriting of the marked parts. -/
def rewrite (f : List Char → List Char) (t : MarkedText) : MarkedText := t.map (Piece.map f)

def marks (t : MarkedText) : List (List Char) := t.filterMap Piece.marked

/-- A text without marks. -/
def plain (s : List Char) : MarkedText := s.map .char

theorem text_append (t u : MarkedText) : text (t ++ u) = text t ++ text u := List.flatMap_append

theorem text_mark (m : List Char) (t : MarkedText) : text (.mark m :: t) = m ++ text t := rfl

theorem text_char (c : Char) (t : MarkedText) : text (.char c :: t) = c :: text t := rfl

theorem text_plain (s : List Char) : text (plain s) = s := by
  induction s with
  | nil => rfl
  | cons c s ih =>
    change c :: text (plain s) = c :: s
    rw [ih]

theorem rewrite_append (f : List Char → List Char) (t u : MarkedText) :
    rewrite f (t ++ u) = rewrite f t ++ rewrite f u := List.map_append

theorem rewrite_plain (f : List Char → List Char) (s : List Char) :
    rewrite f (plain s) = plain s := List.map_map

theorem marks_append (t u : MarkedText) : marks (t ++ u) = marks t ++ marks u :=
  List.filterMap_append

theorem marks_plain (s : List Char) : marks (plain s) = [] := by
  induction s with
  | nil => rfl
  | cons c s ih => exact ih

theorem marks_rewrite (f : List Char → List Char) (t : MarkedText) :
    marks (rewrite f t) = (marks t).map f := by
  induction t with
  | nil => rfl
  | cons p t ih =>
    cases p with
    | char c => exact ih
    | mark m => exact congrArg (f m :: ·) ih

theorem plain_append (s t : List Char) : plain (s ++ t) = plain s ++ plain t := List.map_append

end MarkedText

open MarkedText

/-! The grammar of marked texts. -/

inductive MarkedItems (R : MarkedText → α → Prop) : MarkedText → List α → Prop where
  | one : AllWs w → R t a → AllWs w' → MarkedItems R (plain w ++ t ++ plain w') [a]
  | cons : AllWs w → R t a → AllWs w' → MarkedItems R b as →
    MarkedItems R (plain w ++ t ++ plain w' ++ .char ',' :: b) (a :: as)

inductive MarkedBody (R : MarkedText → α → Prop) : MarkedText → List α → Prop where
  | empty : AllWs w → MarkedBody R (plain w) []
  | items : MarkedItems R b as → MarkedBody R b as

/-- An entry whose value's text depends on its key. -/
inductive MarkedEntry (R : String → MarkedText → α → Prop) : MarkedText → String × α → Prop where
  | mk : StrBody escape key x → QuoteFree key → AllWs w → AllWs w' → R (String.ofList x) t v →
    MarkedEntry R (plain ('"' :: key ++ '"' :: w ++ ':' :: w') ++ t) (String.ofList x, v)

/-- A step of a path: a key, or any key. -/
abbrev Step := Option String

def Step.takes (p : Step) (k : String) : Bool := p.all (· = k)

/-- The value of an entry: one that a step takes, or one without marks. -/
def Stepped (codec : FloatCodec) (p : Step) (d : Nat) (R : MarkedText → Value → Prop) (k : String)
    (t : MarkedText) (v : Value) : Prop :=
  if p.takes k then R t v else ∃ s, t = plain s ∧ Tok (valueHandlers codec) d s v

section
variable (codec : FloatCodec) (leaf : Nat → List Char → Value → Prop)

/-- The text of a value with at most so many nested containers, in which each value that a path
leads to is marked. -/
def Along : List Step → Nat → MarkedText → Value → Prop
  | [], d, t, v => ∃ m, t = [.mark m] ∧ leaf d m v
  | p :: ps, d, t, v =>
    (∃ s, t = plain s ∧ Tok (valueHandlers codec) d s v ∧ v.asObject = none) ∨
    ∃ e b es, d = e + 1 ∧
      MarkedBody (MarkedEntry (Stepped codec p e (Along ps e))) b es ∧
      t = .char '{' :: b ++ [.char '}'] ∧ v = .object (Fields.insertAll [] es) ∧
      (Fields.keys (es.filter fun e => p.takes e.1)).Nodup

end

/-- The values that a path leads to. -/
def valuesAlong : List Step → Value → List Value
  | [], v => [v]
  | p :: ps, .object m => m.flatMap fun e => if p.takes e.1 then valuesAlong ps e.2 else []
  | _ :: _, _ => []

def mapAlong (g : Value → Value) : List Step → Value → Value
  | [], v => g v
  | p :: ps, .object m =>
    .object (m.map fun e => (e.1, if p.takes e.1 then mapAlong g ps e.2 else e.2))
  | _ :: _, v => v

/-! Entries that change one by one. -/

namespace Fields

theorem get_mapKeys (f : String → α → β) (m : List (String × α)) (k : String) :
    get (m.map fun e => (e.1, f e.1 e.2)) k = (get m k).map (f k) := by
  induction m with
  | nil => rfl
  | cons e m ih =>
    rw [List.map_cons, get_cons, get_cons, ih]
    by_cases hk : e.1 = k
    · rw [if_pos hk, if_pos hk, hk]
      rfl
    · rw [if_neg hk, if_neg hk]

theorem rel_insertAll {R : String → α → β → Prop} {m es : List (String × α)}
    {m' es' : List (String × β)} (hm : ∀ k, Option.Rel (R k) (get m k) (get m' k))
    (h : List.Forall₂ (fun e e' => e'.1 = e.1 ∧ R e.1 e.2 e'.2) es es') (k : String) :
    Option.Rel (R k) (get (insertAll m es) k) (get (insertAll m' es') k) := by
  induction h generalizing m m' with
  | nil => exact hm k
  | @cons e e' es es' he _ ih =>
    rw [insertAll_cons, insertAll_cons]
    apply ih
    intro l
    rw [get_insert, get_insert, he.1]
    by_cases hl : e.1 = l
    · rw [if_pos hl, if_pos hl, ← hl]
      exact .some he.2
    · rw [if_neg hl, if_neg hl]
      exact hm l

theorem filter_insertAll (p : String → Bool) (m es : List (String × α)) :
    (insertAll m es).filter (fun e => p e.1) =
      insertAll (m.filter fun e => p e.1) (es.filter fun e => p e.1) := by
  induction es generalizing m with
  | nil => rfl
  | cons e es ih =>
    rw [insertAll_cons, ih, filter_insert, List.filter_cons]
    cases p e.1 with
    | true => rfl
    | false => rfl

theorem get_insertAll_congr {m m' es : List (String × α)} (h : get m k = get m' k) :
    get (insertAll m es) k = get (insertAll m' es) k := by
  induction es generalizing m m' with
  | nil => exact h
  | cons e es ih =>
    rw [insertAll_cons, insertAll_cons]
    apply ih
    rw [get_insert, get_insert, h]

theorem insertAll_append (m es es' : List (String × α)) :
    insertAll m (es ++ es') = insertAll (insertAll m es) es' :=
  List.foldl_append

/-- An entry that no later one overrides gives its key the value, and no other key anything. -/
theorem get_insertAll_last {es es' : List (String × α)} (h : l ∉ keys es') (v w : α)
    (k : String) : get (insertAll [] (es ++ (l, v) :: es')) k =
      if k = l then some v else get (insertAll [] (es ++ (l, w) :: es')) k := by
  rw [insertAll_append, insertAll_append, insertAll_cons, insertAll_cons]
  by_cases hk : k = l
  · rw [if_pos hk, hk, get_insertAll_of_notMem h, get_insert_self]
  · rw [if_neg hk]
    apply get_insertAll_congr
    rw [get_insert_of_ne (Ne.symm hk), get_insert_of_ne (Ne.symm hk)]

theorem get_insertAll_new {es es' : List (String × α)} (h : l ∉ keys es') (v : α) (k : String) :
    get (insertAll [] (es ++ (l, v) :: es')) k =
      if k = l then some v else get (insertAll [] (es ++ es')) k := by
  rw [insertAll_append, insertAll_append, insertAll_cons]
  by_cases hk : k = l
  · rw [if_pos hk, hk, get_insertAll_of_notMem h, get_insert_self]
  · rw [if_neg hk]
    apply get_insertAll_congr
    rw [get_insert_of_ne (Ne.symm hk)]

/-- Entries of distinct keys that a predicate takes are kept in their order. -/
theorem filter_insertAll_nodup {p : String → Bool} {es : List (String × α)}
    (h : (keys (es.filter fun e => p e.1)).Nodup) :
    (insertAll [] es).filter (fun e => p e.1) = es.filter fun e => p e.1 := by
  rw [filter_insertAll, List.filter_nil, insertAll_of_nodup h, List.nil_append]

end Fields

/-! Marked texts part by part. -/

section
variable {R R' : MarkedText → α → Prop}

theorem MarkedItems.text (hR : ∀ t a, R t a → T (MarkedText.text t) a)
    (h : MarkedItems R b as) : ItemsText T (MarkedText.text b) as := by
  induction h with
  | one hw ht hw' =>
    rw [text_append, text_append, text_plain, text_plain]
    exact .one hw (hR _ _ ht) hw'
  | cons hw ht hw' _ ih =>
    rw [text_append, text_append, text_append, text_plain, text_plain, text_char]
    exact .cons hw (hR _ _ ht) hw' ih

theorem MarkedBody.text (hR : ∀ t a, R t a → T (MarkedText.text t) a)
    (h : MarkedBody R b as) : BodyText T (MarkedText.text b) as := by
  cases h with
  | empty hw =>
    rw [text_plain]
    exact .empty hw
  | items hi => exact .items (hi.text hR)

theorem MarkedItems.rewrite {f : List Char → List Char} {P : α → α → Prop}
    (hR : ∀ t a, R t a → ∃ a', R' (MarkedText.rewrite f t) a' ∧ P a a')
    (h : MarkedItems R b as) :
    ∃ as', MarkedItems R' (MarkedText.rewrite f b) as' ∧ List.Forall₂ P as as' := by
  induction h with
  | one hw ht hw' =>
    obtain ⟨a', ha, hp⟩ := hR _ _ ht
    rw [rewrite_append, rewrite_append, rewrite_plain, rewrite_plain]
    exact ⟨[a'], .one hw ha hw', .cons hp .nil⟩
  | cons hw ht hw' _ ih =>
    obtain ⟨a', ha, hp⟩ := hR _ _ ht
    obtain ⟨as', has, hps⟩ := ih
    rw [rewrite_append, rewrite_append, rewrite_append, rewrite_plain, rewrite_plain]
    exact ⟨a' :: as', .cons hw ha hw' has, .cons hp hps⟩

theorem MarkedBody.rewrite {f : List Char → List Char} {P : α → α → Prop}
    (hR : ∀ t a, R t a → ∃ a', R' (MarkedText.rewrite f t) a' ∧ P a a')
    (h : MarkedBody R b as) :
    ∃ as', MarkedBody R' (MarkedText.rewrite f b) as' ∧ List.Forall₂ P as as' := by
  cases h with
  | empty hw =>
    rw [rewrite_plain]
    exact ⟨[], .empty hw, .nil⟩
  | items hi =>
    obtain ⟨as', has, hp⟩ := hi.rewrite hR
    exact ⟨as', .items has, hp⟩

theorem MarkedItems.marks {V : α → List Value} {P : List Char → Value → Prop}
    (hR : ∀ t a, R t a → List.Forall₂ P (MarkedText.marks t) (V a)) (h : MarkedItems R b as) :
    List.Forall₂ P (MarkedText.marks b) (as.flatMap V) := by
  induction h with
  | one hw ht hw' =>
    rw [marks_append, marks_append, marks_plain, marks_plain, List.append_nil,
      List.flatMap_singleton]
    exact hR _ _ ht
  | cons hw ht hw' _ ih =>
    rw [marks_append, marks_append, marks_append, marks_plain, marks_plain, List.append_nil,
      List.flatMap_cons]
    exact List.rel_append (hR _ _ ht) ih

theorem MarkedBody.marks {V : α → List Value} {P : List Char → Value → Prop}
    (hR : ∀ t a, R t a → List.Forall₂ P (MarkedText.marks t) (V a)) (h : MarkedBody R b as) :
    List.Forall₂ P (MarkedText.marks b) (as.flatMap V) := by
  cases h with
  | empty hw =>
    rw [marks_plain]
    exact .nil
  | items hi => exact hi.marks hR

end

/-- The entries of an object, rewritten value by value. -/
theorem MarkedBody.entries {R R' : String → MarkedText → Value → Prop} {f : List Char → List Char}
    {P : String → Value → Value → Prop}
    (hR : ∀ k t v, R k t v → ∃ v', R' k (MarkedText.rewrite f t) v' ∧ P k v v')
    (h : MarkedBody (MarkedEntry R) b es) :
    ∃ es', MarkedBody (MarkedEntry R') (MarkedText.rewrite f b) es' ∧
      List.Forall₂ (fun e e' => e'.1 = e.1 ∧ P e.1 e.2 e'.2) es es' := by
  apply h.rewrite
  intro t e he
  obtain ⟨hkey, hfree, hw, hw', ht⟩ := he
  obtain ⟨v', hv, hp⟩ := hR _ _ _ ht
  rw [rewrite_append, rewrite_plain]
  exact ⟨_, .mk hkey hfree hw hw' hv, rfl, hp⟩

theorem rewrite_braces (f : List Char → List Char) (b : MarkedText) :
    rewrite f (.char '{' :: b ++ [.char '}']) = .char '{' :: rewrite f b ++ [.char '}'] := by
  rw [rewrite_append]
  rfl

theorem text_braces (b : MarkedText) :
    text (.char '{' :: b ++ [.char '}']) = '{' :: text b ++ ['}'] := by
  rw [text_append]
  rfl

theorem keys_forall₂ {P : String × α → String × β → Prop} {es : List (String × α)}
    {es' : List (String × β)}
    (h : List.Forall₂ (fun e e' => e'.1 = e.1 ∧ P e e') es es') (p : String → Bool) :
    Fields.keys (es'.filter fun e => p e.1) = Fields.keys (es.filter fun e => p e.1) := by
  induction h with
  | nil => rfl
  | @cons e e' es es' he _ ih =>
    rw [List.filter_cons, List.filter_cons, he.1]
    split
    · rw [Fields.keys, Fields.keys, List.map_cons, List.map_cons, he.1]
      exact congrArg (e.1 :: ·) ih
    · exact ih

section
variable {codec : FloatCodec} {leaf leaf' : Nat → List Char → Value → Prop}

/-- With the marked parts in place of the marks, the text is that of the value. -/
theorem Along.tok {f : List Char → List Char} (h : Along codec leaf path d t v)
    (hleaf : ∀ e m v, leaf e m v → Tok (valueHandlers codec) e (f m) v) :
    Tok (valueHandlers codec) d (text (rewrite f t)) v := by
  induction path generalizing d t v with
  | nil =>
    obtain ⟨m, rfl, hm⟩ := h
    have htext : text (rewrite f [.mark m]) = f m := List.append_nil (f m)
    rw [htext]
    exact hleaf d m v hm
  | cons p ps ih =>
    obtain ⟨s, rfl, hs, -⟩ | ⟨e, b, es, rfl, hb, rfl, rfl, -⟩ := h
    · rw [rewrite_plain, text_plain]
      exact hs
    · rw [rewrite_braces, text_braces]
      refine .inr (.inr ⟨_, es, ?_, rfl, rfl⟩)
      have hentry : ∀ k t v, Stepped codec p e (Along codec leaf ps e) k t v →
          ∃ v', Tok (valueHandlers codec) e (text (MarkedText.rewrite f t)) v' ∧ v = v' := by
        intro k t v ht
        rw [Stepped] at ht
        split at ht
        · exact ⟨v, ih ht, rfl⟩
        · obtain ⟨s, rfl, hs⟩ := ht
          rw [rewrite_plain, text_plain]
          exact ⟨v, hs, rfl⟩
      have hentries : ∃ es', MarkedBody (MarkedEntry fun _ t v => Tok (valueHandlers codec) e
          (text t) v) (MarkedText.rewrite f b) es' ∧
          List.Forall₂ (fun e e' => e'.1 = e.1 ∧ e.2 = e'.2) es es' :=
        hb.entries (P := fun _ v v' => v = v') hentry
      obtain ⟨es', hb', hes⟩ := hentries
      have hsame : es' = es := by
        clear hb hb'
        induction hes with
        | nil => rfl
        | cons he _ ih => rw [ih, Prod.ext he.1 he.2.symm]
      rw [hsame] at hb'
      apply hb'.text
      intro t e' he
      obtain ⟨hkey, hfree, hw, hw', ht⟩ := he
      rw [text_append, text_plain]
      exact .mk hkey hfree hw hw' ht

/-- A rewriting of the marked parts that changes their values changes those alone. -/
theorem Along.rewrite {f : List Char → List Char} {g : Value → Value}
    (h : Along codec leaf path d t v)
    (hleaf : ∀ e m v, leaf e m v → ∃ v', leaf' e (f m) v' ∧ Same v' (g v)) :
    ∃ v', Along codec leaf' path d (MarkedText.rewrite f t) v' ∧ Same v' (mapAlong g path v) := by
  induction path generalizing d t v with
  | nil =>
    obtain ⟨m, rfl, hm⟩ := h
    obtain ⟨v', hv, hsame⟩ := hleaf d m v hm
    exact ⟨v', ⟨f m, rfl, hv⟩, hsame⟩
  | cons p ps ih =>
    obtain ⟨s, rfl, hs, hv⟩ | ⟨e, b, es, rfl, hb, rfl, rfl, hkeys⟩ := h
    · refine ⟨v, .inl ⟨s, rewrite_plain f s, hs, hv⟩, ?_⟩
      cases v with
      | object m => cases hv
      | _ => exact Same.refl _
    · let G := fun k v => if p.takes k then mapAlong g ps v else v
      have hentry : ∀ k t v, Stepped codec p e (Along codec leaf ps e) k t v →
          ∃ v', Stepped codec p e (Along codec leaf' ps e) k (MarkedText.rewrite f t) v' ∧
            Same v' (G k v) := by
        intro k t v ht
        simp only [Stepped, G] at ht ⊢
        split at ht
        · next hp =>
          simp only [if_pos hp]
          exact ih ht
        · next hp =>
          obtain ⟨s, rfl, hs⟩ := ht
          simp only [if_neg hp]
          exact ⟨v, ⟨s, rewrite_plain f s, hs⟩, Same.refl v⟩
      have hentries : ∃ es', MarkedBody (MarkedEntry (Stepped codec p e (Along codec leaf' ps e)))
          (MarkedText.rewrite f b) es' ∧
          List.Forall₂ (fun e e' => e'.1 = e.1 ∧ Same e'.2 (G e.1 e.2)) es es' :=
        hb.entries (P := fun k v v' => Same v' (G k v)) hentry
      obtain ⟨es', hb', hes⟩ := hentries
      refine ⟨_, .inr ⟨e, _, es', rfl, hb', rewrite_braces f b, rfl, ?_⟩, ?_⟩
      · have hsame : Fields.keys (es'.filter fun e => p.takes e.1) =
            Fields.keys (es.filter fun e => p.takes e.1) := keys_forall₂ hes p.takes
        rw [hsame]
        exact hkeys
      · rw [mapAlong, Same.object_iff_rel]
        intro k
        have hrel : Option.Rel (fun v v' => Same v' (G k v))
            (Fields.get (Fields.insertAll [] es) k) (Fields.get (Fields.insertAll [] es') k) :=
          Fields.rel_insertAll (R := fun k v v' => Same v' (G k v)) (fun _ => .none) hes k
        rw [Fields.get_mapKeys G]
        generalize Fields.get (Fields.insertAll [] es) k = x at hrel
        generalize Fields.get (Fields.insertAll [] es') k = y at hrel
        cases hrel with
        | none => exact .none
        | some hsame => exact .some hsame

/-- The marked parts are the texts of the values that the path leads to. -/
theorem Along.marks (h : Along codec leaf path d t v) :
    List.Forall₂ (fun m v => ∃ e, leaf e m v) (marks t) (valuesAlong path v) := by
  induction path generalizing d t v with
  | nil =>
    obtain ⟨m, rfl, hm⟩ := h
    exact .cons ⟨d, hm⟩ .nil
  | cons p ps ih =>
    obtain ⟨s, rfl, hs, hv⟩ | ⟨e, b, es, rfl, hb, rfl, rfl, hkeys⟩ := h
    · rw [marks_plain]
      cases v with
      | object m => cases hv
      | _ => exact .nil
    · let V := fun e : String × Value => if p.takes e.1 then valuesAlong ps e.2 else []
      have hbody := hb.marks (V := V) (P := fun m v => ∃ e, leaf e m v) (by
        intro t e' he
        obtain ⟨hkey, hfree, hw, hw', ht⟩ := he
        rw [marks_append, marks_plain, List.nil_append]
        dsimp only [V]
        rw [Stepped] at ht
        split at ht
        · next hp =>
          rw [if_pos hp]
          exact ih ht
        · next hp =>
          obtain ⟨s, rfl, hs⟩ := ht
          rw [if_neg hp, marks_plain]
          exact .nil)
      have hfilter : ∀ m : List (String × Value),
          m.flatMap V = (m.filter fun e => p.takes e.1).flatMap V := by
        intro m
        induction m with
        | nil => rfl
        | cons e m ih =>
          rw [List.flatMap_cons, List.filter_cons, ih]
          split
          · rfl
          · next hp =>
            dsimp only [V]
            rw [if_neg hp, List.nil_append]
      have hvalues : valuesAlong (p :: ps) (.object (Fields.insertAll [] es)) = es.flatMap V := by
        change (Fields.insertAll [] es).flatMap V = _
        rw [hfilter, hfilter es, Fields.filter_insertAll_nodup hkeys]
      have hmarks : MarkedText.marks (.char '{' :: b ++ [.char '}']) = MarkedText.marks b := by
        rw [marks_append]
        exact List.append_nil _
      rw [hvalues, hmarks]
      exact hbody

end

end Json
