import LocalMind.Json.Grammar

namespace Json
set_option autoImplicit true

/-! Texts with the same tokens, and what may stand between these. -/

/-- Whitespace and closed comments. -/
inductive Trivia : List Char → Prop where
  | nil : Trivia []
  | space : isWs c = true → Trivia g → Trivia (c :: g)
  | line : '\n' ∉ s → Trivia g → Trivia ('/' :: '/' :: s ++ '\n' :: g)
  | block : ¬ ['*', '/'] <:+: s → Trivia g → Trivia ('/' :: '*' :: s ++ '*' :: '/' :: g)

/-- What may end a text: a line comment need not be closed there. -/
inductive Ending : List Char → Prop where
  | trivia : Trivia g → Ending g
  | line : Trivia g → '\n' ∉ s → Ending (g ++ '/' :: '/' :: s)

/-- How the gaps of two texts correspond, and what stands behind their last items. -/
structure Spacing where
  gap : List Char → List Char → Prop
  tail : List Char → List Char → Prop

/-- Whitespace against trivia, and a trailing comma. -/
def decorated : Spacing where
  gap w g := AllWs w ∧ Trivia g
  tail x y := x = [] ∧ (y = [] ∨ ∃ g, Trivia g ∧ y = ',' :: g)

/-- Whitespace against whitespace. -/
def respaced : Spacing where
  gap w w' := AllWs w ∧ AllWs w'
  tail x y := x = [] ∧ y = []

section
variable (sp : Spacing)

inductive PairedItems (R : List Char → List Char → α → Prop) :
    List Char → List Char → List α → Prop where
  | last : sp.gap w w' → R t t' a → sp.gap k k' → sp.tail x x' →
    PairedItems R (w ++ t ++ k ++ x) (w' ++ t' ++ k' ++ x') [a]
  | cons : sp.gap w w' → R t t' a → sp.gap k k' → PairedItems R b b' as →
    PairedItems R (w ++ t ++ k ++ ',' :: b) (w' ++ t' ++ k' ++ ',' :: b') (a :: as)

inductive PairedBody (R : List Char → List Char → α → Prop) :
    List Char → List Char → List α → Prop where
  | empty : sp.gap w w' → PairedBody R w w' []
  | items : PairedItems sp R b b' as → PairedBody R b b' as

inductive PairedEntry (esc : List Char → Option (Char × Nat))
    (R : List Char → List Char → α → Prop) : List Char → List Char → String × α → Prop where
  | mk : StrBody esc key x → QuoteFree key → sp.gap w w' → sp.gap k k' → R t t' v →
    PairedEntry esc R ('"' :: key ++ '"' :: w ++ ':' :: k ++ t)
      ('"' :: key ++ '"' :: w' ++ ':' :: k' ++ t') (String.ofList x, v)

/-- Two texts of one value with the same tokens. -/
def Paired (h : Handlers α) : Nat → List Char → List Char → α → Prop
  | 0, t, t', a => t = t' ∧ LeafText h t a
  | d + 1, t, t', a => t = t' ∧ LeafText h t a ∨
    (∃ b b' as, PairedBody sp (Paired h d) b b' as ∧ t = '[' :: b ++ [']'] ∧
      t' = '[' :: b' ++ [']'] ∧ a = h.arr as) ∨
    ∃ b b' es, PairedBody sp (PairedEntry sp h.esc (Paired h d)) b b' es ∧
      t = '{' :: b ++ ['}'] ∧ t' = '{' :: b' ++ ['}'] ∧ a = h.obj es

end

/-- Two texts of one value, the second with trivia between the tokens of the first. -/
def Decorated (codec : FloatCodec) (t t' : List Char) (v : Value) : Prop :=
  ∃ w tok k g tok' e, t = w ++ tok ++ k ∧ t' = g ++ tok' ++ e ∧ AllWs w ∧ AllWs k ∧ Trivia g ∧
    Ending e ∧ Paired decorated (valueHandlers codec) MAX_DEPTH tok tok' v

/-- Two texts of one value with the same tokens and only whitespace between them. -/
def Respaced (codec : FloatCodec) (t t' : List Char) (v : Value) : Prop :=
  ∃ w tok k w' tok' k', t = w ++ tok ++ k ∧ t' = w' ++ tok' ++ k' ∧ AllWs w ∧ AllWs k ∧
    AllWs w' ∧ AllWs k' ∧ Paired respaced (valueHandlers codec) MAX_DEPTH tok tok' v

theorem AllWs.append (h : AllWs w) (h' : AllWs w') : AllWs (w ++ w') := by
  intro c hc
  obtain hc | hc := List.mem_append.1 hc
  · exact h c hc
  · exact h' c hc

theorem allWs_singleton (h : isWs c = true) : AllWs [c] := by
  intro d hd
  rw [List.mem_singleton.1 hd]
  exact h

section Left
variable {sp : Spacing} {R : List Char → List Char → α → Prop} {S : List Char → α → Prop}

theorem PairedItems.left (hgap : ∀ w w', sp.gap w w' → AllWs w)
    (htail : ∀ x x', sp.tail x x' → x = []) (hR : ∀ t t' a, R t t' a → S t a)
    (h : PairedItems sp R b b' as) : ItemsText S b as := by
  induction h with
  | last hw ht hk hx =>
    rw [htail _ _ hx, List.append_nil]
    exact .one (hgap _ _ hw) (hR _ _ _ ht) (hgap _ _ hk)
  | cons hw ht hk _ ih => exact .cons (hgap _ _ hw) (hR _ _ _ ht) (hgap _ _ hk) ih

theorem PairedBody.left (hgap : ∀ w w', sp.gap w w' → AllWs w)
    (htail : ∀ x x', sp.tail x x' → x = []) (hR : ∀ t t' a, R t t' a → S t a)
    (h : PairedBody sp R b b' as) : BodyText S b as := by
  cases h with
  | empty hw => exact .empty (hgap _ _ hw)
  | items hi => exact .items (hi.left hgap htail hR)

theorem PairedEntry.left (hgap : ∀ w w', sp.gap w w' → AllWs w)
    (hR : ∀ t t' a, R t t' a → S t a) (h : PairedEntry sp esc R t t' e) : EntryText esc S t e := by
  cases h with
  | mk hkey hfree hw hk ht => exact .mk hkey hfree (hgap _ _ hw) (hgap _ _ hk) (hR _ _ _ ht)

theorem Paired.left {h : Handlers α} (hgap : ∀ w w', sp.gap w w' → AllWs w)
    (htail : ∀ x x', sp.tail x x' → x = []) (ht : Paired sp h d t t' a) : Tok h d t a := by
  induction d generalizing t t' a with
  | zero => exact ht.2
  | succ d ih =>
    obtain ⟨-, ht⟩ | ⟨b, b', as, hb, rfl, rfl, rfl⟩ | ⟨b, b', es, hb, rfl, rfl, rfl⟩ := ht
    · exact .inl ht
    · exact .inr (.inl ⟨b, as, hb.left hgap htail fun _ _ _ => ih, rfl, rfl⟩)
    · have hentries : BodyText (EntryText h.esc (Tok h d)) b es :=
        hb.left hgap htail fun _ _ _ he => he.left hgap fun _ _ _ hv => ih hv
      exact .inr (.inr ⟨b, es, hentries, rfl, rfl⟩)

end Left

/-- The same correspondence, seen from the second text. -/
def Spacing.swap (sp : Spacing) : Spacing := ⟨fun w w' => sp.gap w' w, fun x x' => sp.tail x' x⟩

section Swap
variable {sp : Spacing} {R S : List Char → List Char → α → Prop}

theorem PairedItems.swap (hR : ∀ t t' a, R t t' a → S t' t a) (h : PairedItems sp R b b' as) :
    PairedItems sp.swap S b' b as := by
  induction h with
  | last hw ht hk hx => exact .last hw (hR _ _ _ ht) hk hx
  | cons hw ht hk _ ih => exact .cons hw (hR _ _ _ ht) hk ih

theorem PairedBody.swap (hR : ∀ t t' a, R t t' a → S t' t a) (h : PairedBody sp R b b' as) :
    PairedBody sp.swap S b' b as := by
  cases h with
  | empty hw => exact .empty hw
  | items hi => exact .items (hi.swap hR)

theorem PairedEntry.swap (hR : ∀ t t' a, R t t' a → S t' t a) (h : PairedEntry sp esc R t t' e) :
    PairedEntry sp.swap esc S t' t e := by
  cases h with
  | mk hkey hfree hw hk ht => exact .mk hkey hfree hw hk (hR _ _ _ ht)

theorem Paired.swap {h : Handlers α} (ht : Paired sp h d t t' a) : Paired sp.swap h d t' t a := by
  induction d generalizing t t' a with
  | zero =>
    obtain ⟨rfl, ht⟩ := ht
    exact ⟨rfl, ht⟩
  | succ d ih =>
    obtain ⟨rfl, ht⟩ | ⟨b, b', as, hb, rfl, rfl, rfl⟩ | ⟨b, b', es, hb, rfl, rfl, rfl⟩ := ht
    · exact .inl ⟨rfl, ht⟩
    · exact .inr (.inl ⟨b', b, as, hb.swap fun _ _ _ => ih, rfl, rfl, rfl⟩)
    · have hentries : PairedBody sp.swap (PairedEntry sp.swap h.esc (Paired sp.swap h d)) b' b es :=
        hb.swap fun _ _ _ he => he.swap fun _ _ _ hv => ih hv
      exact .inr (.inr ⟨b', b, es, hentries, rfl, rfl, rfl⟩)

end Swap

theorem Decorated.fromStr (h : Decorated codec t t' v) : fromStr codec t = some v := by
  obtain ⟨w, tok, k, _, _, _, rfl, _, hw, hk, _, _, ht⟩ := h
  have htok := ht.left (fun w w' (h : decorated.gap w w') => h.1)
    fun x x' (h : decorated.tail x x') => h.1
  exact fromStr_eq_some_iff.2 ⟨w, tok, k, rfl, hw, hk, htok⟩

theorem Respaced.fromStr (h : Respaced codec t t' v) : Json.fromStr codec t' = some v := by
  obtain ⟨_, _, _, w, tok, k, _, rfl, _, _, hw, hk, ht⟩ := h
  have htok := ht.swap.left (fun w w' (h : respaced.gap w' w) => h.2)
    fun x x' (h : respaced.tail x' x) => h.2
  exact fromStr_eq_some_iff.2 ⟨w, tok, k, rfl, hw, hk, htok⟩

theorem AllWs.trivia (h : AllWs w) : Trivia w := by
  induction w with
  | nil => exact .nil
  | cons c w ih =>
    exact .space (h c List.mem_cons_self) (ih fun d hd => h d (List.mem_cons_of_mem c hd))

/-- Characters that stand for themselves in a string. -/
def Plain (s : List Char) : Prop := ∀ c ∈ s, c ≠ '"' ∧ c ≠ '\\' ∧ isControl c = false

instance (s : List Char) : Decidable (Plain s) := List.decidableBAll _ s

theorem Plain.quoteFree (h : Plain s) : QuoteFree s := by
  induction s with
  | nil => exact .nil
  | cons c s ih =>
    obtain ⟨h₁, h₂, h₃⟩ := h c List.mem_cons_self
    exact .plain h₁ h₂ h₃ (ih fun d hd => h d (List.mem_cons_of_mem c hd))

theorem Plain.strBody (h : Plain s) : StrBody esc s s := by
  induction s with
  | nil => exact strBody_nil
  | cons c s ih =>
    obtain ⟨h₁, h₂, h₃⟩ := h c List.mem_cons_self
    exact (ih fun d hd => h d (List.mem_cons_of_mem c hd)).cons h₁ h₂ h₃

section Self
variable {R : List Char → α → Prop} {S : List Char → List Char → α → Prop}

theorem ItemsText.paired (hR : ∀ t a, R t a → S t t a) (h : ItemsText R b as) :
    PairedItems decorated S b b as := by
  induction h with
  | @one w t a k hw ht hk =>
    have hitems : PairedItems decorated S (w ++ t ++ k ++ []) (w ++ t ++ k ++ []) [a] :=
      .last ⟨hw, hw.trivia⟩ (hR _ _ ht) ⟨hk, hk.trivia⟩ ⟨rfl, .inl rfl⟩
    rw [List.append_nil] at hitems
    exact hitems
  | cons hw ht hk _ ih => exact .cons ⟨hw, hw.trivia⟩ (hR _ _ ht) ⟨hk, hk.trivia⟩ ih

theorem BodyText.paired (hR : ∀ t a, R t a → S t t a) (h : BodyText R b as) :
    PairedBody decorated S b b as := by
  cases h with
  | empty hw => exact .empty ⟨hw, hw.trivia⟩
  | items hi => exact .items (hi.paired hR)

theorem EntryText.paired (hR : ∀ t a, R t a → S t t a) (h : EntryText esc R t e) :
    PairedEntry decorated esc S t t e := by
  cases h with
  | mk hkey hfree hw hk ht =>
    exact .mk hkey hfree ⟨hw, hw.trivia⟩ ⟨hk, hk.trivia⟩ (hR _ _ ht)

end Self

theorem Tok.paired {h : Handlers α} (ht : Tok h d t a) : Paired decorated h d t t a := by
  induction d generalizing t a with
  | zero => exact ⟨rfl, ht⟩
  | succ d ih =>
    obtain ht | ⟨b, as, hb, rfl, rfl⟩ | ⟨b, es, hb, rfl, rfl⟩ := ht
    · exact .inl ⟨rfl, ht⟩
    · exact .inr (.inl ⟨b, b, as, hb.paired fun _ _ hv => ih hv, rfl, rfl, rfl⟩)
    · have hentries : PairedBody decorated (PairedEntry decorated h.esc (Paired decorated h d))
          b b es := hb.paired fun _ _ he => he.paired fun _ _ hv => ih hv
      exact .inr (.inr ⟨b, b, es, hentries, rfl, rfl, rfl⟩)

/-- Every text is a decoration of itself. -/
theorem decorated_self (h : fromStr codec t = some v) : Decorated codec t t v := by
  obtain ⟨w, tok, k, rfl, hw, hk, ht⟩ := fromStr_eq_some_iff.1 h
  exact ⟨w, tok, k, w, tok, k, rfl, rfl, hw, hk, hw.trivia, .trivia hk.trivia, ht.paired⟩

end Json
