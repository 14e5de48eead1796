import LocalMind.Json.Grammar

namespace Json
set_option autoImplicit true

/-! Texts that differ in their line ends. -/

/-- The same text, less some carriage returns before line feeds. -/
inductive LineEnds : List Char → List Char → Prop where
  | nil : LineEnds [] []
  | keep (c : Char) : LineEnds x y → LineEnds (c :: x) (c :: y)
  | drop : LineEnds x y → LineEnds ('\r' :: '\n' :: x) ('\n' :: y)

theorem LineEnds.refl (x : List Char) : LineEnds x x := by
  induction x with
  | nil => exact .nil
  | cons c x ih => exact .keep c ih

theorem LineEnds.append (h : LineEnds x y) (h' : LineEnds x' y') :
    LineEnds (x ++ x') (y ++ y') := by
  induction h with
  | nil => exact h'
  | keep c _ ih => exact .keep c ih
  | drop _ ih => exact .drop ih

theorem LineEnds.eq (h : LineEnds x y) (hx : '\n' ∉ x) : y = x := by
  induction h with
  | nil => rfl
  | keep c _ ih => rw [ih fun hm => hx (List.mem_cons_of_mem c hm)]
  | drop _ _ => exact absurd (List.mem_cons_of_mem _ List.mem_cons_self) hx

theorem LineEnds.allWs (h : LineEnds w w') (hw : AllWs w) : AllWs w' := by
  induction h with
  | nil => exact hw
  | keep c _ ih =>
    intro d hd
    obtain rfl | hd := List.mem_cons.1 hd
    · exact hw d List.mem_cons_self
    · exact ih (fun e he => hw e (List.mem_cons_of_mem c he)) d hd
  | drop _ ih =>
    intro d hd
    obtain rfl | hd := List.mem_cons.1 hd
    · rfl
    · exact ih (fun e he => hw e (List.mem_cons_of_mem _ (List.mem_cons_of_mem _ he))) d hd

/-- No line end stands across the two parts. -/
def Apart (x z : List Char) : Prop := z.head? ≠ some '\n' ∨ x.getLast? ≠ some '\r'

theorem LineEnds.split {x z : List Char} (h : LineEnds (x ++ z) y) (hz : Apart x z) :
    ∃ x' z', y = x' ++ z' ∧ LineEnds x x' ∧ LineEnds z z' := by
  generalize hn : x.length = n
  induction n using Nat.strong_induction_on generalizing x y with
  | _ n ih =>
    cases x with
    | nil => exact ⟨[], y, rfl, .nil, h⟩
    | cons c x =>
      rw [List.length_cons] at hn
      rw [List.cons_append] at h
      generalize hxz : x ++ z = u at h
      cases h with
      | @keep _ y _ h =>
        rw [← hxz] at h
        have hz' : Apart x z := by
          refine hz.imp id ?_
          intro hlast hx
          cases x with
          | nil => cases hx
          | cons d x => exact hlast hx
        obtain ⟨x', z', rfl, hx, hz''⟩ := ih x.length (by omega) h hz' rfl
        exact ⟨c :: x', z', rfl, .keep c hx, hz''⟩
      | @drop u y h =>
        cases x with
        | nil =>
          rw [List.nil_append] at hxz
          rw [hxz] at hz
          obtain hz | hz := hz
          · exact absurd rfl hz
          · exact absurd rfl hz
        | cons d x =>
          obtain ⟨rfl, rfl⟩ := List.cons.inj hxz
          have hz' : Apart x z := by
            refine hz.imp id ?_
            intro hlast hx
            cases x with
            | nil => cases hx
            | cons d x => exact hlast hx
          rw [List.length_cons] at hn
          obtain ⟨x', z', rfl, hx, hz''⟩ := ih x.length (by omega) h hz' rfl
          exact ⟨'\n' :: x', z', rfl, .drop hx, hz''⟩

theorem LineEnds.after {x z : List Char} (h : LineEnds (x ++ z) y) (hx : '\n' ∉ x)
    (hz : Apart x z) : ∃ z', y = x ++ z' ∧ LineEnds z z' := by
  obtain ⟨x', z', rfl, hx', hz'⟩ := h.split hz
  rw [hx'.eq hx]
  exact ⟨z', rfl, hz'⟩

theorem apart_cons (h : c ≠ '\n') (x z : List Char) : Apart x (c :: z) :=
  .inl fun he => h (Option.some.inj he)

/-! The bodies of strings. -/

theorem hex4_printable {t : List Char} (h : hex4 t = some n) :
    ∀ c ∈ t.take 4, isControl c = false := by
  match t with
  | [] | [_] | [_, _] | [_, _, _] => cases h
  | a :: b :: c :: d :: t =>
    obtain ⟨_, ha, h⟩ := Option.bind_eq_some_iff.1 h
    obtain ⟨_, hb, h⟩ := Option.bind_eq_some_iff.1 h
    obtain ⟨_, hc, h⟩ := Option.bind_eq_some_iff.1 h
    obtain ⟨_, hd, -⟩ := Option.bind_eq_some_iff.1 h
    have ha' := (hexVal_plain (Option.isSome_of_mem ha)).2.2
    have hb' := (hexVal_plain (Option.isSome_of_mem hb)).2.2
    have hc' := (hexVal_plain (Option.isSome_of_mem hc)).2.2
    have hd' := (hexVal_plain (Option.isSome_of_mem hd)).2.2
    simp [ha', hb', hc', hd']

theorem unicodeEscape_printable (h : unicodeEscape t = some (d, n)) :
    ∀ c ∈ t.take n, isControl c = false := by
  rw [unicodeEscape] at h
  cases hx : hex4 t with
  | none =>
    rw [hx] at h
    cases h
  | some m =>
    rw [hx] at h
    dsimp only at h
    split at h
    · cases h
    · split at h
      · cases h
        exact hex4_printable hx
      · obtain ⟨rfl, u, hu, -, -, -⟩ := trailingSurrogate_eq_some h
        have htake : t.take 10 = t.take 4 ++ ['\\', 'u'] ++ u.take 4 := by
          have hsix : t.take (4 + 6) = t.take 4 ++ (t.drop 4).take 6 := List.take_add
          rw [hu] at hsix
          rw [List.append_assoc]
          exact hsix
        rw [hu, trailingSurrogate_cons] at h
        cases hy : hex4 u with
        | none =>
          rw [hy] at h
          cases h
        | some k =>
          intro c hc
          rw [htake] at hc
          obtain hc | hc := List.mem_append.1 hc
          · obtain hc | hc := List.mem_append.1 hc
            · exact hex4_printable hx c hc
            · obtain rfl | rfl : c = '\\' ∨ c = 'u' := by simpa using hc
              · rfl
              · rfl
          · exact hex4_printable hy c hc

theorem escape_printable (h : escape t = some (d, n)) :
    ∀ c ∈ t.take (n + 1), isControl c = false := by
  cases t with
  | nil => cases h
  | cons c t =>
    rw [List.take_succ_cons]
    intro b hb
    by_cases hc : c = 'u'
    · subst hc
      obtain rfl | hb := List.mem_cons.1 hb
      · rfl
      · exact unicodeEscape_printable h b hb
    · rw [escape] at h
      · obtain ⟨e, he, hq⟩ := Option.map_eq_some_iff.1 h
        cases hq
        rw [List.take_zero, List.mem_singleton] at hb
        rw [hb]
        cases hctl : isControl c with
        | false => rfl
        | true =>
          rw [simpleEscape.eq_def] at he
          split at he
          all_goals first | cases hctl | cases he
      · exact hc

theorem printable_of_stringFrom (h : stringFrom escape 0 s = some (x, r)) :
    ∃ body, s = body ++ '"' :: r ∧ ∀ c ∈ body, isControl c = false := by
  generalize hn : s.length = n
  induction n using Nat.strong_induction_on generalizing s x with
  | _ n ih =>
    cases s with
    | nil => cases h
    | cons c t =>
      rw [List.length_cons] at hn
      by_cases h₁ : c = '"'
      · subst h₁
        cases h
        exact ⟨[], rfl, List.forall_mem_nil _⟩
      · by_cases h₂ : c = '\\'
        · subst h₂
          rw [stringFrom_backslash] at h
          cases he : escape t with
          | none =>
            rw [he] at h
            cases h
          | some e =>
            obtain ⟨d, k⟩ := e
            rw [he] at h
            obtain ⟨⟨y, r'⟩, hy, hq⟩ := Option.map_eq_some_iff.1 h
            cases hq
            obtain ⟨body, hbody, hprint⟩ :=
              ih (t.drop (k + 1)).length (by rw [List.length_drop]; omega) hy rfl
            refine ⟨'\\' :: (t.take (k + 1) ++ body), ?_, ?_⟩
            · rw [List.cons_append, List.append_assoc, ← hbody, List.take_append_drop]
            · intro b hb
              obtain rfl | hb := List.mem_cons.1 hb
              · rfl
              · obtain hb | hb := List.mem_append.1 hb
                · exact escape_printable he b hb
                · exact hprint b hb
        · cases h₃ : isControl c with
          | true =>
            rw [stringFrom, if_neg h₁, if_neg h₂, if_pos h₃] at h
            cases h
          | false =>
            rw [stringFrom_plain h₁ h₂ h₃] at h
            obtain ⟨⟨y, r'⟩, hy, hq⟩ := Option.map_eq_some_iff.1 h
            cases hq
            obtain ⟨body, rfl, hprint⟩ := ih t.length (by omega) hy rfl
            refine ⟨c :: body, rfl, ?_⟩
            intro b hb
            obtain rfl | hb := List.mem_cons.1 hb
            · exact h₃
            · exact hprint b hb

/-- The text of a string has no line ends. -/
theorem StrBody.printable (h : StrBody Json.escape body x) : ∀ c ∈ body, isControl c = false := by
  obtain ⟨body', hbody, hprint⟩ := printable_of_stringFrom (h [])
  obtain rfl := List.append_cancel_right hbody
  exact hprint

/-! The texts of values. -/

theorem noLineEnd_of_leaf {h : Handlers α} (hesc : h.esc = escape) (ht : LeafText h t a) :
    '\n' ∉ t ∧ '\r' ∉ t := by
  have hcontrol : ∀ {s : List Char}, (∀ c ∈ s, isControl c = false) → '\n' ∉ s ∧ '\r' ∉ s := by
    intro s hs
    refine ⟨?_, ?_⟩
    · intro hmem
      cases hs _ hmem
    · intro hmem
      cases hs _ hmem
  cases ht with
  | null => decide
  | true => decide
  | false => decide
  | @str body x hs hf =>
    rw [hesc] at hs
    obtain ⟨hn, hr⟩ := hcontrol hs.printable
    refine ⟨?_, ?_⟩
    · simp [hn]
    · simp [hr]
  | num hl ha =>
    refine ⟨?_, ?_⟩
    · intro hmem
      cases hl.chars _ hmem
    · intro hmem
      cases hl.chars _ hmem

/-- A text that begins with no line feed and ends with no carriage return. -/
structure Trim (t : List Char) : Prop where
  ne_nil : t ≠ []
  head : t.head? ≠ some '\n'
  last : t.getLast? ≠ some '\r'

theorem Tok.trim {h : Handlers α} (hesc : h.esc = escape) (ht : Tok h d t a) : Trim t := by
  have hleaf : ∀ {t a}, LeafText h t a → Trim t := by
    intro t a ht
    obtain ⟨hn, hr⟩ := noLineEnd_of_leaf hesc ht
    obtain ⟨c, u, rfl, -⟩ := ht.start
    refine ⟨List.cons_ne_nil c u, ?_, ?_⟩
    · intro he
      exact hn (List.mem_of_head? he)
    · intro he
      exact hr (List.mem_of_getLast? he)
  cases d with
  | zero => exact hleaf ht
  | succ d =>
    obtain ht | ⟨b, as, -, rfl, -⟩ | ⟨b, es, -, rfl, -⟩ := ht
    · exact hleaf ht
    · refine ⟨List.cons_ne_nil _ _, by simp, ?_⟩
      rw [List.getLast?_concat]
      decide
    · refine ⟨List.cons_ne_nil _ _, by simp, ?_⟩
      rw [List.getLast?_concat]
      decide

theorem Trim.apart_left (h : Trim t) (w z : List Char) : Apart w (t ++ z) := by
  obtain ⟨c, u, rfl⟩ := List.exists_cons_of_ne_nil h.ne_nil
  exact .inl h.head

theorem LineEnds.cons (h : LineEnds (c :: x) y) (hc : c ≠ '\r') :
    ∃ x', y = c :: x' ∧ LineEnds x x' := by
  cases h with
  | keep _ h => exact ⟨_, rfl, h⟩
  | drop _ => exact absurd rfl hc

/-- An item between whitespace, and what follows it. -/
theorem LineEnds.item (h : LineEnds (w ++ t ++ z) y) (hw : AllWs w) (ht : Trim t) :
    ∃ w' t' z', y = w' ++ t' ++ z' ∧ AllWs w' ∧ LineEnds t t' ∧ LineEnds z z' := by
  rw [List.append_assoc] at h
  obtain ⟨w', u, rfl, hw', hu⟩ := h.split (ht.apart_left w z)
  obtain ⟨t', z', rfl, ht', hz⟩ := hu.split (.inr ht.last)
  exact ⟨w', t', z', (List.append_assoc w' t' z').symm, hw'.allWs hw, ht', hz⟩

section
variable {R : List Char → α → Prop}

theorem ItemsText.lineEnds (htrim : ∀ t a, R t a → Trim t)
    (hR : ∀ t t' a, R t a → LineEnds t t' → R t' a) (h : ItemsText R b as)
    (hb : LineEnds b b') : ItemsText R b' as := by
  induction h generalizing b' with
  | one hw ht hk =>
    obtain ⟨w', t', k', rfl, hw', ht', hk'⟩ := hb.item hw (htrim _ _ ht)
    exact .one hw' (hR _ _ _ ht ht') (hk'.allWs hk)
  | cons hw ht hk _ ih =>
    rw [List.append_assoc] at hb
    obtain ⟨w', t', z', rfl, hw', ht', hz⟩ := hb.item hw (htrim _ _ ht)
    obtain ⟨k', y, rfl, hk', hy⟩ := hz.split (apart_cons (by decide) _ _)
    obtain ⟨x, rfl, hx⟩ := hy.cons (by decide)
    rw [← List.append_assoc]
    exact .cons hw' (hR _ _ _ ht ht') (hk'.allWs hk) (ih hx)

theorem BodyText.lineEnds (htrim : ∀ t a, R t a → Trim t)
    (hR : ∀ t t' a, R t a → LineEnds t t' → R t' a) (h : BodyText R b as)
    (hb : LineEnds b b') : BodyText R b' as := by
  cases h with
  | empty hw => exact .empty (hb.allWs hw)
  | items hi => exact .items (hi.lineEnds htrim hR hb)

theorem EntryText.trim (htrim : ∀ t a, R t a → Trim t) (h : EntryText escape R t e) :
    Trim t := by
  cases h with
  | @mk key k w w' t v _ _ _ _ ht =>
    obtain ⟨hne, -, hlast⟩ := htrim _ _ ht
    refine ⟨List.cons_ne_nil _ _, ?_, ?_⟩
    · intro he
      cases he
    · rw [List.getLast?_append_of_ne_nil _ hne]
      exact hlast

theorem EntryText.lineEnds (htrim : ∀ t a, R t a → Trim t)
    (hR : ∀ t t' a, R t a → LineEnds t t' → R t' a) (h : EntryText escape R t e)
    (ht : LineEnds t t') : EntryText escape R t' e := by
  cases h with
  | @mk key k w w' u v hkey hfree hw hk hu =>
    have hplain : '\n' ∉ '"' :: key ++ ['"'] := by
      have hcontrol : '\n' ∉ key := fun hmem => by cases hkey.printable _ hmem
      simp [hcontrol]
    have happ : '"' :: key ++ '"' :: w ++ ':' :: w' ++ u =
        '"' :: key ++ ['"'] ++ (w ++ ':' :: (w' ++ u)) := by simp
    have hquote : Apart ('"' :: key ++ ['"']) (w ++ ':' :: (w' ++ u)) := by
      apply Or.inr
      rw [List.getLast?_concat]
      decide
    rw [happ] at ht
    obtain ⟨y, rfl, hy⟩ := ht.after hplain hquote
    obtain ⟨x, z, rfl, hx, hz⟩ := hy.split (apart_cons (by decide) _ _)
    obtain ⟨z', rfl, hz'⟩ := hz.cons (by decide)
    obtain ⟨x', u', rfl, hx', hu'⟩ := hz'.split (by
      have := (htrim _ _ hu).apart_left w' []
      rwa [List.append_nil] at this)
    have hentry : EntryText escape R _ (String.ofList k, v) :=
      .mk hkey hfree (hx.allWs hw) (hx'.allWs hk) (hR _ _ _ hu hu')
    simpa using hentry

end

theorem Tok.lineEnds {h : Handlers α} (hesc : h.esc = escape) (ht : Tok h d t a)
    (hends : LineEnds t t') : Tok h d t' a := by
  have hleaf : ∀ {t t' a}, LeafText h t a → LineEnds t t' → LeafText h t' a := by
    intro t t' a ht hends
    rw [hends.eq (noLineEnd_of_leaf hesc ht).1]
    exact ht
  induction d generalizing t t' a with
  | zero => exact hleaf ht hends
  | succ d ih =>
    have hvalue : ∀ t t' a, Tok h d t a → LineEnds t t' → Tok h d t' a := fun _ _ _ => ih
    have htrim : ∀ t a, Tok h d t a → Trim t := fun _ _ => Tok.trim hesc
    obtain ht | ⟨b, as, hb, rfl, rfl⟩ | ⟨b, es, hb, rfl, rfl⟩ := ht
    · exact .inl (hleaf ht hends)
    · obtain ⟨y, rfl, hy⟩ := hends.cons (by decide)
      obtain ⟨b', z, rfl, hb', hz⟩ := hy.split (apart_cons (by decide) _ _)
      rw [hz.eq (by decide)]
      exact .inr (.inl ⟨b', as, hb.lineEnds htrim hvalue hb', rfl, rfl⟩)
    · obtain ⟨y, rfl, hy⟩ := hends.cons (by decide)
      obtain ⟨b', z, rfl, hb', hz⟩ := hy.split (apart_cons (by decide) _ _)
      rw [hz.eq (by decide)]
      refine .inr (.inr ⟨b', es, ?_, rfl, rfl⟩)
      rw [hesc] at hb ⊢
      exact hb.lineEnds (fun _ _ he => he.trim htrim)
        (fun _ _ _ he hends => he.lineEnds htrim hvalue hends) hb'

/-- Line ends do not matter to what a text is read as. -/
theorem fromStr_lineEnds (h : fromStr codec s = some v) (hends : LineEnds s s') :
    fromStr codec s' = some v := by
  obtain ⟨w, tok, k, rfl, hw, hk, ht⟩ := fromStr_eq_some_iff.1 h
  obtain ⟨w', tok', k', rfl, hw', htok, hk'⟩ := hends.item hw (ht.trim rfl)
  exact fromStr_eq_some_iff.2 ⟨w', tok', k', rfl, hw', hk'.allWs hk, ht.lineEnds rfl htok⟩

end Json
