import LocalMind.Text.Str

namespace Text
set_option autoImplicit true

/-! Quoted parts of a text. -/

/-- A text that no quote closes: every quote in it is escaped. -/
inductive Unclosed : List Char → Prop where
  | nil : Unclosed []
  | plain : c ≠ '"' → c ≠ '\\' → Unclosed s → Unclosed (c :: s)
  | escaped : Unclosed s → Unclosed ('\\' :: c :: s)

/-- A text whose quotes are closed, with no stop outside them. -/
inductive Delimited (stop : Char → Bool) : List Char → Prop where
  | nil : Delimited stop []
  | plain : c ≠ '"' → stop c = false → Delimited stop s → Delimited stop (c :: s)
  | quoted : Unclosed q → Delimited stop s → Delimited stop ('"' :: (q ++ '"' :: s))

theorem Unclosed.append (h : Unclosed s) (ht : Unclosed t) : Unclosed (s ++ t) := by
  induction h with
  | nil => exact ht
  | plain h₁ h₂ _ ih => exact .plain h₁ h₂ ih
  | escaped _ ih => exact .escaped ih

theorem Delimited.append (h : Delimited stop s) (ht : Delimited stop t) :
    Delimited stop (s ++ t) := by
  induction h with
  | nil => exact ht
  | plain h₁ h₂ _ ih => exact .plain h₁ h₂ ih
  | @quoted q s hq _ ih =>
    rw [List.cons_append, List.append_assoc, List.cons_append]
    exact .quoted hq ih

theorem Delimited.all (h : ∀ c ∈ s, c ≠ '"' ∧ stop c = false) : Delimited stop s := by
  induction s with
  | nil => exact .nil
  | cons c s ih =>
    obtain ⟨h₁, h₂⟩ := h c List.mem_cons_self
    exact .plain h₁ h₂ (ih fun d hd => h d (List.mem_cons_of_mem c hd))

theorem Delimited.mono (h : Delimited stop s) (hstop : ∀ c, stop c = false → stop' c = false) :
    Delimited stop' s := by
  induction h with
  | nil => exact .nil
  | plain h₁ h₂ _ ih => exact .plain h₁ (hstop _ h₂) ih
  | quoted hq _ ih => exact .quoted hq ih

/-- The text before the first stop outside quotes, and the text after it. -/
def cutOutside (stop : Char) (inQuotes escaped : Bool) :
    List Char → Option (List Char × List Char)
  | [] => none
  | c :: t =>
    let keep := Option.map fun r : List Char × List Char => (c :: r.1, r.2)
    if escaped then keep (cutOutside stop inQuotes false t)
    else if c = '\\' ∧ inQuotes then keep (cutOutside stop inQuotes true t)
    else if c = '"' then keep (cutOutside stop (!inQuotes) false t)
    else if c = stop ∧ inQuotes = false then some ([], t)
    else keep (cutOutside stop inQuotes false t)

/-- The parts between the stops outside quotes, the first of which starts with `cur`. -/
def splitOutside (stop : Char) (inQuotes escaped : Bool) (cur : List Char) :
    List Char → List (List Char)
  | [] => [cur]
  | c :: t =>
    if escaped then splitOutside stop inQuotes false (cur ++ [c]) t
    else if c = '\\' ∧ inQuotes then splitOutside stop inQuotes true (cur ++ [c]) t
    else if c = '"' then splitOutside stop (!inQuotes) false (cur ++ [c]) t
    else if c = stop ∧ inQuotes = false then cur :: splitOutside stop false false [] t
    else splitOutside stop inQuotes false (cur ++ [c]) t

/-- The parts with a mark between them. -/
def joinWith (mark : Char) : List (List Char) → List Char
  | [] => []
  | [p] => p
  | p :: ps => p ++ mark :: joinWith mark ps

theorem joinWith_cons_append (mark : Char) (s p : List Char) (ps : List (List Char)) :
    joinWith mark ((s ++ p) :: ps) = s ++ joinWith mark (p :: ps) := by
  cases ps with
  | nil => rfl
  | cons q ps => exact List.append_assoc s p _

/-- Parts that no stop splits are not split together, where their mark is no stop. -/
theorem Delimited.joinWith (hquote : mark ≠ '"') (hstop : stop mark = false)
    (h : ∀ p ∈ ps, Delimited stop p) : Delimited stop (joinWith mark ps) := by
  induction ps with
  | nil => exact .nil
  | cons p ps ih =>
    have hp := h p List.mem_cons_self
    have hrest := ih fun q hq => h q (List.mem_cons_of_mem p hq)
    cases ps with
    | nil => exact hp
    | cons q ps => exact hp.append (.plain hquote hstop hrest)

/-- A text is the joining of the parts between its marks outside quotes. -/
theorem Delimited.pieces (mark : Char) (h : Delimited stop s) :
    ∃ p ps, s = Text.joinWith mark (p :: ps) ∧
      ∀ q ∈ p :: ps, Delimited (fun c => stop c || c == mark) q := by
  induction h with
  | nil => exact ⟨[], [], rfl, fun q hq => List.mem_singleton.1 hq ▸ .nil⟩
  | @plain c s h₁ h₂ _ ih =>
    obtain ⟨p, ps, rfl, hps⟩ := ih
    by_cases hc : c = mark
    · subst hc
      exact ⟨[], p :: ps, rfl, List.forall_mem_cons.2 ⟨.nil, hps⟩⟩
    · obtain ⟨hp, hrest⟩ := List.forall_mem_cons.1 hps
      have hcp : Delimited (fun c => stop c || c == mark) (c :: p) :=
        .plain h₁ (by simp [h₂, hc]) hp
      exact ⟨c :: p, ps, (joinWith_cons_append mark [c] p ps).symm,
        List.forall_mem_cons.2 ⟨hcp, hrest⟩⟩
  | @quoted q s hq _ ih =>
    obtain ⟨p, ps, rfl, hps⟩ := ih
    obtain ⟨hp, hrest⟩ := List.forall_mem_cons.1 hps
    refine ⟨'"' :: (q ++ '"' :: p), ps, ?_, List.forall_mem_cons.2 ⟨.quoted hq hp, hrest⟩⟩
    have := joinWith_cons_append mark ('"' :: (q ++ ['"'])) p ps
    simpa using this.symm

/-! Both scans pass over quoted text. -/

theorem splitOutside_unclosed (h : Unclosed q) (stop : Char) (cur t : List Char) :
    splitOutside stop true false cur (q ++ '"' :: t) =
      splitOutside stop false false (cur ++ q ++ ['"']) t := by
  induction h generalizing cur with
  | nil =>
    rw [List.nil_append, List.append_nil, splitOutside]
    rfl
  | @plain c s h₁ h₂ _ ih =>
    rw [List.cons_append, splitOutside, if_neg Bool.false_ne_true, if_neg fun h => h₂ h.1,
      if_neg h₁, if_neg fun h => Bool.noConfusion h.2, ih]
    simp
  | @escaped s c _ ih =>
    rw [List.cons_append, List.cons_append, splitOutside, if_neg Bool.false_ne_true,
      if_pos ⟨rfl, rfl⟩, splitOutside, if_pos rfl, ih]
    simp

theorem splitOutside_delimited (h : Delimited (· == stop) s) (cur t : List Char) :
    splitOutside stop false false cur (s ++ t) = splitOutside stop false false (cur ++ s) t := by
  induction h generalizing cur with
  | nil => rw [List.nil_append, List.append_nil]
  | @plain c s h₁ h₂ _ ih =>
    rw [List.cons_append, splitOutside, if_neg Bool.false_ne_true,
      if_neg fun h => Bool.noConfusion h.2, if_neg h₁, if_neg fun h => ne_of_beq_false h₂ h.1, ih]
    simp
  | @quoted q s hq _ ih =>
    rw [List.cons_append, splitOutside, if_neg Bool.false_ne_true,
      if_neg fun h => Bool.noConfusion h.2, if_pos rfl, List.append_assoc, List.cons_append]
    change splitOutside stop true false _ _ = _
    rw [splitOutside_unclosed hq, ih]
    simp

/-- Parts without a stop outside quotes come back from their joining. -/
theorem splitOutside_joinWith (hquote : stop ≠ '"') (hback : stop ≠ '\\') {p : List Char}
    {ps : List (List Char)} (h : ∀ q ∈ p :: ps, Delimited (· == stop) q) :
    splitOutside stop false false [] (joinWith stop (p :: ps)) = p :: ps := by
  induction ps generalizing p with
  | nil =>
    have hp := splitOutside_delimited (h p List.mem_cons_self) [] []
    rw [List.append_nil, List.nil_append] at hp
    rw [joinWith, hp, splitOutside]
  | cons q ps ih =>
    have hrest := ih fun r hr => h r (List.mem_cons_of_mem p hr)
    rw [joinWith, splitOutside_delimited (h p List.mem_cons_self), List.nil_append,
      splitOutside, if_neg Bool.false_ne_true, if_neg fun h => hback h.1, if_neg hquote,
      if_pos ⟨rfl, rfl⟩, hrest]
    exact List.cons_ne_nil q ps

theorem cutOutside_unclosed (h : Unclosed q) (stop : Char) (t : List Char) :
    cutOutside stop true false (q ++ '"' :: t) =
      (cutOutside stop false false t).map fun r => (q ++ '"' :: r.1, r.2) := by
  induction h with
  | nil => rfl
  | @plain c s h₁ h₂ _ ih =>
    rw [List.cons_append, cutOutside, if_neg Bool.false_ne_true, if_neg fun h => h₂ h.1,
      if_neg h₁, if_neg fun h => Bool.noConfusion h.2, ih, Option.map_map]
    rfl
  | @escaped s c _ ih =>
    rw [List.cons_append, List.cons_append, cutOutside, if_neg Bool.false_ne_true,
      if_pos ⟨rfl, rfl⟩, cutOutside, if_pos rfl, ih, Option.map_map, Option.map_map]
    rfl

theorem cutOutside_delimited (h : Delimited (· == stop) s) (hquote : stop ≠ '"')
    (hback : stop ≠ '\\') (t : List Char) :
    cutOutside stop false false (s ++ stop :: t) = some (s, t) := by
  induction h with
  | nil =>
    rw [List.nil_append, cutOutside, if_neg Bool.false_ne_true, if_neg fun h => hback h.1,
      if_neg hquote, if_pos ⟨rfl, rfl⟩]
  | @plain c s h₁ h₂ _ ih =>
    rw [List.cons_append, cutOutside, if_neg Bool.false_ne_true,
      if_neg fun h => Bool.noConfusion h.2, if_neg h₁, if_neg fun h => ne_of_beq_false h₂ h.1, ih]
    rfl
  | @quoted q s hq _ ih =>
    rw [List.cons_append, cutOutside, if_neg Bool.false_ne_true,
      if_neg fun h => Bool.noConfusion h.2, if_pos rfl, List.append_assoc, List.cons_append]
    change Option.map _ (cutOutside stop true false _) = _
    rw [cutOutside_unclosed hq, ih]
    rfl

/-- What is taken before a stop outside quotes: its quotes are closed, once an open one is. -/
structure TakenBefore (stop : Char) (inQuotes escaped : Bool) (x : List Char) : Prop where
  outside : inQuotes = false → escaped = false → Delimited (· == stop) x
  inside : inQuotes = true → ∃ q y, x = q ++ '"' :: y ∧ Delimited (· == stop) y ∧
    (escaped = false → Unclosed q) ∧ (escaped = true → Unclosed ('\\' :: q))

theorem TakenBefore.escaped (h : TakenBefore stop inQuotes false x) (c : Char) :
    TakenBefore stop inQuotes true (c :: x) := by
  refine ⟨fun _ h => Bool.noConfusion h, ?_⟩
  intro hin
  obtain ⟨q, y, rfl, hy, hq, -⟩ := h.inside hin
  exact ⟨c :: q, y, rfl, hy, fun h => Bool.noConfusion h, fun _ => .escaped (hq rfl)⟩

theorem TakenBefore.backslash (h : TakenBefore stop true true x) :
    TakenBefore stop true false ('\\' :: x) := by
  refine ⟨fun h => Bool.noConfusion h, ?_⟩
  intro hin
  obtain ⟨q, y, rfl, hy, -, hq⟩ := h.inside hin
  exact ⟨'\\' :: q, y, rfl, hy, fun _ => hq rfl, fun h => Bool.noConfusion h⟩

theorem TakenBefore.quote (h : TakenBefore stop (!inQuotes) false x) :
    TakenBefore stop inQuotes false ('"' :: x) := by
  cases inQuotes with
  | true =>
    refine ⟨fun h => Bool.noConfusion h, fun _ => ?_⟩
    exact ⟨[], x, rfl, h.outside rfl rfl, fun _ => .nil, fun h => Bool.noConfusion h⟩
  | false =>
    refine ⟨fun _ _ => ?_, fun h => Bool.noConfusion h⟩
    obtain ⟨q, y, rfl, hy, hq, -⟩ := h.inside rfl
    exact .quoted (hq rfl) hy

theorem TakenBefore.plain (h : TakenBefore stop inQuotes false x) (hquote : c ≠ '"')
    (hback : ¬ (c = '\\' ∧ inQuotes = true)) (hstop : ¬ (c = stop ∧ inQuotes = false)) :
    TakenBefore stop inQuotes false (c :: x) := by
  constructor
  case outside =>
    intro hin _
    exact .plain hquote (beq_false_of_ne fun hc => hstop ⟨hc, hin⟩) (h.outside hin rfl)
  case inside =>
    intro hin
    obtain ⟨q, y, rfl, hy, hq, -⟩ := h.inside hin
    exact ⟨c :: q, y, rfl, hy, fun _ => .plain hquote (fun hc => hback ⟨hc, hin⟩) (hq rfl),
      fun h => Bool.noConfusion h⟩

theorem cutOutside_sound (h : cutOutside stop inQuotes escaped s = some (x, r)) :
    s = x ++ stop :: r ∧ TakenBefore stop inQuotes escaped x := by
  induction s generalizing inQuotes escaped x with
  | nil => cases h
  | cons c t ih =>
    rw [cutOutside] at h
    split at h
    · next hesc =>
      obtain ⟨⟨y, r'⟩, hy, hq⟩ := Option.map_eq_some_iff.1 h
      cases hq
      obtain ⟨rfl, htaken⟩ := ih hy
      rw [hesc]
      exact ⟨rfl, htaken.escaped c⟩
    · next hesc =>
      obtain rfl := Bool.eq_false_of_not_eq_true hesc
      split at h
      · next hback =>
        obtain ⟨⟨y, r'⟩, hy, hq⟩ := Option.map_eq_some_iff.1 h
        cases hq
        obtain ⟨rfl, hin⟩ := hback
        obtain ⟨rfl, htaken⟩ := ih hy
        rw [hin] at htaken ⊢
        exact ⟨rfl, htaken.backslash⟩
      · next hback =>
        split at h
        · next hquote =>
          obtain ⟨⟨y, r'⟩, hy, hq⟩ := Option.map_eq_some_iff.1 h
          cases hq
          obtain ⟨rfl, htaken⟩ := ih hy
          rw [hquote]
          exact ⟨rfl, htaken.quote⟩
        · next hquote =>
          split at h
          · next hstop =>
            cases h
            rw [hstop.1, hstop.2]
            exact ⟨rfl, fun _ _ => .nil, fun h => Bool.noConfusion h⟩
          · next hstop =>
            obtain ⟨⟨y, r'⟩, hy, hq⟩ := Option.map_eq_some_iff.1 h
            cases hq
            obtain ⟨rfl, htaken⟩ := ih hy
            exact ⟨rfl, htaken.plain hquote hback hstop⟩

/-- The cut stops at the first stop outside quotes. -/
theorem cutOutside_iff (hquote : stop ≠ '"') (hback : stop ≠ '\\') :
    cutOutside stop false false s = some (x, r) ↔
      s = x ++ stop :: r ∧ Delimited (· == stop) x := by
  constructor
  · intro h
    obtain ⟨hs, htaken⟩ := cutOutside_sound h
    exact ⟨hs, htaken.outside rfl rfl⟩
  · rintro ⟨rfl, hx⟩
    exact cutOutside_delimited hx hquote hback r

end Text
