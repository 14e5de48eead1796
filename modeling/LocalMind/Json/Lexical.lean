import LocalMind.Json.Text

namespace Json
set_option autoImplicit true

/-! Whitespace. -/

def AllWs (w : List Char) : Prop := ∀ c ∈ w, isWs c = true

theorem allWs_nil : AllWs [] := by
  intro c h
  cases h

theorem skipWs_append (h : AllWs w) (s : List Char) : skipWs (w ++ s) = skipWs s := by
  rw [skipWs, List.dropWhile_append_of_pos h]
  rfl

theorem skipWs_cons (h : isWs c = false) (s : List Char) : skipWs (c :: s) = c :: s :=
  List.dropWhile_cons_of_neg (by rw [h]; exact Bool.false_ne_true)

/-- What is skipped is whitespace. -/
theorem skipWs_spec (s : List Char) : ∃ w, AllWs w ∧ s = w ++ skipWs s := by
  refine ⟨s.takeWhile isWs, ?_, (List.takeWhile_append_dropWhile).symm⟩
  intro c h
  exact List.mem_takeWhile_imp h

/-! Strings. -/

/-- A text of plain characters and of backslashes with what they escape: no quote ends it. -/
inductive QuoteFree : List Char → Prop where
  | nil : QuoteFree []
  | plain : c ≠ '"' → c ≠ '\\' → isControl c = false → QuoteFree s → QuoteFree (c :: s)
  | escaped (c : Char) : QuoteFree s → QuoteFree ('\\' :: c :: s)

theorem QuoteFree.append (h : QuoteFree s) (ht : QuoteFree t) : QuoteFree (s ++ t) := by
  induction h with
  | nil => exact ht
  | plain h₁ h₂ h₃ _ ih => exact ih.plain h₁ h₂ h₃
  | escaped c _ ih => exact ih.escaped c

/-- An escape reader that looks at no more than it takes, and takes no quote by chance. -/
structure Local (esc : List Char → Option (Char × Nat)) : Prop where
  take : ∀ {t d n}, esc t = some (d, n) →
    n + 1 ≤ t.length ∧ ∀ r, esc (t.take (n + 1) ++ r) = some (d, n)
  free : ∀ {t d n}, esc t = some (d, n) → QuoteFree ('\\' :: t.take (n + 1))

/-- The text between the quotes of a string, and the characters it stands for. -/
def StrBody (esc : List Char → Option (Char × Nat)) (body x : List Char) : Prop :=
  ∀ r, stringFrom esc 0 (body ++ '"' :: r) = some (x, r)

variable {esc : List Char → Option (Char × Nat)}

theorem stringFrom_drop (n : Nat) (s : List Char) :
    stringFrom esc n s = stringFrom esc 0 (s.drop n) := by
  induction s generalizing n with
  | nil => cases n <;> rfl
  | cons c t ih =>
    cases n with
    | zero => rfl
    | succ n => exact ih n

theorem stringFrom_quote (t : List Char) : stringFrom esc 0 ('"' :: t) = some ([], t) := rfl

theorem stringFrom_backslash (t : List Char) :
    stringFrom esc 0 ('\\' :: t) =
      match esc t with
      | some (d, n) => (stringFrom esc 0 (t.drop (n + 1))).map fun r => (d :: r.1, r.2)
      | none => none := by
  rw [stringFrom, if_neg (by decide), if_pos rfl]
  cases esc t with
  | none => rfl
  | some r =>
    dsimp only
    rw [stringFrom_drop]

theorem stringFrom_plain (h₁ : c ≠ '"') (h₂ : c ≠ '\\') (h₃ : isControl c = false)
    (t : List Char) :
    stringFrom esc 0 (c :: t) = (stringFrom esc 0 t).map fun r => (c :: r.1, r.2) := by
  rw [stringFrom, if_neg h₁, if_neg h₂, if_neg (by rw [h₃]; exact Bool.false_ne_true)]

theorem strBody_nil : StrBody esc [] [] := fun _ => rfl

theorem StrBody.cons (h : StrBody esc body x) (h₁ : c ≠ '"') (h₂ : c ≠ '\\')
    (h₃ : isControl c = false) : StrBody esc (c :: body) (c :: x) := by
  intro r
  rw [List.cons_append, stringFrom_plain h₁ h₂ h₃, h r]
  rfl

theorem StrBody.escape (h : StrBody esc body x) (hl : e.length = n + 1)
    (he : ∀ r, esc (e ++ r) = some (d, n)) : StrBody esc ('\\' :: e ++ body) (d :: x) := by
  intro r
  rw [List.cons_append, List.cons_append, List.append_assoc, stringFrom_backslash, he]
  dsimp only
  rw [← hl, List.drop_left, h r]
  rfl

/-- A string that is read is its body and the closing quote. -/
theorem stringFrom_sound (hesc : Local esc) {s : List Char} (h : stringFrom esc 0 s = some (x, r)) :
    ∃ body, s = body ++ '"' :: r ∧ StrBody esc body x ∧ QuoteFree body := by
  generalize hn : s.length = n
  induction n using Nat.strong_induction_on generalizing s x with
  | _ n ih =>
    cases s with
    | nil => cases h
    | cons c t =>
      by_cases h₁ : c = '"'
      · subst h₁
        cases h
        exact ⟨[], rfl, strBody_nil, .nil⟩
      · by_cases h₂ : c = '\\'
        · subst h₂
          rw [stringFrom_backslash] at h
          cases he : esc t with
          | none => rw [he] at h; cases h
          | some q =>
            obtain ⟨d, k⟩ := q
            rw [he] at h
            obtain ⟨⟨y, r'⟩, hy, hq⟩ := Option.map_eq_some_iff.1 h
            cases hq
            obtain ⟨hl, hr⟩ := hesc.take he
            have hlt : (t.drop (k + 1)).length < n := by
              rw [← hn, List.length_drop, List.length_cons]
              omega
            obtain ⟨body, hb, hs, hf⟩ := ih _ hlt hy rfl
            have hlen : (t.take (k + 1)).length = k + 1 := by
              rw [List.length_take]
              omega
            refine ⟨'\\' :: t.take (k + 1) ++ body, ?_, hs.escape hlen hr,
              (hesc.free he).append hf⟩
            rw [List.cons_append, List.cons_append, List.append_assoc, ← hb,
              List.take_append_drop]
        · cases h₃ : isControl c with
          | true =>
            rw [stringFrom, if_neg h₁, if_neg h₂, if_pos h₃] at h
            cases h
          | false =>
            rw [stringFrom_plain h₁ h₂ h₃] at h
            obtain ⟨⟨y, r'⟩, hy, hq⟩ := Option.map_eq_some_iff.1 h
            cases hq
            obtain ⟨body, rfl, hs, hf⟩ :=
              ih t.length (by rw [← hn]; exact Nat.lt_succ_self _) hy rfl
            exact ⟨c :: body, rfl, hs.cons h₁ h₂ h₃, hf.plain h₁ h₂ h₃⟩

theorem hex4_take {t : List Char} (h : hex4 t = some n) :
    4 ≤ t.length ∧ ∀ r, hex4 (t.take 4 ++ r) = some n := by
  match t with
  | [] | [_] | [_, _] | [_, _, _] => cases h
  | a :: b :: c :: d :: t => exact ⟨by simp, fun r => h⟩

theorem hexVal_plain (h : (hexVal c).isSome = true) :
    c ≠ '"' ∧ c ≠ '\\' ∧ isControl c = false := by
  refine ⟨?_, ?_, ?_⟩
  · rintro rfl
    cases h
  · rintro rfl
    cases h
  · cases hc : isControl c with
    | false => rfl
    | true =>
      have hlt : c.toNat < 0x20 := of_decide_eq_true hc
      have hge : ∀ d : Char, 0x20 ≤ d.toNat → ¬ d ≤ c := fun d hd hle => by
        have : d.toNat ≤ c.toNat := hle
        omega
      rw [hexVal, if_neg fun h => hge '0' (by decide) h.1,
        if_neg fun h => hge 'a' (by decide) h.1, if_neg fun h => hge 'A' (by decide) h.1] at h
      cases h

theorem hex4_quoteFree {t : List Char} (h : hex4 t = some n) : QuoteFree (t.take 4) := by
  match t with
  | [] | [_] | [_, _] | [_, _, _] => cases h
  | a :: b :: c :: d :: t =>
    obtain ⟨_, ha, h⟩ := Option.bind_eq_some_iff.1 h
    obtain ⟨_, hb, h⟩ := Option.bind_eq_some_iff.1 h
    obtain ⟨_, hc, h⟩ := Option.bind_eq_some_iff.1 h
    obtain ⟨_, hd, -⟩ := Option.bind_eq_some_iff.1 h
    obtain ⟨a₁, a₂, a₃⟩ := hexVal_plain (Option.isSome_of_mem ha)
    obtain ⟨b₁, b₂, b₃⟩ := hexVal_plain (Option.isSome_of_mem hb)
    obtain ⟨c₁, c₂, c₃⟩ := hexVal_plain (Option.isSome_of_mem hc)
    obtain ⟨d₁, d₂, d₃⟩ := hexVal_plain (Option.isSome_of_mem hd)
    exact .plain a₁ a₂ a₃ (.plain b₁ b₂ b₃ (.plain c₁ c₂ c₃ (.plain d₁ d₂ d₃ .nil)))

theorem trailingSurrogate_cons (n : Nat) (t : List Char) :
    trailingSurrogate n ('\\' :: 'u' :: t) =
      match hex4 t with
      | none => none
      | some m =>
        if m < 0xDC00 ∨ 0xDFFF < m then none
        else some (Char.ofNat ((n - 0xD800) * 1024 + (m - 0xDC00) + 0x10000), 10) := rfl

theorem trailingSurrogate_eq_some {s : List Char} (h : trailingSurrogate n s = some (d, k)) :
    k = 10 ∧ ∃ t, s = '\\' :: 'u' :: t ∧ 4 ≤ t.length ∧ QuoteFree (t.take 4) ∧
      ∀ r, trailingSurrogate n ('\\' :: 'u' :: (t.take 4 ++ r)) = some (d, k) := by
  rw [trailingSurrogate.eq_def] at h
  split at h
  · next t =>
    cases hx : hex4 t with
    | none => rw [hx] at h; cases h
    | some m =>
      rw [hx] at h
      dsimp only at h
      obtain ⟨hl, hr⟩ := hex4_take hx
      split at h
      · cases h
      · next hm =>
        rw [Option.some.injEq, Prod.mk.injEq] at h
        obtain ⟨rfl, rfl⟩ := h
        refine ⟨rfl, t, rfl, hl, hex4_quoteFree hx, ?_⟩
        intro r
        rw [trailingSurrogate_cons, hr]
        exact if_neg hm
  · cases h

theorem unicodeEscape_take {t : List Char} (h : unicodeEscape t = some (d, n)) :
    n ≤ t.length ∧ QuoteFree (t.take n) ∧
      ∀ r, unicodeEscape (t.take n ++ r) = some (d, n) := by
  rw [unicodeEscape] at h
  cases hx : hex4 t with
  | none => rw [hx] at h; cases h
  | some m =>
    rw [hx] at h
    dsimp only at h
    obtain ⟨hl, hr⟩ := hex4_take hx
    split at h
    · cases h
    · next h₁ =>
      split at h
      · next h₂ =>
        cases h
        refine ⟨hl, hex4_quoteFree hx, ?_⟩
        intro r
        rw [unicodeEscape, hr]
        dsimp only
        rw [if_neg h₁, if_pos h₂]
      · next h₂ =>
        obtain ⟨rfl, u, hu, hl₂, hf₂, hr₂⟩ := trailingSurrogate_eq_some h
        have ht : t = t.take 4 ++ '\\' :: 'u' :: u := by
          rw [← hu, List.take_append_drop]
        have hl₄ : (t.take 4).length = 4 := by
          rw [List.length_take]
          omega
        have htake : t.take 10 = t.take 4 ++ '\\' :: 'u' :: u.take 4 := by
          conv_lhs => rw [ht]
          rw [List.take_append, hl₄, List.take_take]
          rfl
        refine ⟨?_, ?_, ?_⟩
        · have := congrArg List.length ht
          simp only [List.length_append, List.length_cons] at this
          omega
        · rw [htake]
          exact (hex4_quoteFree hx).append (hf₂.escaped 'u')
        · intro r
          have hd : (t.take 10 ++ r).drop 4 = '\\' :: 'u' :: (u.take 4 ++ r) := by
            rw [htake, List.append_assoc, List.drop_append_of_le_length (by omega),
              List.drop_of_length_le (by omega)]
            rfl
          have hx' : hex4 (t.take 10 ++ r) = some m := by
            rw [htake, List.append_assoc]
            exact hr _
          rw [unicodeEscape, hx']
          dsimp only
          rw [if_neg h₁, if_neg h₂, hd, hr₂]

/-- An escape reader is local when its `\u` escapes are. -/
theorem local_of_unicode {u : List Char → Option (Char × Nat)} (hnil : esc [] = none)
    (hu : ∀ t, esc ('u' :: t) = u t)
    (hs : ∀ c t, c ≠ 'u' → esc (c :: t) = (simpleEscape c).map fun d => (d, 0))
    (ht : ∀ t d n, u t = some (d, n) →
      n ≤ t.length ∧ QuoteFree (t.take n) ∧ ∀ r, u (t.take n ++ r) = some (d, n)) : Local esc where
  take := by
    intro t d n h
    match t with
    | [] =>
      rw [hnil] at h
      cases h
    | c :: t =>
      by_cases hc : c = 'u'
      · subst hc
        rw [hu] at h
        obtain ⟨hl, -, hr⟩ := ht t d n h
        refine ⟨Nat.succ_le_succ hl, ?_⟩
        intro r
        rw [List.take_succ_cons, List.cons_append, hu]
        exact hr r
      · rw [hs c t hc] at h
        obtain ⟨e, he, hq⟩ := Option.map_eq_some_iff.1 h
        cases hq
        refine ⟨Nat.succ_le_succ (Nat.zero_le _), ?_⟩
        intro r
        rw [List.take_succ_cons, List.cons_append, hs c _ hc, he]
        rfl
  free := by
    intro t d n h
    match t with
    | [] =>
      rw [hnil] at h
      cases h
    | c :: t =>
      rw [List.take_succ_cons]
      refine .escaped c ?_
      by_cases hc : c = 'u'
      · subst hc
        rw [hu] at h
        exact (ht t d n h).2.1
      · rw [hs c t hc] at h
        obtain ⟨e, he, hq⟩ := Option.map_eq_some_iff.1 h
        cases hq
        exact .nil

theorem local_escape : Local escape := by
  refine local_of_unicode (u := unicodeEscape) rfl (fun _ => rfl) ?_ fun _ _ _ => unicodeEscape_take
  intro c t hc
  rw [escape]
  exact hc

theorem local_ignoredEscape : Local ignoredEscape := by
  refine local_of_unicode (u := fun t => (hex4 t).map fun n => (Char.ofNat n, 4)) rfl
    (fun _ => rfl) ?_ ?_
  · intro c t hc
    rw [ignoredEscape]
    exact hc
  · intro t d n h
    obtain ⟨m, hm, hq⟩ := Option.map_eq_some_iff.1 h
    cases hq
    obtain ⟨hl, hr⟩ := hex4_take hm
    refine ⟨hl, hex4_quoteFree hm, ?_⟩
    intro r
    rw [hr]
    rfl

/-! Numbers. -/

/-- A text that does not go on with a character of `p`. -/
def Stops (p : Char → Bool) (r : List Char) : Prop := ∀ c t, r = c :: t → p c = false

def isNumChar (c : Char) : Bool :=
  Char.isDigit c || c == '.' || c == 'e' || c == 'E' || c == '+' || c == '-'

theorem Stops.mono {p q : Char → Bool} (h : Stops p r) (hpq : ∀ c, q c = true → p c = true) :
    Stops q r := by
  intro c t hr
  cases hq : q c with
  | false => rfl
  | true =>
    have := h c t hr
    rw [hpq c hq] at this
    cases this

theorem isNumChar_of_isDigit (h : Char.isDigit c = true) : isNumChar c = true := by
  simp [isNumChar, h]

theorem Stops.digit (h : Stops isNumChar r) : Stops Char.isDigit r :=
  h.mono fun _ => isNumChar_of_isDigit

theorem span_digits {ds : List Char} (hd : ∀ d ∈ ds, Char.isDigit d = true)
    (hr : Stops Char.isDigit r) :
    (ds ++ r).takeWhile Char.isDigit = ds ∧ (ds ++ r).dropWhile Char.isDigit = r := by
  rw [List.takeWhile_append_of_pos hd, List.dropWhile_append_of_pos hd]
  cases r with
  | nil => exact ⟨List.append_nil ds, rfl⟩
  | cons c t =>
    have hc : ¬ Char.isDigit c = true := by
      rw [hr c t rfl]
      exact Bool.false_ne_true
    rw [List.takeWhile_cons_of_neg hc, List.dropWhile_cons_of_neg hc]
    exact ⟨List.append_nil ds, rfl⟩

theorem stops_dropWhile (s : List Char) : Stops Char.isDigit (s.dropWhile Char.isDigit) := by
  intro c t h
  have := List.head?_dropWhile_not Char.isDigit s
  rw [h] at this
  simpa using this

theorem lexDigits_again {ds : List Char} (hne : ds ≠ []) (hd : ∀ d ∈ ds, Char.isDigit d = true)
    (mark : List Char) (hr : Stops Char.isDigit r) :
    lexDigits mark (ds ++ r) = some (mark ++ ds, r) := by
  obtain ⟨h₁, h₂⟩ := span_digits hd hr
  rw [lexDigits, h₁, h₂, if_neg]
  rwa [List.isEmpty_iff]

theorem lexDigits_sound {mark t : List Char} (h : lexDigits mark t = some (x, r)) :
    ∃ ds, ds ≠ [] ∧ (∀ d ∈ ds, Char.isDigit d = true) ∧ t = ds ++ r ∧ x = mark ++ ds := by
  rw [lexDigits] at h
  split at h
  · cases h
  · next hne =>
    cases h
    refine ⟨t.takeWhile Char.isDigit, ?_, ?_, (List.takeWhile_append_dropWhile).symm, rfl⟩
    · rwa [List.isEmpty_iff] at hne
    · intro d hd
      exact List.mem_takeWhile_imp hd

/-- What a part of a number is, and what it is read as again. -/
structure PartOk (lex : Reader (List Char)) (p : Char → Bool) (x : List Char) : Prop where
  chars : ∀ c ∈ x, isNumChar c = true
  again : ∀ r, Stops p r → lex (x ++ r) = some (x, r)

theorem stops_head {p : Char → Bool} (h : Stops p r) : r.head?.any p = false := by
  cases r with
  | nil => rfl
  | cons c t => exact h c t rfl

theorem lexInt_again_zero (h : Stops Char.isDigit r) : lexInt ('0' :: r) = some (['0'], r) := by
  rw [lexInt, if_pos rfl, stops_head h]
  rfl

theorem lexInt_again {ds : List Char} (hc : c ≠ '0') (hd : ∀ d ∈ c :: ds, Char.isDigit d = true)
    (h : Stops Char.isDigit r) : lexInt (c :: ds ++ r) = some (c :: ds, r) := by
  obtain ⟨h₁, h₂⟩ := span_digits hd h
  rw [List.cons_append] at h₁ h₂ ⊢
  rw [lexInt, if_neg hc, if_pos (hd c List.mem_cons_self), h₁, h₂]

theorem lexInt_sound {s : List Char} (h : lexInt s = some (x, r)) :
    s = x ++ r ∧ PartOk lexInt Char.isDigit x ∧ ∃ c ds, x = c :: ds ∧ Char.isDigit c = true := by
  cases s with
  | nil => cases h
  | cons c t =>
    rw [lexInt] at h
    by_cases hc : c = '0'
    · subst hc
      rw [if_pos rfl] at h
      split at h
      · cases h
      · cases h
        refine ⟨rfl, ⟨?_, fun r => lexInt_again_zero⟩, '0', [], rfl, rfl⟩
        intro c hc
        rw [List.mem_singleton.1 hc]
        rfl
    · rw [if_neg hc] at h
      split at h
      · next hd =>
        cases h
        have hds : ∀ d ∈ (c :: t).takeWhile Char.isDigit, Char.isDigit d = true :=
          fun d hd => List.mem_takeWhile_imp hd
        have hcons : (c :: t).takeWhile Char.isDigit = c :: t.takeWhile Char.isDigit :=
          List.takeWhile_cons_of_pos hd
        refine ⟨(List.takeWhile_append_dropWhile).symm, ⟨?_, ?_⟩, c, _, hcons, hd⟩
        · exact fun d hd => isNumChar_of_isDigit (hds d hd)
        · rw [hcons] at hds ⊢
          exact fun r => lexInt_again hc hds
      · cases h

theorem lexFrac_again_nil (h : Stops (· == '.') r) : lexFrac r = some ([], r) := by
  rw [lexFrac, if_neg]
  intro hr
  have := stops_head h
  rw [hr] at this
  cases this

theorem lexFrac_sound {s : List Char} (h : lexFrac s = some (x, r)) :
    s = x ++ r ∧ PartOk lexFrac (fun c => Char.isDigit c || c == '.') x ∧
      (x = [] ∨ ∃ ds, x = '.' :: ds) := by
  cases s with
  | nil =>
    cases h
    exact ⟨rfl, ⟨nofun, fun r hr => lexFrac_again_nil (hr.mono fun c hc => by simp [hc])⟩,
      .inl rfl⟩
  | cons c t =>
    by_cases hc : c = '.'
    · subst hc
      rw [lexFrac, List.head?_cons, if_pos rfl] at h
      obtain ⟨ds, hne, hd, hs, rfl⟩ := lexDigits_sound h
      refine ⟨congrArg ('.' :: ·) hs, ⟨?_, ?_⟩, .inr ⟨ds, rfl⟩⟩
      · intro c hc
        rcases List.mem_cons.1 hc with rfl | hc
        · rfl
        · exact isNumChar_of_isDigit (hd c hc)
      · intro r' hr
        rw [List.append_assoc, List.singleton_append, lexFrac, List.head?_cons, if_pos rfl]
        exact lexDigits_again hne hd ['.'] (hr.mono fun c hc => by simp [hc])
    · rw [lexFrac, if_neg (by simpa using hc)] at h
      cases h
      exact ⟨rfl, ⟨nofun, fun r hr => lexFrac_again_nil (hr.mono fun c hc => by simp [hc])⟩,
        .inl rfl⟩

theorem lexExp_again_nil (h : Stops isNumChar r) : lexExp r = some ([], r) := by
  cases r with
  | nil => rfl
  | cons c t =>
    rw [lexExp, if_neg]
    have hc := h c t rfl
    rintro (rfl | rfl) <;> cases hc

theorem lexSigned_sound {t : List Char} (h : lexSigned e t = some (x, r)) :
    ∃ sign ds, (sign = [] ∨ sign = ['+'] ∨ sign = ['-']) ∧ ds ≠ [] ∧
      (∀ d ∈ ds, Char.isDigit d = true) ∧ t = sign ++ ds ++ r ∧ x = e :: sign ++ ds := by
  have htail : ∀ c, t.head? = some c → t = c :: t.tail := by
    intro c hc
    cases t with
    | nil => cases hc
    | cons d t =>
      cases hc
      rfl
  rw [lexSigned] at h
  split at h
  · next hp =>
    obtain ⟨ds, hne, hd, hs, rfl⟩ := lexDigits_sound h
    exact ⟨['+'], ds, .inr (.inl rfl), hne, hd, (htail _ hp).trans (congrArg _ hs), rfl⟩
  · split at h
    · next hm =>
      obtain ⟨ds, hne, hd, hs, rfl⟩ := lexDigits_sound h
      exact ⟨['-'], ds, .inr (.inr rfl), hne, hd, (htail _ hm).trans (congrArg _ hs), rfl⟩
    · obtain ⟨ds, hne, hd, hs, rfl⟩ := lexDigits_sound h
      exact ⟨[], ds, .inl rfl, hne, hd, hs, rfl⟩

theorem lexSigned_again {sign ds : List Char} (hs : sign = [] ∨ sign = ['+'] ∨ sign = ['-'])
    (hne : ds ≠ []) (hd : ∀ d ∈ ds, Char.isDigit d = true) (hr : Stops Char.isDigit r) (e : Char) :
    lexSigned e (sign ++ ds ++ r) = some (e :: sign ++ ds, r) := by
  have hl := fun mark => lexDigits_again hne hd mark hr
  rcases hs with rfl | rfl | rfl
  · obtain ⟨b, bs, rfl⟩ := List.exists_cons_of_ne_nil hne
    have hb := hd b List.mem_cons_self
    rw [lexSigned, if_neg, if_neg]
    · exact hl [e]
    · rintro ⟨⟩
      cases hb
    · rintro ⟨⟩
      cases hb
  · rw [List.append_assoc, List.singleton_append, lexSigned, List.head?_cons, if_pos rfl]
    exact hl [e, '+']
  · rw [List.append_assoc, List.singleton_append, lexSigned, List.head?_cons, if_neg (by decide),
      if_pos rfl]
    exact hl [e, '-']

theorem lexExp_sound {s : List Char} (h : lexExp s = some (x, r)) :
    s = x ++ r ∧ PartOk lexExp isNumChar x ∧
      (x = [] ∨ ∃ c ds, x = c :: ds ∧ (c = 'e' ∨ c = 'E')) := by
  cases s with
  | nil =>
    cases h
    exact ⟨rfl, ⟨nofun, fun r => lexExp_again_nil⟩, .inl rfl⟩
  | cons c t =>
    rw [lexExp] at h
    by_cases hc : c = 'e' ∨ c = 'E'
    · rw [if_pos hc] at h
      obtain ⟨sign, ds, hsign, hne, hd, rfl, rfl⟩ := lexSigned_sound h
      refine ⟨by simp, ⟨?_, ?_⟩, .inr ⟨c, sign ++ ds, rfl, hc⟩⟩
      · have hcn : isNumChar c = true := by rcases hc with rfl | rfl <;> rfl
        have hsn : ∀ b ∈ sign, isNumChar b = true := by
          rcases hsign with rfl | rfl | rfl
          · exact nofun
          · exact List.forall_mem_singleton.2 rfl
          · exact List.forall_mem_singleton.2 rfl
        intro b hb
        rcases List.mem_append.1 hb with hb | hb
        · rcases List.mem_cons.1 hb with rfl | hb
          · exact hcn
          · exact hsn b hb
        · exact isNumChar_of_isDigit (hd b hb)
      · intro r' hr
        rw [List.cons_append, List.cons_append, lexExp, if_pos hc]
        exact lexSigned_again hsign hne hd hr.digit c
    · rw [if_neg hc] at h
      cases h
      exact ⟨rfl, ⟨nofun, fun r => lexExp_again_nil⟩, .inl rfl⟩

/-- A literal that a text reads as, when it does not go on. -/
structure NumText (l : NumLit) : Prop where
  head : ∃ c t, l.text = c :: t ∧ (c = '-' ∨ Char.isDigit c = true)
  chars : ∀ c ∈ l.text, isNumChar c = true
  again : ∀ r, Stops isNumChar r → lexNumber (l.text ++ r) = some (l, r)

theorem stops_append {p : Char → Bool} (hx : ∀ c ds, x = c :: ds → p c = false)
    (hr : Stops p r) : Stops p (x ++ r) := by
  intro c t h
  cases x with
  | nil => exact hr c t h
  | cons d ds =>
    cases h
    exact hx c ds rfl

theorem lexUnsigned_sound {s : List Char} (h : lexUnsigned neg s = some (l, r)) :
    ∃ i f e, l = ⟨neg, i, f, e⟩ ∧ s = i ++ f ++ e ++ r ∧
      (∀ c ∈ i ++ f ++ e, isNumChar c = true) ∧ (∃ c ds, i = c :: ds ∧ Char.isDigit c = true) ∧
      ∀ r', Stops isNumChar r' → lexUnsigned neg (i ++ f ++ e ++ r') = some (l, r') := by
  rw [lexUnsigned] at h
  obtain ⟨⟨i, s₁⟩, hi, h⟩ := Option.bind_eq_some_iff.1 h
  obtain ⟨⟨f, s₂⟩, hf, h⟩ := Option.bind_eq_some_iff.1 h
  obtain ⟨⟨e, s₃⟩, he, h⟩ := Option.bind_eq_some_iff.1 h
  cases h
  obtain ⟨rfl, pi, hhead⟩ := lexInt_sound hi
  obtain ⟨rfl, pf, hfhead⟩ := lexFrac_sound hf
  obtain ⟨rfl, pe, hehead⟩ := lexExp_sound he
  refine ⟨i, f, e, rfl, by simp, ?_, hhead, ?_⟩
  · intro c hc
    rcases List.mem_append.1 hc with hc | hc
    · rcases List.mem_append.1 hc with hc | hc
      · exact pi.chars c hc
      · exact pf.chars c hc
    · exact pe.chars c hc
  · intro r' hr
    have hfr : Stops (fun c => Char.isDigit c || c == '.') (e ++ r') := by
      refine stops_append ?_ (hr.mono ?_)
      · rintro c ds rfl
        obtain h | ⟨c', ds', h, hc⟩ := hehead
        · cases h
        · cases h
          rcases hc with rfl | rfl <;> rfl
      · intro c hc
        rw [Bool.or_eq_true, beq_iff_eq] at hc
        rcases hc with hc | rfl
        · exact isNumChar_of_isDigit hc
        · rfl
    have hir : Stops Char.isDigit (f ++ (e ++ r')) := by
      refine stops_append ?_ (hfr.mono fun c hc => by rw [hc]; rfl)
      rintro c ds rfl
      obtain h | ⟨ds', h⟩ := hfhead
      · cases h
      · cases h
        rfl
    rw [lexUnsigned, List.append_assoc, List.append_assoc, pi.again _ hir]
    change (lexFrac (f ++ (e ++ r')) >>= _) = _
    rw [pf.again _ hfr]
    change (lexExp (e ++ r') >>= _) = _
    rw [pe.again _ hr]
    rfl

/-- A number that is read is its literal. -/
theorem lexNumber_sound {s : List Char} (h : lexNumber s = some (l, r)) :
    s = l.text ++ r ∧ NumText l := by
  rw [lexNumber] at h
  split at h
  · next hm =>
    obtain ⟨i, f, e, rfl, hs, hc, -, ha⟩ := lexUnsigned_sound h
    have hs' : s = '-' :: s.tail := by
      cases s with
      | nil => cases hm
      | cons c t =>
        cases hm
        rfl
    refine ⟨?_, ⟨'-', i ++ f ++ e, by simp [NumLit.text], .inl rfl⟩, ?_, ?_⟩
    · rw [hs', hs]
      simp [NumLit.text]
    · intro b hb
      obtain rfl | hb : b = '-' ∨ b ∈ i ++ f ++ e := by simpa [NumLit.text] using hb
      · rfl
      · exact hc b hb
    · intro r' hr
      have htext : (⟨true, i, f, e⟩ : NumLit).text ++ r' = '-' :: (i ++ f ++ e ++ r') := by
        simp [NumLit.text]
      rw [htext, lexNumber, List.head?_cons, if_pos rfl]
      exact ha r' hr
  · next hm =>
    obtain ⟨i, f, e, rfl, rfl, hc, ⟨c, ds, rfl, hd⟩, ha⟩ := lexUnsigned_sound h
    refine ⟨by simp [NumLit.text], ⟨c, ds ++ f ++ e, by simp [NumLit.text], .inr hd⟩, ?_, ?_⟩
    · intro b hb
      exact hc b (by simpa [NumLit.text] using hb)
    · intro r' hr
      have := ha r' hr
      simp only [NumLit.text, Bool.false_eq_true, if_false, List.nil_append]
      rw [lexNumber, if_neg]
      · exact this
      · rintro ⟨⟩
        cases hd

end Json
