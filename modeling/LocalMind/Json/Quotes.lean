import LocalMind.Json.Lexical

namespace Json
set_option autoImplicit true

/-! Quotes and the backslashes before them. -/

/-- An odd number of backslashes ends the text. -/
def escapesNext (s : List Char) : Bool := s.foldl (fun b c => c == '\\' && !b) false

theorem escapesNext_append (hc : c ≠ '\\') (s t : List Char) :
    escapesNext (s ++ c :: t) = escapesNext t := by
  have hstep : (c == '\\') = false := beq_false_of_ne hc
  rw [escapesNext, List.foldl_append, List.foldl_cons, hstep, Bool.false_and, escapesNext]

theorem escapesNext_of_free (h : '\\' ∉ s) : escapesNext s = false := by
  induction s using List.reverseRecOn with
  | nil => rfl
  | append_singleton s c _ =>
    have hc : c ≠ '\\' := by
      rintro rfl
      exact h (List.mem_append_right s List.mem_cons_self)
    rw [escapesNext_append hc]
    rfl

/-- A quote in a string's text is escaped. -/
theorem QuoteFree.escapes (h : QuoteFree s) (hs : s = x ++ '"' :: y) : escapesNext x = true := by
  induction h generalizing x with
  | nil => cases x <;> cases hs
  | @plain c s h₁ h₂ _ _ ih =>
    cases x with
    | nil =>
      cases hs
      exact absurd rfl h₁
    | cons d x =>
      cases hs
      rw [← List.nil_append (c :: x), escapesNext_append h₂]
      exact ih rfl
  | @escaped s c _ ih =>
    match x with
    | [] => cases hs
    | [d] =>
      cases hs
      rfl
    | d :: e :: x =>
      cases hs
      have hstep : escapesNext ('\\' :: c :: x) = escapesNext x := by
        simp [escapesNext]
      rw [hstep]
      exact ih rfl

theorem AllWs.notMem (hw : AllWs w) (hc : isWs c = false) : c ∉ w := by
  intro hmem
  rw [hw c hmem] at hc
  cases hc

theorem first_quote (h : x ++ '"' :: a = y ++ '"' :: b) (hx : '"' ∉ x) (hy : '"' ∉ y) :
    x = y ∧ a = b := by
  induction x generalizing y with
  | nil =>
    cases y with
    | nil =>
      cases h
      exact ⟨rfl, rfl⟩
    | cons c y =>
      cases h
      exact absurd List.mem_cons_self hy
  | cons c x ih =>
    cases y with
    | nil =>
      cases h
      exact absurd List.mem_cons_self hx
    | cons d y =>
      obtain ⟨rfl, htail⟩ := List.cons.inj h
      obtain ⟨rfl, rfl⟩ := ih htail (fun hm => hx (List.mem_cons_of_mem c hm))
        (fun hm => hy (List.mem_cons_of_mem c hm))
      exact ⟨rfl, rfl⟩

theorem AllWs.nil_of_suffix (hw : AllWs w) (h : w <:+ s ++ [c]) (hc : isWs c = false) :
    w = [] := by
  obtain ⟨u, hu⟩ := h
  obtain rfl | ⟨t, d, rfl⟩ := List.eq_nil_or_concat' w
  · rfl
  · have hlast := congrArg List.getLast? hu
    rw [← List.append_assoc, List.getLast?_concat, List.getLast?_concat] at hlast
    cases hlast
    rw [hw c (List.mem_append_right t List.mem_cons_self)] at hc
    cases hc

/-- A text cut at its last quote. -/
theorem last_quote (h : a ++ '"' :: x = b ++ '"' :: y) (hx : '"' ∉ x) (hy : '"' ∉ y) :
    a = b ∧ x = y := by
  have hrev := congrArg List.reverse h
  simp only [List.reverse_append, List.reverse_cons, List.append_assoc, List.singleton_append]
    at hrev
  obtain ⟨hxy, hab⟩ := first_quote hrev (by simpa using hx) (by simpa using hy)
  exact ⟨List.reverse_inj.1 hab, List.reverse_inj.1 hxy⟩

theorem exists_last_quote (h : '"' ∈ s) : ∃ x y, s = x ++ '"' :: y ∧ '"' ∉ y := by
  obtain ⟨a, b, hrev, ha⟩ := List.eq_append_cons_of_mem (List.mem_reverse.2 h)
  refine ⟨b.reverse, a.reverse, ?_, by simpa using ha⟩
  rw [← List.reverse_reverse s, hrev]
  simp

theorem hex4_plain (h : hex4 t = some n) : '"' ∉ t.take 4 := by
  match t with
  | [] | [_] | [_, _] | [_, _, _] => cases h
  | a :: b :: c :: d :: t =>
    obtain ⟨_, ha, h⟩ := Option.bind_eq_some_iff.1 h
    obtain ⟨_, hb, h⟩ := Option.bind_eq_some_iff.1 h
    obtain ⟨_, hc, h⟩ := Option.bind_eq_some_iff.1 h
    obtain ⟨_, hd, -⟩ := Option.bind_eq_some_iff.1 h
    have ha' := (hexVal_plain (Option.isSome_of_mem ha)).1
    have hb' := (hexVal_plain (Option.isSome_of_mem hb)).1
    have hc' := (hexVal_plain (Option.isSome_of_mem hc)).1
    have hd' := (hexVal_plain (Option.isSome_of_mem hd)).1
    simp [ha'.symm, hb'.symm, hc'.symm, hd'.symm]

theorem unicodeEscape_plain (h : unicodeEscape t = some (d, n)) : '"' ∉ t.take n := by
  rw [unicodeEscape] at h
  cases hx : hex4 t with
  | none =>
    rw [hx] at h
    cases h
  | some m =>
    rw [hx] at h
    dsimp only at h
    split at h
    · cases h
    · split at h
      · cases h
        exact hex4_plain hx
      · obtain ⟨rfl, u, hu, -, -, -⟩ := trailingSurrogate_eq_some h
        have htake : t.take 10 = t.take 4 ++ '\\' :: 'u' :: u.take 4 := by
          have hsix : t.take (4 + 6) = t.take 4 ++ (t.drop 4).take 6 := List.take_add
          rw [hu] at hsix
          exact hsix
        rw [hu, trailingSurrogate_cons] at h
        cases hy : hex4 u with
        | none =>
          rw [hy] at h
          cases h
        | some k =>
          rw [htake]
          simp [hex4_plain hx, hex4_plain hy]

/-- An escape that takes a quote is the quote's. -/
theorem escape_count (h : escape t = some (d, n)) :
    (t.take (n + 1)).count '"' ≤ [d].count '"' := by
  cases t with
  | nil => cases h
  | cons c t =>
    rw [List.take_succ_cons]
    by_cases hc : c = 'u'
    · subst hc
      rw [List.count_cons_of_ne (by decide), List.count_eq_zero_of_not_mem (unicodeEscape_plain h)]
      exact Nat.zero_le _
    · rw [escape] at h
      · obtain ⟨e, he, hq⟩ := Option.map_eq_some_iff.1 h
        cases hq
        by_cases hquote : c = '"'
        · subst hquote
          cases he
          exact Nat.le_refl 1
        · rw [List.count_cons_of_ne hquote]
          exact Nat.zero_le _
      · exact hc

/-- A string has the quotes of its text, and is shorter than it by what its escapes take. -/
theorem counts_of_stringFrom (h : stringFrom escape 0 s = some (x, r)) :
    ∃ body, s = body ++ '"' :: r ∧ body.count '"' ≤ x.count '"' ∧ x.length ≤ body.length ∧
      (x.length = body.length → '\\' ∉ body) := by
  generalize hn : s.length = n
  induction n using Nat.strong_induction_on generalizing s x with
  | _ n ih =>
    cases s with
    | nil => cases h
    | cons c t =>
      rw [List.length_cons] at hn
      by_cases h₁ : c = '"'
      · subst h₁
        cases h
        exact ⟨[], rfl, Nat.le_refl 0, Nat.le_refl 0, fun _ => List.not_mem_nil⟩
      · by_cases h₂ : c = '\\'
        · subst h₂
          rw [stringFrom_backslash] at h
          cases he : escape t with
          | none =>
            rw [he] at h
            cases h
          | some e =>
            obtain ⟨d, k⟩ := e
            rw [he] at h
            obtain ⟨⟨y, r'⟩, hy, hq⟩ := Option.map_eq_some_iff.1 h
            cases hq
            obtain ⟨body, hbody, hcount, hlength, -⟩ :=
              ih (t.drop (k + 1)).length (by rw [List.length_drop]; omega) hy rfl
            have hescape := escape_count he
            refine ⟨'\\' :: (t.take (k + 1) ++ body), ?_, ?_, ?_, ?_⟩
            · rw [List.cons_append, List.append_assoc, ← hbody, List.take_append_drop]
            · rw [List.count_cons_of_ne (by decide), List.count_append, ← List.singleton_append,
                List.count_append]
              exact Nat.add_le_add hescape hcount
            · simp only [List.length_cons, List.length_append]
              omega
            · intro heq
              simp only [List.length_cons, List.length_append] at heq
              have hnone : (t.take (k + 1)).length = 0 := by omega
              have hnil : t = [] := by simpa using hnone
              rw [hnil] at he
              cases he
        · cases h₃ : isControl c with
          | true =>
            rw [stringFrom, if_neg h₁, if_neg h₂, if_pos h₃] at h
            cases h
          | false =>
            rw [stringFrom_plain h₁ h₂ h₃] at h
            obtain ⟨⟨y, r'⟩, hy, hq⟩ := Option.map_eq_some_iff.1 h
            cases hq
            obtain ⟨body, rfl, hcount, hlength, hplain⟩ := ih t.length (by omega) hy rfl
            refine ⟨c :: body, rfl, ?_, Nat.succ_le_succ hlength, ?_⟩
            · rw [List.count_cons_of_ne h₁, List.count_cons_of_ne h₁]
              exact hcount
            · intro heq
              have hback := hplain (Nat.succ.inj heq)
              exact List.not_mem_cons_of_ne_of_not_mem (Ne.symm h₂) hback

theorem StrBody.counts (h : StrBody Json.escape body x) :
    body.count '"' ≤ x.count '"' ∧ x.length ≤ body.length ∧
      (x.length = body.length → '\\' ∉ body) := by
  obtain ⟨body', hbody, hcounts⟩ := counts_of_stringFrom (h [])
  obtain rfl := List.append_cancel_right hbody
  exact hcounts

theorem StrBody.quote (h : StrBody Json.escape body x) (hm : '"' ∈ body) : '"' ∈ x :=
  List.count_pos_iff.1 (Nat.lt_of_lt_of_le (List.count_pos_iff.2 hm) h.counts.1)

/-- A text that stands between quotes for itself has no quote and no escape. -/
theorem StrBody.plain_of_self (h : StrBody Json.escape body x)
    (heq : body ++ '"' :: a = x ++ '"' :: b) : body = x ∧ '\\' ∉ x ∧ '"' ∉ x := by
  obtain ⟨hcount, hlength, hplain⟩ := h.counts
  have hbody : body = x := by
    obtain ⟨u, hu, -⟩ | ⟨u, hu, hb⟩ := List.append_eq_append_iff.1 heq
    · have hnil : u.length = 0 := by
        have := congrArg List.length hu
        rw [List.length_append] at this
        omega
      rw [hu, List.length_eq_zero_iff.1 hnil, List.append_nil]
    · cases u with
      | nil => rw [hu, List.append_nil]
      | cons c u =>
        obtain ⟨rfl, -⟩ := List.cons.inj hb
        rw [hu, List.count_append, List.count_cons_self] at hcount
        omega
  have hback : '\\' ∉ x := by
    rw [← hbody]
    exact hplain (by rw [hbody])
  refine ⟨hbody, hback, ?_⟩
  intro hquote
  obtain ⟨y, z, hx⟩ := List.append_of_mem hquote
  obtain ⟨body', hbody', -, hfree⟩ := stringFrom_sound local_escape (h [])
  obtain rfl := List.append_cancel_right hbody'
  have hescapes := hfree.escapes (hbody.trans hx)
  rw [escapesNext_of_free fun hm => hback (hx ▸ List.mem_append_left _ hm)] at hescapes
  cases hescapes

end Json
