import LocalMind.Atem.Channels

namespace LocalMind
open Text
set_option autoImplicit true

namespace Atem

/-! What a routing header is. -/

/-- The part of a header that names the recipient. -/
inductive NamesRecipient : List Char → Option (List Char) → Prop
  | none : NamesRecipient [] none
  | some (hne : who ≠ []) (h : ∀ c ∈ who, isRecipient c = true) :
      NamesRecipient (TO ++ who) (some who)

/-- A header without its message marker: the text before the recipient, and the rest. -/
structure IsHeader (u : List Char) (who : Option (List Char)) : Prop where
  parts : ∃ st b₁ role b₂ named b₃, u = st ++ (b₁ ++ (role ++ (b₂ ++ (named ++ (b₃ ++ MESSAGE))))) ∧
    (st = [] ∨ st = START) ∧ (role = [] ∨ role = ASSISTANT) ∧ NamesRecipient named who ∧
    (∀ c ∈ b₁, isBlank c = true) ∧ (∀ c ∈ b₂, isBlank c = true) ∧ ∀ c ∈ b₃, isBlank c = true

theorem optional_suffix (word s : List Char) :
    ∃ w, s = w ++ optional word s ∧ (w = [] ∨ w = word) := by
  rw [optional]
  split
  · next h =>
    obtain ⟨t, rfl⟩ := List.isPrefixOf_iff_prefix.1 h
    rw [List.drop_left]
    exact ⟨word, rfl, .inr rfl⟩
  · exact ⟨[], rfl, .inl rfl⟩

theorem blanks_suffix (s : List Char) : ∃ b, s = b ++ blanks s ∧ ∀ c ∈ b, isBlank c = true :=
  ⟨_, List.takeWhile_append_dropWhile.symm, fun _ h => List.mem_takeWhile_imp h⟩

theorem recipientPart_suffix (s : List Char) :
    ∃ w, s = w ++ (recipientPart s).2 ∧ NamesRecipient w (recipientPart s).1 := by
  rw [recipientPart]
  split
  · next h =>
    obtain ⟨t, rfl⟩ := List.isPrefixOf_iff_prefix.1 h
    rw [List.drop_left]
    split
    · exact ⟨[], rfl, .none⟩
    · next hne =>
      refine ⟨TO ++ t.takeWhile isRecipient, ?_, .some hne fun _ h => List.mem_takeWhile_imp h⟩
      rw [List.append_assoc]
      exact congrArg _ List.takeWhile_append_dropWhile.symm
  · exact ⟨[], rfl, .none⟩

/-- What is matched is a header. -/
theorem headerRe_sound (h : headerRe prev s = some (a, k)) :
    ∃ r, s = a.text ++ r ∧ IsHeader a.text a.recipient ∧ k = a.text.length := by
  rw [headerRe] at h
  dsimp only at h
  split at h
  · next hmsg =>
    obtain ⟨st, hst, hstart⟩ := optional_suffix START s
    obtain ⟨b₁, hb₁, hblank₁⟩ := blanks_suffix (optional START s)
    obtain ⟨role, hrole, hassistant⟩ := optional_suffix ASSISTANT (blanks (optional START s))
    obtain ⟨b₂, hb₂, hblank₂⟩ := blanks_suffix (optional ASSISTANT (blanks (optional START s)))
    obtain ⟨named, hnamed, hwho⟩ :=
      recipientPart_suffix (blanks (optional ASSISTANT (blanks (optional START s))))
    generalize blanks (optional ASSISTANT (blanks (optional START s))) = s₂ at *
    obtain ⟨b₃, hb₃, hblank₃⟩ := blanks_suffix (recipientPart s₂).2
    obtain ⟨r, hr⟩ := List.isPrefixOf_iff_prefix.1 hmsg
    cases h
    have hs : s = (st ++ (b₁ ++ (role ++ (b₂ ++ (named ++ (b₃ ++ MESSAGE)))))) ++ r := by
      simp only [List.append_assoc, hr, ← hb₃, ← hnamed, ← hb₂, ← hrole, ← hb₁, ← hst]
    have hk : s.length - (blanks (recipientPart s₂).2).length + MESSAGE.length =
        (st ++ (b₁ ++ (role ++ (b₂ ++ (named ++ (b₃ ++ MESSAGE)))))).length := by
      have hl := congrArg List.length hs
      rw [← hr]
      simp only [List.length_append] at hl ⊢
      omega
    have htake : s.take (s.length - (blanks (recipientPart s₂).2).length + MESSAGE.length) =
        st ++ (b₁ ++ (role ++ (b₂ ++ (named ++ (b₃ ++ MESSAGE))))) := by
      rw [hk, hs, List.take_left]
    refine ⟨r, ?_, ⟨st, b₁, role, b₂, named, b₃, htake, hstart, hassistant, hwho, hblank₁,
      hblank₂, hblank₃⟩, ?_⟩
    · dsimp only
      rw [htake]
      exact hs
    · dsimp only
      rw [htake]
      exact hk
  · cases h

/-! Each part of a header is found again. -/

theorem isPrefixOf_blanks {w : List Char} (hw : w.head?.any (fun c => !isBlank c) = true)
    (hb : ∀ c ∈ b, isBlank c = true) (h : w.isPrefixOf s = false) :
    w.isPrefixOf (b ++ s) = false := by
  cases b with
  | nil => exact h
  | cons c b =>
    cases w with
    | nil => cases hw
    | cons d w =>
      have hc := hb c List.mem_cons_self
      have hne : (d == c) = false := by
        rw [beq_eq_false_iff_ne]
        rintro rfl
        rw [List.head?_cons, Option.any_some, hc] at hw
        cases hw
      rw [List.cons_append, List.isPrefixOf, hne, Bool.false_and]

theorem blanks_append (hb : ∀ c ∈ b, isBlank c = true) (s : List Char) :
    blanks (b ++ s) = blanks s := List.dropWhile_append_of_pos hb

theorem not_recipient_of_blank (h : isBlank c = true) : isRecipient c = false := by
  rw [isBlank, Bool.or_eq_true, decide_eq_true_eq, decide_eq_true_eq] at h
  obtain rfl | rfl := h <;> decide

/-- A text that starts with the message marker, after its blanks. -/
theorem named_parts (hn : NamesRecipient named who) (hb : ∀ c ∈ b, isBlank c = true)
    (r : List Char) :
    (recipientPart (blanks (named ++ (b ++ (MESSAGE ++ r))))).1 = who ∧
      blanks (recipientPart (blanks (named ++ (b ++ (MESSAGE ++ r))))).2 = MESSAGE ++ r ∧
      ASSISTANT.isPrefixOf (blanks (named ++ (b ++ (MESSAGE ++ r)))) = false ∧
      START.isPrefixOf (named ++ (b ++ (MESSAGE ++ r))) = false := by
  have hmsg : blanks (b ++ (MESSAGE ++ r)) = MESSAGE ++ r := by
    rw [blanks_append hb]
    rfl
  cases hn with
  | none =>
    rw [List.nil_append, hmsg]
    exact ⟨rfl, rfl, rfl, isPrefixOf_blanks (by decide) hb rfl⟩
  | some hne h =>
    have hstop : (b ++ (MESSAGE ++ r)).takeWhile isRecipient = [] ∧
        (b ++ (MESSAGE ++ r)).dropWhile isRecipient = b ++ (MESSAGE ++ r) := by
      cases b with
      | nil => exact ⟨rfl, rfl⟩
      | cons c b =>
        have hc := not_recipient_of_blank (hb c List.mem_cons_self)
        rw [List.cons_append, List.takeWhile_cons_of_neg (by rw [hc]; decide),
          List.dropWhile_cons_of_neg (by rw [hc]; decide)]
        exact ⟨rfl, rfl⟩
    rename_i who
    have hpart : recipientPart (TO ++ (who ++ (b ++ (MESSAGE ++ r)))) =
        (some who, b ++ (MESSAGE ++ r)) := by
      have hto : TO.isPrefixOf (TO ++ (who ++ (b ++ (MESSAGE ++ r)))) = true :=
        List.isPrefixOf_iff_prefix.2 (List.prefix_append _ _)
      rw [recipientPart, if_pos hto, List.drop_left, List.takeWhile_append_of_pos h,
        List.dropWhile_append_of_pos h, hstop.1, hstop.2, List.append_nil]
      split
      · exact absurd rfl hne
      · rfl
    have hblanks : blanks (TO ++ (who ++ (b ++ (MESSAGE ++ r)))) =
        TO ++ (who ++ (b ++ (MESSAGE ++ r))) := rfl
    rw [List.append_assoc, hblanks, hpart]
    exact ⟨rfl, hmsg, rfl, rfl⟩

theorem optional_word (word s : List Char) : optional word (word ++ s) = s := by
  rw [optional, if_pos (List.isPrefixOf_iff_prefix.2 (List.prefix_append word s)),
    List.drop_left]

theorem optional_none (h : word.isPrefixOf s = false) : optional word s = s := by
  rw [optional, h]
  rfl

/-- A header is matched, whatever comes after it. -/
theorem headerRe_complete (h : IsHeader u who) (prev : Option Char) (r : List Char) :
    headerRe prev (u ++ r) = some (⟨u, who⟩, u.length) := by
  obtain ⟨st, b₁, role, b₂, named, b₃, hu, hst, hrole, hn, hb₁, hb₂, hb₃⟩ := h.parts
  obtain ⟨hwho, hrest, hassistant, hstart⟩ := named_parts hn hb₃ r
  have hr : u ++ r = st ++ (b₁ ++ (role ++ (b₂ ++ (named ++ (b₃ ++ (MESSAGE ++ r)))))) := by
    rw [hu]
    simp only [List.append_assoc]
  generalize hy : named ++ (b₃ ++ (MESSAGE ++ r)) = y at hr hwho hrest hassistant hstart
  have hnoStart : START.isPrefixOf (b₁ ++ (role ++ (b₂ ++ y))) = false := by
    apply isPrefixOf_blanks (by decide) hb₁
    obtain rfl | rfl := hrole
    · rw [List.nil_append]
      exact isPrefixOf_blanks (by decide) hb₂ hstart
    · rfl
  have hskip : blanks (optional ASSISTANT (blanks (optional START (u ++ r)))) = blanks y := by
    have hfirst : optional START (u ++ r) = b₁ ++ (role ++ (b₂ ++ y)) := by
      rw [hr]
      obtain rfl | rfl := hst
      · exact optional_none hnoStart
      · exact optional_word _ _
    rw [hfirst, blanks_append hb₁]
    obtain rfl | rfl := hrole
    · rw [List.nil_append, blanks_append hb₂, optional_none hassistant]
      exact List.dropWhile_idempotent _ y
    · have hstays : blanks (ASSISTANT ++ (b₂ ++ y)) = ASSISTANT ++ (b₂ ++ y) := rfl
      rw [hstays, optional_word, blanks_append hb₂]
  have hk : (u ++ r).length - (MESSAGE ++ r).length + MESSAGE.length = u.length := by
    have hl := congrArg List.length hu
    simp only [List.length_append] at hl ⊢
    omega
  rw [headerRe]
  dsimp only
  rw [hskip, hrest, if_pos (List.isPrefixOf_iff_prefix.2 (List.prefix_append _ _)), hk,
    List.take_left, hwho]

/-- The message marker is at the end of a header only. -/
theorem IsHeader.marker_last (h : IsHeader u who) (ht : t <+: u) (hlt : t.length < u.length) :
    ¬ MESSAGE <:+: t := by
  obtain ⟨st, b₁, role, b₂, named, b₃, hu, hst, hrole, hn, hb₁, hb₂, hb₃⟩ := h.parts
  have hblank : ∀ b : List Char, (∀ c ∈ b, isBlank c = true) → '<' ∉ b := by
    intro b hb hm
    cases hb _ hm
  have hplain : '<' ∉ b₁ ++ (role ++ (b₂ ++ (named ++ b₃))) := by
    simp only [List.mem_append, not_or]
    refine ⟨hblank b₁ hb₁, ?_, hblank b₂ hb₂, ?_, hblank b₃ hb₃⟩
    · obtain rfl | rfl := hrole <;> decide
    · cases hn with
      | none => exact List.not_mem_nil
      | some hne hwho =>
        intro hm
        obtain hm | hm := List.mem_append.1 hm
        · exact absurd hm (by decide)
        · cases hwho _ hm
  intro hin
  obtain ⟨p, q, rfl⟩ := hin
  obtain ⟨z, hz⟩ := ht
  have hfront : u = (st ++ (b₁ ++ (role ++ (b₂ ++ (named ++ b₃))))) ++ MESSAGE := by
    rw [hu]
    simp only [List.append_assoc]
  generalize b₁ ++ (role ++ (b₂ ++ (named ++ b₃))) = plain at hplain hfront
  have hp : p ++ (MESSAGE ++ (q ++ z)) = (st ++ plain) ++ MESSAGE := by
    rw [← hfront, ← hz]
    simp only [List.append_assoc]
  have hlen : p.length < (st ++ plain).length := by
    have hl := congrArg List.length hfront
    simp only [List.length_append] at hlt hl ⊢
    omega
  -- the marker starts in the part before the last one
  obtain ⟨v, hv, hmsg⟩ | ⟨v, hv, -⟩ := List.append_eq_append_iff.1 hp
  · have hvne : v ≠ [] := by
      rintro rfl
      rw [hv, List.append_nil] at hlen
      exact Nat.lt_irrefl _ hlen
    obtain ⟨c, v, rfl⟩ := List.exists_cons_of_ne_nil hvne
    have hc : c = '<' := (List.cons_eq_cons.1 hmsg).1.symm
    subst hc
    obtain rfl | rfl := hst
    · rw [List.nil_append] at hv
      exact hplain (hv ▸ List.mem_append_right p List.mem_cons_self)
    · cases p with
      | nil =>
        rw [List.nil_append] at hv
        rw [← hv] at hmsg
        cases hmsg
      | cons d p =>
        have htail : '<' ∉ START.tail ++ plain := by
          intro hm
          obtain hm | hm := List.mem_append.1 hm
          · exact absurd hm (by decide)
          · exact hplain hm
        have hstart : START = '<' :: START.tail := by decide
        rw [hstart, List.cons_append, List.cons_append] at hv
        rw [(List.cons_eq_cons.1 hv).2] at htail
        exact htail (List.mem_append_right p List.mem_cons_self)
  · rw [hv, List.length_append] at hlen
    omega

theorem headerRe_stable : Stable Header.text headerRe where
  extend prev s a k x h := by
    obtain ⟨r, rfl, hu, rfl⟩ := headerRe_sound h
    rw [List.append_assoc]
    exact headerRe_complete hu prev (r ++ x)
  bound prev s a k h := by
    obtain ⟨r, rfl, hu, rfl⟩ := headerRe_sound h
    refine ⟨?_, ?_, List.take_left.symm⟩
    · obtain ⟨st, b₁, role, b₂, named, b₃, heq, -⟩ := hu.parts
      rw [heq]
      simp only [List.length_append]
      change 0 < _ + (_ + (_ + (_ + (_ + (_ + 11)))))
      omega
    · rw [List.length_append]
      exact Nat.le_add_right _ _
  restrict prev s a k h := by
    obtain ⟨r, rfl, hu, rfl⟩ := headerRe_sound h
    have hc := headerRe_complete hu prev []
    rw [List.append_nil] at hc
    rwa [List.take_left]
  inner prev s a k h t ht hlt prev' w hw := by
    obtain ⟨r, rfl, hu, rfl⟩ := headerRe_sound h
    by_contra hne
    obtain ⟨⟨b, j⟩, hb⟩ := Option.ne_none_iff_exists'.1 hne
    obtain ⟨r', rfl, hb, -⟩ := headerRe_sound hb
    have htu : t <+: a.text :=
      List.prefix_of_prefix_length_le ht (List.prefix_append _ r) (Nat.le_of_lt hlt)
    apply hu.marker_last htu hlt
    obtain ⟨st, b₁, role, b₂, named, b₃, heq, -⟩ := hb.parts
    have hmsg : MESSAGE <:+ b.text := by
      rw [heq]
      refine ⟨st ++ (b₁ ++ (role ++ (b₂ ++ (named ++ b₃)))), ?_⟩
      simp only [List.append_assoc]
    exact (hmsg.isInfix.trans (List.prefix_append _ r').isInfix).trans hw.isInfix

end Atem

end LocalMind
