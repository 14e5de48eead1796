import LocalMind.Atem.Channels

namespace LocalMind
open Text
set_option autoImplicit true

namespace Atem

/-! Whether a channel marker reaches the client. -/

def MARKERS : List (List Char) := [START, MESSAGE, EOM, EOT, EOD]

/-- No marker is left in what is extracted, and the tool parser takes the content as it is. -/
structure Clean (text : List Char) : Prop where
  reasoning : ∀ r, (extractReasoning text).1 = some r → ∀ u ∈ MARKERS, ¬ u <:+: r
  content : ∀ c, (extractReasoning text).2 = some c → ∀ u ∈ MARKERS, ¬ u <:+: c
  kept : ∀ c, (extractReasoning text).2 = some c → contentOf c = c

/-- No marker begins in one body of a channel and ends in a later one; and a text without a message
has no marker at all. -/
def Unseamed (text : List Char) : Prop :=
  (∀ u ∈ MARKERS, ¬ Straddles (channelsOf text).reasoning u ∧
    ¬ Straddles (channelsOf text).content u) ∧
  (contains text MESSAGE = false → ∀ u ∈ MARKERS, ¬ u <:+: text)

theorem contains_iff {s u : List Char} : contains s u = true ↔ u <:+: s := by
  rw [contains, List.any_eq_true]
  constructor
  · intro h
    obtain ⟨t, ht, hu⟩ := h
    exact (List.isPrefixOf_iff_prefix.1 hu).isInfix.trans ((List.mem_tails _ _).1 ht).isInfix
  · intro h
    obtain ⟨t, hu, ht⟩ := List.infix_iff_prefix_suffix.1 h
    exact ⟨t, (List.mem_tails _ _).2 ht, List.isPrefixOf_iff_prefix.2 hu⟩

theorem marker_shape (hu : u ∈ MARKERS) : ∃ t, u = '<' :: (t ++ ['>']) ∧ '=' ∉ u := by
  have h : ∀ u ∈ MARKERS, u = '<' :: (u.tail.dropLast ++ ['>']) ∧ '=' ∉ u := by decide
  exact ⟨_, h u hu⟩

theorem marker_ne_nil (hu : u ∈ MARKERS) : u ≠ [] := by
  obtain ⟨t, rfl, -⟩ := marker_shape hu
  exact List.cons_ne_nil _ _

/-! Bodies under their headers. -/

theorem headerRe_isSome (prev : Option Char) {s : List Char} (h : MESSAGE <+: s) :
    (headerRe prev s).isSome = true := by
  obtain ⟨t, rfl⟩ := h
  rfl

theorem cut_clean (hu : u ∈ MARKERS) (hb : ¬ MESSAGE <:+: b) :
    ¬ u <:+: cutBefore BODY_END b := by
  by_cases hm : u = MESSAGE
  · rw [hm]
    intro h
    exact hb (h.trans (cutBefore_isPrefix BODY_END b).isInfix)
  · have hend : ∀ u ∈ MARKERS, u ≠ MESSAGE → u ∈ BODY_END := by decide
    exact not_infix_cutBefore (hend u hu hm) (marker_ne_nil hu) b

theorem readBody_false (last : Bool) (b : List Char) :
    readBody false last b = cutBefore BODY_END b := by
  rw [readBody]
  split
  · rfl
  · next h => exact (cutBefore_of_not (Bool.eq_false_of_not_eq_true h)).symm

theorem readBodies_false (hs : List (Header × List Char)) :
    readBodies false hs = hs.map fun p => (p.1, cutBefore BODY_END p.2) := by
  induction hs with
  | nil => rfl
  | cons p hs ih =>
    cases hs with
    | nil => rw [readBodies, readBody_false]; rfl
    | cons q hs =>
      rw [readBodies, readBody_false, ih]
      · rfl
      · exact List.cons_ne_nil q hs

theorem mem_selfBodies (h : b ∈ selfBodies bodies) : ∃ p ∈ bodies, p.2 = b := by
  obtain ⟨p, hp, rfl⟩ := List.mem_map.1 h
  exact ⟨p, (List.mem_filter.1 hp).1, rfl⟩

theorem mem_otherBodies (h : b ∈ otherBodies bodies) : ∃ p ∈ bodies, p.2 = b := by
  obtain ⟨p, hp, rfl⟩ := List.mem_map.1 h
  exact ⟨p, (List.mem_filter.1 hp).1, rfl⟩

theorem mem_kept (h : b ∈ kept lead) : b = lead := by
  rw [kept] at h
  split at h
  · cases h
  · exact List.mem_singleton.1 h

/-- A body holds no marker. -/
theorem split_clean (text : List Char) (hu : u ∈ MARKERS) :
    (∀ p ∈ (splitChannels text false).reasoning, ¬ u <:+: p) ∧
      ∀ p ∈ (splitChannels text false).content, ¬ u <:+: p := by
  obtain ⟨hlead, hbodies⟩ := not_infix_pieces (marker_ne_nil (u := MESSAGE) (by decide))
    (fun prev t h => headerRe_isSome prev h) none 0 text
  have hread : ∀ p ∈ readBodies false (pieces headerRe none 0 text).2, ¬ u <:+: p.2 := by
    intro p hp
    rw [readBodies_false] at hp
    obtain ⟨q, hq, rfl⟩ := List.mem_map.1 hp
    exact cut_clean hu (hbodies q hq)
  rw [splitChannels]
  split
  · constructor
    · intro p hp
      cases hp
    · intro p hp
      cases hp
  · constructor
    · intro b hb
      obtain ⟨p, hp, rfl⟩ := mem_selfBodies hb
      exact hread p hp
    · intro b hb
      obtain hb | hb := List.mem_append.1 hb
      · rw [mem_kept hb]
        exact cut_clean hu hlead
      · obtain ⟨p, hp, rfl⟩ := mem_otherBodies hb
        exact hread p hp

/-! Text without a message. -/

/-- A text that no marker begins or ends in. -/
def Plain (t : List Char) : Prop := '<' ∉ t ∧ '>' ∉ t

theorem plain_of_all {p : Char → Bool} (hp : p '<' = false ∧ p '>' = false)
    (h : ∀ c ∈ t, p c = true) : Plain t := by
  constructor
  · intro hm
    have := h _ hm
    rw [hp.1] at this
    cases this
  · intro hm
    have := h _ hm
    rw [hp.2] at this
    cases this

theorem Plain.append (h : Plain s) (k : Plain t) : Plain (s ++ t) := by
  constructor
  · intro hm
    exact (List.mem_append.1 hm).elim h.1 k.1
  · intro hm
    exact (List.mem_append.1 hm).elim h.2 k.2

/-- The start of a marker is not in a plain text. -/
theorem starts_not_plain (hu : u ∈ MARKERS) (h : u = x ++ y) (hx : x ≠ []) (ht : Plain t)
    (hxt : x ⊆ t) : False := by
  obtain ⟨v, rfl, -⟩ := marker_shape hu
  cases x with
  | nil => exact hx rfl
  | cons c x =>
    obtain ⟨rfl, -⟩ := List.cons_eq_cons.1 h
    exact ht.1 (hxt List.mem_cons_self)

/-- The end of a marker is not in a plain text. -/
theorem ends_not_plain (hu : u ∈ MARKERS) (h : u = x ++ y) (hy : y ≠ []) (ht : Plain t)
    (hyt : y ⊆ t) : False := by
  obtain ⟨v, rfl, -⟩ := marker_shape hu
  obtain rfl | ⟨y, c, rfl⟩ := List.eq_nil_or_concat y
  · exact hy rfl
  · rw [List.concat_eq_append, ← List.append_assoc, ← List.cons_append] at h
    obtain ⟨-, hc⟩ := List.append_inj' h rfl
    rw [List.concat_eq_append] at hyt
    exact ht.2 (hyt (List.mem_append_right y (hc ▸ List.mem_cons_self)))

theorem infix_before (hu : u ∈ MARKERS) (ht : Plain t) (h : u <:+: a ++ t) : u <:+: a := by
  obtain h | h | ⟨x, y, rfl, -, hy, -, hyt⟩ := infix_append_iff.1 h
  · exact h
  · exact (starts_not_plain hu (List.append_nil u).symm (marker_ne_nil hu) ht h.subset).elim
  · exact (ends_not_plain hu rfl hy ht hyt.subset).elim

theorem infix_after (hu : u ∈ MARKERS) (ht : Plain t) (h : u <:+: t ++ b) : u <:+: b := by
  obtain h | h | ⟨x, y, rfl, hx, -, hxt, -⟩ := infix_append_iff.1 h
  · exact (starts_not_plain hu (List.append_nil u).symm (marker_ne_nil hu) ht h.subset).elim
  · exact h
  · exact (starts_not_plain hu rfl hx ht hxt.subset).elim

theorem infix_around (hu : u ∈ MARKERS) (ht : Plain t) (heq : '=' ∈ t)
    (h : u <:+: a ++ (t ++ b)) : u <:+: a ∨ u <:+: b := by
  obtain h | h | ⟨x, y, rfl, -, hy, -, hyt⟩ := infix_append_iff.1 h
  · exact .inl h
  · exact .inr (infix_after hu ht h)
  · obtain hshort | ⟨z, rfl⟩ := List.prefix_or_prefix_of_prefix hyt (List.prefix_append t b)
    · exact (ends_not_plain hu rfl hy ht hshort.subset).elim
    · obtain ⟨-, -, hno⟩ := marker_shape hu
      exact (hno (List.mem_append_right x (List.mem_append_left z heq))).elim

theorem takeWhile_plain {p : Char → Bool} (hp : p '<' = false ∧ p '>' = false) (s : List Char) :
    Plain (s.takeWhile p) := plain_of_all hp fun _ h => List.mem_takeWhile_imp h

theorem lenientRole_suffix (s : List Char) : ∃ r, s = r ++ lenientRole s ∧ Plain r := by
  rw [lenientRole]
  split
  · next h =>
    obtain ⟨t, rfl⟩ := List.isPrefixOf_iff_prefix.1 h
    rw [List.drop_left]
    refine ⟨ASSISTANT ++ t.takeWhile isBlank, ?_, ?_⟩
    · rw [List.append_assoc, blanks, List.takeWhile_append_dropWhile]
    · have ha : Plain ASSISTANT := ⟨by decide, by decide⟩
      exact ha.append (takeWhile_plain ⟨by decide, by decide⟩ t)
  · exact ⟨[], rfl, List.not_mem_nil, List.not_mem_nil⟩

theorem lenientRecipient_plain (h : lenientRecipient s = some who) : who <+: s ∧ Plain who := by
  rw [lenientRecipient] at h
  split at h
  · next hs =>
    cases h
    exact ⟨List.isPrefixOf_iff_prefix.1 hs, by decide, by decide⟩
  · split at h
    · next hs =>
      cases h
      exact ⟨List.isPrefixOf_iff_prefix.1 hs, by decide, by decide⟩
    · dsimp only at h
      split at h
      · cases h
        exact ⟨List.takeWhile_prefix _, takeWhile_plain ⟨by decide, by decide⟩ s⟩
      · cases h

theorem lenientHeader_text (h : lenientHeaderRe prev s = some (a, k)) :
    (0 < k ∧ a.text = s.take k) ∧ Plain a.text ∧ '=' ∈ a.text := by
  rw [lenientHeaderRe] at h
  split at h
  · dsimp only at h
    split at h
    · next hto =>
      obtain ⟨who, hwho, heq⟩ := Option.map_eq_some_iff.1 h
      cases heq
      obtain ⟨hpre, hplain⟩ := lenientRecipient_plain hwho
      obtain ⟨r, hr, hrplain⟩ := lenientRole_suffix s
      obtain ⟨t, ht⟩ := List.isPrefixOf_iff_prefix.1 hto
      rw [← ht, List.drop_left] at hpre
      obtain ⟨t, rfl⟩ := hpre
      have htext : s.take (s.length - (lenientRole s).length + (TO.length + who.length)) =
          r ++ (TO ++ who) := by
        have hs : s = (r ++ (TO ++ who)) ++ t := by
          rw [hr, ← ht]
          simp only [List.append_assoc]
        have hlen : s.length - (lenientRole s).length + (TO.length + who.length) =
            (r ++ (TO ++ who)).length := by
          have hl := congrArg List.length hr
          simp only [List.length_append] at hl ⊢
          omega
        rw [hlen, hs, List.take_left]
      refine ⟨⟨?_, rfl⟩, ?_⟩
      · change 0 < s.length - (lenientRole s).length + (3 + who.length)
        omega
      · change Plain (s.take _) ∧ '=' ∈ s.take _
        rw [htext]
        have hTO : Plain TO := ⟨by decide, by decide⟩
        refine ⟨hrplain.append (hTO.append hplain), ?_⟩
        apply List.mem_append_right
        apply List.mem_append_left
        decide
    · cases h
  · cases h

/-- A marker is in the text before the headers, or in one after a header. -/
theorem infix_pieces (hu : u ∈ MARKERS) (h : u <:+: text) :
    u <:+: (pieces lenientHeaderRe none 0 text).1 ∨
      ∃ p ∈ (pieces lenientHeaderRe none 0 text).2, u <:+: p.2 := by
  have htext := pieces_text Header.text
    (fun prev s a k (h : lenientHeaderRe prev s = _) => (lenientHeader_text h).1) none 0 text
  have hplain : ∀ p ∈ (pieces lenientHeaderRe none 0 text).2, Plain p.1.text ∧ '=' ∈ p.1.text := by
    intro p hp
    obtain ⟨prev, t, k, hm⟩ := exists_of_mem_pieces hp
    exact (lenientHeader_text hm).2
  rw [List.drop_zero] at htext
  rw [htext] at h
  generalize (pieces lenientHeaderRe none 0 text).1 = lead at h ⊢
  generalize (pieces lenientHeaderRe none 0 text).2 = hs at h hplain ⊢
  induction hs generalizing lead with
  | nil =>
    rw [List.flatMap_nil, List.append_nil] at h
    exact .inl h
  | cons p hs ih =>
    obtain ⟨hp, heq⟩ := hplain p List.mem_cons_self
    rw [List.flatMap_cons, List.append_assoc] at h
    obtain h | h := infix_around hu hp heq h
    · exact .inl h
    · obtain h | ⟨q, hq, h⟩ := ih p.2 h fun q hq => hplain q (List.mem_cons_of_mem p hq)
      · exact .inr ⟨p, List.mem_cons_self, h⟩
      · exact .inr ⟨q, List.mem_cons_of_mem p hq, h⟩

theorem rdropWhile_plain {p : Char → Bool} (hp : p '<' = false ∧ p '>' = false) (s : List Char) :
    ∃ t, s = s.rdropWhile p ++ t ∧ Plain t :=
  ⟨_, List.rdropWhile_append_rtakeWhile.symm,
    plain_of_all hp fun _ h => List.mem_rtakeWhile_imp h⟩

theorem dropTrailer_append (h : dropTrailer s = some b) : ∃ t, s = b ++ t ∧ Plain t := by
  rw [dropTrailer] at h
  split at h
  · next hs =>
    obtain ⟨w, hw⟩ := List.isSuffixOf_iff_suffix.1 hs
    obtain ⟨t, ht, htplain⟩ := rdropWhile_plain (p := isBlank) ⟨by decide, by decide⟩ s
    obtain ⟨v, hv, hvplain⟩ := rdropWhile_plain (p := isSpace) ⟨by decide, by decide⟩ w
    have ha : Plain ASSISTANT := ⟨by decide, by decide⟩
    rw [← hw, List.length_append, Nat.add_sub_cancel, List.take_left] at h
    cases h
    refine ⟨v ++ (ASSISTANT ++ t), ?_, hvplain.append (ha.append htplain)⟩
    rw [← List.append_assoc, ← hv, ← List.append_assoc, hw]
    exact ht
  · cases h

theorem infix_subLenientTrailer (hu : u ∈ MARKERS) (b : List Char) :
    u <:+: subLenientTrailer b ↔ u <:+: b := by
  have hdrop : ∀ s b, dropTrailer s = some b → (u <:+: b ↔ u <:+: s) := by
    intro s b h
    obtain ⟨t, rfl, ht⟩ := dropTrailer_append h
    exact ⟨fun h => h.trans (List.prefix_append b t).isInfix, infix_before hu ht⟩
  have hbreak : ∀ s, u <:+: s ++ ['\n'] ↔ u <:+: s := by
    intro s
    have hplain : Plain ['\n'] := ⟨by decide, by decide⟩
    exact ⟨infix_before hu hplain, fun h => h.trans (List.prefix_append s _).isInfix⟩
  rw [subLenientTrailer]
  split
  · next h => exact hdrop _ _ h
  · split
    · next hlast =>
      split
      · next h =>
        rw [hbreak, hdrop _ _ h, ← hbreak]
        rw [List.dropLast_append_getLast? _ hlast]
      · rfl
    · rfl

theorem mem_bodies (h : p ∈ bodies) : p.2 ∈ selfBodies bodies ∨ p.2 ∈ otherBodies bodies := by
  cases hself : p.1.isSelf with
  | true => exact .inl (List.mem_map_of_mem (List.mem_filter.2 ⟨h, hself⟩))
  | false =>
    right
    apply List.mem_map_of_mem (f := Prod.snd)
    rw [List.mem_filter, hself]
    exact ⟨h, rfl⟩

theorem kept_of_marker (hu : u ∈ MARKERS) (h : u <:+: lead) : kept lead = [lead] := by
  rw [kept, if_neg]
  intro hall
  have hplain : Plain lead := by
    apply plain_of_all (p := isSpace) ⟨by decide, by decide⟩
    rwa [List.all_eq_true] at hall
  exact starts_not_plain hu (List.append_nil u).symm (marker_ne_nil hu) hplain h.subset

/-- A text without a message keeps its markers, and gets no others in a body. -/
theorem lenient_clean (hu : u ∈ MARKERS) (text : List Char) :
    (∀ p ∈ (splitChannelsLenient text).reasoning ++ (splitChannelsLenient text).content,
      ¬ u <:+: p) ↔ ¬ u <:+: text := by
  rw [splitChannelsLenient]
  split
  · constructor
    · intro h
      exact h text List.mem_cons_self
    · intro h p hp
      rw [List.mem_singleton.1 hp]
      exact h
  · constructor
    · intro h hin
      obtain hlead | ⟨p, hp, hbody⟩ := infix_pieces hu hin
      · apply h _ _ hlead
        apply List.mem_append_right
        rw [kept_of_marker hu hlead]
        exact List.mem_cons_self
      · apply h _ _ ((infix_subLenientTrailer hu p.2).2 hbody)
        have hmem : (p.1, subLenientTrailer p.2) ∈
            (pieces lenientHeaderRe none 0 text).2.map fun p => (p.1, subLenientTrailer p.2) :=
          List.mem_map_of_mem (f := fun p : Header × List Char => (p.1, subLenientTrailer p.2)) hp
        obtain hs | ho := mem_bodies hmem
        · exact List.mem_append_left _ hs
        · exact List.mem_append_right _ (List.mem_append_right _ ho)
    · intro h b hb hin
      have hbodies : ∀ p ∈ (pieces lenientHeaderRe none 0 text).2.map
          (fun p => (p.1, subLenientTrailer p.2)), ¬ u <:+: p.2 := by
        intro p hp hin
        obtain ⟨q, hq, rfl⟩ := List.mem_map.1 hp
        exact h (((infix_subLenientTrailer hu q.2).1 hin).trans (infix_of_mem_pieces hq))
      obtain hb | hb := List.mem_append.1 hb
      · obtain ⟨p, hp, rfl⟩ := mem_selfBodies hb
        exact hbodies p hp hin
      · obtain hb | hb := List.mem_append.1 hb
        · rw [mem_kept hb] at hin
          exact h (hin.trans (pieces_isPrefix lenientHeaderRe none 0 text).isInfix)
        · obtain ⟨p, hp, rfl⟩ := mem_otherBodies hb
          exact hbodies p hp hin

/-! What is extracted. -/

theorem orNone_free (hu : u ∈ MARKERS) (s : List Char) :
    (∀ r, orNone s = some r → ¬ u <:+: r) ↔ ¬ u <:+: s := by
  rw [orNone]
  split
  · next h =>
    rw [List.isEmpty_iff.1 h]
    constructor
    · intro _ hin
      exact marker_ne_nil hu (List.infix_nil.1 hin)
    · intro _ r hr
      cases hr
  · constructor
    · intro h
      exact h s rfl
    · intro h r hr
      cases hr
      exact h

theorem clean_iff : Clean text ↔ ∀ u ∈ MARKERS,
    ¬ u <:+: (channelsOf text).reasoning.flatten ∧ ¬ u <:+: (channelsOf text).content.flatten := by
  constructor
  · intro h u hu
    constructor
    · exact (orNone_free hu _).1 fun r hr => h.reasoning r hr u hu
    · exact (orNone_free hu _).1 fun r hr => h.content r hr u hu
  · intro h
    have hcontent : ∀ c, (extractReasoning text).2 = some c → ∀ u ∈ MARKERS, ¬ u <:+: c := by
      intro c hc u hu
      exact (orNone_free hu _).2 (h u hu).2 c hc
    refine ⟨?_, hcontent, ?_⟩
    · intro r hr u hu
      exact (orNone_free hu _).2 (h u hu).1 r hr
    · intro c hc
      rw [contentOf, if_neg]
      intro hm
      exact hcontent c hc MESSAGE (by decide) (contains_iff.1 hm)

/-- The markers stay away from the client where none is spread over several bodies, and none stands
in a text without a message. -/
theorem extractReasoning_clean_iff (text : List Char) : Clean text ↔ Unseamed text := by
  rw [clean_iff, Unseamed]
  have hflat : ∀ ps : List (List Char), ∀ u ∈ MARKERS,
      ¬ u <:+: ps.flatten ↔ (∀ p ∈ ps, ¬ u <:+: p) ∧ ¬ Straddles ps u := by
    intro ps u hu
    rw [infix_flatten_iff (marker_ne_nil hu)]
    push Not
    rfl
  cases hm : contains text MESSAGE with
  | true =>
    rw [and_iff_left fun h => by cases h]
    have hsplit : channelsOf text = splitChannels text false := by rw [channelsOf, hm]; rfl
    rw [hsplit]
    apply forall₂_congr
    intro u hu
    obtain ⟨hr, hc⟩ := split_clean text hu
    rw [hflat _ u hu, hflat _ u hu, and_iff_right hr, and_iff_right hc]
  | false =>
    have hsplit : channelsOf text = splitChannelsLenient text := by rw [channelsOf, hm]; rfl
    rw [hsplit]
    constructor
    · intro h
      constructor
      · intro u hu
        obtain ⟨hr, hc⟩ := h u hu
        exact ⟨((hflat _ u hu).1 hr).2, ((hflat _ u hu).1 hc).2⟩
      · intro _ u hu
        obtain ⟨hr, hc⟩ := h u hu
        apply (lenient_clean hu text).1
        rw [List.forall_mem_append]
        exact ⟨((hflat _ u hu).1 hr).1, ((hflat _ u hu).1 hc).1⟩
    · intro h u hu
      obtain ⟨hr, hc⟩ := h.1 u hu
      have hno := (lenient_clean hu text).2 (h.2 rfl u hu)
      rw [List.forall_mem_append] at hno
      exact ⟨(hflat _ u hu).2 ⟨hno.1, hr⟩, (hflat _ u hu).2 ⟨hno.2, hc⟩⟩

/-- Two bodies of the reasoning channel. -/
def twoHalves : List Char := "to=self<|message|><|st<|eom|> to=self<|message|>art|>".toList

/-- A turn that ended before it opened a message. -/
def endedEarly : List Char := "to=user<|eom|>".toList

/-- The two halves of a marker are put together, and a marker outside of messages is kept. -/
theorem extractReasoning_leaks : ¬ Clean twoHalves ∧ ¬ Clean endedEarly := by
  constructor
  · intro h
    have hclean := h.reasoning START (by decide) START (by decide)
    exact hclean List.infix_rfl
  · intro h
    have hclean := h.content EOM (by decide) EOM (by decide)
    exact hclean List.infix_rfl

end Atem

end LocalMind
