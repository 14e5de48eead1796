import LocalMind.Atem.Headers
import LocalMind.Atem.HoldBack
import LocalMind.Atem.Markers

namespace LocalMind
open Text
set_option autoImplicit true

namespace Atem

/-! The reasoning parser, fed a transcript in pieces. -/

/-- The messages for the deltas that come after some text. -/
def streamReasoning : List Char → List (List Char) → List (Option DeltaMessage)
  | _, [] => []
  | text, delta :: deltas =>
    extractReasoningStreaming text (text ++ delta) :: streamReasoning (text ++ delta) deltas

def reasoningOf (ms : List (Option DeltaMessage)) : List Char :=
  ms.flatMap fun m => (m.bind DeltaMessage.reasoning).getD []

def contentsOf (ms : List (Option DeltaMessage)) : List (List Char) :=
  ms.filterMap fun m => m.bind DeltaMessage.content

/-- Each body is closed before the text of the next header begins, or by its start marker. -/
def Closed : List (Header × List Char) → Prop
  | (_, b) :: (h, b') :: rest =>
    (containsAny BODY_END b = true ∨ START <+: h.text) ∧ Closed ((h, b') :: rest)
  | _ => True

def headersOf (text : List Char) : List (Header × List Char) := (pieces headerRe none 0 text).2

/-- The bodies so far, each with its header. -/
def bodiesOf (text : List Char) : List (Header × List Char) := readBodies true (headersOf text)

/-- The same bodies, of which the last may have grown, and further ones. -/
inductive Grows : List (Header × List Char) → List (Header × List Char) → Prop
  | nil (bs : List (Header × List Char)) : Grows [] bs
  | last (h : Header) (hb : b <+: b') (more : List (Header × List Char)) :
      Grows [(h, b)] ((h, b') :: more)
  | cons (p : Header × List Char) (h : Grows bs bs') : Grows (p :: bs) (p :: bs')

/-- The stream of a transcript agrees with its extraction at once. -/
structure Agrees (deltas : List (List Char)) : Prop where
  reasoning : ∀ k, reasoningOf ((streamReasoning [] deltas).take k) <+:
    (extractReasoning deltas.flatten).1.getD []
  /-- at the end, only the start of a marker may be missing -/
  held : ∃ u ∈ PARTIAL_MARKERS, ∃ k < u.length, (extractReasoning deltas.flatten).1.getD [] =
    reasoningOf (streamReasoning [] deltas) ++ u.take k
  content : (contentsOf (streamReasoning [] deltas)).Pairwise (· <+: ·) ∧
    ∀ c ∈ contentsOf (streamReasoning [] deltas),
      c <+: (extractReasoning deltas.flatten).2.getD []
  /-- no text changes its channel -/
  stays : ∀ s t, s <+: t → t <+: deltas.flatten → Grows (bodiesOf s) (bodiesOf t)
  opened : ∀ k c, (streamReasoning [] deltas)[k]?.join.bind DeltaMessage.content = some c →
    ∃ p ∈ headersOf (deltas.take (k + 1)).flatten, p.1.isSelf = false

/-! A body that grows. -/

theorem led_bodyEnd : Led '<' BODY_END := by
  have h : ∀ u ∈ BODY_END, u = '<' :: u.tail ∧ '<' ∉ u.tail := by decide
  intro u hu
  exact ⟨u.tail, h u hu⟩

theorem readBody_eq_cut (streaming : Bool) (b : List Char) :
    readBody streaming false b = cutBefore BODY_END b := by
  rw [readBody]
  split
  · rfl
  · next h =>
    rw [Bool.and_false]
    exact (cutBefore_of_not (Bool.eq_false_of_not_eq_true h)).symm

theorem readBody_ended (h : containsAny BODY_END b = true) (streaming last : Bool) :
    readBody streaming last b = cutBefore BODY_END b := by
  rw [readBody, if_pos h]

theorem readBody_open (h : containsAny BODY_END b = false) :
    readBody true true b = holdBack b := by
  rw [readBody, if_neg (by rw [h]; decide)]
  exact if_pos rfl

theorem cutBefore_rest (us : List (List α)) [DecidableEq α] (s : List α) :
    ∃ rest, s = cutBefore us s ++ rest ∧ (rest = [] ∨ startsWithAny us rest = true) := by
  induction s with
  | nil => exact ⟨[], rfl, .inl rfl⟩
  | cons c cs ih =>
    rw [cutBefore]
    split
    · next h => exact ⟨c :: cs, rfl, .inr h⟩
    · obtain ⟨rest, hcs, hrest⟩ := ih
      exact ⟨rest, by rw [List.cons_append, ← hcs], hrest⟩

theorem cutBefore_word [DecidableEq α] {us : List (List α)} (hu : u ∈ us) (hne : u ≠ [])
    (p x : List α) : cutBefore us (p ++ (u ++ x)) <+: p := by
  induction p with
  | nil =>
    cases u with
    | nil => exact absurd rfl hne
    | cons c u =>
      have hstart : startsWithAny us (c :: (u ++ x)) = true :=
        startsWithAny_iff.2 ⟨_, hu, List.prefix_append (c :: u) x⟩
      rw [List.nil_append, List.cons_append, cutBefore, if_pos hstart]
  | cons c p ih =>
    rw [List.cons_append, cutBefore]
    split
    · exact List.nil_prefix
    · exact (List.prefix_cons_inj c).2 ih

/-- What is let through is not cut later. -/
theorem holdBack_cut (h : containsAny BODY_END b = false) (z : List Char) :
    holdBack b <+: cutBefore BODY_END (b ++ z) := by
  have hb : holdBack b <+: b ++ z := (holdBack_isPrefix b).trans (List.prefix_append b z)
  apply List.prefix_of_prefix_length_le hb (cutBefore_isPrefix BODY_END (b ++ z))
  obtain ⟨rest, hrest, hstart⟩ := cutBefore_rest BODY_END (b ++ z)
  obtain ⟨v, hv, -⟩ | ⟨v, hv, hvr⟩ := List.append_eq_append_iff.1 hrest
  · rw [hv, List.length_append]
    exact Nat.le_trans (holdBack_isPrefix b).length_le (Nat.le_add_right _ _)
  · by_cases hvne : v = []
    · rw [hvne, List.append_nil] at hv
      rw [← hv]
      exact (holdBack_isPrefix b).length_le
    · have hrne : rest ≠ [] := by
        rw [hvr]
        exact List.append_ne_nil_of_left_ne_nil hvne z
      obtain ⟨u, hu, hpre⟩ := startsWithAny_iff.1 (hstart.resolve_left hrne)
      have hno : ¬ u <+: v := by
        intro hin
        have hinfix : u <:+: b := by
          rw [hv]
          exact hin.isInfix.trans (List.suffix_append _ v).isInfix
        rw [containsAny_iff.2 ⟨u, hu, hinfix⟩] at h
        cases h
      have hvu : v <+: u := by
        rw [hvr] at hpre
        obtain h | h := List.prefix_or_prefix_of_prefix hpre (List.prefix_append v z)
        · exact absurd h hno
        · exact h
      have hlt : v.length < u.length := by
        apply Nat.lt_of_le_of_ne hvu.length_le
        intro hl
        exact hno (hvu.eq_of_length hl ▸ List.prefix_rfl)
      have hmarker : ∀ u ∈ BODY_END, u ∈ PARTIAL_MARKERS := by decide
      exact holdBack_length_le (hmarker u hu) hv hvu hlt

theorem not_ended_append (hb : containsAny BODY_END b = false) (hy : y <+: START)
    (hlt : y.length < START.length) : containsAny BODY_END (b ++ y) = false := by
  apply Bool.eq_false_of_not_eq_true
  intro h
  obtain ⟨u, hu, hin⟩ := containsAny_iff.1 h
  obtain hin | hin | ⟨x, w, rfl, hx, hw, -, hwy⟩ := infix_append_iff.1 hin
  · rw [containsAny_iff.2 ⟨u, hu, hin⟩] at hb
    cases hb
  · have hshort : ∀ u ∈ BODY_END, ∀ k < START.length, ¬ u <:+: START.take k := by decide
    apply hshort u hu y.length hlt
    rwa [← List.prefix_iff_eq_take.1 hy]
  · obtain ⟨t, ht, hno⟩ := led_bodyEnd _ hu
    obtain ⟨c, x, rfl⟩ := List.exists_cons_of_ne_nil hx
    obtain ⟨d, w, rfl⟩ := List.exists_cons_of_ne_nil hw
    have hstart : START = '<' :: START.tail := by decide
    have hd := hwy.trans hy
    rw [hstart] at hd
    obtain ⟨rfl, -⟩ := List.cons_prefix_cons.1 hd
    rw [← (List.cons_eq_cons.1 ht).2] at hno
    exact hno (List.mem_append_right x List.mem_cons_self)

/-- A body closed by the next header ends before it. -/
theorem readBody_before (ht : y <+: t) (hstart : START <+: t)
    (hb : containsAny BODY_END b = false) : readBody true true (b ++ y) <+: b := by
  by_cases hlen : START.length ≤ y.length
  · obtain ⟨x, rfl⟩ := List.prefix_of_prefix_length_le hstart ht hlen
    have hin : START ∈ BODY_END := by decide
    rw [readBody_ended]
    · exact cutBefore_word hin (led_bodyEnd.ne_nil hin) b x
    · exact containsAny_iff.2 ⟨START, hin, ⟨b, x, by rw [List.append_assoc]⟩⟩
  · have hlt := Nat.lt_of_not_le hlen
    have hy := List.prefix_of_prefix_length_le ht hstart (Nat.le_of_lt hlt)
    rw [readBody_open (not_ended_append hb hy hlt)]
    apply List.prefix_of_prefix_length_le (holdBack_isPrefix _) (List.prefix_append b y)
    exact holdBack_length_le (by decide) rfl hy hlt

/-- What is let through of the last body is the start of what the body becomes. -/
theorem last_body (h : Continues Header.text (b, []) (b', hs))
    (hclosed : Closed ((a, b') :: hs)) (streaming : Bool) :
    readBody true true b <+: readBody streaming hs.isEmpty b' := by
  cases h with
  | more _ z hs =>
    by_cases hend : containsAny BODY_END b = true
    · obtain ⟨u, hu, hin⟩ := containsAny_iff.1 hend
      have hend' : containsAny BODY_END (b ++ z) = true :=
        containsAny_iff.2 ⟨u, hu, hin.trans (List.prefix_append b z).isInfix⟩
      rw [readBody_ended hend, readBody_ended hend', cutBefore_append led_bodyEnd hend]
    · have hopen := Bool.eq_false_of_not_eq_true hend
      rw [readBody_open hopen, readBody]
      split
      · exact holdBack_cut hopen z
      · split
        · exact holdBack_mono (List.prefix_append b z)
        · exact (holdBack_isPrefix b).trans (List.prefix_append b z)
  | @complete y a' _ hy ht hne b'' ms =>
    change readBody true true (b' ++ y) <+: readBody streaming false b'
    rw [readBody_eq_cut]
    by_cases hend : containsAny BODY_END b' = true
    · obtain ⟨u, hu, hin⟩ := containsAny_iff.1 hend
      have hend' : containsAny BODY_END (b' ++ y) = true :=
        containsAny_iff.2 ⟨u, hu, hin.trans (List.prefix_append b' y).isInfix⟩
      rw [readBody_ended hend', cutBefore_append led_bodyEnd hend]
    · have hopen := Bool.eq_false_of_not_eq_true hend
      rw [cutBefore_of_not hopen]
      exact readBody_before ht (hclosed.1.resolve_left hend) hopen

/-! The bodies of a growing text. -/

theorem readBodies_cons (streaming : Bool) (h : Header) (b : List Char)
    (rest : List (Header × List Char)) : readBodies streaming ((h, b) :: rest) =
      (h, readBody streaming rest.isEmpty b) :: readBodies streaming rest := by
  cases rest <;> rfl

/-- As more text arrives, the text before the headers stays and the bodies grow. -/
theorem readBodies_grows {r r' : List Char × List (Header × List Char)}
    (h : Continues Header.text r r') (hclosed : Closed r'.2) (streaming : Bool) :
    (r.2 ≠ [] → r.1 = r'.1 ∧ r'.2 ≠ []) ∧
      Grows (readBodies true r.2) (readBodies streaming r'.2) := by
  induction h with
  | more => exact ⟨fun hne => absurd rfl hne, .nil _⟩
  | complete => exact ⟨fun hne => absurd rfl hne, .nil _⟩
  | @next b ms b' ms' p a h ih =>
    refine ⟨fun _ => ⟨rfl, List.cons_ne_nil _ _⟩, ?_⟩
    rw [readBodies_cons, readBodies_cons]
    cases ms with
    | nil => exact .last a (last_body h hclosed streaming) _
    | cons q ms =>
      cases h with
      | @next c ms c' ms' p a' h =>
        obtain ⟨-, hgrows⟩ := ih hclosed.2
        change Grows ((a, readBody true false b) :: _) ((a, readBody streaming false b) :: _)
        rw [readBody_eq_cut, readBody_eq_cut]
        exact .cons _ hgrows

theorem closed_of_continues {r r' : List Char × List (Header × List Char)}
    (h : Continues Header.text r r') (hclosed : Closed r'.2) : Closed r.2 := by
  induction h with
  | more => trivial
  | complete => trivial
  | @next b ms b' ms' p a h ih =>
    cases ms with
    | nil => trivial
    | cons q ms =>
      cases h with
      | @next c ms c' ms' p a' h => exact ⟨hclosed.1, ih hclosed.2⟩

theorem headers_continue (h : s <+: t) :
    Continues Header.text (pieces headerRe none 0 s) (pieces headerRe none 0 t) := by
  obtain ⟨x, rfl⟩ := h
  exact pieces_continues headerRe_stable none s x (Nat.zero_le _)

theorem Grows.flatten (h : Grows bs bs') (q : Header → Bool) :
    ((bs.filter fun p => q p.1).map Prod.snd).flatten <+:
      ((bs'.filter fun p => q p.1).map Prod.snd).flatten := by
  induction h with
  | nil => exact List.nil_prefix
  | @last b b' h hb more =>
    cases hq : q h with
    | true =>
      simp only [List.filter_cons, hq, if_true, List.filter_nil, List.map_cons, List.map_nil,
        List.flatten_cons, List.flatten_nil, List.append_nil]
      exact hb.trans (List.prefix_append b' _)
    | false =>
      simp only [List.filter_cons, hq]
      exact List.nil_prefix
  | cons p h ih =>
    cases hq : q p.1 with
    | true =>
      simp only [List.filter_cons, hq, if_true, List.map_cons, List.flatten_cons]
      exact (List.prefix_append_right_inj p.2).2 ih
    | false =>
      simp only [List.filter_cons, hq]
      exact ih

theorem readBodies_headers (streaming : Bool) (hs : List (Header × List Char)) :
    (readBodies streaming hs).map Prod.fst = hs.map Prod.fst := by
  induction hs with
  | nil => rfl
  | cons p hs ih => rw [readBodies_cons, List.map_cons, List.map_cons, ih]

/-! The two channels. -/

theorem split_reasoning (text : List Char) (streaming : Bool) :
    (splitChannels text streaming).reasoning =
      selfBodies (readBodies streaming (headersOf text)) := by
  rw [splitChannels, headersOf]
  split
  · next h => rw [List.isEmpty_iff.1 h]; rfl
  · rfl

theorem split_content (text : List Char) (streaming : Bool) :
    (headersOf text = [] ∧ (splitChannels text streaming).content = []) ∨
    (headersOf text ≠ [] ∧ (splitChannels text streaming).content =
      kept (cutBefore BODY_END (pieces headerRe none 0 text).1) ++
        otherBodies (readBodies streaming (headersOf text))) := by
  rw [splitChannels, headersOf]
  split
  · next h => exact .inl ⟨List.isEmpty_iff.1 h, rfl⟩
  · next h =>
    right
    refine ⟨?_, rfl⟩
    intro he
    exact h (List.isEmpty_iff.2 he)

theorem split_ended (h : (splitChannels text streaming).ended = true) :
    ∃ p ∈ headersOf text, p.1.isSelf = false := by
  rw [splitChannels] at h
  split at h
  · cases h
  · obtain ⟨p, hp, hself⟩ := List.any_eq_true.1 h
    have hmem : p.1 ∈ (headersOf text).map Prod.fst := by
      rw [← readBodies_headers streaming]
      exact List.mem_map_of_mem hp
    obtain ⟨q, hq, heq⟩ := List.mem_map.1 hmem
    refine ⟨q, hq, ?_⟩
    rw [heq]
    rwa [Bool.not_eq_true'] at hself

theorem reasoning_mono (h : s <+: t) (hclosed : Closed (headersOf t)) (streaming : Bool) :
    (splitChannels s true).reasoning.flatten <+:
      (splitChannels t streaming).reasoning.flatten := by
  rw [split_reasoning, split_reasoning]
  exact (readBodies_grows (headers_continue h) hclosed streaming).2.flatten Header.isSelf

theorem content_mono (h : s <+: t) (hclosed : Closed (headersOf t)) (streaming : Bool) :
    (splitChannels s true).content.flatten <+: (splitChannels t streaming).content.flatten := by
  obtain ⟨hlead, hgrows⟩ := readBodies_grows (headers_continue h) hclosed streaming
  obtain ⟨-, hs⟩ | ⟨hne, hs⟩ := split_content s true
  · rw [hs]
    exact List.nil_prefix
  · obtain ⟨hsame, hne'⟩ := hlead hne
    obtain ⟨ht, -⟩ | ⟨-, ht⟩ := split_content t streaming
    · exact absurd ht hne'
    · rw [hs, ht, hsame, List.flatten_append, List.flatten_append]
      exact (List.prefix_append_right_inj _).2 (hgrows.flatten fun h => !h.isSelf)

theorem selfBodies_cons (h : Header) (b : List Char) (bs : List (Header × List Char)) :
    (selfBodies ((h, b) :: bs)).flatten =
      (if h.isSelf then b else []) ++ (selfBodies bs).flatten := by
  rw [selfBodies, selfBodies, List.filter_cons]
  split <;> rfl

theorem readBody_held (b : List Char) : ∃ u ∈ PARTIAL_MARKERS, ∃ k < u.length,
    readBody false true b = readBody true true b ++ u.take k := by
  by_cases hend : containsAny BODY_END b = true
  · rw [readBody_ended hend, readBody_ended hend]
    exact ⟨START, by decide, 0, by decide, (List.append_nil _).symm⟩
  · have hopen := Bool.eq_false_of_not_eq_true hend
    rw [readBody_open hopen, readBody_false, cutBefore_of_not hopen]
    exact holdBack_append b

/-- What the stream holds back of the reasoning is nothing, or the start of a marker. -/
theorem reasoning_held (text : List Char) : ∃ u ∈ PARTIAL_MARKERS, ∃ k < u.length,
    (splitChannels text false).reasoning.flatten =
      (splitChannels text true).reasoning.flatten ++ u.take k := by
  have hnone : ∀ s : List Char, ∃ u ∈ PARTIAL_MARKERS, ∃ k < u.length, s = s ++ u.take k :=
    fun s => ⟨START, by decide, 0, by decide, (List.append_nil s).symm⟩
  rw [split_reasoning, split_reasoning]
  induction headersOf text with
  | nil => exact hnone _
  | cons p hs ih =>
    obtain ⟨h, b⟩ := p
    rw [readBodies_cons, readBodies_cons, selfBodies_cons, selfBodies_cons]
    cases hs with
    | nil =>
      have hnil : ∀ streaming, (selfBodies (readBodies streaming [])).flatten = [] := fun _ => rfl
      rw [hnil, hnil, List.append_nil, List.append_nil, List.isEmpty_nil]
      by_cases hself : h.isSelf = true
      · rw [if_pos hself, if_pos hself]
        exact readBody_held b
      · rw [if_neg hself, if_neg hself]
        exact hnone []
    | cons q hs =>
      obtain ⟨u, hu, k, hk, heq⟩ := ih
      refine ⟨u, hu, k, hk, ?_⟩
      change (if _ then readBody false false b else []) ++ _ =
        ((if _ then readBody true false b else []) ++ _) ++ u.take k
      rw [readBody_eq_cut, readBody_eq_cut, heq, List.append_assoc]

/-! The stream. -/

theorem orNone_getD (s : List Char) : (orNone s).getD [] = s := by
  rw [orNone]
  split
  · next h => exact (List.isEmpty_iff.1 h).symm
  · rfl

/-- What one message adds to the reasoning. -/
theorem message_reasoning (h : s <+: t) (hclosed : Closed (headersOf t)) :
    (splitChannels t true).reasoning.flatten = (splitChannels s true).reasoning.flatten ++
      (((extractReasoningStreaming s t).bind DeltaMessage.reasoning).getD []) := by
  obtain ⟨z, hz⟩ := reasoning_mono h hclosed true
  have hpre : (splitChannels s true).reasoning.flatten.isPrefixOf
      (splitChannels t true).reasoning.flatten = true :=
    List.isPrefixOf_iff_prefix.2 ⟨z, hz⟩
  rw [extractReasoningStreaming, if_pos hpre, ← hz, List.drop_left]
  congr 1
  split
  · exact (orNone_getD z).symm
  · split
    · next he => exact List.isEmpty_iff.1 he
    · rfl

theorem closed_of_isPrefix (h : s <+: t) (hclosed : Closed (headersOf t)) :
    Closed (headersOf s) := closed_of_continues (headers_continue h) hclosed

theorem stream_reasoning (text : List Char) (deltas : List (List Char))
    (hclosed : Closed (headersOf (text ++ deltas.flatten))) :
    (splitChannels (text ++ deltas.flatten) true).reasoning.flatten =
      (splitChannels text true).reasoning.flatten ++
        reasoningOf (streamReasoning text deltas) := by
  induction deltas generalizing text with
  | nil =>
    rw [List.flatten_nil, List.append_nil]
    exact (List.append_nil _).symm
  | cons d ds ih =>
    rw [List.flatten_cons, ← List.append_assoc] at hclosed ⊢
    have hstep := message_reasoning (List.prefix_append text d)
      (closed_of_isPrefix (List.prefix_append _ ds.flatten) hclosed)
    rw [ih _ hclosed, hstep, List.append_assoc]
    rfl

theorem streamReasoning_take (text : List Char) (deltas : List (List Char)) (k : Nat) :
    (streamReasoning text deltas).take k = streamReasoning text (deltas.take k) := by
  induction deltas generalizing text k with
  | nil => rw [List.take_nil]; exact List.take_nil
  | cons d ds ih =>
    cases k with
    | zero => rfl
    | succ k => rw [List.take_succ_cons, streamReasoning, streamReasoning, List.take_succ_cons, ih]

theorem streamReasoning_getElem? (text : List Char) (deltas : List (List Char)) (k : Nat)
    (h : (streamReasoning text deltas)[k]? = some m) :
    m = extractReasoningStreaming (text ++ (deltas.take k).flatten)
      (text ++ (deltas.take (k + 1)).flatten) := by
  induction deltas generalizing text k with
  | nil => cases h
  | cons d ds ih =>
    cases k with
    | zero =>
      cases h
      simp
    | succ k =>
      rw [ih (text ++ d) k h]
      simp

theorem message_content (h : (extractReasoningStreaming s t).bind DeltaMessage.content = some c) :
    (splitChannels t true).ended = true ∧ c = (splitChannels t true).content.flatten := by
  rw [extractReasoningStreaming] at h
  split at h
  · next hended =>
    refine ⟨hended, ?_⟩
    rw [← orNone_getD (splitChannels t true).content.flatten]
    change orNone _ = some c at h
    rw [h]
    rfl
  · have hnone : ∀ d : List Char,
        (if d.isEmpty then none else some (DeltaMessage.mk (some d) none)).bind
          DeltaMessage.content = none := by
      intro d
      split <;> rfl
    cases (hnone _).symm.trans h

/-- Each content field is the content of some text in between. -/
theorem mem_contents (h : c ∈ contentsOf (streamReasoning text deltas)) :
    ∃ s, text <+: s ∧ s <+: text ++ deltas.flatten ∧
      c = (splitChannels s true).content.flatten := by
  induction deltas generalizing text with
  | nil => cases h
  | cons d ds ih =>
    have hd : text <+: text ++ d := List.prefix_append text d
    have hds : text ++ d <+: text ++ (d ++ ds.flatten) := by
      rw [← List.append_assoc]
      exact List.prefix_append _ _
    obtain ⟨m, hm, hc⟩ := List.mem_filterMap.1 h
    obtain rfl | hm := List.mem_cons.1 hm
    · exact ⟨_, hd, hds, (message_content hc).2⟩
    · obtain ⟨s, hs, ht, hc⟩ := ih (List.mem_filterMap.2 ⟨m, hm, hc⟩)
      refine ⟨s, hd.trans hs, ?_, hc⟩
      rw [List.append_assoc] at ht
      exact ht

theorem contents_grow (text : List Char) (deltas : List (List Char))
    (hclosed : Closed (headersOf (text ++ deltas.flatten))) :
    (contentsOf (streamReasoning text deltas)).Pairwise (· <+: ·) := by
  induction deltas generalizing text with
  | nil => exact .nil
  | cons d ds ih =>
    rw [List.flatten_cons, ← List.append_assoc] at hclosed
    have hrest := ih (text ++ d) hclosed
    rw [contentsOf, streamReasoning, List.filterMap_cons]
    split
    · exact hrest
    · next c hc =>
      refine .cons ?_ hrest
      intro c' hc'
      obtain ⟨s, hs, ht, rfl⟩ := mem_contents hc'
      rw [(message_content hc).2]
      exact content_mono hs (closed_of_isPrefix ht hclosed) true

/-- A text with a message, all but the last of whose bodies are closed. -/
structure Transcript (text : List Char) : Prop where
  message : MESSAGE <:+: text
  closed : Closed (headersOf text)

theorem extractReasoning_split (h : MESSAGE <:+: text) :
    (extractReasoning text).1.getD [] = (splitChannels text false).reasoning.flatten ∧
      (extractReasoning text).2.getD [] = (splitChannels text false).content.flatten := by
  rw [extractReasoning, orNone_getD, orNone_getD, channelsOf, contains_iff.2 h]
  exact ⟨rfl, rfl⟩

theorem flatten_take_isPrefix (ds : List (List Char)) (k : Nat) :
    (ds.take k).flatten <+: ds.flatten := by
  refine ⟨(ds.drop k).flatten, ?_⟩
  rw [← List.flatten_append, List.take_append_drop]

/-- However a transcript is cut, its stream agrees with its extraction at once. -/
theorem streamReasoning_agrees (h : Transcript deltas.flatten) : Agrees deltas := by
  obtain ⟨hreasoning, hcontent⟩ := extractReasoning_split h.message
  have hstream : ∀ ds : List (List Char), ds.flatten <+: deltas.flatten →
      reasoningOf (streamReasoning [] ds) =
        (splitChannels ds.flatten true).reasoning.flatten := by
    intro ds hds
    have hds := stream_reasoning [] ds (closed_of_isPrefix hds h.closed)
    rw [List.nil_append] at hds
    exact hds.symm
  constructor
  · intro k
    have hk := flatten_take_isPrefix deltas k
    rw [streamReasoning_take, hstream _ hk, hreasoning]
    exact reasoning_mono hk h.closed false
  · rw [hreasoning, hstream deltas List.prefix_rfl]
    exact reasoning_held deltas.flatten
  · refine ⟨contents_grow [] deltas h.closed, ?_⟩
    intro c hc
    obtain ⟨s, -, hs, rfl⟩ := mem_contents hc
    rw [hcontent]
    exact content_mono hs h.closed false
  · intro s t hst ht
    exact (readBodies_grows (headers_continue hst) (closed_of_isPrefix ht h.closed) true).2
  · intro k c hc
    obtain ⟨m, hm, hmc⟩ := Option.bind_eq_some_iff.1 hc
    have hget := streamReasoning_getElem? [] deltas k (Option.join_eq_some_iff.1 hm)
    have hcontent : (extractReasoningStreaming ([] ++ (deltas.take k).flatten)
        ([] ++ (deltas.take (k + 1)).flatten)).bind DeltaMessage.content = some c := by
      rw [← hget]
      exact hmc
    exact split_ended (message_content hcontent).1

/-- A thought and an answer, cut inside a marker and inside a header. -/
def thought : List (List Char) :=
  [" to=self<|message|>391<|e".toList, "om|><|start|>assist".toList,
    "ant to=user<|message|>391".toList]

theorem streamReasoning_agrees_thought : Agrees thought :=
  streamReasoning_agrees ⟨contains_iff.1 (by decide), .inl (by decide), trivial⟩

/-- Text whose markers were stripped has its reasoning extracted, and none of it streamed. -/
theorem streamReasoning_misses_stripped :
    Closed (headersOf "to=selfx".toList) ∧ ¬ Agrees ["to=selfx".toList] := by
  refine ⟨trivial, ?_⟩
  intro h
  obtain ⟨u, hu, k, -, heq⟩ := h.held
  have hstart : ∀ u ∈ PARTIAL_MARKERS, ¬ ['x'] <+: u := by decide
  apply hstart u hu
  have hx : ['x'] = u.take k := heq
  rw [hx]
  exact List.take_prefix k u

end Atem

end LocalMind
