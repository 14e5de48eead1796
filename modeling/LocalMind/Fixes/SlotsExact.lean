import LocalMind.Fixes.SlotFilling

namespace LocalMind
open Json Marked
set_option autoImplicit true

/-! The text between a string's quotes is settled by what stands there. -/

theorem Stands.unique (h : Stands body name) (h' : Stands body' name')
    (heq : body ++ '"' :: r = body' ++ '"' :: r') : body = body' ∧ name = name' := by
  have hread := h.1 r
  rw [heq, h'.1 r', Option.some.injEq, Prod.mk.injEq] at hread
  rw [hread.2] at heq
  exact ⟨List.append_cancel_right heq, String.toList_inj.1 hread.1.symm⟩

/-- A name that stands for itself between quotes. -/
def Plain (name : String) : Prop :=
  ∀ c ∈ name.toList, c ≠ '"' ∧ c ≠ '\\' ∧ isControl c = false

theorem Plain.stands (h : Plain name) : Stands name.toList name := by
  rw [Plain] at h
  rw [Stands]
  generalize name.toList = s at h
  induction s with
  | nil => exact ⟨strBody_nil, .nil⟩
  | cons c s ih =>
    obtain ⟨h₁, h₂, h₃⟩ := h c List.mem_cons_self
    obtain ⟨hbody, hfree⟩ := ih fun d hd => h d (List.mem_cons_of_mem c hd)
    exact ⟨hbody.cons h₁ h₂ h₃, .plain h₁ h₂ h₃ hfree⟩

theorem QuoteFree.plain_of_back (h : QuoteFree s) (hback : '\\' ∉ s) :
    ∀ c ∈ s, c ≠ '"' ∧ c ≠ '\\' ∧ isControl c = false := by
  induction h with
  | nil => exact fun c hc => absurd hc List.not_mem_nil
  | @plain c s h₁ h₂ h₃ _ ih =>
    intro d hd
    cases hd with
    | head => exact ⟨h₁, h₂, h₃⟩
    | tail _ hd => exact ih (fun hs => hback (List.mem_cons_of_mem c hs)) d hd
  | escaped c _ _ => exact absurd List.mem_cons_self hback

/-- Only a plain name stands for itself. -/
theorem Stands.plain (h : Stands body name) (heq : body ++ '"' :: r = name.toList ++ '"' :: r') :
    body = name.toList ∧ Plain name := by
  obtain ⟨hbody, hback, -⟩ := h.1.plain_of_self heq
  refine ⟨hbody, ?_⟩
  rw [Plain, ← hbody]
  rw [← hbody] at hback
  exact QuoteFree.plain_of_back h.2 hback

theorem Child.text_fill {c : Child} (h : c.text = fill ((body, after) :: holes)) :
    c.keyBody ++ '"' :: (c.gap ++ (c.valueText ++ c.post)) =
      body ++ '"' :: (after ++ fill holes) := by
  rw [Child.text_parts, fill, List.append_assoc] at h
  exact (List.cons.inj h).2

/-- Children whose texts go on from some names have these names. -/
theorem keys_of_texts {cs : List Child} (hvalid : ∀ c ∈ cs, c.Valid codec)
    (htexts : cs.map Child.text = fills holes)
    (hstand : List.Forall₂ (fun hole name => Stands hole.1 name) holes names) :
    cs.map Child.keyBody = holes.map Prod.fst ∧ cs.map Child.key = names := by
  induction hstand generalizing cs with
  | nil =>
    obtain rfl := List.map_eq_nil_iff.1 htexts
    exact ⟨rfl, rfl⟩
  | @cons hole name holes names hname _ ih =>
    obtain _ | ⟨c, cs⟩ := cs
    · cases htexts
    · obtain ⟨htext, htexts⟩ := List.cons.inj htexts
      obtain ⟨hc, hcs⟩ := List.forall_mem_cons.1 hvalid
      obtain ⟨hbody, hkey⟩ := hc.stands.unique hname (Child.text_fill htext)
      obtain ⟨hbodies, hkeys⟩ := ih hcs htexts
      rw [List.map_cons, List.map_cons, List.map_cons, hbody, hkey, hbodies, hkeys]
      exact ⟨rfl, rfl⟩

/-- Names that children have in their raw spelling are plain. -/
theorem plain_of_keys {cs : List Child} (hvalid : ∀ c ∈ cs, c.Valid codec)
    (htexts : cs.map Child.text = fills holes) (hkeys : cs.map Child.key = names)
    (hholes : holes.map Prod.fst = names.map String.toList) :
    cs.map Child.keyBody = holes.map Prod.fst ∧ ∀ k ∈ names, Plain k := by
  induction cs generalizing holes names with
  | nil =>
    subst hkeys
    obtain rfl := List.map_eq_nil_iff.1 hholes
    exact ⟨rfl, fun k hk => absurd hk List.not_mem_nil⟩
  | cons c cs ih =>
    subst hkeys
    obtain _ | ⟨⟨body, after⟩, holes⟩ := holes
    · cases htexts
    · obtain ⟨htext, htexts⟩ := List.cons.inj htexts
      obtain ⟨hbody, hholes⟩ := List.cons.inj hholes
      obtain ⟨hc, hcs⟩ := List.forall_mem_cons.1 hvalid
      have htext := Child.text_fill htext
      change body = c.key.toList at hbody
      rw [hbody] at htext
      obtain ⟨hself, hplain⟩ := hc.stands.plain htext
      obtain ⟨hbodies, hplains⟩ := ih hcs htexts rfl hholes
      refine ⟨?_, List.forall_mem_cons.2 ⟨hplain, hplains⟩⟩
      rw [List.map_cons, List.map_cons, hself, hbodies, hbody]

theorem object_of_root (h : Root codec json cs) (hv : fromStr codec json = some v) :
    ∃ m, v = .object m := by
  have hbrace : ∃ t, skipWs json = '{' :: t := by
    cases h with
    | empty hw _ => exact ⟨_, by rw [skipWs_append hw, skipWs_cons rfl]⟩
    | children hw _ => exact ⟨_, by rw [skipWs_append hw, skipWs_cons rfl]⟩
  obtain ⟨t, hbrace⟩ := hbrace
  obtain ⟨w, tok, w', rfl, hw, hw', ht⟩ := fromStr_eq_some_iff.1 hv
  obtain ⟨c, u, htok, hc, -, -⟩ := ht.start
  rw [htok, List.append_assoc, skipWs_append hw, List.cons_append, skipWs_cons hc] at hbrace
  obtain ⟨rfl, -⟩ := List.cons.inj hbrace
  rcases ht with ht | ⟨body, as, hb, rfl, rfl⟩ | ⟨body, es, hb, rfl, rfl⟩
  · cases ht with
    | num hl _ =>
      obtain ⟨d, u', hd, hdig⟩ := hl.head
      rw [htok] at hd
      cases hd
      rcases hdig with hdig | hdig <;> cases hdig
    | _ => cases htok
  · cases htok
  · exact ⟨_, rfl⟩

namespace ToolcallMalformedArgumentsFix

/-! The splice as a text with names in it. -/

/-- The text before the first slot's name. -/
def lead : List Piece → List Char
  | [] => []
  | .text c :: ps => c :: lead ps
  | .slot delim _ :: _ => [delim]

/-- The slots' names, each with the text behind it up to the next one. -/
def holesOf : List Piece → List (List Char) → List (List Char × List Char)
  | [], _ => []
  | .text _ :: ps, names => holesOf ps names
  | .slot _ space :: ps, name :: names => (name, ':' :: space ++ lead ps) :: holesOf ps names
  | .slot _ _ :: _, [] => []

/-- Each slot's text, from its name on. -/
def slotTexts : List Piece → List (List Char) → List (List Char)
  | [], _ => []
  | .text _ :: ps, names => slotTexts ps names
  | .slot _ space :: ps, name :: names =>
    ('"' :: name ++ '"' :: ':' :: space ++ splicePieces ps names) :: slotTexts ps names
  | .slot _ _ :: _, [] => []

theorem countP_text (c : Char) (ps : List Piece) :
    (Piece.text c :: ps).countP Piece.isSlot = ps.countP Piece.isSlot :=
  List.countP_cons_of_neg Bool.false_ne_true

theorem countP_slot (delim : Char) (space : List Char) (ps : List Piece) :
    (Piece.slot delim space :: ps).countP Piece.isSlot = ps.countP Piece.isSlot + 1 :=
  List.countP_cons_of_pos rfl

theorem splicePieces_fill {names : List (List Char)}
    (h : names.length = ps.countP Piece.isSlot) :
    splicePieces ps names = lead ps ++ fill (holesOf ps names) ∧
      slotTexts ps names = fills (holesOf ps names) ∧ (holesOf ps names).map Prod.fst = names := by
  induction ps generalizing names with
  | nil =>
    obtain rfl := List.length_eq_zero_iff.1 h
    exact ⟨rfl, rfl, rfl⟩
  | cons p ps ih =>
    cases p with
    | text c =>
      rw [countP_text] at h
      obtain ⟨hsplice, htexts, hnames⟩ := ih h
      refine ⟨?_, htexts, hnames⟩
      rw [splicePieces, hsplice]
      rfl
    | slot delim space =>
      rw [countP_slot] at h
      obtain _ | ⟨name, names⟩ := names
      · cases h
      · obtain ⟨hsplice, htexts, hnames⟩ := ih (Nat.succ.inj h)
        refine ⟨?_, ?_, congrArg (name :: ·) hnames⟩
        · rw [splicePieces, hsplice, holesOf, fill, lead]
          simp
        · rw [slotTexts, htexts, hsplice, holesOf, fills, fill]
          simp

theorem holesOf_after {names names' : List (List Char)} (h : names.length = names'.length)
    (ps : List Piece) :
    (holesOf ps names).map Prod.snd = (holesOf ps names').map Prod.snd := by
  induction ps generalizing names names' with
  | nil => rfl
  | cons p ps ih =>
    cases p with
    | text c => exact ih h
    | slot delim space =>
      cases names with
      | nil =>
        obtain rfl := List.length_eq_zero_iff.1 h.symm
        rfl
      | cons name names =>
        obtain _ | ⟨name', names'⟩ := names'
        · cases h
        · exact congrArg (_ :: ·) (ih (Nat.succ.inj h))

/-- Without names the splice gives the arguments back. -/
theorem splicePieces_nil (skip : Nat) (s : List Char) :
    splicePieces (malformedPattern skip s) [] = s.drop skip := by
  induction s generalizing skip with
  | nil => rw [malformedPattern, splicePieces, List.drop_nil]
  | cons c t ih =>
    cases skip with
    | succ n => exact ih n
    | zero =>
      rw [malformedPattern.eq_def]
      dsimp only
      split
      · next h =>
        obtain ⟨u, rfl⟩ := h.2
        have hspace : u.takeWhile Text.isWhitespace ++
            u.drop (u.takeWhile Text.isWhitespace).length = u :=
          List.prefix_iff_eq_append.1 (List.takeWhile_prefix Text.isWhitespace)
        rw [splicePieces, ih, ← List.drop_drop]
        change c :: '{' :: '}' :: '"' :: ':' :: (u.takeWhile Text.isWhitespace ++
          u.drop (u.takeWhile Text.isWhitespace).length) = c :: '{' :: '}' :: '"' :: ':' :: u
        rw [hspace]
      · rw [splicePieces, ih]
        rfl

/-! What the fix is for, and when it does it. -/

/-- The marked entries of the spliced text are its slots. -/
structure SlotsDirect (codec : FloatCodec) (args : List Char) (names : List (List Char))
    (ms : Marked) : Prop where
  root : Root codec (spliceEmptyKeySlots args names) ms.children
  slots : ms.slots.map Child.text = slotTexts (pieces args) names

/-- An exact fill: the text is a JSON object that has every parameter of the schema once, each slot
has become an entry of the name that is its turn among the missing ones, and without these names
it is the arguments. -/
def ExactFill (codec : FloatCodec) (args : List Char) (params : List String) (fixed : List Char) :
    Prop :=
  (∃ m, fromStr codec fixed = some (.object m)) ∧ spliceEmptyKeySlots args [] = args ∧
    ∃ missing ms, fixed = spliceEmptyKeySlots args (missing.map String.toList) ∧
      missing.length = slotCount args ∧
      SlotsDirect codec args (missing.map String.toList) ms ∧ ms.slots.map Child.key = missing ∧
      (missing = params.filter fun k => k ∉ ms.others.map Child.key) ∧
      ∀ k ∈ params, (ms.children.map Child.key).count k = 1

/-- The copy of the arguments that is scanned for the keys they have. -/
def masked (args : List Char) : List Char :=
  spliceEmptyKeySlots args (List.replicate (slotCount args) SENTINEL)

/-- Every slot is a direct entry of the masked copy, every parameter of the schema is once among its
other keys or the missing ones, and the missing ones are plain. -/
def SlotsFillable (codec : FloatCodec) (args : List Char) (params : List String) : Prop :=
  ∃ ms, SlotsDirect codec args (List.replicate (slotCount args) SENTINEL) ms ∧
    (∀ k ∈ params,
      (ms.others.map Child.key).count k + (candidateKeys args params).count k = 1) ∧
    ∀ k ∈ candidateKeys args params, Plain k

def sentinelKey : String := "\u0000llama-proxy-slot"

theorem sentinel_stands : Stands SENTINEL sentinelKey := by
  have hrest : Stands "llama-proxy-slot".toList "llama-proxy-slot" := by
    have hall : ("llama-proxy-slot".toList.all fun c =>
        c != '"' && c != '\\' && !isControl c) = true := by
      decide +kernel
    apply Plain.stands
    simpa [Plain, and_assoc] using hall
  have hzero : hexVal '0' = some 0 := by decide +kernel
  have hescape (r : List Char) : escape (['u', '0', '0', '0', '0'] ++ r) = some ('\x00', 4) := by
    change unicodeEscape ('0' :: '0' :: '0' :: '0' :: r) = _
    have hhex : hex4 ('0' :: '0' :: '0' :: '0' :: r) = some 0 := by
      rw [hex4, hzero]
      rfl
    rw [unicodeEscape, hhex]
    rfl
  have hbody := hrest.1.escape rfl hescape
  have hfree := (((hrest.2.plain (c := '0') (by decide) (by decide) rfl).plain (c := '0')
    (by decide) (by decide) rfl).plain (c := '0') (by decide) (by decide) rfl).plain (c := '0')
    (by decide) (by decide) rfl
  have htext : SENTINEL = '\\' :: ['u', '0', '0', '0', '0'] ++ "llama-proxy-slot".toList := by
    decide +kernel
  have hname : sentinelKey.toList = '\x00' :: "llama-proxy-slot".toList := by decide +kernel
  rw [Stands, htext, hname]
  exact ⟨hbody, hfree.escaped 'u'⟩

theorem fixArguments_some (h : fixArguments codec args toolName schemas = .ok (some fixed))
    (hparams : Fields.get schemas toolName = some params) :
    (candidateKeys args params).length = slotCount args ∧ candidateKeys args params ≠ [] ∧
      fixed = spliceEmptyKeySlots args ((candidateKeys args params).map String.toList) ∧
      isValid codec fixed = true := by
  rw [fixArguments, hparams] at h
  split at h
  · dsimp only at h
    split at h
    · cases h
    · next hne =>
      split at h
      · next hlength =>
        split at h
        · next hvalid =>
          cases h
          exact ⟨hlength, fun hnil => hne (by rw [hnil]; rfl), rfl, hvalid⟩
        · cases h
      · split at h <;> cases h
  · cases h

theorem stand_holes {holes : List (List Char × List Char)} (h : holes.map Prod.fst = bodies)
    (hstand : List.Forall₂ Stands bodies names) :
    List.Forall₂ (fun hole name => Stands hole.1 name) holes names := by
  rw [← h] at hstand
  exact List.forall₂_map_left_iff.1 hstand

theorem stand_replicate (n : Nat) :
    List.Forall₂ Stands (List.replicate n SENTINEL) (List.replicate n sentinelKey) := by
  induction n with
  | zero => exact .nil
  | succ n ih => exact .cons sentinel_stands ih

theorem stand_plain {names : List String} (h : ∀ k ∈ names, Plain k) :
    List.Forall₂ Stands (names.map String.toList) names := by
  rw [List.forall₂_map_left_iff, List.forall₂_same]
  exact fun k hk => (h k hk).stands

/-- The entries of one splice are those of another, the slots' names apart. -/
theorem SlotsDirect.refill {bodies bodies' : List (List Char)}
    (h : SlotsDirect codec args bodies ms) (hbodies : bodies.length = slotCount args)
    (hbodies' : bodies'.length = slotCount args)
    (hms : ms.slots.map Child.keyBody = bodies) (hstand : List.Forall₂ Stands bodies' names) :
    ∃ ms', SlotsDirect codec args bodies' ms' ∧ ms'.slots.map Child.key = names ∧
      ms'.others.map Child.key = ms.others.map Child.key := by
  obtain ⟨hsplice, htexts, hnames⟩ := splicePieces_fill hbodies
  obtain ⟨hsplice', htexts', hnames'⟩ := splicePieces_fill hbodies'
  have hrefills : Refills ms (holesOf (pieces args) bodies) (holesOf (pieces args) bodies') names :=
    ⟨h.slots.trans htexts, hms.trans hnames.symm,
      holesOf_after (hbodies.trans hbodies'.symm) (pieces args), stand_holes hnames' hstand⟩
  obtain ⟨ms', hroot, hrefilled⟩ := h.root.refill hsplice hrefills
  rw [← hsplice'] at hroot
  exact ⟨ms', ⟨hroot, hrefilled.texts.trans htexts'.symm⟩, hrefilled.keys, hrefilled.others⟩

theorem SlotsDirect.valid (h : SlotsDirect codec args bodies ms) :
    ∀ c ∈ ms.slots, c.Valid codec :=
  fun c hc => h.root.valid c (slots_subset ms hc)

/-- The keys that the scan of the masked copy counts. -/
theorem count_masked
    (h : SlotsDirect codec args (List.replicate (slotCount args) SENTINEL) ms)
    (hkeys : ms.slots.map Child.key = List.replicate (slotCount args) sentinelKey) (k : String) :
    topLevelKeyCount (masked args) k =
      (ms.others.map Child.key).count k +
        (List.replicate (slotCount args) sentinelKey).count k := by
  rw [topLevelKeyCount, masked, h.root.streamKeys, Option.getD_some, count_keys, hkeys]

theorem slots_masked (h : SlotsDirect codec args (List.replicate (slotCount args) SENTINEL) ms) :
    ms.slots.map Child.keyBody = List.replicate (slotCount args) SENTINEL ∧
      ms.slots.map Child.key = List.replicate (slotCount args) sentinelKey := by
  obtain ⟨-, htexts, hnames⟩ := splicePieces_fill
    (List.length_replicate : (List.replicate (slotCount args) SENTINEL).length = _)
  have hstand := stand_holes hnames (stand_replicate (slotCount args))
  obtain ⟨hbodies, hkeys⟩ := keys_of_texts h.valid (h.slots.trans htexts) hstand
  exact ⟨hbodies.trans hnames, hkeys⟩

theorem ExactFill.fillable (h : ExactFill codec args params fixed)
    (hlength : (candidateKeys args params).length = slotCount args) :
    SlotsFillable codec args params := by
  obtain ⟨-, -, missing, ms, rfl, hmissing, hdirect, hkeys, hothers, hcount⟩ := h
  have hbodies : (missing.map String.toList).length = slotCount args := by
    rw [List.length_map, hmissing]
  obtain ⟨-, htexts, hnames⟩ := splicePieces_fill hbodies
  obtain ⟨hraw, hplain⟩ := plain_of_keys hdirect.valid (hdirect.slots.trans htexts) hkeys hnames
  obtain ⟨ms', hdirect', hkeys', hothers'⟩ := hdirect.refill hbodies List.length_replicate
    (hraw.trans hnames) (stand_replicate (slotCount args))
  have hcandidates : candidateKeys args params = missing.filter fun k =>
      (List.replicate (slotCount args) sentinelKey).count k == 0 := by
    rw [candidateKeys]
    change params.filter (fun k => topLevelKeyCount (masked args) k == 0) = _
    rw [hothers, List.filter_filter]
    apply List.filter_congr
    intro k _
    rw [count_masked hdirect' hkeys', hothers']
    rw [Bool.eq_iff_iff, beq_iff_eq, Bool.and_eq_true, beq_iff_eq, decide_eq_true_iff,
      ← List.count_eq_zero]
    omega
  have heq : candidateKeys args params = missing := by
    rw [hcandidates] at hlength ⊢
    exact List.filter_eq_self.2 (List.length_filter_eq_length_iff.1 (hlength.trans hmissing.symm))
  refine ⟨ms', hdirect', ?_, ?_⟩
  · intro k hk
    rw [hothers', heq, ← hkeys, ← count_keys]
    exact hcount k hk
  · rw [heq]
    exact hplain

theorem SlotsFillable.exact (h : SlotsFillable codec args params)
    (hlength : (candidateKeys args params).length = slotCount args)
    (hvalid : isValid codec
      (spliceEmptyKeySlots args ((candidateKeys args params).map String.toList)) = true) :
    ExactFill codec args params
      (spliceEmptyKeySlots args ((candidateKeys args params).map String.toList)) := by
  obtain ⟨ms, hdirect, hcount, hplain⟩ := h
  obtain ⟨hraw, hsentinels⟩ := slots_masked hdirect
  have hbodies : ((candidateKeys args params).map String.toList).length = slotCount args := by
    rw [List.length_map, hlength]
  obtain ⟨ms', hdirect', hkeys', hothers'⟩ := hdirect.refill List.length_replicate hbodies hraw
    (stand_plain hplain)
  have hobject : ∃ m, fromStr codec
      (spliceEmptyKeySlots args ((candidateKeys args params).map String.toList)) =
        some (.object m) := by
    rw [isValid] at hvalid
    obtain ⟨v, hv⟩ := Option.isSome_iff_exists.1 hvalid
    obtain ⟨m, rfl⟩ := object_of_root hdirect'.root hv
    exact ⟨m, hv⟩
  refine ⟨hobject, splicePieces_nil 0 args, candidateKeys args params, ms', rfl, hlength, hdirect',
    hkeys', ?_, ?_⟩
  · rw [hothers']
    change params.filter (fun k => topLevelKeyCount (masked args) k == 0) = _
    apply List.filter_congr
    intro k hk
    have hone := hcount k hk
    have hmasked := count_masked hdirect hsentinels k
    rw [Bool.eq_iff_iff, beq_iff_eq, decide_eq_true_iff, ← List.count_eq_zero]
    constructor
    · intro hnone
      omega
    · intro hnone
      have hmem : k ∈ candidateKeys args params := by
        apply List.count_pos_iff.1
        omega
      exact beq_iff_eq.1 (List.mem_filter.1 hmem).2
  · intro k hk
    rw [count_keys, hothers', hkeys']
    exact hcount k hk

/-- What the fix makes of the arguments is an exact fill exactly where their slots can be filled. -/
theorem fixArguments_exact_iff
    (h : fixArguments codec args toolName schemas = .ok (some fixed))
    (hparams : Fields.get schemas toolName = some params) :
    ExactFill codec args params fixed ↔ SlotsFillable codec args params := by
  obtain ⟨hlength, -, rfl, hvalid⟩ := fixArguments_some h hparams
  constructor
  · intro hexact
    exact hexact.fillable hlength
  · intro hfillable
    exact hfillable.exact hlength hvalid

theorem fixArguments_exact_iff_path :
    ExactFill integersOnly "\x7b\"a\":1,\x7b\x7d\":2\x7d".toList ["b", "a"]
        "\x7b\"a\":1,\"b\":2\x7d".toList ↔
      SlotsFillable integersOnly "\x7b\"a\":1,\x7b\x7d\":2\x7d".toList ["b", "a"] := by
  have hfix : fixArguments integersOnly "\x7b\"a\":1,\x7b\x7d\":2\x7d".toList "t"
      [("t", ["b", "a"])] = .ok (some "\x7b\"a\":1,\"b\":2\x7d".toList) := by
    decide +kernel
  exact fixArguments_exact_iff hfix rfl

/-- A slot of a nested object is given a parameter of the tool, which then is no top-level key. -/
theorem fixArguments_fills_nested :
    fixArguments integersOnly "\x7b\"a\":\x7b\x7b\x7d\":1\x7d\x7d".toList "t" [("t", ["k"])] =
        .ok (some "\x7b\"a\":\x7b\"k\":1\x7d\x7d".toList) ∧
      ¬ ExactFill integersOnly "\x7b\"a\":\x7b\x7b\x7d\":1\x7d\x7d".toList ["k"]
        "\x7b\"a\":\x7b\"k\":1\x7d\x7d".toList := by
  constructor
  · decide +kernel
  · rintro ⟨-, -, missing, ms, hfixed, -, hdirect, -, -, hcount⟩
    have hone := hcount "k" List.mem_cons_self
    have hkeys := hdirect.root.streamKeys
    rw [← hfixed] at hkeys
    have htop : streamKeys "\x7b\"a\":\x7b\"k\":1\x7d\x7d".toList = some ["a"] := by decide +kernel
    rw [htop, Option.some.injEq] at hkeys
    rw [← hkeys] at hone
    exact absurd hone (by decide)

end ToolcallMalformedArgumentsFix

end LocalMind
