import LocalMind.Json.Reread
import LocalMind.Proxy.KvLabels

namespace LocalMind.KvLabels
set_option autoImplicit true
open Json Text Ordered

/-! A rendered label set is read back, and the series of the lowest engine is picked. -/

theorem unescapeFrom_renderChar (c : Char) (s : List Char) :
    unescapeFrom false (renderChar c ++ s) = c :: unescapeFrom false s := by
  rw [renderChar]
  split
  · next h => rw [h]; rfl
  · next hback =>
    split
    · next h => rw [h]; rfl
    · split
      · next h => rw [h]; rfl
      · rw [List.singleton_append, unescapeFrom, if_neg Bool.false_ne_true, if_neg hback]

theorem unescapeFrom_render (v : List Char) : unescapeFrom false (v.flatMap renderChar) = v := by
  induction v with
  | nil => rfl
  | cons c v ih => rw [List.flatMap_cons, unescapeFrom_renderChar, ih]

theorem unescapeFrom_plain (h : '\\' ∉ s) : unescapeFrom false s = s := by
  induction s with
  | nil => rfl
  | cons c s ih =>
    have hc : c ≠ '\\' := fun hc => h (hc ▸ List.mem_cons_self)
    rw [unescapeFrom, if_neg Bool.false_ne_true, if_neg hc,
      ih fun hs => h (List.mem_cons_of_mem c hs)]

theorem unclosed_renderChar (c : Char) : Unclosed (renderChar c) := by
  rw [renderChar]
  split
  · exact .escaped .nil
  · next hback =>
    split
    · exact .escaped .nil
    · next hquote =>
      split
      · exact .escaped .nil
      · exact .plain hquote hback .nil

theorem unclosed_render (v : List Char) : Unclosed (v.flatMap renderChar) := by
  induction v with
  | nil => exact .nil
  | cons c v ih =>
    rw [List.flatMap_cons]
    exact (unclosed_renderChar c).append ih

theorem unquote_quoted (raw : List Char) :
    unquote ('"' :: (raw ++ ['"'])) = some (unescapeFrom false raw) := by
  have hprefix : stripPrefix ['"'] ('"' :: (raw ++ ['"'])) = some (raw ++ ['"']) := rfl
  rw [unquote, hprefix]
  dsimp only
  rw [if_pos List.getLast?_concat, List.dropLast_concat]
  split
  · rfl
  · next h => rw [unescapeFrom_plain h]

theorem stripPrefix_eq_some : stripPrefix pre s = some t ↔ s = pre ++ t := by
  rw [stripPrefix]
  constructor
  · intro h
    split at h
    · next hpre =>
      cases h
      exact (List.prefix_iff_eq_append.1 (List.isPrefixOf_iff_prefix.1 hpre)).symm
    · cases h
  · intro h
    rw [h, if_pos (List.isPrefixOf_iff_prefix.2 (List.prefix_append pre t)), List.drop_left]

theorem unquote_eq_some (h : unquote s = some v) :
    ∃ raw, s = '"' :: (raw ++ ['"']) ∧ v = unescapeFrom false raw := by
  have hquoted : ∃ raw, s = '"' :: (raw ++ ['"']) := by
    rw [unquote] at h
    split at h
    · cases h
    · next t ht =>
      split at h
      · next hlast =>
        obtain ⟨raw, hraw⟩ := List.getLast?_eq_some_iff.1 hlast
        rw [stripPrefix_eq_some.1 ht, hraw]
        exact ⟨raw, rfl⟩
      · cases h
  obtain ⟨raw, rfl⟩ := hquoted
  rw [unquote_quoted] at h
  exact ⟨raw, rfl, (Option.some.inj h).symm⟩

/-- A segment adds what it says. -/
theorem insertPair_reads (h : SegmentReads seg e) (labels : Labels) :
    insertPair labels seg = e.elim labels fun e => Fields.insert labels e.1 e.2 := by
  cases h with
  | @pair name value raw hname hne hvalue =>
    have hnonempty : (!(trim name).isEmpty) = true := by simpa using hne
    rw [insertPair, splitOnce_mark hname]
    dsimp only
    rw [hvalue, unquote_quoted]
    dsimp only
    rw [if_pos hnonempty]
    rfl
  | other hother =>
    rw [insertPair]
    split
    · rfl
    · next name value hsplit =>
      split
      · rfl
      · next v hv =>
        obtain ⟨raw, hraw, -⟩ := unquote_eq_some hv
        have hseg := splitOnce_eq_some hsplit
        rw [List.append_assoc] at hseg
        split
        · next hne =>
          have hname : trim name ≠ [] := by simpa using hne
          exact absurd hraw (hother name value raw hseg (splitOnce_mark_notMem hsplit) hname)
        · rfl

theorem segmentReads_total (seg : List Char) : ∃ e, SegmentReads seg e := by
  by_cases h : ∃ name value raw, seg = name ++ '=' :: value ∧ '=' ∉ name ∧ trim name ≠ [] ∧
      trim value = '"' :: (raw ++ ['"'])
  · obtain ⟨name, value, raw, rfl, hname, hne, hvalue⟩ := h
    exact ⟨_, .pair hname hne hvalue⟩
  · refine ⟨none, .other ?_⟩
    intro name value raw hseg hname hne hvalue
    exact h ⟨name, value, raw, hseg, hname, hne, hvalue⟩

theorem foldl_insertPair (h : List.Forall₂ SegmentReads segs es) (labels : Labels) :
    segs.foldl insertPair labels = Fields.insertAll labels es.reduceOption := by
  induction h generalizing labels with
  | nil => rfl
  | @cons seg e segs es hseg _ ih =>
    rw [List.foldl_cons, insertPair_reads hseg, ih]
    cases e with
    | none => rfl
    | some e => rfl

theorem isNameChar_toNat (h : isNameChar c = true) :
    (48 ≤ c.toNat ∧ c.toNat ≤ 57) ∨ (65 ≤ c.toNat ∧ c.toNat ≤ 90) ∨ c.toNat = 95 ∨
      (97 ≤ c.toNat ∧ c.toNat ≤ 122) := by
  simp only [isNameChar, Char.isAlphanum, Char.isAlpha, Char.isUpper, Char.isLower, Char.isDigit,
    Bool.or_eq_true, Bool.and_eq_true, decide_eq_true_eq, beq_iff_eq, ge_iff_le,
    UInt32.le_iff_toNat_le] at h
  rcases h with ((⟨h₁, h₂⟩ | ⟨h₁, h₂⟩) | ⟨h₁, h₂⟩) | h
  · exact .inr (.inl ⟨h₁, h₂⟩)
  · exact .inr (.inr (.inr ⟨h₁, h₂⟩))
  · exact .inl ⟨h₁, h₂⟩
  · rw [h]
    exact .inr (.inr (.inl rfl))

theorem isNameChar_not_isWhitespace (h : isNameChar c = true) : isWhitespace c = false := by
  have hc := isNameChar_toNat h
  simp only [isWhitespace, Bool.or_eq_false_iff, decide_eq_false_iff_not, beq_eq_false_iff_ne]
  omega

theorem isNameChar_ne (h : isNameChar c = true) : c ≠ '"' ∧ c ≠ '=' ∧ isMark c = false := by
  have hc := isNameChar_toNat h
  have hne (d : Char) (hd : c.toNat ≠ d.toNat) : c ≠ d := fun h => hd (congrArg Char.toNat h)
  have hmark : isMark c = false := by
    rw [isMark, Bool.or_eq_false_iff, beq_eq_false_iff_ne, beq_eq_false_iff_ne]
    constructor
    · apply hne
      change _ ≠ 44
      omega
    · apply hne
      change _ ≠ 125
      omega
  refine ⟨hne _ ?_, hne _ ?_, hmark⟩
  · change _ ≠ 34
    omega
  · change _ ≠ 61
    omega

theorem LegalName.isNameChar (h : LegalName k) : ∀ c ∈ k.toList, isNameChar c = true := by
  obtain ⟨c, t, hk, hc, ht⟩ := h
  rw [hk]
  intro d hd
  cases hd with
  | head =>
    rw [isNameStart, Bool.or_eq_true] at hc
    rw [KvLabels.isNameChar, Bool.or_eq_true, Char.isAlphanum, Bool.or_eq_true]
    exact hc.imp_left .inl
  | tail _ hd => exact ht d hd

theorem LegalName.trim (h : LegalName k) : trim k.toList = k.toList :=
  trim_bare fun c hc => isNameChar_not_isWhitespace (h.isNameChar c hc)

theorem LegalName.ne_nil (h : LegalName k) : k.toList ≠ [] := by
  obtain ⟨c, t, hk, -⟩ := h
  rw [hk]
  exact List.cons_ne_nil c t

theorem delimited_renderPair (h : LegalName e.1) : Delimited isMark (renderPair e) := by
  have hname : Delimited isMark e.1.toList := by
    apply Delimited.all
    intro c hc
    obtain ⟨hquote, -, hmark⟩ := isNameChar_ne (h.isNameChar c hc)
    exact ⟨hquote, hmark⟩
  have hnil : Delimited isMark [] := .nil
  have hvalue := hnil.quoted (unclosed_render e.2.toList)
  exact hname.append (.plain (by decide) rfl hvalue)

/-- A rendered pair says its name and its value. -/
theorem segmentReads_renderPair (h : LegalName e.1) : SegmentReads (renderPair e) (some e) := by
  have heq : '=' ∉ e.1.toList := by
    intro hc
    exact (isNameChar_ne (h.isNameChar _ hc)).2.1 rfl
  have hne : trim e.1.toList ≠ [] := by
    rw [h.trim]
    exact h.ne_nil
  have hvalue : trim ('"' :: (e.2.toList.flatMap renderChar ++ ['"'])) =
      '"' :: (e.2.toList.flatMap renderChar ++ ['"']) := by
    rw [trim, trimStart_cons rfl, ← List.cons_append, trimEnd_append rfl]
    rfl
  have hreads := SegmentReads.pair heq hne hvalue
  rw [h.trim, unescapeFrom_render, String.ofList_toList, String.ofList_toList] at hreads
  exact hreads

theorem insertAll_eq_nil {es : Labels} : Fields.insertAll [] es = [] ↔ es = [] := by
  constructor
  · intro h
    cases es with
    | nil => rfl
    | cons e es =>
      have hmem : e.1 ∈ Fields.keys (Fields.insertAll [] (e :: es)) := by
        rw [Fields.mem_keys_insertAll]
        exact .inl List.mem_cons_self
      rw [h] at hmem
      cases hmem
  · intro h
    rw [h]
    rfl

theorem parseLabelPairs_reads (hne : segs ≠ []) (hsegs : ∀ seg ∈ segs, Delimited isMark seg)
    (h : List.Forall₂ SegmentReads segs es) :
    parseLabelPairs (joinWith ',' segs) = Fields.insertAll [] es.reduceOption := by
  obtain ⟨p, ps, rfl⟩ := List.exists_cons_of_ne_nil hne
  have hcomma : ∀ q ∈ p :: ps, Delimited (· == ',') q := by
    intro q hq
    apply (hsegs q hq).mono
    intro c hc
    exact (Bool.or_eq_false_iff.1 hc).1
  rw [parseLabelPairs, splitOutside_joinWith (by decide) (by decide) hcomma]
  exact foldl_insertPair h []

theorem delimited_segments (hsegs : ∀ seg ∈ segs, Delimited isMark seg) :
    Delimited (· == '}') (joinWith ',' segs) := by
  apply Delimited.joinWith (by decide) rfl
  intro q hq
  apply (hsegs q hq).mono
  intro c hc
  exact (Bool.or_eq_false_iff.1 hc).2

/-- The labels of a line that opens a label set of the gauge. -/
theorem cacheConfigLabels_open (h : trim line = METRIC_NAME ++ '{' :: s) :
    cacheConfigLabels line = (labelSetInner s).bind fun inner =>
      if !(parseLabelPairs inner).isEmpty then some (parseLabelPairs inner) else none := by
  have hname : stripPrefix METRIC_NAME (METRIC_NAME ++ '{' :: s) = some ('{' :: s) :=
    stripPrefix_eq_some.2 rfl
  have hopen : stripPrefix ['{'] ('{' :: s) = some s := stripPrefix_eq_some.2 rfl
  have hhead : (METRIC_NAME ++ '{' :: s).head? ≠ some '#' := by
    intro h
    cases h
  rw [cacheConfigLabels]
  dsimp only
  rw [h, if_neg hhead, hname]
  dsimp only [bind, Option.bind_some]
  rw [hopen]
  rfl

theorem labelSetInner_closed (h : Delimited (· == '}') labelSet) (sample : List Char) :
    labelSetInner (labelSet ++ '}' :: sample) = some labelSet := by
  rw [labelSetInner, cutOutside_delimited h (by decide) (by decide)]
  rfl

theorem cacheConfigLabels_segments
    (h : trim line = METRIC_NAME ++ '{' :: (joinWith ',' segs ++ '}' :: sample)) (hne : segs ≠ [])
    (hsegs : ∀ seg ∈ segs, Delimited isMark seg) (hreads : List.Forall₂ SegmentReads segs es) :
    cacheConfigLabels line = labelsOf es := by
  rw [cacheConfigLabels_open h, labelSetInner_closed (delimited_segments hsegs), Option.bind_some,
    parseLabelPairs_reads hne hsegs hreads, labelsOf]
  by_cases hes : es.reduceOption = []
  · rw [if_pos hes, hes]
    rfl
  · have hlabels : Fields.insertAll [] es.reduceOption ≠ [] := fun h => hes (insertAll_eq_nil.1 h)
    rw [if_neg hes, if_pos (by simpa using hlabels)]

theorem trim_renderSeries (hw : ∀ c ∈ w, isWhitespace c = true) (m : Labels) (trailing : Bool)
    (sample : List Char) :
    trim (w ++ renderSeries m trailing sample) =
      METRIC_NAME ++
        '{' :: (joinWith ',' (renderSegments m trailing) ++ '}' :: trimEnd sample) := by
  have hstart (s : List Char) : trimStart (METRIC_NAME ++ s) = METRIC_NAME ++ s :=
    trimStart_cons rfl _
  rw [trim, trimStart_append hw, renderSeries, hstart, ← List.cons_append, ← List.append_assoc,
    trimEnd_append rfl, List.append_assoc, List.cons_append]

theorem reads_renderSegments (h : Legal m) (trailing : Bool) :
    (∀ seg ∈ renderSegments m trailing, Delimited isMark seg) ∧
      List.Forall₂ SegmentReads (renderSegments m trailing)
        (m.map some ++ if trailing then [none] else []) := by
  have hname : ∀ e ∈ m, LegalName e.1 := fun e he => h.names _ (List.mem_map_of_mem he)
  have hpairs : List.Forall₂ SegmentReads (m.map renderPair) (m.map some) := by
    rw [List.forall₂_map_left_iff, List.forall₂_map_right_iff, List.forall₂_same]
    exact fun e he => segmentReads_renderPair (hname e he)
  have hempty : SegmentReads [] none := by
    apply SegmentReads.other
    intro name value raw h
    exact absurd h.symm (List.append_ne_nil_of_right_ne_nil _ (List.cons_ne_nil _ _))
  constructor
  · intro seg hseg
    rcases List.mem_append.1 hseg with hseg | hseg
    · obtain ⟨e, he, rfl⟩ := List.mem_map.1 hseg
      exact delimited_renderPair (hname e he)
    · cases trailing with
      | false => cases hseg
      | true =>
        rw [List.mem_singleton.1 hseg]
        exact .nil
  · apply List.rel_append hpairs
    cases trailing with
    | false => exact .nil
    | true => exact .cons hempty .nil

theorem labelsOf_map (h : Legal m) (trailing : Bool) :
    labelsOf (m.map some ++ if trailing then [none] else []) = some m := by
  have hreduce : (m.map some ++ if trailing then [none] else []).reduceOption = m := by
    rw [List.reduceOption_append]
    cases trailing <;> simp [List.reduceOption]
  have hinsert : Fields.insertAll [] m = m := Fields.insertAll_of_nodup h.distinct
  rw [labelsOf, hreduce, if_neg h.nonempty, hinsert]

/-- The labels of a line are what it says. -/
theorem cacheConfigLabels_reads (h : LineReads line r) : cacheConfigLabels line = r := by
  cases h with
  | @series w m trailing sample hw hm =>
    obtain ⟨hsegs, hreads⟩ := reads_renderSegments hm trailing
    have hne : renderSegments m trailing ≠ [] := by
      rw [renderSegments]
      apply List.append_ne_nil_of_left_ne_nil
      exact fun h => hm.nonempty (List.map_eq_nil_iff.1 h)
    rw [cacheConfigLabels_segments (trim_renderSeries hw m trailing sample) hne hsegs hreads,
      labelsOf_map hm]
  | foreign hforeign =>
    rw [cacheConfigLabels]
    dsimp only
    split
    · rfl
    · cases hname : stripPrefix METRIC_NAME (trim line) with
      | none => rfl
      | some t =>
        cases hopen : stripPrefix ['{'] t with
        | none =>
          dsimp only [bind, Option.bind_some]
          rw [hopen]
          rfl
        | some s =>
          have hline : trim line = METRIC_NAME ++ ['{'] ++ s := by
            rw [stripPrefix_eq_some.1 hname, stripPrefix_eq_some.1 hopen, List.append_assoc]
          exact absurd ⟨s, hline.symm⟩ hforeign
  | unterminated hopen hclose =>
    rw [cacheConfigLabels_open hopen, labelSetInner]
    cases hcut : cutOutside '}' false false _ with
    | none => rfl
    | some p =>
      obtain ⟨hs, hinner⟩ := (cutOutside_iff (by decide) (by decide)).1 hcut
      exact absurd hinner (hclose _ _ hs)
  | segments hopen hne hsegs hreads => exact cacheConfigLabels_segments hopen hne hsegs hreads

/-- Every line says something. -/
theorem lineReads_total (line : List Char) : ∃ r, LineReads line r := by
  by_cases hopen : METRIC_NAME ++ ['{'] <+: trim line
  case neg => exact ⟨none, .foreign hopen⟩
  case pos =>
    obtain ⟨s, hs⟩ := hopen
    rw [List.append_assoc, List.singleton_append] at hs
    by_cases hclose : ∃ set sample, s = set ++ '}' :: sample ∧ Delimited (· == '}') set
    case neg =>
      refine ⟨none, .unterminated hs.symm ?_⟩
      intro set sample hset hdelimited
      exact hclose ⟨set, sample, hset, hdelimited⟩
    case pos =>
      obtain ⟨set, sample, rfl, hset⟩ := hclose
      obtain ⟨p, ps, rfl, hsegs⟩ := hset.pieces ','
      have hmarks : ∀ seg ∈ p :: ps, Delimited isMark seg := by
        intro seg hseg
        apply (hsegs seg hseg).mono
        intro c hc
        rw [isMark, Bool.or_comm]
        exact hc
      have hreads : ∃ es, List.Forall₂ SegmentReads (p :: ps) es := by
        choose f hf using segmentReads_total
        refine ⟨(p :: ps).map f, List.forall₂_map_right_iff.2 (List.forall₂_same.2 ?_)⟩
        exact fun seg _ => hf seg
      obtain ⟨es, hes⟩ := hreads
      exact ⟨labelsOf es, .segments hs.symm (List.cons_ne_nil p ps) hmarks hes⟩

/-- The series that a scan holds as its best are picked from those it has seen. -/
def Holds (series : List Labels) (best : Option (String × Labels)) : Prop :=
  Picks series (best.map Prod.snd) ∧ ∀ e ∈ best, e.1 = engineOf e.2

theorem Holds.pickLowest (h : Holds series best) (hline : cacheConfigLabels line = r) :
    Holds (series ++ r.toList) (pickLowest best line) := by
  rw [KvLabels.pickLowest, hline]
  cases r with
  | none =>
    rw [Option.toList_none, List.append_nil]
    exact h
  | some m =>
    have hfirst : ∀ e ∈ some (engineOf m, m), e.1 = engineOf e.2 := by
      intro e he
      rw [← Option.mem_some_iff.1 he]
    obtain ⟨⟨rfl, hbest⟩ | ⟨l, hbest, hmin⟩, hengine⟩ := h
    · obtain rfl := Option.map_eq_none_iff.1 hbest
      exact ⟨.inr ⟨m, rfl, FirstMin.singleton engineOf m⟩, hfirst⟩
    · obtain ⟨⟨e, l⟩, rfl, rfl⟩ := Option.map_eq_some_iff.1 hbest
      have he : e = engineOf l := hengine _ rfl
      subst he
      dsimp only
      split
      · next hlt => exact ⟨.inr ⟨m, rfl, hmin.concat_lower hlt⟩, hfirst⟩
      · next hge => exact ⟨.inr ⟨l, rfl, hmin.concat_keep hge⟩, hengine⟩

theorem Holds.foldl (h : Holds series best) (ls : List (List Char)) :
    Holds (series ++ ls.filterMap cacheConfigLabels) (ls.foldl KvLabels.pickLowest best) := by
  induction ls generalizing series best with
  | nil =>
    rw [List.filterMap_nil, List.append_nil]
    exact h
  | cons line ls ih =>
    have hline : cacheConfigLabels line = cacheConfigLabels line := rfl
    have hstep := ih (h.pickLowest hline)
    rw [List.append_assoc] at hstep
    rw [List.filterMap_cons]
    cases hline : cacheConfigLabels line with
    | none =>
      rw [hline] at hstep
      exact hstep
    | some m =>
      rw [hline] at hstep
      exact hstep

theorem picks_lines (body : List Char) :
    Picks ((lines body).filterMap cacheConfigLabels) (parseCacheConfigInfo body) := by
  have hnone : Holds [] none := ⟨.inl ⟨rfl, rfl⟩, fun _ h => by cases h⟩
  exact (hnone.foldl (lines body)).1

theorem reduceOption_reads (h : List.Forall₂ LineReads ls reads) :
    reads.reduceOption = ls.filterMap cacheConfigLabels := by
  induction h with
  | nil => rfl
  | @cons line r ls reads hline _ ih =>
    have hlabels := cacheConfigLabels_reads hline
    rw [List.filterMap_cons, hlabels]
    cases r with
    | none => exact ih
    | some m => rw [List.reduceOption_cons_of_some, ih]

/-- Of the series that a body says, in its order, the first one of the lowest engine is taken, as
a whole; rendered label sets say exactly their map. -/
theorem parseCacheConfigInfo_exact (h : List.Forall₂ LineReads (lines body) reads) :
    Picks reads.reduceOption (parseCacheConfigInfo body) := by
  rw [reduceOption_reads h]
  exact picks_lines body

theorem Picks.eq_none_iff (h : Picks series r) : r = none ↔ series = [] := by
  obtain ⟨rfl, rfl⟩ | ⟨m, rfl, hmin⟩ := h
  · exact ⟨fun _ => rfl, fun _ => rfl⟩
  · constructor
    · intro h
      cases h
    · intro h
      exact absurd h (List.ne_nil_of_mem hmin.mem)

/-- The first series is picked where no other one has a lower engine. -/
theorem Picks.eq_head_iff (h : Picks (info :: series) r) :
    r = some info ↔ ∀ labels ∈ info :: series, ¬ engineOf labels < engineOf info := by
  obtain ⟨h, -⟩ | ⟨m, rfl, hmin⟩ := h
  · cases h
  · rw [Option.some.injEq]
    constructor
    · intro hm
      subst hm
      exact fun labels hlabels => (hmin.le hlabels).not_gt
    · intro hinfo
      obtain ⟨before, after, hseries, hbefore, -⟩ := hmin
      cases before with
      | nil => exact (List.cons.inj hseries).1.symm
      | cons a before =>
        obtain ⟨rfl, -⟩ := List.cons.inj hseries
        have hm : m ∈ info :: series := by
          rw [hseries]
          exact List.mem_append_right _ List.mem_cons_self
        exact absurd (hbefore info List.mem_cons_self) (hinfo m hm)

theorem legalName_singleton (h : isNameStart c = true) : LegalName (String.ofList [c]) :=
  ⟨c, [], String.toList_ofList, h, fun _ hd => absurd hd List.not_mem_nil⟩

theorem legal_singleton (h : LegalName k) (v : String) : Legal [(k, v)] := by
  constructor
  case nonempty => exact List.cons_ne_nil _ _
  case distinct => exact List.nodup_singleton k
  case names =>
    intro l hl
    rw [List.mem_singleton.1 hl]
    exact h

theorem parseCacheConfigInfo_exact_braces :
    Picks [[(String.ofList ['a'], "\"\x7d,\\")], [(String.ofList ['b'], "=\n")]]
      (parseCacheConfigInfo
        ('#' :: '\n' :: (renderSeries [(String.ofList ['a'], "\"\x7d,\\")] true [] ++
          '\n' :: renderSeries [(String.ofList ['b'], "=\n")] false []))) := by
  have hcomment : LineReads ['#'] none := by
    apply LineReads.foreign
    decide
  have hfirst : LineReads ([] ++ renderSeries [(String.ofList ['a'], "\"\x7d,\\")] true [])
      (some [(String.ofList ['a'], "\"\x7d,\\")]) :=
    .series (fun _ h => absurd h List.not_mem_nil) (legal_singleton (legalName_singleton rfl) _)
  have hsecond : LineReads ([] ++ renderSeries [(String.ofList ['b'], "=\n")] false [])
      (some [(String.ofList ['b'], "=\n")]) :=
    .series (fun _ h => absurd h List.not_mem_nil) (legal_singleton (legalName_singleton rfl) _)
  have hlines : lines ('#' :: '\n' :: (renderSeries [(String.ofList ['a'], "\"\x7d,\\")] true [] ++
      '\n' :: renderSeries [(String.ofList ['b'], "=\n")] false [])) =
        [['#'], [] ++ renderSeries [(String.ofList ['a'], "\"\x7d,\\")] true [],
          [] ++ renderSeries [(String.ofList ['b'], "=\n")] false []] := by
    rfl
  have hreads := List.Forall₂.cons hcomment (.cons hfirst (.cons hsecond .nil))
  rw [← hlines] at hreads
  exact parseCacheConfigInfo_exact hreads

/-- A line of the gauge that no label set renders to is taken for a series of the pairs it has,
before the series behind it. -/
theorem parseCacheConfigInfo_takes_malformed :
    ∃ malformed m sample body, lines body = [malformed, renderSeries m false sample] ∧ Legal m ∧
      (∀ w l trailing sample, (∀ c ∈ w, isWhitespace c = true) → Legal l →
        malformed ≠ w ++ renderSeries l trailing sample) ∧
      parseCacheConfigInfo body ≠ some m := by
  refine ⟨METRIC_NAME ++ '{' :: ("x,b=\"\"".toList ++ ['}']), [(String.ofList ['a'], "")], [],
    METRIC_NAME ++ '{' :: ("x,b=\"\"".toList ++ '}' :: '\n' ::
      renderSeries [(String.ofList ['a'], "")] false []), by rfl,
    legal_singleton (legalName_singleton rfl) "", ?_, by decide⟩
  intro w l trailing sample hw hl heq
  have hlabels : cacheConfigLabels (METRIC_NAME ++ '{' :: ("x,b=\"\"".toList ++ ['}'])) =
      some [("b", "")] := by
    rfl
  rw [heq, cacheConfigLabels_reads (.series hw hl)] at hlabels
  obtain rfl := Option.some.inj hlabels
  have htrim := trim_renderSeries hw [("b", "")] trailing sample
  rw [← heq] at htrim
  have hplain : trim (METRIC_NAME ++ '{' :: ("x,b=\"\"".toList ++ ['}'])) =
      METRIC_NAME ++ '{' :: ("x,b=\"\"".toList ++ ['}']) := by
    rfl
  rw [hplain, List.append_cancel_left_eq] at htrim
  have hname : some 'x' = some 'b' := by
    cases trailing with
    | false => exact congrArg (·[1]?) htrim
    | true => exact congrArg (·[1]?) htrim
  exact absurd hname (by decide)

end LocalMind.KvLabels
