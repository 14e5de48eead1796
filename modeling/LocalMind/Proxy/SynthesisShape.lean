import LocalMind.Proxy.SynthesisDecode

namespace LocalMind
set_option autoImplicit true
open Json

/-! The shape of a synthesized stream. -/

/-- A chunk of one choice, in the envelope of the body. -/
structure ChunkOf (raw : Value) (info : StreamMeta) (idx : UInt64) (delta finish chunk : Value) :
    Prop where
  choices : chunk.get "choices" = some (.array [.object [("index", .number (.posInt idx)),
    ("delta", delta), ("finish_reason", finish)]])
  id : chunk.get "id" = raw.get "id"
  object : chunk.get "object" = some (.string "chat.completion.chunk")
  created : chunk.get "created" = some (numberOfI64 info.created)
  model : chunk.get "model" = raw.get "model"
  unknown : ∀ k ∉ knownFields, chunk.get k = raw.get k

/-- A chunk that brings one field of the message and no finish reason. -/
def IsDelta (raw : Value) (info : StreamMeta) (idx : UInt64) (kind : String) (chunk : Value) :
    Prop :=
  ∃ x, ChunkOf raw info idx (.object [(kind, x)]) .null chunk

/-- At most one chunk of a kind. -/
def AtMostOne (raw : Value) (info : StreamMeta) (idx : UInt64) (kind : String)
    (chunks : List Value) : Prop :=
  chunks.length ≤ 1 ∧ ∀ c ∈ chunks, IsDelta raw info idx kind c

/-- The chunks of one choice, in their order and under one index. -/
structure ChoiceRun (raw : Value) (info : StreamMeta) (idx : UInt64) (run : List Value) :
    Prop where
  parts : ∃ role reasoning sealed content tools final reason,
    run = role ++ reasoning ++ sealed ++ content ++ tools ++ [final] ∧
    AtMostOne raw info idx "role" role ∧ AtMostOne raw info idx "reasoning_text" reasoning ∧
    AtMostOne raw info idx "reasoning_opaque" sealed ∧
    (∀ c ∈ content, IsDelta raw info idx "content" c) ∧
    AtMostOne raw info idx "tool_calls" tools ∧
    ChunkOf raw info idx (.object []) (.string reason) final

/-- The index of a chunk that carries a finish reason. -/
def finishIndex (chunk : Value) : Option UInt64 :=
  match chunk.get "choices" with
  | some (.array [choice]) =>
    if (choice.get "finish_reason").all Value.isNull then none
    else (choice.get "index").bind Value.asU64
  | _ => none

/-- The indices of the runs, read off the chunks that end them. -/
def finishIndices (chunks : List Value) : List UInt64 := chunks.filterMap finishIndex

/-- A statistic of the body. A null one is none. -/
def statOf (raw : Value) (k : String) : Option Value := (raw.get k).filter fun v => !v.isNull

structure OpenaiStreamOk (raw : Value) (parsed : RawCompletion) (events : List Event) : Prop where
  runs : ∃ runs : List (UInt64 × List Value),
    events = (runs.flatMap Prod.snd).map .json ++ [.done] ∧
    runs.length = parsed.choices.length ∧ ∀ r ∈ runs, ChoiceRun raw parsed.streamMeta r.1 r.2
  distinct : (finishIndices (payloads events)).Nodup
  stats : ∃ chunks final, payloads events = chunks ++ [final] ∧
    (finishIndex final).isSome = true ∧
    (∀ c ∈ chunks, c.get "usage" = none ∧ c.get "timings" = none) ∧
    final.get "usage" = statOf raw "usage" ∧ final.get "timings" = statOf raw "timings"

/-- The index that a choice names. -/
def namedIndex (choice : Value) : Option UInt64 := (choice.get "index").bind Value.asU64

/-- No two choices name one index, and none names the place of a choice that names none. -/
structure IndicesClear (choices : List Value) : Prop where
  named : ∀ (i j : Nat) (a : UInt64), choices[i]?.map namedIndex = some (some a) →
    choices[j]?.map namedIndex = some (some a) → i = j
  unnamed : ∀ i j : Nat, choices[i]?.map namedIndex = some none →
    choices[j]?.map namedIndex ≠ some (some (UInt64.ofNat i))

/-- A statistic is absent, null or an object. -/
def StatPlain (raw : Value) (k : String) : Prop :=
  ∀ v, raw.get k = some v → v.isNull = true ∨ v.isObject = true

/-! The chunks. -/

theorem chunkOf_envelope (hd : Distinct raw) (h : parseRawCompletion now raw = .ok parsed)
    (delta finish : Value) (idx : UInt64) :
    ChunkOf raw parsed.streamMeta idx delta finish
      (chunkEnvelope parsed.streamMeta delta finish idx) := by
  obtain ⟨hx, -⟩ := parseRawCompletion_ok h
  obtain ⟨obj, rfl, hid, hmodel, hextras, -⟩ := parseRawCompletion_meta h
  refine ⟨get_chunkEnvelope hx (by decide) _ _ _, ?_, get_chunkEnvelope hx (by decide) _ _ _,
    get_chunkEnvelope hx (by decide) _ _ _, ?_, ?_⟩
  · rw [hid]
    exact get_chunkEnvelope hx (by decide) _ _ _
  · rw [hmodel]
    exact get_chunkEnvelope hx (by decide) _ _ _
  · intro k hk
    have hnodup : (Fields.keys parsed.streamMeta.extras).Nodup := by
      rw [hextras]
      exact Fields.keys_nodup_insertAll List.nodup_nil
    have hbase : Fields.get
        [("id", .string parsed.streamMeta.id), ("object", .string "chat.completion.chunk"),
          ("created", numberOfI64 parsed.streamMeta.created),
          ("model", .string parsed.streamMeta.model),
          ("choices", .array [.object [("index", .number (.posInt idx)), ("delta", delta),
            ("finish_reason", finish)]])] k = none := by
      apply Fields.get_eq_none_iff.2
      intro hmem
      apply hk
      simp only [Fields.keys, List.map_cons, List.map_nil, List.mem_cons, List.not_mem_nil,
        or_false] at hmem
      obtain rfl | rfl | rfl | rfl | rfl := hmem <;> decide
    have hextra := get_extrasOf (hd obj rfl) k
    rw [← hextras, if_neg (by simpa using hk)] at hextra
    refine (Fields.get_insertAll hnodup k).trans ?_
    rw [hbase, Option.or_none]
    exact hextra

theorem isDelta_envelope (hd : Distinct raw) (h : parseRawCompletion now raw = .ok parsed)
    (hkind : kind ≠ FINISH_EVENT) (x : Value) (idx : UInt64) :
    IsDelta raw parsed.streamMeta idx kind (sseEnvelope parsed.streamMeta kind x idx) := by
  rw [sseEnvelope, if_neg hkind]
  exact ⟨x, chunkOf_envelope hd h _ _ idx⟩

theorem ChunkOf.putSome {info : StreamMeta} (h : ChunkOf raw info idx delta finish chunk)
    (hk : k = "usage" ∨ k = "timings") (x : Option Value) :
    ChunkOf raw info idx delta finish (putSome chunk k x) := by
  have hobj : chunk.isObject = true := Value.isObject_iff.2 (Value.object_of_get h.choices)
  have hget : ∀ l, l ≠ "usage" → l ≠ "timings" → (LocalMind.putSome chunk k x).get l =
      chunk.get l := by
    intro l hu ht
    rw [get_putSome hobj, if_neg]
    rintro rfl
    exact hk.elim hu ht
  refine ⟨?_, ?_, ?_, ?_, ?_, fun l hl => ?_⟩
  · rw [hget _ (by decide) (by decide), h.choices]
  · rw [hget _ (by decide) (by decide), h.id]
  · rw [hget _ (by decide) (by decide), h.object]
  · rw [hget _ (by decide) (by decide), h.created]
  · rw [hget _ (by decide) (by decide), h.model]
  · rw [hget l ?_ ?_, h.unknown l hl]
    · rintro rfl
      exact hl (by decide)
    · rintro rfl
      exact hl (by decide)

theorem chunkOf_final (hd : Distinct raw) (h : parseRawCompletion now raw = .ok parsed)
    (choice message : Value) (idx : UInt64) (usage timings : Option Value) :
    ChunkOf raw parsed.streamMeta idx (.object []) (.string (finishReasonOf choice message))
      (finalChunk parsed.streamMeta choice message idx usage timings) := by
  have henvelope := chunkOf_envelope hd h (.object []) (.string (finishReasonOf choice message)) idx
  rw [finalChunk, sseEnvelope, if_pos rfl]
  exact (henvelope.putSome (.inl rfl) usage).putSome (.inr rfl) timings

theorem stringChunk_atMostOne (hd : Distinct raw) (h : parseRawCompletion now raw = .ok parsed)
    (hkind : kind ≠ FINISH_EVENT) (message : Value) (idx : UInt64) :
    AtMostOne raw parsed.streamMeta idx kind (stringChunk parsed.streamMeta kind message idx) := by
  rw [stringChunk]
  cases (message.get kind).bind Value.asStr with
  | none => exact ⟨Nat.zero_le 1, List.forall_mem_nil _⟩
  | some s =>
    refine ⟨Nat.le_refl 1, fun c hc => ?_⟩
    rw [List.mem_singleton.1 hc]
    exact isDelta_envelope hd h hkind _ idx

theorem contentChunks_deltas (hd : Distinct raw) (h : parseRawCompletion now raw = .ok parsed)
    (message : Value) (idx : UInt64) (size : Nat) :
    ∀ c ∈ contentChunks parsed.streamMeta message idx size,
      IsDelta raw parsed.streamMeta idx "content" c := by
  have hone : ∀ x, ∀ c ∈ [sseEnvelope parsed.streamMeta "content" x idx],
      IsDelta raw parsed.streamMeta idx "content" c := by
    intro x c hc
    rw [List.mem_singleton.1 hc]
    exact isDelta_envelope hd h (by decide) x idx
  rw [contentChunks]
  split
  · split
    · exact List.forall_mem_nil _
    · intro c hc
      obtain ⟨piece, -, rfl⟩ := List.mem_map.1 hc
      exact isDelta_envelope hd h (by decide) _ idx
  · exact List.forall_mem_nil _
  · exact hone _
  · exact List.forall_mem_nil _

theorem toolCallsChunk_atMostOne (hd : Distinct raw) (h : parseRawCompletion now raw = .ok parsed)
    (message : Value) (idx : UInt64) : AtMostOne raw parsed.streamMeta idx "tool_calls"
      (toolCallsChunk parsed.streamMeta message idx) := by
  rw [toolCallsChunk]
  cases toolCallsOf message with
  | none => exact ⟨Nat.zero_le 1, List.forall_mem_nil _⟩
  | some tools =>
    refine ⟨Nat.le_refl 1, fun c hc => ?_⟩
    rw [List.mem_singleton.1 hc]
    exact isDelta_envelope hd h (by decide) _ idx

/-- The chunks of a choice before the one that ends them. -/
def bodyChunks (info : StreamMeta) (message : Value) (idx : UInt64) (size : Nat) : List Value :=
  stringChunk info "role" message idx ++ stringChunk info "reasoning_text" message idx ++
    stringChunk info "reasoning_opaque" message idx ++ contentChunks info message idx size ++
    toolCallsChunk info message idx

theorem synthesizeChoiceChunks_eq (info : StreamMeta) {choice : Value}
    (hm : choice.get "message" = some (.object fields)) (idx : UInt64)
    (usage timings : Option Value) (size : Nat) :
    synthesizeChoiceChunks info choice idx usage timings size =
      bodyChunks info (.object fields) idx size ++
        [finalChunk info choice (.object fields) idx usage timings] := by
  rw [synthesizeChoiceChunks, hm]
  rfl

theorem choiceRun (hd : Distinct raw) (h : parseRawCompletion now raw = .ok parsed)
    {choice : Value} (hm : choice.get "message" = some (.object fields)) (idx : UInt64)
    (usage timings : Option Value) (size : Nat) :
    ChoiceRun raw parsed.streamMeta idx
      (synthesizeChoiceChunks parsed.streamMeta choice idx usage timings size) := by
  rw [synthesizeChoiceChunks_eq _ hm]
  exact ⟨_, _, _, _, _, _, _, rfl, stringChunk_atMostOne hd h (by decide) _ idx,
    stringChunk_atMostOne hd h (by decide) _ idx, stringChunk_atMostOne hd h (by decide) _ idx,
    contentChunks_deltas hd h _ idx size, toolCallsChunk_atMostOne hd h _ idx,
    chunkOf_final hd h choice _ idx usage timings⟩

/-! The runs. -/

theorem ChunkOf.finishIndex_none {info : StreamMeta}
    (h : ChunkOf raw info idx delta .null chunk) : finishIndex chunk = none := by
  rw [finishIndex, h.choices]
  rfl

theorem ChunkOf.finishIndex_some {info : StreamMeta}
    (h : ChunkOf raw info idx delta (.string reason) chunk) : finishIndex chunk = some idx := by
  rw [finishIndex, h.choices]
  rfl

theorem IsDelta.finishIndex {info : StreamMeta} (h : IsDelta raw info idx kind chunk) :
    finishIndex chunk = none := by
  obtain ⟨x, hx⟩ := h
  exact hx.finishIndex_none

theorem finishIndices_append (xs ys : List Value) :
    finishIndices (xs ++ ys) = finishIndices xs ++ finishIndices ys := List.filterMap_append

theorem finishIndices_deltas (h : ∀ c ∈ chunks, finishIndex c = none) :
    finishIndices chunks = [] := List.filterMap_eq_nil_iff.2 h

/-- A run ends once, under its index. -/
theorem ChoiceRun.finishIndices {info : StreamMeta} (h : ChoiceRun raw info idx run) :
    finishIndices run = [idx] := by
  obtain ⟨role, reasoning, sealed, content, tools, final, reason, rfl, hrole, hreasoning, hsealed,
    hcontent, htools, hfinal⟩ := h.parts
  have hend : LocalMind.finishIndices [final] = [idx] := by
    rw [LocalMind.finishIndices, List.filterMap_cons_some hfinal.finishIndex_some]
    rfl
  rw [finishIndices_append, finishIndices_append, finishIndices_append, finishIndices_append,
    finishIndices_append, finishIndices_deltas fun c hc => (hrole.2 c hc).finishIndex,
    finishIndices_deltas fun c hc => (hreasoning.2 c hc).finishIndex,
    finishIndices_deltas fun c hc => (hsealed.2 c hc).finishIndex,
    finishIndices_deltas fun c hc => (hcontent c hc).finishIndex,
    finishIndices_deltas fun c hc => (htools.2 c hc).finishIndex, hend]
  rfl

/-- The indices of the runs of the choices from a place on. -/
def claimedFrom (pos : Nat) : List Value → List UInt64
  | [] => []
  | choice :: rest => (namedIndex choice).getD (UInt64.ofNat pos) :: claimedFrom (pos + 1) rest

theorem synthesizeFrom_runs (hd : Distinct raw) (h : parseRawCompletion now raw = .ok parsed)
    (size pos : Nat) {choices : List Value}
    (hc : ∀ c ∈ choices, ∃ fields, c.get "message" = some (.object fields)) :
    ∃ runs : List (UInt64 × List Value),
      synthesizeFrom parsed size pos choices = runs.flatMap Prod.snd ∧
      runs.map Prod.fst = claimedFrom pos choices ∧
      ∀ r ∈ runs, ChoiceRun raw parsed.streamMeta r.1 r.2 := by
  induction choices generalizing pos with
  | nil => exact ⟨[], rfl, rfl, List.forall_mem_nil _⟩
  | cons c cs ih =>
    obtain ⟨fields, hm⟩ := hc c List.mem_cons_self
    obtain ⟨runs, hruns, hidx, hall⟩ := ih (pos + 1) fun d hd => hc d (List.mem_cons_of_mem c hd)
    refine ⟨((namedIndex c).getD (UInt64.ofNat pos), synthesizeChoiceChunks parsed.streamMeta c
      ((namedIndex c).getD (UInt64.ofNat pos)) (if cs.isEmpty then parsed.usage else none)
      (if cs.isEmpty then parsed.timings else none) size) :: runs, ?_, ?_, ?_⟩
    · rw [List.flatMap_cons, ← hruns, synthesizeFrom]
      rfl
    · rw [List.map_cons, hidx, claimedFrom]
    · exact List.forall_mem_cons.2 ⟨choiceRun hd h hm _ _ _ size, hall⟩

theorem finishIndices_runs {runs : List (UInt64 × List Value)}
    (h : ∀ r ∈ runs, ChoiceRun raw info r.1 r.2) :
    finishIndices (runs.flatMap Prod.snd) = runs.map Prod.fst := by
  induction runs with
  | nil => rfl
  | cons r runs ih =>
    obtain ⟨hr, hruns⟩ := List.forall_mem_cons.1 h
    rw [List.flatMap_cons, finishIndices_append, hr.finishIndices, ih hruns]
    rfl

theorem payloads_openai (parsed : RawCompletion) (size : Nat) :
    payloads (synthesizeOpenaiChunks parsed size) =
      synthesizeFrom parsed size 0 parsed.choices := by
  rw [synthesizeOpenaiChunks, payloads, List.filterMap_append, List.filterMap_map]
  simp

/-! The statistics. -/

/-- A chunk without statistics. -/
def NoStats (chunk : Value) : Prop := chunk.get "usage" = none ∧ chunk.get "timings" = none

theorem stringChunk_envelope (info : StreamMeta) (event : String) (message : Value)
    (idx : UInt64) : ∀ c ∈ stringChunk info event message idx,
      ∃ x, c = sseEnvelope info event x idx := by
  intro c hc
  rw [stringChunk] at hc
  split at hc
  · exact ⟨_, List.mem_singleton.1 hc⟩
  · cases hc

theorem contentChunks_envelope (info : StreamMeta) (message : Value) (idx : UInt64)
    (size : Nat) : ∀ c ∈ contentChunks info message idx size,
      ∃ x, c = sseEnvelope info "content" x idx := by
  intro c hc
  rw [contentChunks] at hc
  split at hc
  · split at hc
    · cases hc
    · obtain ⟨piece, -, rfl⟩ := List.mem_map.1 hc
      exact ⟨_, rfl⟩
  · cases hc
  · exact ⟨_, List.mem_singleton.1 hc⟩
  · cases hc

theorem toolCallsChunk_envelope (info : StreamMeta) (message : Value) (idx : UInt64) :
    ∀ c ∈ toolCallsChunk info message idx, ∃ x, c = sseEnvelope info "tool_calls" x idx := by
  intro c hc
  rw [toolCallsChunk] at hc
  split at hc
  · exact ⟨_, List.mem_singleton.1 hc⟩
  · cases hc

theorem bodyChunks_noStats {info : StreamMeta} (hx : Unknown info.extras) (message : Value)
    (idx : UInt64) (size : Nat) : ∀ c ∈ bodyChunks info message idx size, NoStats c := by
  intro c hc
  have henvelope : ∃ event x, c = sseEnvelope info event x idx := by
    simp only [bodyChunks, List.mem_append] at hc
    obtain (((hc | hc) | hc) | hc) | hc := hc
    · exact ⟨_, stringChunk_envelope info _ message idx c hc⟩
    · exact ⟨_, stringChunk_envelope info _ message idx c hc⟩
    · exact ⟨_, stringChunk_envelope info _ message idx c hc⟩
    · exact ⟨_, contentChunks_envelope info message idx size c hc⟩
    · exact ⟨_, toolCallsChunk_envelope info message idx c hc⟩
  obtain ⟨event, x, rfl⟩ := henvelope
  exact sseEnvelope_stats hx event x idx

theorem synthesizeFrom_stats {parsed : RawCompletion} (hx : Unknown parsed.streamMeta.extras)
    (size pos : Nat) {choices : List Value} (hne : choices ≠ [])
    (hc : ∀ c ∈ choices, ∃ fields, c.get "message" = some (.object fields)) :
    ∃ chunks final, synthesizeFrom parsed size pos choices = chunks ++ [final] ∧
      (∀ c ∈ chunks, NoStats c) ∧ final.get "usage" = parsed.usage ∧
      final.get "timings" = parsed.timings := by
  induction choices generalizing pos with
  | nil => exact absurd rfl hne
  | cons c cs ih =>
    obtain ⟨fields, hm⟩ := hc c List.mem_cons_self
    rw [synthesizeFrom, synthesizeChoiceChunks_eq _ hm]
    generalize ((c.get "index").bind Value.asU64).getD (UInt64.ofNat pos) = idx
    cases cs with
    | nil =>
      have hstats := finalChunk_stats hx c (.object fields) idx parsed.usage parsed.timings
      refine ⟨_, _, ?_, bodyChunks_noStats hx (.object fields) idx size, hstats.1, hstats.2⟩
      exact List.append_nil _
    | cons d ds =>
      obtain ⟨chunks, final, heq, hchunks, husage, htimings⟩ := ih (pos + 1) (List.cons_ne_nil d ds)
        fun e he => hc e (List.mem_cons_of_mem c he)
      have hstats := finalChunk_stats hx c (.object fields) idx none none
      rw [heq, ← List.append_assoc]
      refine ⟨_, final, rfl, ?_, husage, htimings⟩
      intro e he
      obtain he | he := List.mem_append.1 he
      · obtain he | he := List.mem_append.1 he
        · exact bodyChunks_noStats hx (.object fields) idx size e he
        · rw [List.mem_singleton.1 he]
          exact hstats
      · exact hchunks e he

/-! The indices. -/

theorem claimedFrom_getElem? (pos : Nat) (choices : List Value) (i : Nat) :
    (claimedFrom pos choices)[i]? = (choices[i]?.map namedIndex).map fun named =>
      named.getD (UInt64.ofNat (pos + i)) := by
  induction choices generalizing pos i with
  | nil => rfl
  | cons c cs ih =>
    rw [claimedFrom]
    cases i with
    | zero => rfl
    | succ i => rw [List.getElem?_cons_succ, List.getElem?_cons_succ, ih, Nat.succ_add_eq_add_succ]

theorem nodup_iff_getElem? {as : List α} :
    as.Nodup ↔ ∀ (i j : Nat) (a : α), as[i]? = some a → as[j]? = some a → i = j := by
  rw [List.nodup_iff_getElem?_ne_getElem?]
  constructor
  · intro h i j a hi hj
    obtain hij | hij | hij := Nat.lt_trichotomy i j
    · exact absurd (hi.trans hj.symm) (h i j hij (List.getElem?_eq_some_iff.1 hj).1)
    · exact hij
    · exact absurd (hj.trans hi.symm) (h j i hij (List.getElem?_eq_some_iff.1 hi).1)
  · intro h i j hij hj heq
    have hja := List.getElem?_eq_getElem hj
    exact Nat.ne_of_lt hij (h i j as[j] (heq.trans hja) hja)

theorem ofNat_inj (hi : i < 2 ^ 64) (hj : j < 2 ^ 64) (h : UInt64.ofNat i = UInt64.ofNat j) :
    i = j := by
  have hnat := congrArg UInt64.toNat h
  rwa [UInt64.toNat_ofNat_of_lt' hi, UInt64.toNat_ofNat_of_lt' hj] at hnat

/-- The runs have distinct indices exactly when the choices' own are clear of each other and of
the places. -/
theorem claimed_nodup_iff {choices : List Value} (hlen : choices.length ≤ 2 ^ 64) :
    (claimedFrom 0 choices).Nodup ↔ IndicesClear choices := by
  have hclaimed : ∀ (i : Nat) named, choices[i]?.map namedIndex = some named →
      (claimedFrom 0 choices)[i]? = some (named.getD (UInt64.ofNat i)) := by
    intro i named hi
    rw [claimedFrom_getElem?, hi, Nat.zero_add]
    rfl
  rw [nodup_iff_getElem?]
  constructor
  · intro h
    refine ⟨fun i j a hi hj => h i j a (hclaimed i _ hi) (hclaimed j _ hj), ?_⟩
    intro i j hi hj
    have hij := h i j _ (hclaimed i _ hi) (hclaimed j _ hj)
    rw [hij, hj] at hi
    cases hi
  · intro h i j a hi hj
    rw [claimedFrom_getElem?, Nat.zero_add, Option.map_eq_some_iff] at hi hj
    obtain ⟨n, hn, hna⟩ := hi
    obtain ⟨m, hm, hma⟩ := hj
    cases n with
    | some b =>
      obtain rfl : b = a := hna
      cases m with
      | some b' =>
        obtain rfl : b' = b := hma
        exact h.named i j b' hn hm
      | none =>
        obtain rfl : UInt64.ofNat j = b := hma
        exact absurd hn (h.unnamed j i hm)
    | none =>
      obtain rfl : UInt64.ofNat i = a := hna
      cases m with
      | some b' =>
        obtain rfl : b' = UInt64.ofNat i := hma
        exact absurd hm (h.unnamed i j hn)
      | none =>
        have hbound : ∀ k, choices[k]?.map namedIndex = some none → k < 2 ^ 64 := by
          intro k hk
          obtain ⟨c, hc, -⟩ := Option.map_eq_some_iff.1 hk
          exact Nat.lt_of_lt_of_le (List.getElem?_eq_some_iff.1 hc).1 hlen
        exact (ofNat_inj (hbound j hm) (hbound i hn) hma).symm

theorem statPlain_iff (raw : Value) (k : String) :
    (raw.get k).filter Value.isObject = statOf raw k ↔ StatPlain raw k := by
  rw [statOf, StatPlain]
  cases raw.get k with
  | none => exact ⟨fun _ v hv => (by cases hv), fun _ => rfl⟩
  | some v =>
    simp only [Option.some.injEq, forall_eq']
    cases v <;> simp [Value.isNull, Value.isObject, Option.filter]

/-- The chunk that ends a stream ends a run. -/
theorem finishIndex_final {runs : List (UInt64 × List Value)}
    (h : ∀ r ∈ runs, ChoiceRun raw info r.1 r.2)
    (heq : runs.flatMap Prod.snd = chunks ++ [final]) : (finishIndex final).isSome = true := by
  obtain rfl | ⟨init, r, rfl⟩ := List.eq_nil_or_concat runs
  · cases chunks <;> cases heq
  · obtain ⟨role, reasoning, sealed, content, tools, last, reason, hrun, -, -, -, -, -, hlast⟩ :=
      (h r (by simp)).parts
    rw [List.concat_eq_append, List.flatMap_append, List.flatMap_singleton, hrun,
      ← List.append_assoc] at heq
    have hfinal : [last] = [final] := (List.append_inj' heq rfl).2
    cases hfinal
    rw [hlast.finishIndex_some]
    rfl

theorem length_claimedFrom (pos : Nat) (choices : List Value) :
    (claimedFrom pos choices).length = choices.length := by
  induction choices generalizing pos with
  | nil => rfl
  | cons c cs ih => rw [claimedFrom, List.length_cons, List.length_cons, ih]

/-- A synthesized stream has its shape exactly when the indices of the choices are clear and the
statistics are plain. -/
theorem synthesize_shape_iff (hd : Distinct raw) (hp : parseRawCompletion now raw = .ok parsed)
    (hlen : parsed.choices.length ≤ 2 ^ 64) (size : Nat) :
    OpenaiStreamOk raw parsed (synthesizeOpenaiChunks parsed size) ↔
      IndicesClear parsed.choices ∧ StatPlain raw "usage" ∧ StatPlain raw "timings" := by
  obtain ⟨hx, -, hmsg, hu, ht⟩ := parseRawCompletion_ok hp
  obtain ⟨obj, -, -, -, -, hne⟩ := parseRawCompletion_meta hp
  obtain ⟨runs, hruns, hidx, hall⟩ := synthesizeFrom_runs hd hp size 0 hmsg
  obtain ⟨chunks, final, hchunks, hnone, husage, htimings⟩ :=
    synthesizeFrom_stats hx size 0 hne hmsg
  have hpayloads := payloads_openai parsed size
  have hindices : finishIndices (payloads (synthesizeOpenaiChunks parsed size)) =
      claimedFrom 0 parsed.choices := by
    rw [hpayloads, hruns, finishIndices_runs hall, hidx]
  rw [← claimed_nodup_iff hlen, ← statPlain_iff, ← statPlain_iff, ← hu, ← ht]
  constructor
  · intro h
    obtain ⟨chunks', final', heq, -, -, husage', htimings'⟩ := h.stats
    rw [hpayloads, hchunks] at heq
    have hfinal : [final] = [final'] := (List.append_inj' heq rfl).2
    cases hfinal
    refine ⟨?_, husage.symm.trans husage', htimings.symm.trans htimings'⟩
    rw [← hindices]
    exact h.distinct
  · rintro ⟨hnodup, husage', htimings'⟩
    refine ⟨⟨runs, ?_, ?_, hall⟩, ?_, chunks, final, ?_, ?_, hnone, husage.trans husage',
      htimings.trans htimings'⟩
    · rw [synthesizeOpenaiChunks, hruns]
    · rw [← length_claimedFrom 0, ← hidx, List.length_map]
    · rw [hindices]
      exact hnodup
    · rw [hpayloads, hchunks]
    · exact finishIndex_final hall (hruns.symm.trans hchunks)

/-- A body of choices that name these indices. -/
def bodyOf (indices : List (Option UInt64)) : Value :=
  .object [("id", .string "c"), ("model", .string "m"), ("choices", .array (indices.map fun i =>
    putSome (.object [("message", .object [])]) "index" (i.map fun n => .number (.posInt n))))]

theorem distinct_bodyOf (indices : List (Option UInt64)) : Distinct (bodyOf indices) := by
  rintro m ⟨⟩
  change (["id", "model", "choices"] : List String).Nodup
  decide

theorem synthesize_shape_iff_two : ∃ parsed,
    parseRawCompletion 0 (bodyOf [none, some 1]) = .ok parsed ∧
      (OpenaiStreamOk (bodyOf [none, some 1]) parsed (synthesizeOpenaiChunks parsed 4) ↔
        IndicesClear parsed.choices ∧ StatPlain (bodyOf [none, some 1]) "usage" ∧
          StatPlain (bodyOf [none, some 1]) "timings") :=
  ⟨_, rfl, synthesize_shape_iff (distinct_bodyOf _) rfl (by decide) 4⟩

/-- A choice without an index takes the index that the one before it names. -/
theorem synthesize_collides : ∃ parsed,
    parseRawCompletion 0 (bodyOf [some 1, none]) = .ok parsed ∧
      finishIndices (payloads (synthesizeOpenaiChunks parsed 4)) = [1, 1] ∧
      ¬ OpenaiStreamOk (bodyOf [some 1, none]) parsed (synthesizeOpenaiChunks parsed 4) := by
  have hindices : ∃ parsed, parseRawCompletion 0 (bodyOf [some 1, none]) = .ok parsed ∧
      finishIndices (payloads (synthesizeOpenaiChunks parsed 4)) = [1, 1] := ⟨_, rfl, rfl⟩
  obtain ⟨parsed, hp, hidx⟩ := hindices
  refine ⟨parsed, hp, hidx, fun h => ?_⟩
  have hnodup := h.distinct
  rw [hidx] at hnodup
  exact absurd hnodup (by decide)

end LocalMind
