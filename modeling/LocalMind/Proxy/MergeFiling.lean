import LocalMind.Proxy.MergeSafety

namespace LocalMind
set_option autoImplicit true
open Json

/-- What one chunk carries for the choice it names. -/
structure Fragment where
  index : UInt64
  content : Option String
  reasoning : Option String
  finish : Option Value

def textOf (field : String) (m : Value) : String := ((m.get field).bind Value.asStr).getD ""

def finishOf (choice : Value) : Option Value :=
  (choice.get "finish_reason").filter fun f => !f.isNull

/-- The choice entry of a chunk, without tool calls, carries a fragment. -/
structure CarriesFragment (choice : Value) (f : Fragment) : Prop where
  distinct : ∀ m, choice = .object m → (Fields.keys m).Nodup
  index : choice.get "index" = some (.number (.posInt f.index))
  delta : ∃ delta, choice.get "delta" = some delta ∧
    (delta.get "content").bind Value.asStr = f.content ∧
    (delta.get "reasoning_text").bind Value.asStr = f.reasoning ∧ delta.get "tool_calls" = none
  finish : finishOf choice = f.finish

def Carries (chunk : Value) (f : Fragment) : Prop :=
  ∃ choice, chunk.get "choices" = some (.array [choice]) ∧ CarriesFragment choice f

/-- A run is an interleaving of the sequences of its indices. -/
def Interleaves (seqs : UInt64 → List Fragment) (run : List Fragment) : Prop :=
  ∀ i, seqs i = run.filter fun f => f.index = i

/-- A merged choice holds exactly the fragments of a sequence. -/
structure Collects (choice : Value) (i : UInt64) (fs : List Fragment) : Prop where
  index : choice.get "index" = some (.number (.posInt i))
  message : ∃ m, choice.get "message" = some m ∧ m.isObjectOrNull = true ∧
    textOf "content" m = String.join (fs.filterMap Fragment.content) ∧
    textOf "reasoning_text" m = String.join (fs.filterMap Fragment.reasoning)
  finish : finishOf choice = (fs.filterMap Fragment.finish).getLast?

def FiledByIndex (seqs : UInt64 → List Fragment) (acc : Option Value) : Prop :=
  ∀ i, seqs i ≠ [] → ∃ choice ∈ slotsOf acc, Collects choice i (seqs i)

theorem join_filterMap_concat (g : Fragment → Option String) (fs : List Fragment) (f : Fragment) :
    String.join ((fs ++ [f]).filterMap g) =
      String.join (fs.filterMap g) ++ (g f).getD "" := by
  rw [List.filterMap_append]
  cases h : g f with
  | none => simp [h]
  | some s => simp [h]

theorem textOf_congr {m m' : Value} (h : m'.get field = m.get field) :
    textOf field m' = textOf field m := by
  rw [textOf, h, textOf]

theorem textOf_appendText {m m' : Value} (h : appendText field text m = .ok m') :
    textOf field m' = textOf field m ++ text := by
  rw [appendText] at h
  split at h
  · next s hs =>
    cases h
    rw [textOf, textOf, Value.get_put_of_get hs, hs]
    rfl
  · next hs =>
    have ht : (m.get field).bind Value.asStr = none := by
      cases hg : m.get field with
      | none => rfl
      | some v =>
        cases v with
        | string s => exact absurd hg (hs s)
        | _ => rfl
    rw [textOf, textOf, (Value.indexAssign_ok h).2.2.1, ht]
    exact String.empty_append.symm

theorem textOf_textInto {m m' : Value} (h : textInto field delta m = .ok m') :
    textOf field m' = textOf field m ++ ((delta.get field).bind Value.asStr).getD "" := by
  rw [textInto] at h
  cases hd : (delta.get field).bind Value.asStr with
  | none =>
    rw [hd] at h
    cases h
    exact String.append_empty.symm
  | some text =>
    rw [hd] at h
    exact textOf_appendText h

theorem WritesField.total {g : Value → Except Panic Value} (hg : WritesField g w field)
    (h : m.isObjectOrNull = true) : ∃ m', g m = .ok m' ∧ m'.isObjectOrNull = true := by
  obtain ⟨m', hm⟩ := Fallible.isOk_iff.1 ((hg.isOk m).2 fun _ => h)
  exact ⟨m', hm, (hg.shape hm).trans h⟩

/-- A delta appends its own texts to the message, and nothing else to them. -/
theorem mergeMessage_texts (h : m.isObjectOrNull = true) (hd : delta.get "tool_calls" = none) :
    ∃ m', mergeMessage delta m = .ok m' ∧ m'.isObjectOrNull = true ∧
      textOf "content" m' =
        textOf "content" m ++ ((delta.get "content").bind Value.asStr).getD "" ∧
      textOf "reasoning_text" m' =
        textOf "reasoning_text" m ++ ((delta.get "reasoning_text").bind Value.asStr).getD "" := by
  have hr := writesField_roleInto delta
  have hc := writesField_textInto "content" delta
  have ht := writesField_textInto "reasoning_text" delta
  have ho := writesField_opaqueInto delta
  obtain ⟨m₁, h₁, s₁⟩ := hr.total h
  obtain ⟨m₂, h₂, s₂⟩ := hc.total s₁
  obtain ⟨m₃, h₃, s₃⟩ := ht.total s₂
  obtain ⟨m₄, h₄, s₄⟩ := ho.total s₃
  refine ⟨m₄, ?_, s₄, ?_, ?_⟩
  · rw [mergeMessage, h₁, Fallible.ok_bind, h₂, Fallible.ok_bind, h₃, Fallible.ok_bind, h₄,
      Fallible.ok_bind, toolCallsInto, hd]
  · rw [textOf_congr (ho.frame h₄ "content" (by decide)),
      textOf_congr (ht.frame h₃ "content" (by decide)), textOf_textInto h₂,
      textOf_congr (hr.frame h₁ "content" (by decide))]
  · rw [textOf_congr (ho.frame h₄ "reasoning_text" (by decide)), textOf_textInto h₃,
      textOf_congr (hc.frame h₂ "reasoning_text" (by decide)),
      textOf_congr (hr.frame h₁ "reasoning_text" (by decide))]

theorem getLast?_filterMap_concat (g : Fragment → Option Value) (fs : List Fragment)
    (f : Fragment) :
    ((fs ++ [f]).filterMap g).getLast? = (g f).or (fs.filterMap g).getLast? := by
  rw [List.filterMap_append]
  cases h : g f with
  | none => simp [h]
  | some s => simp [h]

theorem mergeFinish_finishOf {slot : Value} (h : slot.isObject = true) (choice : Value) :
    ∃ merged, mergeFinish slot choice = .ok merged ∧
      finishOf merged = (finishOf choice).or (finishOf slot) ∧
      ∀ l, "finish_reason" ≠ l → merged.get l = slot.get l := by
  rw [mergeFinish, finishOf]
  cases hf : choice.get "finish_reason" with
  | none => exact ⟨slot, rfl, rfl, fun _ _ => rfl⟩
  | some finish =>
    dsimp only
    cases hn : finish.isNull with
    | true =>
      refine ⟨slot, if_pos rfl, ?_, fun _ _ => rfl⟩
      rw [Option.filter_some, hn]
      rfl
    | false =>
      have ha := Value.indexAssign_of_isObject h "finish_reason" finish
      obtain ⟨-, -, hg, hl⟩ := Value.indexAssign_ok ha
      refine ⟨_, (if_neg (by decide)).trans ha, ?_, hl⟩
      rw [finishOf, hg, Option.filter_some, hn]
      rfl

/-- A choice of a chunk adds its fragment to whatever slot it is merged into. -/
theorem mergeChoice_collects {choice slot : Value} (hc : CarriesFragment choice f)
    (hi : slot.get "index" = some (.number (.posInt i)))
    (hm : slot.get "message" = some m) (ho : m.isObjectOrNull = true)
    (ht : textOf "content" m = String.join (fs.filterMap Fragment.content))
    (hr : textOf "reasoning_text" m = String.join (fs.filterMap Fragment.reasoning))
    (hf : f.finish.or (finishOf slot) = f.finish.or (fs.filterMap Fragment.finish).getLast?) :
    ∃ merged, mergeChoice slot choice = .ok merged ∧ Collects merged i (fs ++ [f]) := by
  obtain ⟨delta, hd, hdc, hdr, hdt⟩ := hc.delta
  obtain ⟨m', hm', ho', hc', hr'⟩ := mergeMessage_texts ho hdt
  have hslot : slot.isObject = true := Value.isObject_iff.2 (Value.object_of_get hi)
  have hput : (slot.put "message" m').isObject = true := (Value.put_isObject _ _ _).trans hslot
  obtain ⟨merged, hmerged, hfin, hframe⟩ := mergeFinish_finishOf hput choice
  have hmsg : merged.get "message" = some m' := by
    rw [hframe "message" (by decide), Value.get_put_of_get hm]
  have hidx : merged.get "index" = some (.number (.posInt i)) := by
    rw [hframe "index" (by decide), Value.get_put_of_ne (by decide), hi]
  refine ⟨merged, ?_, hidx, ⟨m', hmsg, ho', ?_, ?_⟩, ?_⟩
  · rw [mergeChoice, hd]
    dsimp only
    rw [mergeDelta_eq, Value.updateM_of_get hm, hm']
    exact hmerged
  · rw [hc', ht, join_filterMap_concat, hdc]
  · rw [hr', hr, join_filterMap_concat, hdr]
  · have hs : finishOf (slot.put "message" m') = finishOf slot := by
      rw [finishOf, Value.get_put_of_ne (by decide), finishOf]
    rw [hfin, hc.finish, hs, hf, getLast?_filterMap_concat]

theorem Collects.step (h : Collects slot i fs) (hc : CarriesFragment choice f) :
    ∃ merged, mergeChoice slot choice = .ok merged ∧ Collects merged i (fs ++ [f]) := by
  obtain ⟨m, hm, ho, ht, hr⟩ := h.message
  exact mergeChoice_collects hc h.index hm ho ht hr (by rw [h.finish])

/-- A choice that carries a delta is seeded with the empty message. -/
theorem seedChoice_of_delta {choice : Value} (hn : ∀ m, choice = .object m → (Fields.keys m).Nodup)
    (hd : choice.get "delta" = some delta) :
    (seedChoice choice).get "message" = some seedMessage ∧
      ∀ l, "message" ≠ l → "delta" ≠ l → (seedChoice choice).get l = choice.get l := by
  obtain ⟨m, rfl⟩ := Value.object_of_get hd
  have hs : seedChoice (.object m) =
      .object (Fields.insert (Fields.remove m "delta") "message" seedMessage) := by
    have hg : Fields.get m "delta" = some delta := hd
    rw [seedChoice, hg]
    rfl
  rw [hs]
  refine ⟨Fields.get_insert_self _ _ _, ?_⟩
  intro l hl hl'
  rw [Value.get_object, Value.get_object, Fields.get_insert_of_ne hl,
    Fields.get_remove_of_ne (hn m rfl) hl']

theorem Collects.seed (hc : CarriesFragment choice f) :
    ∃ merged, mergeChoice (seedChoice choice) choice = .ok merged ∧
      Collects merged f.index [f] := by
  obtain ⟨delta, hd, -⟩ := hc.delta
  obtain ⟨hm, hg⟩ := seedChoice_of_delta hc.distinct hd
  have hi := (hg "index" (by decide) (by decide)).trans hc.index
  have hf : finishOf (seedChoice choice) = f.finish := by
    rw [finishOf, hg "finish_reason" (by decide) (by decide), ← hc.finish, finishOf]
  change ∃ merged, _ ∧ Collects merged f.index ([] ++ [f])
  exact mergeChoice_collects hc hi hm rfl rfl rfl (by rw [hf]; cases f.finish <;> rfl)

/-- The accumulator of a run: one choice, under the index of the first chunk. -/
def Filed (acc : Option Value) (run : List Fragment) : Prop :=
  match run with
  | [] => acc = none
  | f :: _ => ∃ a choice, acc = some a ∧ a.get "choices" = some (.array [choice]) ∧
    Collects choice f.index run

theorem mergeChunk_filed (h : Filed acc run) (hc : Carries chunk f) :
    ∃ out, mergeChunk acc chunk = .ok out ∧ Filed (some out) (run ++ [f]) := by
  obtain ⟨choice, hch, hcf⟩ := hc
  cases run with
  | nil =>
    obtain rfl : acc = none := h
    obtain ⟨merged, hm, hcol⟩ := Collects.seed hcf
    have he : envelope chunk = .ok (chunk.put "choices" (.array [])) := by rw [envelope, hch]
    obtain ⟨out, ho, hg⟩ := ((mergeInto_eq (envelope_ok he) _).2 _ hch).2 [merged] (by
      rw [mergeEach, hm]
      rfl)
    refine ⟨out, ?_, out, merged, rfl, hg.choices, hcol⟩
    rw [mergeChunk, he]
    exact ho
  | cons f₀ run =>
    obtain ⟨a, slot, rfl, ha, hcol⟩ := h
    obtain ⟨merged, hm, hcol'⟩ := hcol.step hcf
    obtain ⟨out, ho, hg⟩ := ((mergeInto_eq ha _).2 _ hch).2 [merged] (by
      rw [mergeEach, hm]
      rfl)
    exact ⟨out, ho, out, merged, rfl, hg.choices, hcol'⟩

theorem mergeChunks_filed (h : Filed acc done) (hc : List.Forall₂ Carries chunks run) :
    ∃ out, mergeChunks acc chunks = .ok out ∧ Filed out (done ++ run) := by
  induction hc generalizing acc done with
  | nil => exact ⟨acc, rfl, by rwa [List.append_nil]⟩
  | cons hf _ ih =>
    obtain ⟨out, ho, hfiled⟩ := mergeChunk_filed h hf
    obtain ⟨out', ho', hfiled'⟩ := ih hfiled
    refine ⟨out', ?_, by simpa using hfiled'⟩
    rw [mergeChunks, List.foldlM_cons, ho]
    exact ho'

/-- A run of chunks is filed under the indices they name exactly when they all name one. -/
theorem mergeChunks_filedByIndex_iff {seqs : UInt64 → List Fragment}
    (h : Interleaves seqs run) (hc : List.Forall₂ Carries chunks run) :
    (∃ acc, mergeChunks none chunks = .ok acc ∧ FiledByIndex seqs acc) ↔
      ∀ i j, seqs i ≠ [] → seqs j ≠ [] → i = j := by
  have hnone : Filed none [] := rfl
  obtain ⟨out, ho, hf⟩ := mergeChunks_filed hnone hc
  rw [List.nil_append] at hf
  have hred : (∃ acc, mergeChunks none chunks = .ok acc ∧ FiledByIndex seqs acc) ↔
      FiledByIndex seqs out := by
    constructor
    · rintro ⟨acc, ha, hfiled⟩
      rw [ho] at ha
      cases ha
      exact hfiled
    · exact fun hfiled => ⟨out, ho, hfiled⟩
  rw [hred]
  cases run with
  | nil =>
    refine ⟨fun _ i _ hi => absurd (h i) hi, fun _ i hi => absurd (h i) hi⟩
  | cons f run =>
    obtain ⟨a, choice, rfl, ha, hcol⟩ := hf
    have hslots : slotsOf (some a) = [choice] := by
      rw [slotsOf, Option.bind_some, ha]
      rfl
    have hfirst : seqs f.index ≠ [] := by simp [h f.index]
    constructor
    · have key : FiledByIndex seqs (some a) → ∀ i, seqs i ≠ [] → i = f.index := by
        intro hfiled i hi
        obtain ⟨c, hmem, hc'⟩ := hfiled i hi
        rw [hslots, List.mem_singleton] at hmem
        have := hc'.index
        rw [hmem, hcol.index, Option.some.injEq, Value.number.injEq, Number.posInt.injEq] at this
        exact this.symm
      intro hfiled i j hi hj
      exact (key hfiled i hi).trans (key hfiled j hj).symm
    · intro hone i hi
      have hi' : i = f.index := hone i f.index hi hfirst
      have hall : seqs i = f :: run := by
        rw [h i, List.filter_eq_self]
        intro g hg
        have hne : seqs g.index ≠ [] := by
          rw [h g.index]
          exact List.ne_nil_of_mem (List.mem_filter.2 ⟨hg, decide_eq_true rfl⟩)
        exact decide_eq_true (hone _ _ hne hi)
      refine ⟨choice, by rw [hslots]; exact List.mem_singleton_self choice, ?_⟩
      rw [hall, hi']
      exact hcol

def contentChunk (i : UInt64) (text : String) : Value :=
  .object [("choices", .array [.object
    [("index", .number (.posInt i)), ("delta", .object [("content", .string text)]),
      ("finish_reason", .null)]])]

theorem carries_contentChunk (i : UInt64) (text : String) :
    Carries (contentChunk i text) ⟨i, some text, none, none⟩ := by
  refine ⟨_, rfl, ?_, rfl, ⟨_, rfl, rfl, rfl, rfl⟩, rfl⟩
  rintro _ ⟨⟩
  change (["index", "delta", "finish_reason"] : List String).Nodup
  decide

theorem mergeChunks_filedByIndex_one : ∃ acc,
    mergeChunks none [contentChunk 0 "a", contentChunk 0 "b"] = .ok acc ∧
      FiledByIndex (fun i => [⟨0, some "a", none, none⟩, ⟨0, some "b", none, none⟩].filter
        fun f => f.index = i) acc := by
  refine (mergeChunks_filedByIndex_iff (fun _ => rfl)
    (.cons (carries_contentChunk 0 "a") (.cons (carries_contentChunk 0 "b") .nil))).2 ?_
  have key : ∀ i, [(⟨0, some "a", none, none⟩ : Fragment), ⟨0, some "b", none, none⟩].filter
      (fun f => f.index = i) ≠ [] → i = 0 := by
    intro i hi
    by_contra h
    exact hi (by simp [Ne.symm h])
  intro i j hi hj
  exact (key i hi).trans (key j hj).symm

/-- The second of two choices is filed under the first. -/
theorem mergeChunks_misfiles_second_choice : ∃ seqs run chunks,
    Interleaves seqs run ∧ List.Forall₂ Carries chunks run ∧
      ¬ ∃ acc, mergeChunks none chunks = .ok acc ∧ FiledByIndex seqs acc := by
  refine ⟨fun i => [⟨0, some "a", none, none⟩, ⟨1, some "b", none, none⟩].filter
      fun f => f.index = i, _, [contentChunk 0 "a", contentChunk 1 "b"], fun _ => rfl,
    .cons (carries_contentChunk 0 "a") (.cons (carries_contentChunk 1 "b") .nil), ?_⟩
  rintro ⟨acc, ha, hf⟩
  have hrun : mergeChunks none [contentChunk 0 "a", contentChunk 1 "b"] =
      .ok (some (.object [("choices", .array [.object
        [("index", .number (.posInt 0)), ("finish_reason", .null), ("message", .object
          [("role", .string "assistant"), ("content", .string "ab"), ("tool_calls", .null)])]])])) := by
    rfl
  rw [hrun] at ha
  cases ha
  obtain ⟨choice, hmem, hc⟩ := hf 1 (by decide)
  have hidx := hc.index
  rw [List.eq_of_mem_singleton hmem] at hidx
  exact absurd hidx (by decide)

end LocalMind
