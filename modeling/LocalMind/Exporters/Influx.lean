import LocalMind.Stats.Metrics
import LocalMind.Text.LineProtocol

namespace LocalMind.Influx
open LineProtocol
set_option autoImplicit true

/-! The point that one sample is exported as. -/

/-- The words that a field's text reads as a truth value. -/
def trueWords : List String := ["t", "T", "true", "True", "TRUE"]

def falseWords : List String := ["f", "F", "false", "False", "FALSE"]

/-- How `f64` values are made, written and read back. -/
structure Floats (F : Type) where
  ofU64 : UInt64 → F
  text : F → List Char
  read : List Char → Option F
  plain : ∀ x, ∀ c ∈ text x, isPlain c = true
  notWord : ∀ x, String.ofList (text x) ∉ trueWords ++ falseWords
  exactU64 : ∀ n, read (text (ofU64 n)) = some (ofU64 n)

inductive FieldValue (F : Type)
  | bool (b : Bool)
  | f64 (x : F)

def FieldValue.text (floats : Floats F) : FieldValue F → List Char
  | bool b => [if b then 't' else 'f']
  | f64 x => floats.text x

def FieldValue.read (floats : Floats F) (s : List Char) : Option (FieldValue F) :=
  if String.ofList s ∈ trueWords then some (.bool true)
  else if String.ofList s ∈ falseWords then some (.bool false)
  else (floats.read s).map .f64

def codec (floats : Floats F) : Codec (FieldValue F) where
  text := FieldValue.text floats
  read := FieldValue.read floats
  plain := by
    intro x c hc
    cases x with
    | bool b =>
      cases b with
      | true =>
        rw [List.mem_singleton.1 hc]
        rfl
      | false =>
        rw [List.mem_singleton.1 hc]
        rfl
    | f64 x => exact floats.plain x c hc

theorem read_bool (floats : Floats F) (b : Bool) :
    (codec floats).read ((codec floats).text (.bool b)) = some (.bool b) := by
  cases b with
  | true => rfl
  | false => rfl

theorem read_f64 (floats : Floats F) (x : F) :
    (codec floats).read ((codec floats).text (.f64 x)) = some (.f64 x) ↔
      floats.read (floats.text x) = some x := by
  have hword := floats.notWord x
  rw [List.mem_append, not_or] at hword
  change FieldValue.read floats (floats.text x) = _ ↔ _
  rw [FieldValue.read, if_neg hword.1, if_neg hword.2]
  cases floats.read (floats.text x) with
  | none =>
    constructor
    · intro h
      cases h
    · intro h
      cases h
  | some y =>
    rw [Option.map_some, Option.some.injEq, Option.some.injEq, FieldValue.f64.injEq]

abbrev DataPoint (F : Type) := Point (FieldValue F)

/-! `DataPoint::builder`. -/

def builder (measurement : String) : DataPoint F := ⟨measurement, [], [], none⟩

def tag (p : DataPoint F) (key value : String) : DataPoint F :=
  { p with tags := p.tags ++ [(key, value)] }

def field (p : DataPoint F) (key : String) (value : FieldValue F) : DataPoint F :=
  { p with fields := p.fields ++ [(key, value)] }

def build (p : DataPoint F) : Except String (DataPoint F) :=
  if p.fields.isEmpty then .error "at least one field is required" else .ok p

/-- `if let Some(value) = o`. -/
def tagSome (p : DataPoint F) (key : String) (o : Option String) : DataPoint F :=
  match o with
  | some value => tag p key value
  | none => p

def fieldSome (p : DataPoint F) (key : String) (o : Option F) : DataPoint F :=
  match o with
  | some x => field p key (.f64 x)
  | none => p

/-! The sanitiser. -/

def isUnsafe (ch : Char) : Bool :=
  decide (ch.toNat < 0x20) || ch == '\x7f' || (ch == ',' || ch == '=' || ch == ' ')

def tagValue (raw : String) : String :=
  if !raw.toList.any isUnsafe then raw
  else String.ofList (raw.toList.map fun ch => if isUnsafe ch then '_' else ch)

/-- `timestamp_nanos_opt`. -/
def timestampNanosOpt (timestamp : Int) : Option Int :=
  if -2 ^ 63 ≤ timestamp ∧ timestamp < 2 ^ 63 then some timestamp else none

def withTags (m : RequestMetrics F) : DataPoint F :=
  let b := builder "llama_request"
  let b := tag b "model" (tagValue m.model)
  let b := tag b "streaming" (toString m.streaming)
  let b := tag b "finish_reason" (tagValue m.finishReason)
  let b := tag b "stream_end" m.streamEndLabel
  let b := tagSome b "client_id" (m.clientId.map tagValue)
  let b := tagSome b "conversation_id" (m.conversationId.map tagValue)
  tagSome b "group_name" (m.groupName.map tagValue)

def withFields (floats : Floats F) (m : RequestMetrics F) (p : DataPoint F) : DataPoint F :=
  let p := field p "total_tokens" (.f64 (floats.ofU64 m.totalTokens))
  let p := field p "total_tps" (.f64 m.totalTps)
  let p := field p "decode_tps_min" (.f64 m.decodeTpsMin)
  let p := field p "has_timing_split" (.bool m.hasTimingSplit)
  let p := field p "prompt_ms" (.f64 m.promptMs)
  let p := field p "generation_ms" (.f64 m.generationMs)
  let p := field p "duration_ms" (.f64 m.durationMs)
  let p := field p "stream_incomplete" (.bool m.streamIncomplete)
  let p := field p "input_len" (.f64 (floats.ofU64 m.inputLen))
  let p := field p "output_len" (.f64 (floats.ofU64 m.outputLen))
  let p := fieldSome p "prompt_tokens" (m.promptTokens.map floats.ofU64)
  let p := fieldSome p "completion_tokens" (m.completionTokens.map floats.ofU64)
  let p := fieldSome p "prompt_tps" m.promptTps
  let p := fieldSome p "generation_tps" m.generationTps
  let p := fieldSome p "cached_tokens" (m.cachedTokens.map floats.ofU64)
  let p := fieldSome p "cache_creation_tokens" (m.cacheCreationTokens.map floats.ofU64)
  let p := fieldSome p "reasoning_tokens" (m.reasoningTokens.map floats.ofU64)
  let p := fieldSome p "accepted_prediction_tokens" (m.acceptedPredictionTokens.map floats.ofU64)
  let p := fieldSome p "rejected_prediction_tokens" (m.rejectedPredictionTokens.map floats.ofU64)
  let p := fieldSome p "context_used" (m.contextUsed.map floats.ofU64)
  let p := fieldSome p "context_total" (m.contextTotal.map floats.ofU64)
  fieldSome p "context_percent" m.contextPercent

def buildDataPoint (floats : Floats F) (m : RequestMetrics F) :
    Except String (Option (DataPoint F)) :=
  match timestampNanosOpt m.timestamp with
  | none => .ok none
  | some nanos =>
    match build { withFields floats m (withTags m) with timestamp := some nanos } with
    | .ok p => .ok (some p)
    | .error e => .error s!"Failed to build data point: {e}"

/-! What is set on a point. -/

variable {P : String × String → Prop} {Q : String × FieldValue F → Prop}

theorem forall_tag (p : DataPoint F) (key value : String) :
    (∀ t ∈ (tag p key value).tags, P t) ↔ (∀ t ∈ p.tags, P t) ∧ P (key, value) := by
  rw [tag, List.forall_mem_append, List.forall_mem_singleton]

theorem forall_tagSome (p : DataPoint F) (key : String) (o : Option String) :
    (∀ t ∈ (tagSome p key o).tags, P t) ↔
      (∀ t ∈ p.tags, P t) ∧ ∀ value ∈ o, P (key, value) := by
  cases o with
  | none =>
    constructor
    · intro h
      exact ⟨h, fun value hv => by cases hv⟩
    · intro h
      exact h.1
  | some value =>
    rw [tagSome, forall_tag]
    constructor
    · intro h
      refine ⟨h.1, ?_⟩
      intro v hv
      cases hv
      exact h.2
    · intro h
      exact ⟨h.1, h.2 value rfl⟩

theorem forall_field (p : DataPoint F) (key : String) (value : FieldValue F) :
    (∀ f ∈ (field p key value).fields, Q f) ↔ (∀ f ∈ p.fields, Q f) ∧ Q (key, value) := by
  rw [field, List.forall_mem_append, List.forall_mem_singleton]

theorem forall_fieldSome (p : DataPoint F) (key : String) (o : Option F) :
    (∀ f ∈ (fieldSome p key o).fields, Q f) ↔
      (∀ f ∈ p.fields, Q f) ∧ ∀ x ∈ o, Q (key, .f64 x) := by
  cases o with
  | none =>
    constructor
    · intro h
      exact ⟨h, fun value hv => by cases hv⟩
    · intro h
      exact h.1
  | some value =>
    rw [fieldSome, forall_field]
    constructor
    · intro h
      refine ⟨h.1, ?_⟩
      intro v hv
      cases hv
      exact h.2
    · intro h
      exact ⟨h.1, h.2 value rfl⟩

theorem tags_field (p : DataPoint F) (key : String) (value : FieldValue F) :
    (field p key value).tags = p.tags := rfl

theorem tags_fieldSome (p : DataPoint F) (key : String) (o : Option F) :
    (fieldSome p key o).tags = p.tags := by
  cases o with
  | none => rfl
  | some x => rfl

theorem tags_withFields (floats : Floats F) (m : RequestMetrics F) (p : DataPoint F) :
    (withFields floats m p).tags = p.tags := by
  simp only [withFields, tags_fieldSome, tags_field]

/-! The sanitiser. -/

def cleanChar (ch : Char) : Char := if isUnsafe ch then '_' else ch

theorem toList_tagValue (raw : String) : (tagValue raw).toList = raw.toList.map cleanChar := by
  rw [tagValue]
  split
  · rename_i hsafe
    rw [Bool.not_eq_true', List.any_eq_false] at hsafe
    have hclean : ∀ ch ∈ raw.toList, cleanChar ch = ch := fun ch hch => if_neg (hsafe ch hch)
    rw [List.map_congr_left hclean, List.map_id']
  · exact String.toList_ofList

theorem cleanChar_ne_newline (ch : Char) : cleanChar ch ≠ '\n' := by
  rw [cleanChar]
  split
  · decide
  · rename_i hsafe
    intro hline
    rw [hline] at hsafe
    exact hsafe rfl

theorem cleanChar_eq_backslash (ch : Char) : cleanChar ch = '\\' ↔ ch = '\\' := by
  rw [cleanChar]
  split
  · rename_i hunsafe
    constructor
    · intro h
      cases h
    · intro h
      rw [h] at hunsafe
      cases hunsafe
  · exact Iff.rfl

theorem newline_tagValue (raw : String) : '\n' ∉ (tagValue raw).toList := by
  rw [toList_tagValue]
  intro hmem
  obtain ⟨ch, _, hch⟩ := List.mem_map.1 hmem
  exact cleanChar_ne_newline ch hch

theorem kept_tagValue (raw : String) : Kept (tagValue raw) ↔ Kept raw := by
  have hempty : tagValue raw = "" ↔ raw = "" := by
    rw [← String.toList_eq_nil_iff, toList_tagValue, List.map_eq_nil_iff, String.toList_eq_nil_iff]
  have hlast : (tagValue raw).toList.getLast? = some '\\' ↔
      raw.toList.getLast? = some '\\' := by
    rw [toList_tagValue, List.getLast?_map, Option.map_eq_some_iff]
    constructor
    · intro ⟨ch, hlast, hch⟩
      rw [hlast, (cleanChar_eq_backslash ch).1 hch]
    · intro h
      exact ⟨'\\', h, rfl⟩
  rw [Kept, Kept, ne_eq, ne_eq, ne_eq, ne_eq, hempty, hlast]

/-! The lines of a backend. -/

/-- No tag of the sample is empty or ends in a backslash. -/
structure TagsKept (m : RequestMetrics F) : Prop where
  model : Kept m.model
  finishReason : Kept m.finishReason
  clientId : ∀ v ∈ m.clientId, Kept v
  conversationId : ∀ v ∈ m.conversationId, Kept v
  groupName : ∀ v ∈ m.groupName, Kept v

/-- The floats of a sample that are not counts. -/
def rates (m : RequestMetrics F) : List F :=
  [m.totalTps, m.decodeTpsMin, m.promptMs, m.generationMs, m.durationMs] ++ m.promptTps.toList ++
    m.generationTps.toList ++ m.contextPercent.toList

theorem forall_mem_map {o : Option α} {f : α → β} {P : β → Prop} :
    (∀ b ∈ o.map f, P b) ↔ ∀ a ∈ o, P (f a) := by
  cases o with
  | none =>
    constructor
    · intro _ a ha
      cases ha
    · intro _ b hb
      cases hb
  | some a =>
    constructor
    · intro h x hx
      cases hx
      exact h (f a) rfl
    · intro h x hx
      cases hx
      exact h a rfl

theorem kept_streamEndLabel (m : RequestMetrics F) :
    Kept m.streamEndLabel ∧ '\n' ∉ m.streamEndLabel.toList := by
  rw [RequestMetrics.streamEndLabel]
  split
  · rename_i reason hreason
    cases reason with
    | completed => decide
    | backendClosed => decide
    | backendError => decide
    | stalled => decide
    | clientGone => decide
  · split
    · decide
    · decide

theorem kept_streaming (b : Bool) : Kept (toString b) ∧ '\n' ∉ (toString b).toList := by
  cases b with
  | true => decide
  | false => decide

theorem plainTag {key value : String} (hne : key ≠ "") (hkey : key.toList.all isPlain = true)
    (h : '\n' ∉ value.toList) : PlainTag (key, value) := by
  refine ⟨hne, ?_, h⟩
  intro c hc
  exact List.all_eq_true.1 hkey c hc

theorem plain_withTags (m : RequestMetrics F) : ∀ t ∈ (withTags m).tags, PlainTag t := by
  have hoption : ∀ (key : String) (o : Option String), key ≠ "" →
      key.toList.all isPlain = true → ∀ v ∈ o.map tagValue, PlainTag (key, v) := by
    intro key o hne hkey v hv
    obtain ⟨raw, _, rfl⟩ := Option.map_eq_some_iff.1 hv
    exact plainTag hne hkey (newline_tagValue raw)
  simp only [withTags, forall_tagSome, forall_tag]
  refine ⟨⟨⟨⟨⟨⟨⟨?_, ?_⟩, ?_⟩, ?_⟩, ?_⟩, ?_⟩, ?_⟩, ?_⟩
  · intro t ht
    cases ht
  · exact plainTag (by decide) (by rfl) (newline_tagValue m.model)
  · exact plainTag (by decide) (by rfl) (kept_streaming m.streaming).2
  · exact plainTag (by decide) (by rfl) (newline_tagValue m.finishReason)
  · exact plainTag (by decide) (by rfl) (kept_streamEndLabel m).2
  · exact hoption _ _ (by decide) (by rfl)
  · exact hoption _ _ (by decide) (by rfl)
  · exact hoption _ _ (by decide) (by rfl)

theorem kept_withTags (m : RequestMetrics F) :
    (∀ t ∈ (withTags m).tags, Kept t.2) ↔ TagsKept m := by
  simp only [withTags, forall_tagSome, forall_tag, forall_mem_map, kept_tagValue]
  constructor
  · intro ⟨⟨⟨⟨⟨⟨⟨_, hmodel⟩, _⟩, hfinish⟩, _⟩, hclient⟩, hconversation⟩, hgroup⟩
    exact ⟨hmodel, hfinish, hclient, hconversation, hgroup⟩
  · intro h
    refine ⟨⟨⟨⟨⟨⟨⟨?_, h.model⟩, ?_⟩, h.finishReason⟩, ?_⟩, h.clientId⟩, h.conversationId⟩, h.groupName⟩
    · intro t ht
      cases ht
    · exact (kept_streaming m.streaming).1
    · exact (kept_streamEndLabel m).1

theorem fields_tagSome (p : DataPoint F) (key : String) (o : Option String) :
    (tagSome p key o).fields = p.fields := by
  cases o with
  | none => rfl
  | some value => rfl

theorem fields_withTags (m : RequestMetrics F) : (withTags m).fields = [] := by
  rw [withTags, fields_tagSome, fields_tagSome, fields_tagSome]
  rfl

theorem plainField {key : String} (h : key.toList.all isPlain = true) (v : FieldValue F) :
    PlainField (key, v) := by
  intro c hc
  exact List.all_eq_true.1 h c hc

theorem plain_withFields (floats : Floats F) (m : RequestMetrics F) :
    ∀ f ∈ (withFields floats m (withTags m)).fields, PlainField f := by
  simp only [withFields, forall_fieldSome, forall_field, fields_withTags]
  and_intros
  all_goals first
    | exact List.forall_mem_nil _
    | exact plainField (by rfl) _
    | exact fun x _ => plainField (by rfl) _

/-- The fields of a sample read back as set just when its rates do. -/
theorem read_withFields (floats : Floats F) (m : RequestMetrics F) :
    (∀ f ∈ (withFields floats m (withTags m)).fields,
      (codec floats).read ((codec floats).text f.2) = some f.2) ↔
        ∀ x ∈ rates m, floats.read (floats.text x) = some x := by
  simp only [withFields, forall_fieldSome, forall_field, fields_withTags, read_bool, read_f64,
    forall_mem_map, floats.exactU64, rates, List.forall_mem_append, List.forall_mem_cons,
    List.not_mem_nil, false_imp_iff, implies_true, and_true, true_and]
  simp only [Option.mem_toList, Option.mem_def, and_assoc]

theorem nonempty_withFields (floats : Floats F) (m : RequestMetrics F) (p : DataPoint F) :
    (withFields floats m p).fields ≠ [] := by
  intro hnil
  have hall : ∀ f ∈ (withFields floats m p).fields, False := by
    rw [hnil]
    intro f hf
    cases hf
  simp only [withFields, forall_fieldSome, forall_field, and_false, false_and] at hall

theorem measurement_tagSome (p : DataPoint F) (key : String) (o : Option String) :
    (tagSome p key o).measurement = p.measurement := by
  cases o with
  | none => rfl
  | some value => rfl

theorem measurement_fieldSome (p : DataPoint F) (key : String) (o : Option F) :
    (fieldSome p key o).measurement = p.measurement := by
  cases o with
  | none => rfl
  | some value => rfl

theorem measurement_withFields (floats : Floats F) (m : RequestMetrics F) :
    (withFields floats m (withTags m)).measurement = "llama_request" := by
  simp only [withFields, withTags, measurement_fieldSome, measurement_tagSome, field, tag, builder]

theorem buildDataPoint_eq {floats : Floats F} {m : RequestMetrics F} {p : DataPoint F}
    (h : buildDataPoint floats m = .ok (some p)) :
    ∃ nanos, p = { withFields floats m (withTags m) with timestamp := some nanos } := by
  rw [buildDataPoint] at h
  split at h
  · cases h
  · rename_i nanos _
    rw [build, if_neg] at h
    · cases h
      exact ⟨nanos, rfl⟩
    · intro hempty
      exact nonempty_withFields floats m (withTags m) (List.isEmpty_iff.1 hempty)

theorem plain_point (floats : Floats F) (m : RequestMetrics F) (nanos : Int) :
    Point.Plain { withFields floats m (withTags m) with timestamp := some nanos } := by
  constructor
  · rw [measurement_withFields]
    intro c hc
    have hname : "llama_request".toList.all isPlain = true := by rfl
    exact List.all_eq_true.1 hname c hc
  · rw [tags_withFields]
    exact plain_withTags m
  · exact plain_withFields floats m
  · exact nonempty_withFields floats m (withTags m)

/-- However a backend spells its strings, a sample is exported as one line that reads as what was
set, just when no tag is empty or ends in a backslash and every rate reads back. -/
theorem oneLine_iff_tagsKept (floats : Floats F) (m : RequestMetrics F) (p : DataPoint F)
    (h : buildDataPoint floats m = .ok (some p)) :
    p.OneLine (codec floats) ↔
      TagsKept m ∧ ∀ x ∈ rates m, floats.read (floats.text x) = some x := by
  obtain ⟨nanos, rfl⟩ := buildDataPoint_eq h
  rw [oneLine_iff _ (plain_point floats m nanos), tags_withFields, kept_withTags, read_withFields]

theorem intText_chars (n : Int) : ∀ c ∈ intText n, (Char.isDigit c || c == '-') = true := by
  intro c hc
  rw [intText] at hc
  split at hc
  · obtain rfl | hc := List.mem_cons.1 hc
    · rfl
    · rw [isDigit_toDigits _ c hc, Bool.true_or]
  · rw [isDigit_toDigits _ c hc, Bool.true_or]

/-- The whole numbers among the floats. -/
def wholeFloats : Floats Int where
  ofU64 := fun n => n.toNat
  text := intText
  read := readInt
  plain := intText_plain
  notWord := by
    intro n hword
    have hchars := intText_chars n
    rw [← String.toList_ofList (l := intText n)] at hchars
    have hall : ∀ w ∈ trueWords ++ falseWords,
        w.toList.all (fun c => Char.isDigit c || c == '-') = false := by
      decide
    rw [← List.all_eq_true, hall _ hword] at hchars
    cases hchars
  exactU64 := fun n => readInt_intText n.toNat

/-- A sample of a backend that echoes a forged line as its model. -/
def forged : RequestMetrics Int :=
  { RequestMetrics.new 5 0 with model := "m\nforged,x=y 1", finishReason := "stop" }

theorem oneLine_iff_tagsKept_forged : ∃ p, buildDataPoint wholeFloats forged = .ok (some p) ∧
    (p.OneLine (codec wholeFloats) ↔
      TagsKept forged ∧ ∀ x ∈ rates forged, wholeFloats.read (wholeFloats.text x) = some x) :=
  ⟨_, rfl, oneLine_iff_tagsKept wholeFloats forged _ rfl⟩

/-- A model that ends in a backslash takes the delimiter after it. -/
theorem backslash_breaks_line : ¬ ∀ (m : RequestMetrics Int) (p : DataPoint Int),
    buildDataPoint wholeFloats m = .ok (some p) → p.OneLine (codec wholeFloats) := by
  intro h
  have hline := h { RequestMetrics.new 5 0 with model := "m\\" } _ rfl
  have hkept := ((oneLine_iff _ (plain_point wholeFloats _ 5)).1 hline).1
  rw [tags_withFields, kept_withTags] at hkept
  have hmodel : ¬ Kept "m\\" := by decide
  exact hmodel hkept.model

end LocalMind.Influx
