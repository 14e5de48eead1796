import LocalMind.Stats.Metrics

namespace LocalMind.Collector
open Json
set_option autoImplicit true

/-! The sample of a request from the body of its response. -/

/-- The operations of `f64` with the conversions of JSON numbers. -/
structure JsonFloats (F : Type) extends FloatOps F where
  ofI64 : Int64 → F
  ofBits : UInt64 → F

def satAdd (a b : UInt64) : UInt64 :=
  if a.toNat + b.toNat < UInt64.size then a + b else UInt64.ofNat (UInt64.size - 1)

def u64At (v : Value) (k : String) : Option UInt64 := (v.get k).bind Value.asU64

def strAt (v : Value) (k : String) : Option String := (v.get k).bind Value.asStr

section
variable (f : JsonFloats F)

def zero : F := f.ofU64 0

/-- `Value::as_f64`. -/
def asF64 : Value → Option F
  | .number (.posInt n) => some (f.ofU64 n)
  | .number (.negInt n) => some (f.ofI64 n)
  | .number (.float bits) => some (f.ofBits bits)
  | _ => none

def f64At (v : Value) (k : String) : Option F := (v.get k).bind (asF64 f)

def finiteRate (value : F) : F := if f.isFinite value then value else zero f

def finiteRateOpt (value : F) : Option F :=
  if f.isFinite value && f.lt (zero f) value then some value else none

/-- `tokens / ms * 1000.0` -/
def perSecond (tokens ms : F) : F := f.mul (f.div tokens ms) (f.ofU64 1000)

def extractCounts (usage : Value) (m : RequestMetrics F) : RequestMetrics F :=
  match u64At usage "prompt_tokens" with
  | some promptTokens =>
    let completion := u64At usage "completion_tokens"
    { m with
      promptTokens := some promptTokens
      completionTokens := completion
      totalTokens := (u64At usage "total_tokens").getD (satAdd promptTokens (completion.getD 0))
      cachedTokens := (usage.get "prompt_tokens_details").bind (u64At · "cached_tokens") }
  | none =>
    match u64At usage "input_tokens" with
    | some input =>
      let completion := u64At usage "output_tokens"
      let cached := u64At usage "cache_read_input_tokens"
      let created := u64At usage "cache_creation_input_tokens"
      { m with
        promptTokens := some input
        completionTokens := completion
        totalTokens := satAdd input (completion.getD 0)
        cachedTokens := cached
        cacheCreationTokens := created
        contextUsed := some (satAdd (satAdd input (cached.getD 0)) (created.getD 0)) }
    | none => m

def extractDetails (usage : Value) (m : RequestMetrics F) : RequestMetrics F :=
  match usage.get "completion_tokens_details" with
  | some details =>
    { m with
      reasoningTokens := u64At details "reasoning_tokens"
      acceptedPredictionTokens := u64At details "accepted_prediction_tokens"
      rejectedPredictionTokens := u64At details "rejected_prediction_tokens" }
  | none => m

def extractUsage (response : Value) (m : RequestMetrics F) : RequestMetrics F :=
  match response.get "usage" with
  | some usage => extractDetails usage (extractCounts usage m)
  | none => m

/-- The prefill rate of a `timings` block, of the tokens that did not come from the cache. -/
def correctedPromptTps (timings : Value) (promptMs : F) : Option F :=
  match u64At timings "prompt_n", u64At timings "cache_n" with
  | some used, some cached =>
    if 0 < cached && f.lt (zero f) promptMs then
      some (perSecond f (f.ofU64 (if used < cached then 0 else used - cached)) promptMs)
    else none
  | _, _ => none

def readTimings (timings : Value) (m : RequestMetrics F) : RequestMetrics F :=
  let promptMs := ((f64At f timings "prompt_ms").map (finiteRate f)).getD (zero f)
  { m with
    promptMs := promptMs
    generationMs := ((f64At f timings "predicted_ms").map (finiteRate f)).getD (zero f)
    generationTps := (f64At f timings "predicted_per_second").bind (finiteRateOpt f)
    promptTps := ((correctedPromptTps f timings promptMs).or
      (f64At f timings "prompt_per_second")).bind (finiteRateOpt f)
    contextUsed := (u64At timings "prompt_n").or m.contextUsed
    cachedTokens := u64At timings "cache_n" }

/-- The token counts of a `timings` block, where `usage` has none. -/
def countsFallback (timings : Value) (m : RequestMetrics F) : RequestMetrics F :=
  if m.promptTokens.getD 0 = 0 ∧ m.completionTokens.getD 0 = 0 then
    let promptN := u64At timings "prompt_n"
    let predictedN := u64At timings "predicted_n"
    { m with
      promptTokens := promptN
      completionTokens := predictedN
      totalTokens := satAdd (promptN.getD 0) (predictedN.getD 0) }
  else m

def contextFallback (m : RequestMetrics F) : RequestMetrics F :=
  match m.contextUsed with
  | some _ => m
  | none =>
    match m.promptTokens.filter (0 < ·) with
    | some promptTokens => { m with contextUsed := some promptTokens }
    | none => m

def cacheIsASubset (response : Value) : Bool :=
  ((response.get "usage").map fun u => (u.get "prompt_tokens").isSome).getD false

/-- The tokens that a prefill computed, where the cache is known to hold fewer. -/
def computedTokens (response : Value) (promptTokens : UInt64) (cached : Option UInt64) :
    Option UInt64 :=
  match (cached.filter fun _ => cacheIsASubset response).filter (0 < ·) with
  | some c => if c < promptTokens then some (promptTokens - c) else none
  | none => none

def vllmPrefill (response : Value) (ttft : F) (m : RequestMetrics F) : RequestMetrics F :=
  let m := { m with promptMs := ttft }
  match m.promptTokens.filter (0 < ·) with
  | some promptTokens =>
    let numerator := (computedTokens response promptTokens m.cachedTokens).getD promptTokens
    { m with promptTps := finiteRateOpt f (perSecond f (f.ofU64 numerator) ttft) }
  | none => m

def vllmDecode (genMs : F) (m : RequestMetrics F) : RequestMetrics F :=
  let m := { m with generationMs := genMs }
  match m.completionTokens.filter (0 < ·) with
  | some completionTokens =>
    { m with generationTps := finiteRateOpt f (perSecond f (f.ofU64 completionTokens) genMs) }
  | none => m

/-- A usable measurement of a `metrics` block. -/
def vllmField (vm : Value) (k : String) : Option F :=
  (f64At f vm k).filter fun v => f.isFinite v && f.le f.minPositive v

def extractVllmUsage (response : Value) (m : RequestMetrics F) : RequestMetrics F :=
  match (response.get "metrics").filter (!·.isNull) with
  | some vm =>
    let m :=
      { m with queueMs := vllmField f vm "queue_time_ms", meanItlMs := vllmField f vm "mean_itl_ms" }
    let m := match vllmField f vm "time_to_first_token_ms" with
      | some ttft => vllmPrefill f response ttft m
      | none => m
    match vllmField f vm "generation_time_ms" with
    | some genMs => vllmDecode f genMs m
    | none => m
  | none => m

def extractTimings (response : Value) (m : RequestMetrics F) : RequestMetrics F :=
  match response.get "timings" with
  | some timings => countsFallback timings (readTimings f timings m)
  | none => extractVllmUsage f response (contextFallback m)

/-- The rates that a wall clock supports. -/
def wallRates (durationMs : F) (m : RequestMetrics F) : RequestMetrics F :=
  let m := { m with hasTimingSplit := m.promptTps.isSome || m.generationTps.isSome }
  let m :=
    if f.lt (zero f) durationMs && 0 < m.totalTokens then
      { m with totalTps := finiteRate f (perSecond f (f.ofU64 m.totalTokens) durationMs) }
    else m
  let countedOutput := f.ofU64 (m.completionTokens.getD 0)
  if f.lt (zero f) durationMs && f.lt (zero f) countedOutput then
    { m with decodeTpsMin := finiteRate f (perSecond f countedOutput durationMs) }
  else m

/-- `str::len` of the texts of a list of content parts. -/
def textLens (parts : List Value) : Nat :=
  (parts.filterMap (strAt · "text")).foldl (fun n s => n + s.utf8ByteSize) 0

def finishOf (response : Value) (m : RequestMetrics F) : RequestMetrics F :=
  match (response.get "choices").bind Value.asArray with
  | some choices =>
    match choices.head? with
    | some firstChoice =>
      let m := { m with finishReason := (strAt firstChoice "finish_reason").getD "unknown" }
      match (firstChoice.get "message").bind (strAt · "content") with
      | some content => { m with outputLen := UInt64.ofNat content.utf8ByteSize }
      | none => m
    | none => m
  | none =>
    match strAt response "stop_reason" with
    | some stopReason =>
      let m := { m with finishReason := stopReason }
      match (response.get "content").bind Value.asArray with
      | some content => { m with outputLen := UInt64.ofNat (textLens content) }
      | none => m
    | none => m

def contentLen (message : Value) : Nat :=
  match message.get "content" with
  | some (.string s) => s.utf8ByteSize
  | some (.array parts) => textLens parts
  | _ => 0

def inputOf (request : Value) (m : RequestMetrics F) : RequestMetrics F :=
  match (request.get "messages").bind Value.asArray with
  | some messages =>
    { m with
      inputMessages := messages.length
      inputLen := UInt64.ofNat (messages.foldl (fun n message => n + contentLen message) 0) }
  | none => m

def extractLengthFallbacks (response request : Value) (m : RequestMetrics F) : RequestMetrics F :=
  inputOf request (finishOf response m)

def modelOf (response : Value) (m : RequestMetrics F) : RequestMetrics F :=
  match strAt response "model" with
  | some model => { m with model := model }
  | none =>
    match (response.get "message").bind (strAt · "model") with
    | some model => { m with model := model }
    | none => m

def fromResponse (now : Int) (response request : Value) (streaming : Bool) (durationMs : F) :
    RequestMetrics F :=
  let m : RequestMetrics F :=
    { RequestMetrics.new now (zero f) with streaming := streaming, durationMs := durationMs }
  let m := extractUsage response (modelOf response m)
  let m := wallRates f durationMs (extractTimings f response m)
  extractLengthFallbacks response request m

end

end LocalMind.Collector
