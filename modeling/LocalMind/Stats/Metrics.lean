import LocalMind.Proxy.PassThrough

namespace LocalMind
set_option autoImplicit true

/-- The operations of `f64` that the samples need. -/
structure FloatOps (F : Type) where
  ofU64 : UInt64 → F
  mul : F → F → F
  div : F → F → F
  lt : F → F → Bool
  le : F → F → Bool
  isFinite : F → Bool
  nan : F
  minPositive : F

/-- The sample of one request; `F` stands for `f64`. -/
structure RequestMetrics (F : Type) where
  timestamp : Int
  model : String
  groupName : Option String
  clientId : Option String
  conversationId : Option String
  promptTokens : Option UInt64
  completionTokens : Option UInt64
  totalTokens : UInt64
  promptTps : Option F
  generationTps : Option F
  promptMs : F
  generationMs : F
  totalTps : F
  decodeTpsMin : F
  cachedTokens : Option UInt64
  cacheCreationTokens : Option UInt64
  hasTimingSplit : Bool
  queueMs : Option F
  meanItlMs : Option F
  contextTotal : Option UInt64
  contextUsed : Option UInt64
  contextPercent : Option F
  inputMessages : Nat
  inputLen : UInt64
  outputLen : UInt64
  streaming : Bool
  streamIncomplete : Bool
  streamEnd : Option StreamEnd
  finishReason : String
  durationMs : F
  reasoningTokens : Option UInt64
  acceptedPredictionTokens : Option UInt64
  rejectedPredictionTokens : Option UInt64
  concurrentRequests : Option Nat

def StreamEnd.asStr : StreamEnd → String
  | completed => "ok"
  | backendClosed => "truncated"
  | backendError => "truncated"
  | stalled => "stalled"
  | clientGone => "client_gone"

namespace RequestMetrics

def streamEndLabel (m : RequestMetrics F) : String :=
  match m.streamEnd with
  | some reason => reason.asStr
  | none => if !m.streaming then "sync" else "unknown"

/-- A fresh sample; its time is the clock's. -/
def new (now : Int) (zero : F) : RequestMetrics F where
  timestamp := now
  model := "unknown"
  groupName := none
  clientId := none
  conversationId := none
  promptTokens := none
  completionTokens := none
  totalTokens := 0
  promptTps := none
  generationTps := none
  promptMs := zero
  generationMs := zero
  totalTps := zero
  decodeTpsMin := zero
  cachedTokens := none
  cacheCreationTokens := none
  hasTimingSplit := false
  queueMs := none
  meanItlMs := none
  contextTotal := none
  contextUsed := none
  contextPercent := none
  inputMessages := 0
  inputLen := 0
  outputLen := 0
  streaming := false
  streamIncomplete := false
  streamEnd := none
  finishReason := "unknown"
  durationMs := zero
  reasoningTokens := none
  acceptedPredictionTokens := none
  rejectedPredictionTokens := none
  concurrentRequests := none

end RequestMetrics

end LocalMind
