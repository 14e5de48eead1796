import LocalMind.Fixes.ContextFree
import LocalMind.Json.Reread
import LocalMind.Proxy.AnthropicStream
import LocalMind.Proxy.ClaudeStream
import LocalMind.Proxy.Decompress
import LocalMind.Proxy.Reprompt

namespace LocalMind
open Json Text
set_option autoImplicit true

/-! What a client gets for a backend's reply that is not a stream. -/

/-- Headers in the order they came, by their names in lower case. -/
abbrev HeaderMap := List (String × List UInt8)

/-- The first value of a header. -/
def HeaderMap.get (headers : HeaderMap) (name : String) : Option (List UInt8) :=
  (headers.find? fun h => h.1 == name).map Prod.snd

/-- `HeaderValue::to_str`: a value of visible ASCII and tabs. -/
def toStr (v : List UInt8) : Option (List Char) :=
  if v.all fun b => (32 ≤ b && b < 127) || b == 9 then some (v.map fun b => Char.ofNat b.toNat)
  else none

/-- The media type is JSON, whatever its parameters. -/
def isJsonContentType (contentType : List Char) : Bool :=
  let media := match splitOnce [';'] contentType with
    | some (media, _) => media
    | none => contentType
  let mediaType := toAsciiLower (trim media)
  mediaType == "application/json".toList || "+json".toList.isSuffixOf mediaType

def isHopByHopHeader (name : String) : Bool :=
  ["connection", "proxy-authenticate", "proxy-authorization", "te", "trailer",
    "upgrade"].contains name

def isSuccess (status : Nat) : Bool := decide (200 ≤ status ∧ status < 300)

structure BackendReply where
  status : Nat
  headers : HeaderMap
  body : Except String (List UInt8)

inductive ClientResponse where
  | forwarded (status : Nat) (headers : HeaderMap) (body : List UInt8)
  | openaiStream (events : List Event)
  | anthropicStream (frames : List SseFrame)
  /-- the event `error` of an Anthropic stream, and its end -/
  | sseError
  | proxyError (status : Nat) (kind message : String)

/-- Every synthesized stream is answered with 200. -/
def ClientResponse.status : ClientResponse → Nat
  | forwarded status _ _ => status
  | proxyError status _ _ => status
  | _ => 200

/-- The header goes to the client, with a body that the proxy has decoded or not. -/
def forwardsHeader (bodyWasDecoded : Bool) (name : String) : Bool :=
  !(name == "content-length" || name == "transfer-encoding" || isHopByHopHeader name) &&
    !(bodyWasDecoded && name == "content-encoding")

def forwardResponse (status : Nat) (headers : HeaderMap) (body : List UInt8)
    (bodyWasDecoded : Bool) : ClientResponse :=
  .forwarded status (headers.filter fun h => forwardsHeader bodyWasDecoded h.1) body

/-- Where an indexing or a slicing panics, the client gets nothing. -/
inductive Crash where
  | index (p : Panic)
  | slice (p : SlicePanic)

/-- The proxy's state that a reply meets, and what its follow-ups bring. -/
structure Handler where
  codec : FloatCodec
  decoders : Decoders
  registry : FixRegistry
  engine : Option RepromptEngine
  prompt : String
  node : BackendNode
  rounds : Rounds
  now : Int64
  newId : Nat → String
  chunkSizeChars : Nat

namespace Handler

def reprompted (h : Handler) (isAnthropicApi : Bool) (requestJson parsed : Option Value) :
    Except Crash (Option Value) :=
  if isAnthropicApi then .ok parsed
  else
    match h.engine, requestJson, parsed with
    | some engine, some request, some current =>
      match maybeReprompt engine h.prompt h.node h.rounds current request with
      | .ok run => .ok (some run.body)
      | .error p => .error (.index p)
    | _, _, parsed => .ok parsed

def fixed (h : Handler) (requestJson : Option Value) (json : Value) : Except Crash Value :=
  let run := match requestJson with
    | some request => h.registry.applyFixesWithContext h.codec json request
    | none => h.registry.applyFixes h.codec json
  match run with
  | .ok run => .ok run.1
  | .error p => .error (.slice p)

/-- The stream that a client wants, if the body can be made one. -/
def synthesized (h : Handler) (isAnthropicApi : Bool) (json : Value) : Option ClientResponse :=
  if isAnthropicApi then
    match AnthropicMessage.deserialize json with
    | some msg => some (.anthropicStream (synthesizeAnthropicChunks h.codec msg h.chunkSizeChars))
    | none =>
      match convertOpenaiToClaudeSse h.now h.newId json h.chunkSizeChars with
      | [] => some .sseError
      | frame :: frames => some (.anthropicStream (frame :: frames))
  else
    match parseRawCompletion h.now json with
    | .ok parsed => some (.openaiStream (synthesizeOpenaiChunks parsed h.chunkSizeChars))
    | .error _ => none

/-- The reply's body as JSON, if its headers say so. -/
def parsed (h : Handler) (headers : HeaderMap) (body : List UInt8) : Option Value :=
  if isJsonContentType (((headers.get "content-type").bind toStr).getD "unknown".toList) then
    fromSlice h.codec body
  else none

/-- The client's response, by the decoded body and what is made of its JSON. -/
def answer (h : Handler) (reply : BackendReply) (clientWantsStreaming isAnthropicApi : Bool)
    (bodyBytes : List UInt8) (bodyDecoded : Bool) (jsonValue : Option Value) : ClientResponse :=
  let finalBody := match jsonValue with
    | some json => toVec h.codec json
    | none => bodyBytes
  let stream :=
    if clientWantsStreaming && isSuccess reply.status then
      jsonValue.bind (h.synthesized isAnthropicApi)
    else none
  stream.getD (forwardResponse reply.status reply.headers finalBody bodyDecoded)

/-- The encoding that a reply names. -/
def contentEncoding (headers : HeaderMap) : Option (List Char) :=
  (headers.get "content-encoding").bind toStr

/-- What becomes of the JSON in a body, if there is any. -/
def rewritten (h : Handler) (isAnthropicApi : Bool) (requestJson : Option Value)
    (headers : HeaderMap) (body : List UInt8) : Except Crash (Option Value) := do
  match ← h.reprompted isAnthropicApi requestJson (h.parsed headers body) with
  | none => .ok none
  | some json =>
    let json ← h.fixed requestJson json
    .ok (some json)

end Handler

end LocalMind
