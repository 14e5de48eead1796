import LocalMind.Text.Str
import LocalMind.Text.Search
import LocalMind.Text.Seams

namespace LocalMind
open Text
set_option autoImplicit true

/-! The channels of an ATEM transcript. -/

namespace Atem

def START : List Char := "<|start|>".toList
def MESSAGE : List Char := "<|message|>".toList
def EOM : List Char := "<|eom|>".toList
def EOT : List Char := "<|eot|>".toList
def EOD : List Char := "<|end_of_text|>".toList

def ASSISTANT : List Char := "assistant".toList
def TO : List Char := "to=".toList
def SELF_RECIPIENT : List Char := "self".toList
def USER_RECIPIENT : List Char := "user".toList

/-- The end of a message body. -/
def BODY_END : List (List Char) := [EOM, EOT, START, EOD]

def PARTIAL_MARKERS : List (List Char) :=
  [START, MESSAGE, EOM, EOT, EOD, "<atem:function_calls>".toList, "<atem:invoke".toList]

/-- The characters of `\s`. -/
def isSpace (c : Char) : Bool := isWhitespace c || decide (0x1C ≤ c.toNat ∧ c.toNat ≤ 0x1F)

/-- The characters of `[ \t]`. -/
def isBlank (c : Char) : Bool := c = ' ' || c = '\t'

/-- A match of a header pattern: all of it, and the recipient. -/
structure Header where
  text : List Char
  recipient : Option (List Char)
deriving DecidableEq

/-- What is left after a word that may be missing. -/
def optional (word s : List Char) : List Char :=
  if word.isPrefixOf s then s.drop word.length else s

def blanks (s : List Char) : List Char := s.dropWhile isBlank

/-- The characters of `[^\s<]`. -/
def isRecipient (c : Char) : Bool := !isSpace c && c ≠ '<'

/-- `(?:to=(?P<to>[^\s<]+))?`, and what is left. -/
def recipientPart (s : List Char) : Option (List Char) × List Char :=
  if TO.isPrefixOf s then
    match (s.drop TO.length).takeWhile isRecipient with
    | [] => (none, s)
    | who => (some who, (s.drop TO.length).dropWhile isRecipient)
  else (none, s)

/-- A part that can be matched has to be: what comes after it cannot start as it does. -/
def headerRe : Matcher Char Header := fun _ s =>
  let r := recipientPart (blanks (optional ASSISTANT (blanks (optional START s))))
  let rest := blanks r.2
  if MESSAGE.isPrefixOf rest then
    let k := s.length - rest.length + MESSAGE.length
    some (⟨s.take k, r.1⟩, k)
  else none

/-- The characters of `[A-Za-z0-9_.\-]`. -/
def isWord (c : Char) : Bool :=
  ('A' ≤ c && c ≤ 'Z') || ('a' ≤ c && c ≤ 'z') || ('0' ≤ c && c ≤ '9') || c = '_' || c = '.' ||
    c = '-'

def lenientRecipient (s : List Char) : Option (List Char) :=
  if SELF_RECIPIENT.isPrefixOf s then some SELF_RECIPIENT
  else if USER_RECIPIENT.isPrefixOf s then some USER_RECIPIENT
  else
    let who := s.takeWhile isWord
    if !who.isEmpty && "<atem:".toList.isPrefixOf (s.drop who.length) then some who else none

/-- `(?:assistant[ \t]*)?`. -/
def lenientRole (s : List Char) : List Char :=
  if ASSISTANT.isPrefixOf s then blanks (s.drop ASSISTANT.length) else s

def lenientHeaderRe : Matcher Char Header := fun prev s =>
  if prev.all fun c => isSpace c || c = '>' then
    let rest := lenientRole s
    if TO.isPrefixOf rest then
      (lenientRecipient (rest.drop TO.length)).map fun who =>
        let k := s.length - rest.length + (TO.length + who.length)
        (⟨s.take k, some who⟩, k)
    else none
  else none

/-- What is left of a text that ends in the role word. -/
def dropTrailer (s : List Char) : Option (List Char) :=
  let t := s.rdropWhile isBlank
  if ASSISTANT.isSuffixOf t then
    some ((t.take (t.length - ASSISTANT.length)).rdropWhile isSpace)
  else none

/-- `$` matches at the end and before a final line feed. -/
def subLenientTrailer (s : List Char) : List Char :=
  match dropTrailer s with
  | some b => b
  | none =>
    if s.getLast? = some '\n' then
      match dropTrailer s.dropLast with
      | some b => b ++ ['\n']
      | none => s
    else s

/-- The lengths to try, longest first. -/
def overlapLengths (text marker : List Char) : List Nat :=
  ((List.range (min (marker.length - 1) text.length)).map (· + 1)).reverse

def partialOverlap (text marker : List Char) : Nat :=
  ((overlapLengths text marker).find? fun k => (marker.take k).isSuffixOf text).getD 0

/-- Drop a trailing fragment of a marker that has not fully arrived yet. -/
def holdBack (text : List Char) : List Char :=
  text.take (text.length - (PARTIAL_MARKERS.map (partialOverlap text)).foldl max 0)

def readBody (streaming last : Bool) (body : List Char) : List Char :=
  if containsAny BODY_END body then cutBefore BODY_END body
  else if streaming && last then holdBack body
  else body

def readBodies (streaming : Bool) :
    List (Header × List Char) → List (Header × List Char)
  | [] => []
  | [(h, b)] => [(h, readBody streaming true b)]
  | (h, b) :: rest => (h, readBody streaming false b) :: readBodies streaming rest

def Header.isSelf (h : Header) : Bool := h.recipient.getD USER_RECIPIENT = SELF_RECIPIENT

/-- The text before the first header, unless it is blank. -/
def kept (lead : List Char) : List (List Char) := if lead.all isSpace then [] else [lead]

def selfBodies (bodies : List (Header × List Char)) : List (List Char) :=
  (bodies.filter fun p => p.1.isSelf).map Prod.snd

def otherBodies (bodies : List (Header × List Char)) : List (List Char) :=
  (bodies.filter fun p => !p.1.isSelf).map Prod.snd

structure Channels where
  reasoning : List (List Char)
  content : List (List Char)
  ended : Bool

def splitChannels (text : List Char) (streaming : Bool) : Channels :=
  let r := pieces headerRe none 0 text
  if r.2.isEmpty then ⟨[], [], false⟩
  else
    let bodies := readBodies streaming r.2
    ⟨selfBodies bodies, kept (cutBefore BODY_END r.1) ++ otherBodies bodies,
      bodies.any fun p => !p.1.isSelf⟩

def splitChannelsLenient (text : List Char) : Channels :=
  let r := pieces lenientHeaderRe none 0 text
  if r.2.isEmpty then ⟨[], [text], true⟩
  else
    let bodies := r.2.map fun p => (p.1, subLenientTrailer p.2)
    ⟨selfBodies bodies, kept r.1 ++ otherBodies bodies,
      !(kept r.1).isEmpty || bodies.any fun p => !p.1.isSelf⟩

def contentOf (text : List Char) : List Char :=
  if contains text MESSAGE then (splitChannels text true).content.flatten else text

/-- A text, or nothing if it is empty. -/
def orNone (s : List Char) : Option (List Char) := if s.isEmpty then none else some s

def channelsOf (modelOutput : List Char) : Channels :=
  if contains modelOutput MESSAGE then splitChannels modelOutput false
  else splitChannelsLenient modelOutput

def extractReasoning (modelOutput : List Char) : Option (List Char) × Option (List Char) :=
  (orNone (channelsOf modelOutput).reasoning.flatten,
    orNone (channelsOf modelOutput).content.flatten)

structure DeltaMessage where
  reasoning : Option (List Char)
  content : Option (List Char)
deriving DecidableEq

def extractReasoningStreaming (previous current : List Char) : Option DeltaMessage :=
  let previousReasoning := (splitChannels previous true).reasoning.flatten
  let channels := splitChannels current true
  let reasoning := channels.reasoning.flatten
  let delta := if previousReasoning.isPrefixOf reasoning then
    reasoning.drop previousReasoning.length else reasoning
  if channels.ended then some ⟨orNone delta, orNone channels.content.flatten⟩
  else if delta.isEmpty then none
  else some ⟨some delta, none⟩

end Atem

end LocalMind
