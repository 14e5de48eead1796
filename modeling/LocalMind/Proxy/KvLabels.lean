import Mathlib.Data.String.Basic
import LocalMind.Json.Entries
import LocalMind.Order.FirstMin
import LocalMind.Text.Quoted

namespace LocalMind.KvLabels
set_option autoImplicit true
open Json Text Ordered

/-! The labels of the cache gauge in a metrics body. -/

def METRIC_NAME : List Char := "vllm:cache_config_info".toList

def ENGINE_LABEL : String := "engine"

/-- The labels of one series, in the order they are read. -/
abbrev Labels := List (String × String)

def stripPrefix (pre s : List Char) : Option (List Char) :=
  if pre.isPrefixOf s then some (s.drop pre.length) else none

def resolveEscape (ch : Char) : Char :=
  match ch with
  | 'n' => '\n'
  | 'r' => '\r'
  | 't' => '\t'
  | literal => literal

def unescapeFrom (escaped : Bool) : List Char → List Char
  | [] => []
  | ch :: t =>
    if escaped then resolveEscape ch :: unescapeFrom false t
    else if ch = '\\' then unescapeFrom true t
    else ch :: unescapeFrom false t

/-- The text between quotes, its escapes resolved. -/
def unquote (quoted : List Char) : Option (List Char) :=
  match stripPrefix ['"'] quoted with
  | none => none
  | some t =>
    if t.getLast? = some '"' then
      if '\\' ∈ t.dropLast then some (unescapeFrom false t.dropLast) else some t.dropLast
    else none

/-- A segment that is no name with a quoted value is skipped. -/
def insertPair (labels : Labels) (pair : List Char) : Labels :=
  match splitOnce ['='] pair with
  | none => labels
  | some (name, value) =>
    match unquote (trim value) with
    | none => labels
    | some value =>
      if !(trim name).isEmpty then
        Fields.insert labels (String.ofList (trim name)) (String.ofList value)
      else labels

def parseLabelPairs (inner : List Char) : Labels :=
  (splitOutside ',' false false [] inner).foldl insertPair []

def labelSetInner (s : List Char) : Option (List Char) :=
  (cutOutside '}' false false s).map Prod.fst

/-- The labels of a line, where it is a series of the gauge with any. -/
def cacheConfigLabels (line : List Char) : Option Labels := do
  let line := trim line
  if line.head? = some '#' then none
  else
    let s ← stripPrefix METRIC_NAME line
    let s ← stripPrefix ['{'] s
    let inner ← labelSetInner s
    let labels := parseLabelPairs inner
    if !labels.isEmpty then some labels else none

def engineOf (labels : Labels) : String := (Fields.get labels ENGINE_LABEL).getD ""

/-- A series takes the place of the best one so far where its engine is lower. -/
def pickLowest (best : Option (String × Labels)) (line : List Char) : Option (String × Labels) :=
  match cacheConfigLabels line with
  | none => best
  | some labels =>
    match best with
    | some (lowest, _) => if engineOf labels < lowest then some (engineOf labels, labels) else best
    | none => some (engineOf labels, labels)

def parseCacheConfigInfo (body : List Char) : Option Labels :=
  ((lines body).foldl pickLowest none).map Prod.snd

/-! The exposition format. -/

def renderChar (c : Char) : List Char :=
  if c = '\\' then ['\\', '\\']
  else if c = '"' then ['\\', '"']
  else if c = '\n' then ['\\', 'n']
  else [c]

def renderPair (e : String × String) : List Char :=
  e.1.toList ++ '=' :: '"' :: (e.2.toList.flatMap renderChar ++ ['"'])

/-- The segments of a label set; a trailing comma leaves an empty one. -/
def renderSegments (m : Labels) (trailing : Bool) : List (List Char) :=
  m.map renderPair ++ if trailing then [[]] else []

def renderSeries (m : Labels) (trailing : Bool) (sample : List Char) : List Char :=
  METRIC_NAME ++ '{' :: (joinWith ',' (renderSegments m trailing) ++ '}' :: sample)

def isNameStart (c : Char) : Bool := c.isAlpha || c == '_'

def isNameChar (c : Char) : Bool := c.isAlphanum || c == '_'

def LegalName (name : String) : Prop :=
  ∃ c t, name.toList = c :: t ∧ isNameStart c = true ∧ ∀ d ∈ t, isNameChar d = true

/-- A map of labels that a series can carry. -/
structure Legal (m : Labels) : Prop where
  nonempty : m ≠ []
  distinct : (Fields.keys m).Nodup
  names : ∀ k ∈ Fields.keys m, LegalName k

/-- A mark between the parts of a label set. -/
def isMark (c : Char) : Bool := c == ',' || c == '}'

/-- What a segment of a label set says. -/
inductive SegmentReads : List Char → Option (String × String) → Prop where
  | pair : '=' ∉ name → trim name ≠ [] → trim value = '"' :: (raw ++ ['"']) →
      SegmentReads (name ++ '=' :: value)
        (some (String.ofList (trim name), String.ofList (unescapeFrom false raw)))
  | other : (∀ name value raw, seg = name ++ '=' :: value → '=' ∉ name → trim name ≠ [] →
      trim value ≠ '"' :: (raw ++ ['"'])) → SegmentReads seg none

/-- The map of some pairs, where there are any: of two values of a name the later one counts. -/
def labelsOf (es : List (Option (String × String))) : Option Labels :=
  if es.reduceOption = [] then none else some (Fields.insertAll [] es.reduceOption)

/-- What a line of a body says: a rendered series says its map, and any other series of the gauge
the pairs among its segments. -/
inductive LineReads : List Char → Option Labels → Prop where
  | series : (∀ c ∈ w, isWhitespace c = true) → Legal m →
      LineReads (w ++ renderSeries m trailing sample) (some m)
  | foreign : ¬ METRIC_NAME ++ ['{'] <+: trim line → LineReads line none
  | unterminated : trim line = METRIC_NAME ++ '{' :: s →
      (∀ inner sample, s = inner ++ '}' :: sample → ¬ Delimited (· == '}') inner) →
      LineReads line none
  | segments : trim line = METRIC_NAME ++ '{' :: (joinWith ',' segs ++ '}' :: sample) →
      segs ≠ [] → (∀ seg ∈ segs, Delimited isMark seg) → List.Forall₂ SegmentReads segs es →
      LineReads line (labelsOf es)

/-- The first series of the lowest engine, where there is any. -/
def Picks (series : List Labels) (r : Option Labels) : Prop :=
  (series = [] ∧ r = none) ∨ ∃ m, r = some m ∧ FirstMin engineOf series m

end LocalMind.KvLabels
