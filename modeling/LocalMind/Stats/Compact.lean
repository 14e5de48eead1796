import LocalMind.Stats.Metrics
import LocalMind.Text.Cells

namespace LocalMind.Compact
open Cells Text
set_option autoImplicit true

/-! The one-line log record of a sample. -/

def MAX_FREE_FORM_CHARS : Nat := 64

def MAX_FINISH_CELLS : Nat := 24

/-- The widths of `unicode-width`: of a whole text, and of one character. -/
structure Widths where
  str : List Char → Nat
  char : Char → Nat

/-- What the text of a number is made of. -/
def isNumeric (c : Char) : Bool := c.isDigit || "-.Nainf".toList.contains c

/-- The operations of `f64` with `format!("{:.p}")`. -/
structure PrintedFloats (F : Type) extends FloatOps F where
  fixed : Nat → F → List Char
  numeric : ∀ p x, ∀ c ∈ fixed p x, isNumeric c = true

/-- `char::is_control`. -/
def isControl (c : Char) : Bool := decide (c.toNat < 0x20 ∨ 0x7f ≤ c.toNat ∧ c.toNat < 0xa0)

def isLineSeparator (c : Char) : Bool := c == '\u2028' || c == '\u2029'

def freeForm (value : String) : List Char :=
  (value.toList.take MAX_FREE_FORM_CHARS).map fun c =>
    if isControl c || isLineSeparator c || c == '=' then ' ' else c

def padCells (w : Widths) (s : List Char) (cells : Nat) : List Char :=
  if w.str s ≤ cells then s ++ List.replicate (cells - w.str s) ' ' else s

/-- The longest prefix whose characters together are at most `budget` wide. -/
def fitting (w : Widths) (budget used : Nat) : List Char → List Char
  | [] => []
  | ch :: rest =>
    if used + w.char ch > budget then [] else ch :: fitting w budget (used + w.char ch) rest

def truncateToWidth (w : Widths) (s : List Char) (maxCells : Nat) : List Char :=
  if w.str s ≤ maxCells then s else fitting w (maxCells - 3) 0 s ++ ['.', '.', '.']

/-- `{:>n}` of a text in ASCII. -/
def padLeft (n : Nat) (s : List Char) : List Char := List.replicate (n - s.length) ' ' ++ s

def countCell (count : Option UInt64) : List Char :=
  match count with
  | none => "n/a".toList
  | some n => Nat.toDigits 10 n.toNat

section
variable (f : PrintedFloats F) (w : Widths) (m : RequestMetrics F)

def literal (n : UInt64) : F := f.ofU64 n

/-- `x > 0.0` -/
def positive (x : F) : Bool := f.lt (literal f 0) x

def tpsTier : Nat :=
  if (m.generationTps.map (positive f)).getD false then 1
  else if positive f m.decodeTpsMin then 2
  else 3

def rateGroup : List Char :=
  match tpsTier f m with
  | 1 => "pp=".toList ++ padLeft 8 (f.fixed 3 (f.div (m.promptTps.getD (literal f 0)) (literal f 1000)))
      ++ "k tg=".toList ++ padLeft 7 (f.fixed 1 (m.generationTps.getD (literal f 0)))
  | 2 => "pp=     n/a tg>=".toList ++ padLeft 7 (f.fixed 1 m.decodeTpsMin)
  | _ => "pp=     n/a tg=     n/a".toList

/-- `duration_ms.min(9_999_999.0)`, or `NaN` where it is not finite. -/
def durValue : F :=
  if f.isFinite m.durationMs then
    if f.lt (literal f 9999999) m.durationMs then literal f 9999999 else m.durationMs
  else f.nan

def badge : String :=
  if m.streaming then
    match m.streamEnd.map StreamEnd.asStr with
    | some "truncated" => "trunc"
    | some "stalled" => "stalled"
    | some "client_gone" => "gone"
    | some "ok" => "ok"
    | _ => if m.streamIncomplete then "trunc" else "ok"
  else "sync"

def finishValue : List Char :=
  let value := freeForm m.finishReason
  if trim value = [] then "n/a".toList
  else if trim value = "unknown".toList then "n/a".toList
  else truncateToWidth w value MAX_FINISH_CELLS

def modelValue : List Char := truncateToWidth w (freeForm m.model) 16

def headTexts : List (List Char) :=
  ["model=".toList ++ padCells w (modelValue w m) 16,
    rateGroup f m,
    "dur=".toList ++ padLeft 7 (f.fixed 0 (durValue f m)) ++ "ms".toList,
    "ctx=".toList ++ padLeft 6 (countCell m.contextUsed) ++ '/' :: padLeft 6 (countCell m.contextTotal),
    "tok=".toList ++ padLeft 6 (countCell m.promptTokens) ++
      '/' :: padLeft 6 (countCell m.completionTokens),
    "stream=".toList ++ padCells w (badge m).toList 7,
    "finish=".toList ++ padCells w (finishValue w m) 10]

def tailTexts : List (List Char) :=
  (m.groupName.map fun g => "group=".toList ++ freeForm g).toList ++
    (if tpsTier f m ≠ 1 ∧ positive f m.totalTps then ["work=".toList ++ f.fixed 2 m.totalTps] else []) ++
    ((m.queueMs.filter fun q => f.le (literal f 1) q).map fun q =>
      "queue=".toList ++ f.fixed 0 q ++ "ms".toList).toList ++
    (m.concurrentRequests.map fun c => "concurrent=".toList ++ Nat.toDigits 10 c).toList ++
    ((m.cachedTokens.filter fun c => 0 < c).map fun c =>
      "cache=".toList ++ Nat.toDigits 10 c.toNat).toList

def formatCompact : List Char :=
  trimEnd ([' '].intercalate (headTexts f w m) ++ ' ' :: [' '].intercalate (tailTexts f m))

end

end LocalMind.Compact
