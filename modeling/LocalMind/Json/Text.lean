import LocalMind.Text.Str

namespace Json
set_option autoImplicit true

/-! Reading JSON text: every reader returns what it read and the text after it. -/

abbrev Reader (α : Type) := List Char → Option (α × List Char)

def isWs (c : Char) : Bool := c == ' ' || c == '\n' || c == '\t' || c == '\r'

def skipWs (s : List Char) : List Char := s.dropWhile isWs

def isControl (c : Char) : Bool := decide (c.toNat < 0x20)

/-! Strings, after their opening quote. -/

def hexVal (c : Char) : Option Nat :=
  if '0' ≤ c ∧ c ≤ '9' then some (c.toNat - '0'.toNat)
  else if 'a' ≤ c ∧ c ≤ 'f' then some (c.toNat - 'a'.toNat + 10)
  else if 'A' ≤ c ∧ c ≤ 'F' then some (c.toNat - 'A'.toNat + 10)
  else none

def hex4 : List Char → Option Nat
  | a :: b :: c :: d :: _ => do
    let a ← hexVal a
    let b ← hexVal b
    let c ← hexVal c
    let d ← hexVal d
    some (a * 4096 + b * 256 + c * 16 + d)
  | _ => none

/-- The one-character escapes. -/
def simpleEscape (c : Char) : Option Char :=
  match c with
  | '"' => some '"'
  | '\\' => some '\\'
  | '/' => some '/'
  | 'b' => some '\x08'
  | 'f' => some '\x0c'
  | 'n' => some '\n'
  | 'r' => some '\r'
  | 't' => some '\t'
  | _ => none

/-- The trailing surrogate that a leading one needs. -/
def trailingSurrogate (n : Nat) : List Char → Option (Char × Nat)
  | '\\' :: 'u' :: t =>
    match hex4 t with
    | none => none
    | some m =>
      if m < 0xDC00 ∨ 0xDFFF < m then none
      else some (Char.ofNat ((n - 0xD800) * 1024 + (m - 0xDC00) + 0x10000), 10)
  | _ => none

/-- A `\u` escape, after the `u`. -/
def unicodeEscape (s : List Char) : Option (Char × Nat) :=
  match hex4 s with
  | none => none
  | some n =>
    if 0xDC00 ≤ n ∧ n ≤ 0xDFFF then none
    else if n < 0xD800 ∨ 0xDBFF < n then some (Char.ofNat n, 4)
    else trailingSurrogate n (s.drop 4)

/-- An escape, after its backslash: the character, and how many more characters it takes than
the first. -/
def escape : List Char → Option (Char × Nat)
  | 'u' :: t => unicodeEscape t
  | c :: _ => (simpleEscape c).map fun d => (d, 0)
  | [] => none

/-- An escape that is skipped over: surrogates are not paired. -/
def ignoredEscape : List Char → Option (Char × Nat)
  | 'u' :: t => (hex4 t).map fun n => (Char.ofNat n, 4)
  | c :: _ => (simpleEscape c).map fun d => (d, 0)
  | [] => none

/-- Read a string's characters up to its closing quote, `skip` of them already taken. -/
def stringFrom (esc : List Char → Option (Char × Nat)) (skip : Nat) : Reader (List Char)
  | [] => none
  | c :: t =>
    match skip with
    | n + 1 => stringFrom esc n t
    | 0 =>
      if c = '"' then some ([], t)
      else if c = '\\' then
        match esc t with
        | some (d, n) => (stringFrom esc (n + 1) t).map fun r => (d :: r.1, r.2)
        | none => none
      else if isControl c then none
      else (stringFrom esc 0 t).map fun r => (c :: r.1, r.2)

def parseStr : Reader (List Char) := stringFrom escape 0

/-! Numbers. -/

/-- The lexical parts of a number: its sign, and its digits with their marks. -/
structure NumLit where
  neg : Bool
  int : List Char
  frac : List Char
  exp : List Char
  deriving DecidableEq

def NumLit.text (l : NumLit) : List Char :=
  (if l.neg then ['-'] else []) ++ l.int ++ l.frac ++ l.exp

/-- The integer digits: a leading zero stands alone. -/
def lexInt : Reader (List Char)
  | [] => none
  | c :: t =>
    if c = '0' then if t.head?.any Char.isDigit then none else some (['0'], t)
    else if Char.isDigit c then
      some ((c :: t).takeWhile Char.isDigit, (c :: t).dropWhile Char.isDigit)
    else none

/-- A mark, then at least one digit. -/
def lexDigits (mark t : List Char) : Option (List Char × List Char) :=
  if (t.takeWhile Char.isDigit).isEmpty then none
  else some (mark ++ t.takeWhile Char.isDigit, t.dropWhile Char.isDigit)

def lexFrac (s : List Char) : Option (List Char × List Char) :=
  if s.head? = some '.' then lexDigits ['.'] s.tail else some ([], s)

/-- The exponent after its letter. -/
def lexSigned (e : Char) (t : List Char) : Option (List Char × List Char) :=
  if t.head? = some '+' then lexDigits [e, '+'] t.tail
  else if t.head? = some '-' then lexDigits [e, '-'] t.tail
  else lexDigits [e] t

def lexExp : Reader (List Char)
  | [] => some ([], [])
  | c :: t => if c = 'e' ∨ c = 'E' then lexSigned c t else some ([], c :: t)

def lexUnsigned (neg : Bool) (s : List Char) : Option (NumLit × List Char) := do
  let (int, s) ← lexInt s
  let (frac, s) ← lexFrac s
  let (exp, s) ← lexExp s
  some (⟨neg, int, frac, exp⟩, s)

def lexNumber (s : List Char) : Option (NumLit × List Char) :=
  if s.head? = some '-' then lexUnsigned true s.tail else lexUnsigned false s

def NumLit.isInteger (l : NumLit) : Bool := l.frac.isEmpty && l.exp.isEmpty

/-- The conversions of binary64 numbers from and to text, which the parser and the printer take
from elsewhere. A literal out of range has no value. -/
structure FloatCodec where
  read : List Char → Option UInt64
  print : UInt64 → NumLit
  /-- a float that was read prints as a literal that reads as a float again -/
  readable : ∀ t bits, read t = some bits →
    (lexNumber (print bits).text = some (print bits, []) ∧ (print bits).isInteger = false ∧
      (read (print bits).text).isSome = true)

/-- A codec for texts without fractions and exponents. -/
def integersOnly : FloatCodec where
  read := fun _ => none
  print := fun _ => ⟨false, ['0'], ['.', '0'], []⟩
  readable := nofun

/-- The number a literal names: an integer where it fits 64 bits, else a float. -/
def numberOf (codec : FloatCodec) (l : NumLit) : Option Number :=
  let n := Nat.ofDigitChars 10 l.int 0
  if l.isInteger && l.neg && decide (0 < n ∧ n ≤ 2 ^ 63) then
    some (.negInt (Int64.ofInt (-(n : Int))))
  else if l.isInteger && !l.neg && decide (n < 2 ^ 64) then some (.posInt (UInt64.ofNat n))
  else (codec.read l.text).map .float

/-! Containers. -/

/-- What follows an item of a container: a comma, or the end. -/
def afterItem (close : Char) (s : List Char) : Option (Bool × List Char) :=
  match skipWs s with
  | [] => none
  | c :: t => if c = ',' then some (true, t) else if c = close then some (false, t) else none

/-- The items of a nonempty container, up to its closing bracket. -/
def items (item : Reader α) (close : Char) : Nat → Reader (List α)
  | 0, _ => none
  | fuel + 1, s =>
    match item s with
    | none => none
    | some (a, t) =>
      match afterItem close t with
      | none => none
      | some (false, t) => some ([a], t)
      | some (true, t) => (items item close fuel t).map fun r => (a :: r.1, r.2)

/-- The items of a container, after its opening bracket. -/
def itemsOf (item : Reader α) (close : Char) (t : List Char) : Option (List α × List Char) :=
  match skipWs t with
  | [] => none
  | c :: u => if c = close then some ([], u) else items item close t.length t

/-- A character that has to come next, after whitespace. -/
def expect (c : Char) (s : List Char) : Option (List Char) :=
  if (skipWs s).head? = some c then some (skipWs s).tail else none

/-- An entry of an object. -/
def entryOf (str : Reader (List Char)) (value : Reader α) (s : List Char) :
    Option ((String × α) × List Char) := do
  let t ← expect '"' s
  let (k, t) ← str t
  let t ← expect ':' t
  let (v, t) ← value t
  some ((String.ofList k, v), t)

/-! Values. -/

/-- What a reader makes of the parts of a value. -/
structure Handlers (α : Type) where
  esc : List Char → Option (Char × Nat)
  null : α
  bool : Bool → α
  str : List Char → α
  num : NumLit → Option α
  arr : List α → α
  obj : List (String × α) → α

/-- The rest of a word whose first letter is taken. -/
def ident (word : List Char) (a : α) (t : List Char) : Option (α × List Char) :=
  if word.isPrefixOf t then some (a, t.drop word.length) else none

/-- A value with at most `depth` nested containers. -/
def readValue (h : Handlers α) (depth : Nat) (s : List Char) : Option (α × List Char) :=
  match skipWs s with
  | [] => none
  | c :: t =>
    if c = 'n' then ident ['u', 'l', 'l'] h.null t
    else if c = 't' then ident ['r', 'u', 'e'] (h.bool true) t
    else if c = 'f' then ident ['a', 'l', 's', 'e'] (h.bool false) t
    else if c = '"' then (stringFrom h.esc 0 t).map fun r => (h.str r.1, r.2)
    else if c = '[' then
      match depth with
      | 0 => none
      | d + 1 => (itemsOf (readValue h d) ']' t).map fun r => (h.arr r.1, r.2)
    else if c = '{' then
      match depth with
      | 0 => none
      | d + 1 =>
        (itemsOf (entryOf (stringFrom h.esc 0) (readValue h d)) '}' t).map fun r =>
          (h.obj r.1, r.2)
    else (lexNumber (c :: t)).bind fun r => (h.num r.1).map fun a => (a, r.2)

/-- The parser's values: of two entries with one key the later one counts. -/
def valueHandlers (codec : FloatCodec) : Handlers Value where
  esc := escape
  null := .null
  bool := .bool
  str := fun x => .string (String.ofList x)
  num := fun l => (numberOf codec l).map .number
  arr := .array
  obj := fun es => .object (Fields.insertAll [] es)

/-- Nothing is kept of a value that is skipped; its numbers may have any size, its surrogates
any order. -/
def ignoreHandlers : Handlers Unit where
  esc := ignoredEscape
  null := ()
  bool := fun _ => ()
  str := fun _ => ()
  num := fun _ => some ()
  arr := fun _ => ()
  obj := fun _ => ()

def parseValue (codec : FloatCodec) : Nat → Reader Value := readValue (valueHandlers codec)

/-- The parser counts its recursion down from 128 and stops at zero. -/
def MAX_DEPTH : Nat := 127

def atEnd (r : Option (α × List Char)) : Option α :=
  match r with
  | some (v, t) => if (skipWs t).isEmpty then some v else none
  | none => none

/-- `serde_json::from_str::<Value>`. -/
def fromStr (codec : FloatCodec) (s : List Char) : Option Value :=
  atEnd (parseValue codec MAX_DEPTH s)

def isValid (codec : FloatCodec) (s : List Char) : Bool := (fromStr codec s).isSome

/-- `serde_json::from_str::<String>`. -/
def fromStrString (s : List Char) : Option (List Char) :=
  (expect '"' s).bind fun t => atEnd (parseStr t)

/-- The keys of the root object as the parser's stream yields them, duplicates included; the
values are skipped at any depth, and what follows the object is not read. -/
def streamKeys (s : List Char) : Option (List String) := do
  let t ← expect '{' s
  let (es, _) ← itemsOf (entryOf parseStr (readValue ignoreHandlers s.length)) '}' t
  some (es.map Prod.fst)

end Json
