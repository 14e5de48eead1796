import LocalMind.Plugins.JevChunks
import LocalMind.Plugins.JevPool

namespace LocalMind.Jev
open Concurrent Windows
set_option autoImplicit true

/-! The files of one `ask_jev` call: what is queued of each, and where each is reported. -/

def ASK_CHUNK_CHARS : Nat := 8000

def ASK_OVERLAP_LINES : Nat := 20

def ASK_FILE_MAX_CHARS : Nat := 200000

def ASK_BUDGET_CHARS : Nat := 400000

/-- What comes of asking for the permission to read a file. -/
inductive Access
  | granted
  | denied
  | aborted

/-- A file that `expandPaths` returned, and what the call finds there. -/
structure AskFile where
  shown : String
  access : Access
  buf : Option (List UInt8)

inductive SkipReason
  | expanding (message : String)
  | denied
  | unreadable
  | binary
deriving DecidableEq

structure Skipped where
  shown : String
  reason : SkipReason
deriving DecidableEq

def Skipped.text (s : Skipped) : String :=
  match s.reason with
  | .expanding message => s.shown ++ " (" ++ message ++ ")"
  | .denied => s.shown ++ " (denied by permissions)"
  | .unreadable => s.shown ++ " (unreadable)"
  | .binary => s.shown ++ " (binary)"

/-- Why a verdict is partial. -/
inductive Mark
  | lines (upTo all : Nat)
  | parts (got all : Nat)
deriving DecidableEq

def Mark.text : Mark → String
  | lines upTo all => "partial: lines 1-" ++ toString upTo ++ " of " ++ toString all
  | parts got all => "partial: " ++ toString got ++ " of " ++ toString all ++ " parts checked"

/-- A file with queued chunks; its whole text and the part that was cut into chunks are kept beside
the code's own fields. -/
structure FileMeta where
  shown : String
  lines : Nat
  mark : Option Mark
  n : Nat
  whole : JsString
  kept : JsString

/-- The `part`-th chunk of a file, from 0. -/
structure QueuedChunk where
  file : Nat
  part : Nat
  chunk : FileChunk

/-- A chunk as the pool has it. -/
def poolChunk (c : FileChunk) : Chunk := ⟨c.fromLine, c.toLine, c.text.length⟩

structure Prepared where
  skipped : List Skipped
  notChecked : List String
  metas : List FileMeta
  tasks : List QueuedChunk
  planned : Nat

inductive AskError
  | aborted
  | unavailable (lastError : String)

def lineCount (text : JsString) : Nat := (text.splitOn newline).length

/-- `text.lastIndexOf("\n", room)`. -/
def lastBreak (text : JsString) (room : Nat) : Option Nat :=
  (List.range (room + 1)).reverse.find? fun i => text[i]? = some newline

/-- Where a text that is too long is cut. -/
def cutAt (text : JsString) (room : Nat) : Nat :=
  match lastBreak text room with
  | some i => if 0 < i then i else room
  | none => room

def askChunks (text : JsString) : List FileChunk :=
  (chunkFile (filePieces ASK_CHUNK_CHARS text).length text ASK_CHUNK_CHARS ASK_OVERLAP_LINES).getD []

def chunkChars (chunks : List FileChunk) : Nat := total (fun c => c.text.length) chunks

namespace Prepared

def new (skipped : List Skipped) : Prepared := ⟨skipped, [], [], [], 0⟩

def skip (p : Prepared) (shown : String) (reason : SkipReason) : Prepared :=
  { p with skipped := p.skipped ++ [⟨shown, reason⟩] }

/-- The characters that one more file may have. -/
def room (p : Prepared) : Nat := min ASK_FILE_MAX_CHARS (ASK_BUDGET_CHARS - p.planned)

def queue (p : Prepared) (shown : String) (whole kept : JsString) (mark : Option Mark) : Prepared :=
  let chunks := askChunks kept
  { p with
    metas := p.metas ++ [⟨shown, lineCount whole, mark, chunks.length, whole, kept⟩]
    tasks := p.tasks ++ chunks.zipIdx.map fun c => ⟨p.metas.length, c.2, c.1⟩
    planned := p.planned + chunkChars chunks }

def take (p : Prepared) (shown : String) (text : JsString) : Prepared :=
  if p.room = 0 ∨ (p.room < text.length ∧ p.metas ≠ [] ∧ p.room < ASK_CHUNK_CHARS) then
    { p with notChecked := p.notChecked ++ [shown] }
  else if p.room < text.length then
    let kept := text.take (cutAt text p.room)
    p.queue shown text kept (some (.lines (lineCount kept) (lineCount text)))
  else
    p.queue shown text text none

/-- One round of the loop over the files; `decode` is `buf.toString("utf8")`. -/
def prepareFile (decode : List UInt8 → JsString) (p : Prepared) (f : AskFile) :
    Except AskError Prepared :=
  match f.access with
  | .aborted => .error .aborted
  | .denied => .ok (p.skip f.shown .denied)
  | .granted =>
    match f.buf with
    | none => .ok (p.skip f.shown .unreadable)
    | some buf =>
      if (buf.take 8192).contains 0 then .ok (p.skip f.shown .binary)
      else .ok (p.take f.shown (decode buf))

def prepare (decode : List UInt8 → JsString) (p : Prepared) : List AskFile → Except AskError Prepared
  | [] => .ok p
  | f :: fs => do
    let p ← prepareFile decode p f
    prepare decode p fs

def chunks (p : Prepared) : List (Nat × Chunk) := p.tasks.map fun t => (t.file, poolChunk t.chunk)

def shown (p : Prepared) (file : Nat) : String := (p.metas[file]?.map FileMeta.shown).getD ""

/-- The states of the pool that sends the chunks. -/
def send (p : Prepared) (r : Routes) (es : List (PoolEvent α)) : Option (Pool α) :=
  run (Pool.step r.tools p.shown) (Pool.start r p.chunks) es

end Prepared

structure Verdict (β : Type) where
  path : String
  judged : β
  mark : Option Mark

structure Outcome (β : Type) where
  verdicts : List (Verdict β)
  skipped : List Skipped
  notChecked : List String

/-- The verdict on one file, by a judgement of its parts in the order of the file. -/
def verdictOf (judge : List (Part α) → β) (m : FileMeta) (got : List (Part α)) : Verdict β where
  path := m.shown
  judged := judge (got.mergeSort fun a b => a.chunk.start ≤ b.chunk.start)
  mark := if got.length < m.n then some (.parts got.length m.n) else m.mark

/-- The loop over the files with queued chunks, from the `i`-th on. -/
def combineFrom (judge : List (Part α) → β) (parts : Nat → List (Part α)) :
    Nat → List FileMeta → List (Verdict β) × List String
  | _, [] => ([], [])
  | i, m :: ms =>
    let rest := combineFrom judge parts (i + 1) ms
    if (parts i).isEmpty then (rest.1, m.shown :: rest.2)
    else (verdictOf judge m (parts i) :: rest.1, rest.2)

def finish (judge : List (Part α) → β) (p : Prepared) (s : Pool α) : Except AskError (Outcome β) :=
  let r := combineFrom judge s.parts 0 p.metas
  match r.1, s.stopped with
  | [], some e => .error (.unavailable e)
  | _, _ => .ok ⟨r.1, p.skipped, p.notChecked ++ r.2⟩

end LocalMind.Jev
