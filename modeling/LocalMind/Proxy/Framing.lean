import LocalMind.Stream.Mealy

namespace LocalMind
set_option autoImplicit true

abbrev Bytes := List UInt8

def LF : UInt8 := 0x0A
def CR : UInt8 := 0x0D

/-- Bytes held without an event terminator before they are released by force. -/
def PENDING_HIGH_WATER : Nat := 1024 * 1024

/-- The SSE framer: the unterminated tail, the frontier below which it was already scanned, and
whether a CR ended the last push. -/
structure FramingState where
  pending : Bytes
  scanFrom : Nat
  crHeld : Bool
  deriving DecidableEq

/-- What one call of `takeFramed` releases. -/
inductive Framed where
  | events (out : Bytes) (n : Nat)
  | forceFlush (out : Bytes)
  | nothing
  deriving DecidableEq

def findDoubleNewline (buf : Bytes) : Option Nat := Mealy.findPair LF buf

namespace FramingState

def new : FramingState := ⟨[], 0, false⟩

/-- The cursor loop of `push`: what it appends to `pending`, and whether a CR is held after it. -/
def normalizeChunk : Bytes → Bytes × Bool
  | [] => ([], false)
  | [b] => if b = CR then ([], true) else ([b], false)
  | b :: c :: rest =>
    if b = CR then
      let r := if c = LF then normalizeChunk rest else normalizeChunk (c :: rest)
      (LF :: r.1, r.2)
    else
      let r := normalizeChunk (c :: rest)
      (b :: r.1, r.2)

def push (s : FramingState) (bytes : Bytes) : FramingState :=
  -- a held CR is one line break; an LF that starts this push is its tail
  let rest := if s.crHeld = true ∧ bytes.head? = some LF then bytes.tail else bytes
  let pending := if s.crHeld then s.pending ++ [LF] else s.pending
  let r := normalizeChunk rest
  { pending := pending ++ r.1, scanFrom := s.scanFrom, crHeld := r.2 }

/-- The scan loop of `takeFramed`: the position of the last terminator and their number. -/
def scanTerminators (pending : Bytes) (cursor : Nat) (last : Option Nat) (events : Nat) :
    Option Nat × Nat :=
  match _ : findDoubleNewline (pending.drop cursor) with
  | some rel =>
    scanTerminators pending (min (cursor + rel + 2) pending.length) (some (cursor + rel))
      (events + 1)
  | none => (last, events)
termination_by pending.length - cursor
decreasing_by
  rename_i h
  obtain ⟨a, t, hs, hl, -⟩ := Mealy.findPair_eq_some h
  have hlen := congrArg List.length hs
  simp only [List.length_drop, List.length_append, List.length_cons] at hlen
  omega

def takeFramed (s : FramingState) : Framed × FramingState :=
  if s.pending.isEmpty then (.nothing, s)
  else
    let start := min s.scanFrom (s.pending.length - 1)
    let scan := scanTerminators s.pending start none 0
    match scan.1 with
    | some p =>
      let rest := s.pending.drop (p + 2)
      (.events (s.pending.take (p + 2)) scan.2,
        { s with pending := rest, scanFrom := rest.length - 1 })
    | none =>
      if s.pending.length > PENDING_HIGH_WATER then
        let held := if s.crHeld then s.pending ++ [LF] else s.pending
        -- the synthesized blank line makes the oversized block an event of its own
        (.forceFlush (held ++ [LF, LF]), { pending := [], scanFrom := 0, crHeld := false })
      else (.nothing, { s with scanFrom := s.pending.length - 1 })

/-- The unterminated tail at the end of the stream. -/
def finish (s : FramingState) : Option Bytes × FramingState :=
  let pending := if s.crHeld then s.pending ++ [LF] else s.pending
  (if pending.isEmpty then none else some pending,
    { pending := [], scanFrom := 0, crHeld := false })

theorem pending_takeFramed_lt (s : FramingState) (h : s.takeFramed.1 ≠ .nothing) :
    s.takeFramed.2.pending.length < s.pending.length := by
  rw [takeFramed] at h ⊢
  by_cases he : s.pending.isEmpty = true
  · rw [if_pos he] at h
    exact absurd rfl h
  · rw [if_neg he] at h ⊢
    have hpos : 0 < s.pending.length := by
      rw [List.isEmpty_iff] at he
      exact List.length_pos_iff.2 he
    revert h
    dsimp only
    split
    · intro _
      simp only [List.length_drop]
      omega
    · split
      · intro _
        exact hpos
      · intro h
        exact absurd rfl h

/-- Call `takeFramed` until it yields nothing. -/
def drain (s : FramingState) : List Framed × FramingState :=
  match _ : s.takeFramed with
  | (.nothing, s') => ([], s')
  | (.events out n, s') => (.events out n :: (drain s').1, (drain s').2)
  | (.forceFlush out, s') => (.forceFlush out :: (drain s').1, (drain s').2)
termination_by s.pending.length
decreasing_by
  all_goals
    rename_i h
    have hlt := pending_takeFramed_lt s (by rw [h]; exact Framed.noConfusion)
    rwa [h] at hlt

/-- One chunk of the stream: a push and its drain. -/
def feed (s : FramingState) (chunk : Bytes) : List Framed × FramingState := (s.push chunk).drain

def feedAll (s : FramingState) : List Bytes → List Framed × FramingState
  | [] => ([], s)
  | c :: cs =>
    let r := s.feed c
    let t := feedAll r.2 cs
    (r.1 ++ t.1, t.2)

end FramingState

def Framed.bytes : Framed → Bytes
  | .events out _ => out
  | .forceFlush out => out
  | .nothing => []

def Framed.count : Framed → Nat
  | .events _ n => n
  | _ => 0

end LocalMind
