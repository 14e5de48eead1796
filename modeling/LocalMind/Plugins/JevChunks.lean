import LocalMind.Order.Windows
import Mathlib.Data.List.SplitOn

namespace LocalMind.Jev
open Windows
set_option autoImplicit true

/-! The chunks in which `ask_jev` sends a file. -/

/-- A string as its UTF-16 code units. -/
abbrev JsString := List UInt16

def newline : UInt16 := 10

/-- A line, or a part of one that is longer than a chunk, with the number of the line. -/
structure Piece where
  text : JsString
  no : Nat
deriving DecidableEq

structure FileChunk where
  text : JsString
  fromLine : Nat
  toLine : Nat
deriving DecidableEq

/-- The slices of a long line that start at 0, at `size`, at twice `size` and so on. -/
def cutLine (size : Nat) (line : JsString) : List JsString :=
  (List.range' 0 ((line.length + size - 1) / size) size).map fun j => (line.drop j).take size

def linePieces (size : Nat) (line : JsString) (i : Nat) : List Piece :=
  if line.length ≤ size then
    [⟨line, i + 1⟩]
  else
    (cutLine size line).map fun part => ⟨part, i + 1⟩

def filePieces (size : Nat) (text : JsString) : List Piece :=
  (text.splitOn newline).zipIdx.flatMap fun l => linePieces size l.1 l.2

/-- How many pieces the inner loop takes; the first of a chunk is taken whatever its length. -/
def packed (size chars : Nat) (first : Bool) : List Piece → Nat
  | [] => 0
  | piece :: rest =>
    if first || decide (chars + piece.text.length + 1 ≤ size) then
      packed size (chars + piece.text.length + 1) false rest + 1
    else
      0

def chunkOf (pieces : List Piece) (start stop : Nat) : FileChunk where
  text := [newline].intercalate ((slice pieces start stop).map Piece.text)
  fromLine := (pieces[start]?.map Piece.no).getD 0
  toLine := (pieces[stop - 1]?.map Piece.no).getD 0

/-- The outer loop; `none` when the fuel does not suffice. -/
def chunkLoop (size overlap : Nat) (pieces : List Piece) : Nat → Nat → Option (List FileChunk)
  | 0, start => if start < pieces.length then none else some []
  | fuel + 1, start =>
    if start < pieces.length then
      let stop := start + packed size 0 true (pieces.drop start)
      let chunk := chunkOf pieces start stop
      if stop ≥ pieces.length then
        some [chunk]
      else
        (chunkLoop size overlap pieces fuel (max (stop - overlap) (start + 1))).map (chunk :: ·)
    else
      some []

def chunkFile (fuel : Nat) (text : JsString) (size overlap : Nat) : Option (List FileChunk) :=
  chunkLoop size overlap (filePieces size text) fuel 0

/-- What a piece adds to the characters of a chunk. -/
def weight (piece : Piece) : Nat := piece.text.length + 1

theorem flatten_slices (line : JsString) (size m j : Nat) :
    ((List.range' j m size).map fun j => (line.drop j).take size).flatten =
      (line.drop j).take (m * size) := by
  induction m generalizing j with
  | zero => rw [Nat.zero_mul, List.take_zero]; rfl
  | succ m ih =>
    rw [List.range'_succ, List.map_cons, List.flatten_cons, ih, Nat.succ_mul,
      Nat.add_comm (m * size), List.take_add, List.drop_drop]

/-- The parts of a long line are consecutive and make up the line. -/
theorem cutLine_flatten (hsize : 1 ≤ size) (line : JsString) :
    (cutLine size line).flatten = line := by
  rw [cutLine, flatten_slices, List.drop_zero]
  apply List.take_of_length_le
  have := Nat.div_add_mod (line.length + size - 1) size
  have := Nat.mod_lt (line.length + size - 1) hsize
  rw [Nat.mul_comm]
  omega

theorem cutLine_length (h : part ∈ cutLine size line) : part.length ≤ size := by
  obtain ⟨j, _, rfl⟩ := List.mem_map.1 h
  rw [List.length_take]
  exact Nat.min_le_left _ _

theorem cutLine_ne_nil (hsize : 1 ≤ size) (hlong : size < line.length) :
    cutLine size line ≠ [] := by
  intro h
  have hline := cutLine_flatten hsize line
  rw [h] at hline
  subst hline
  exact absurd hlong (Nat.not_lt_zero size)

theorem linePieces_ne_nil (hsize : 1 ≤ size) (line : JsString) (i : Nat) :
    linePieces size line i ≠ [] := by
  rw [linePieces]
  by_cases h : line.length ≤ size
  · rw [if_pos h]
    exact List.cons_ne_nil _ _
  · rw [if_neg h]
    intro hnil
    exact cutLine_ne_nil hsize (Nat.lt_of_not_le h) (List.map_eq_nil_iff.1 hnil)

/-- The pieces of a line put together again, and the number they keep. -/
theorem linePieces_spec (hsize : 1 ≤ size) (line : JsString) (i : Nat) :
    ((linePieces size line i).map Piece.text).flatten = line ∧
      ∀ piece ∈ linePieces size line i, piece.no = i + 1 ∧ piece.text.length ≤ size := by
  rw [linePieces]
  by_cases h : line.length ≤ size
  · rw [if_pos h]
    constructor
    · exact List.append_nil line
    · intro piece hmem
      cases List.mem_singleton.1 hmem
      exact ⟨rfl, h⟩
  · rw [if_neg h, List.map_map]
    constructor
    · exact (congrArg List.flatten (List.map_id _)).trans (cutLine_flatten hsize line)
    · intro piece hmem
      obtain ⟨part, hpart, rfl⟩ := List.mem_map.1 hmem
      exact ⟨rfl, cutLine_length hpart⟩

theorem filePieces_ne_nil (hsize : 1 ≤ size) (text : JsString) : filePieces size text ≠ [] := by
  rw [filePieces]
  intro h
  have hlines := List.flatMap_eq_nil_iff.1 h
  cases hs : text.splitOn newline with
  | nil => exact List.splitOn_ne_nil _ _ hs
  | cons line rest =>
    rw [hs] at hlines
    exact linePieces_ne_nil hsize line 0 (hlines (line, 0) List.mem_cons_self)

theorem filePieces_length (hsize : 1 ≤ size) (hmem : piece ∈ filePieces size text) :
    piece.text.length ≤ size := by
  obtain ⟨⟨line, i⟩, _, hpiece⟩ := List.mem_flatMap.1 hmem
  exact ((linePieces_spec hsize line i).2 piece hpiece).2

theorem packed_le (size chars : Nat) (first : Bool) (pieces : List Piece) :
    packed size chars first pieces ≤ pieces.length := by
  induction pieces generalizing chars first with
  | nil => exact Nat.le_refl _
  | cons piece rest ih =>
    rw [packed]
    split
    · exact Nat.succ_le_succ (ih _ _)
    · exact Nat.zero_le _

theorem packed_fits (hchars : chars ≤ size) (pieces : List Piece) :
    chars + total weight (pieces.take (packed size chars false pieces)) ≤ size := by
  induction pieces generalizing chars with
  | nil => exact hchars
  | cons piece rest ih =>
    rw [packed]
    by_cases h : chars + piece.text.length + 1 ≤ size
    · rw [if_pos (by simpa using h), List.take_succ_cons, total, weight]
      have := ih h
      omega
    · rw [if_neg (by simpa using h)]
      exact hchars

theorem packed_maximal (hb : b ≤ pieces.length) (h : chars + total weight (pieces.take b) ≤ size) :
    b ≤ packed size chars first pieces := by
  induction pieces generalizing chars first b with
  | nil => exact hb
  | cons piece rest ih =>
    cases b with
    | zero => exact Nat.zero_le _
    | succ b =>
      rw [List.take_succ_cons, total, weight] at h
      rw [packed, if_pos (Bool.or_eq_true_iff.2 (.inr (decide_eq_true (by omega))))]
      apply Nat.succ_le_succ
      apply ih (Nat.le_of_succ_le_succ hb)
      omega

/-- A chunk overshoots its size by one at most: the break after a piece that fills it. -/
theorem packed_total {pieces : List Piece} (hpieces : ∀ piece ∈ pieces, piece.text.length ≤ size) :
    total weight (pieces.take (packed size 0 true pieces)) ≤ size + 1 := by
  cases pieces with
  | nil => exact Nat.zero_le _
  | cons piece rest =>
    have hlen := hpieces piece List.mem_cons_self
    rw [packed, Bool.true_or, if_pos rfl, List.take_succ_cons, total, weight]
    by_cases h : 0 + piece.text.length + 1 ≤ size
    · have := packed_fits h rest
      omega
    · have hzero : packed size (0 + piece.text.length + 1) false rest = 0 := by
        cases rest with
        | nil => rfl
        | cons next rest =>
          rw [packed, if_neg]
          rw [Bool.false_or, decide_eq_true_eq]
          omega
      rw [hzero, List.take_zero, total]
      omega

theorem intercalate_length {run : List Piece} (h : run ≠ []) :
    ([newline].intercalate (run.map Piece.text)).length + 1 = total weight run := by
  induction run with
  | nil => exact absurd rfl h
  | cons piece rest ih =>
    cases rest with
    | nil =>
      rw [List.map_singleton, List.intercalate_singleton]
      rfl
    | cons next rest =>
      have := ih (List.cons_ne_nil _ _)
      rw [List.map_cons, List.map_cons, List.intercalate_cons_cons, total, weight]
      rw [List.map_cons] at this
      rw [List.length_append, List.length_append, List.length_singleton]
      omega

theorem packed_greedy {pieces : List Piece} (hstart : start < pieces.length) :
    Greedy weight size pieces start (start + packed size 0 true (pieces.drop start)) := by
  have hle := packed_le size 0 true (pieces.drop start)
  rw [List.length_drop] at hle
  constructor
  · rw [List.drop_eq_getElem_cons hstart, packed, Bool.true_or, if_pos rfl]
    omega
  · omega
  · intro b hb hfit
    have hmax : b - start ≤ packed size 0 true (pieces.drop start) := by
      apply packed_maximal
      · rw [List.length_drop]
        omega
      · rw [Nat.zero_add]
        exact hfit
    omega

/-- The characters of the chunk of a run are those of its pieces and the breaks between them. -/
theorem chunkOf_length {pieces : List Piece} (hpieces : ∀ piece ∈ pieces, piece.text.length ≤ size)
    (hstart : start < pieces.length) :
    (chunkOf pieces start (start + packed size 0 true (pieces.drop start))).text.length ≤ size := by
  have hgreedy : Greedy weight size pieces start _ := packed_greedy hstart
  have htotal : total weight (slice pieces start
      (start + packed size 0 true (pieces.drop start))) ≤ size + 1 := by
    rw [slice, Nat.add_sub_cancel_left]
    apply packed_total
    intro piece hmem
    exact hpieces piece (List.mem_of_mem_drop hmem)
  have hne : slice pieces start (start + packed size 0 true (pieces.drop start)) ≠ [] := by
    intro hnil
    have hlen := congrArg List.length hnil
    rw [slice, List.length_take, List.length_drop, List.length_nil] at hlen
    have := hgreedy.lt
    omega
  have hlen := intercalate_length hne
  rw [chunkOf]
  dsimp only
  omega

/-- The ends of the runs of pieces that the outer loop makes chunks of. -/
def spanLoop (size overlap : Nat) (pieces : List Piece) : Nat → Nat → List (Nat × Nat)
  | 0, _ => []
  | fuel + 1, start =>
    if start < pieces.length then
      let stop := start + packed size 0 true (pieces.drop start)
      (start, stop) :: if stop ≥ pieces.length then [] else
        spanLoop size overlap pieces fuel (max (stop - overlap) (start + 1))
    else
      []

def fileSpans (size overlap : Nat) (text : JsString) : List (Nat × Nat) :=
  spanLoop size overlap (filePieces size text) (filePieces size text).length 0

theorem spanLoop_sweep {pieces : List Piece} (size overlap : Nat) (hstart : start < pieces.length)
    (hfuel : pieces.length - start ≤ fuel) :
    chunkLoop size overlap pieces fuel start =
        some ((spanLoop size overlap pieces fuel start).map fun span =>
          chunkOf pieces span.1 span.2) ∧
      Sweep weight size overlap pieces start (spanLoop size overlap pieces fuel start) ∧
      ∀ span ∈ spanLoop size overlap pieces fuel start, ∃ s < pieces.length,
        span = (s, s + packed size 0 true (pieces.drop s)) := by
  induction fuel generalizing start with
  | zero => omega
  | succ fuel ih =>
    have hgreedy : Greedy weight size pieces start _ := packed_greedy hstart
    rw [chunkLoop, spanLoop, if_pos hstart, if_pos hstart]
    dsimp only
    generalize hstop : start + packed size 0 true (pieces.drop start) = stop at *
    by_cases hlast : stop ≥ pieces.length
    · have heq : stop = pieces.length := Nat.le_antisymm hgreedy.le hlast
      subst heq
      rw [if_pos hlast, if_pos hlast]
      refine ⟨rfl, Sweep.last hgreedy, ?_⟩
      intro span hmem
      cases List.mem_singleton.1 hmem
      exact ⟨start, hstart, by rw [hstop]⟩
    · have hlt := hgreedy.lt
      obtain ⟨hloop, hsweep, hspans⟩ :=
        ih (by omega : max (stop - overlap) (start + 1) < pieces.length) (by omega)
      rw [if_neg hlast, if_neg hlast, hloop]
      refine ⟨rfl, Sweep.next hgreedy (by omega) hsweep, ?_⟩
      intro span hmem
      obtain rfl | hmem := List.mem_cons.1 hmem
      · exact ⟨start, hstart, by rw [hstop]⟩
      · exact hspans span hmem

/-- Runs of pieces, given by their ends, that cover a file with whole boundary windows. -/
structure Covers (size overlap : Nat) (pieces : List Piece) (spans : List (Nat × Nat)) : Prop where
  nonempty : ∀ span ∈ spans, span.1 < span.2 ∧ span.2 ≤ pieces.length
  fits : ∀ span ∈ spans, (chunkOf pieces span.1 span.2).text.length ≤ size
  numbered : ∀ span ∈ spans,
    pieces[span.1]?.map Piece.no = some (chunkOf pieces span.1 span.2).fromLine ∧
      pieces[span.2 - 1]?.map Piece.no = some (chunkOf pieces span.1 span.2).toLine
  first : spans.head?.map Prod.fst = some 0
  last : spans.getLast?.map Prod.snd = some pieces.length
  no_gap : spans.IsChain fun a b => b.1 ≤ a.2
  increasing : spans.Pairwise fun a b => a.1 < b.1
  windows : ∀ a b, a < b → b ≤ pieces.length → b - a ≤ overlap + 1 →
    total weight (slice pieces a b) ≤ size → ∃ span ∈ spans, span.1 ≤ a ∧ b ≤ span.2

theorem map_no_getD {pieces : List Piece} (h : i < pieces.length) :
    pieces[i]?.map Piece.no = some ((pieces[i]?.map Piece.no).getD 0) := by
  rw [List.getElem?_eq_getElem h]
  rfl

/-- More fuel than suffices changes nothing. -/
theorem chunkLoop_more {pieces : List Piece}
    (h : chunkLoop size overlap pieces fuel start = some chunks) :
    chunkLoop size overlap pieces (fuel + 1) start = some chunks := by
  induction fuel generalizing start chunks with
  | zero =>
    rw [chunkLoop] at h
    by_cases hstart : start < pieces.length
    · rw [if_pos hstart] at h
      cases h
    · rw [if_neg hstart] at h
      rw [chunkLoop, if_neg hstart]
      exact h
  | succ fuel ih =>
    rw [chunkLoop] at h ⊢
    by_cases hstart : start < pieces.length
    · rw [if_pos hstart] at h ⊢
      dsimp only at h ⊢
      generalize start + packed size 0 true (pieces.drop start) = stop at h ⊢
      by_cases hlast : stop ≥ pieces.length
      · rw [if_pos hlast] at h ⊢
        exact h
      · rw [if_neg hlast] at h ⊢
        obtain ⟨rest, hrest, hchunks⟩ := Option.map_eq_some_iff.1 h
        rw [ih hrest]
        exact congrArg some hchunks
    · rw [if_neg hstart] at h ⊢
      exact h

theorem chunkLoop_fuel {pieces : List Piece} (hle : fuel ≤ fuel')
    (h : chunkLoop size overlap pieces fuel start = some chunks) :
    chunkLoop size overlap pieces fuel' start = some chunks := by
  induction hle with
  | refl => exact h
  | step _ ih => exact chunkLoop_more ih

theorem Sweep.covers_pieces {pieces : List Piece}
    (hsweep : Sweep weight size overlap pieces 0 spans)
    (hfits : ∀ span ∈ spans, (chunkOf pieces span.1 span.2).text.length ≤ size) :
    Covers size overlap pieces spans := by
  obtain ⟨e, rest, hhead⟩ := hsweep.head
  constructor
  · intro span hmem
    exact ⟨(hsweep.greedy hmem).lt, (hsweep.greedy hmem).le⟩
  · exact hfits
  · intro span hmem
    have hlt := (hsweep.greedy hmem).lt
    have hle := (hsweep.greedy hmem).le
    exact ⟨map_no_getD (by omega), map_no_getD (by omega)⟩
  · rw [hhead]
    rfl
  · exact hsweep.getLast
  · exact hsweep.no_gap
  · exact hsweep.increasing
  · intro a b hab hb hlen hfit
    exact hsweep.covers (Nat.zero_le a) hab hb hlen hfit

/-- The loop ends, and its chunks cover the file. -/
theorem chunkFile_covers (text : JsString) (hsize : 1 ≤ size) (overlap : Nat) :
    [newline].intercalate (text.splitOn newline) = text ∧
      (∀ line i, ((linePieces size line i).map Piece.text).flatten = line ∧
        (∀ piece ∈ linePieces size line i, piece.no = i + 1 ∧ piece.text.length ≤ size) ∧
        (line.length ≤ size → linePieces size line i = [⟨line, i + 1⟩])) ∧
      ∃ spans, Covers size overlap (filePieces size text) spans ∧
        ∀ fuel ≥ (filePieces size text).length, chunkFile fuel text size overlap =
          some (spans.map fun span => chunkOf (filePieces size text) span.1 span.2) := by
  refine ⟨List.intercalate_splitOn newline, ?_, ?_⟩
  · intro line i
    obtain ⟨hflat, hpiece⟩ := linePieces_spec hsize line i
    exact ⟨hflat, hpiece, fun hshort => if_pos hshort⟩
  · have hstart := List.length_pos_iff.2 (filePieces_ne_nil hsize text)
    obtain ⟨hloop, hsweep, hspans⟩ := spanLoop_sweep size overlap hstart (Nat.le_refl _)
    refine ⟨fileSpans size overlap text, Sweep.covers_pieces hsweep ?_, ?_⟩
    · intro span hmem
      obtain ⟨s, hs, rfl⟩ := hspans span hmem
      exact chunkOf_length (fun piece => filePieces_length hsize) hs
    · intro fuel hfuel
      exact chunkLoop_fuel hfuel hloop

theorem chunkFile_covers_two_lines :
    ∃ spans, Covers 3 1 (filePieces 3 [97, 98, 99, 100, 10, 101]) spans ∧
      ∀ fuel ≥ (filePieces 3 [97, 98, 99, 100, 10, 101]).length,
        chunkFile fuel [97, 98, 99, 100, 10, 101] 3 1 =
          some (spans.map fun span =>
            chunkOf (filePieces 3 [97, 98, 99, 100, 10, 101]) span.1 span.2) :=
  (chunkFile_covers [97, 98, 99, 100, 10, 101] (by decide : 1 ≤ 3) 1).2.2

example : chunkFile 3 [97, 98, 99, 100, 10, 101] 3 1 =
    some [⟨[97, 98, 99], 1, 1⟩, ⟨[100], 1, 1⟩, ⟨[101], 2, 2⟩] := by rfl

end LocalMind.Jev
