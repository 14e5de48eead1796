import LocalMind.Proxy.Synthesis
import LocalMind.Text.ByteSlice

namespace LocalMind
open Text
set_option autoImplicit true

namespace SplitChars

/-! The splitter at its byte offsets. -/

/-- The offset just past the last character of the window. -/
def windowEnd (maxSize : Nat) (rest : List Char) : Nat :=
  ((charIndices rest)[max maxSize 1]?).elim (byteLen rest) fun p => p.1

/-- The offset just past the last whitespace. -/
def lastSpaceEnd (head : List Char) : Option Nat :=
  ((charIndices head).reverse.find? fun p => isWhitespace p.2).map fun p => p.1 + p.2.utf8Size

/-- Nothing is returned where the window ends inside a character. -/
def cutEnd (maxSize : Nat) (rest : List Char) : Option Nat :=
  let window := windowEnd maxSize rest
  if window < byteLen rest then
    (splitAtByte window rest).map fun r => (lastSpaceEnd r.1).getD window
  else some window

/-- The loop, of at most `n` rounds. -/
def splitLoop (maxSize : Nat) : Nat → List Char → Option (List (List Char))
  | 0, _ => none
  | n + 1, rest =>
    if rest.isEmpty then some []
    else do
      let cut ← cutEnd maxSize rest
      let r ← splitAtByte cut rest
      let chunks ← splitLoop maxSize n r.2
      some (r.1 :: chunks)

/-- Nothing is returned where the loop does not end in as many rounds, or cuts inside a character. -/
def splitCharsIn (rounds : Nat) (text : List Char) (maxSize : Nat) : Option (List (List Char)) :=
  if text.length ≤ maxSize then some [text] else splitLoop maxSize rounds text

theorem charIndicesFrom_append (pos : Nat) (s t : List Char) :
    charIndicesFrom pos (s ++ t) =
      charIndicesFrom pos s ++ charIndicesFrom (pos + byteLen s) t := by
  induction s generalizing pos with
  | nil => rfl
  | cons c s ih =>
    rw [List.cons_append, charIndicesFrom, charIndicesFrom, ih, byteLen_cons, Nat.add_assoc,
      List.cons_append]

theorem charIndices_append (s t : List Char) :
    charIndices (s ++ t) = charIndices s ++ charIndicesFrom (byteLen s) t := by
  rw [charIndices, charIndicesFrom_append, Nat.zero_add]
  rfl

theorem length_charIndicesFrom (pos : Nat) (s : List Char) :
    (charIndicesFrom pos s).length = s.length := by
  induction s generalizing pos with
  | nil => rfl
  | cons c s ih => rw [charIndicesFrom, List.length_cons, List.length_cons, ih]

theorem charIndices_get (s : List Char) (c : Char) (t : List Char) :
    (charIndices (s ++ c :: t))[s.length]? = some (byteLen s, c) := by
  have hlen : (charIndices s).length = s.length := length_charIndicesFrom 0 s
  rw [charIndices_append, List.getElem?_append_right (Nat.le_of_eq hlen), hlen, Nat.sub_self]
  rfl

/-- The window holds as many characters as it may, where there are more. -/
theorem windowEnd_eq (maxSize : Nat) (rest : List Char) :
    windowEnd maxSize rest = byteLen (rest.take (max maxSize 1)) := by
  by_cases hlong : max maxSize 1 < rest.length
  · have hlen : (rest.take (max maxSize 1)).length = max maxSize 1 :=
      List.length_take_of_le (Nat.le_of_lt hlong)
    have hsplit : rest.take (max maxSize 1) ++ rest[max maxSize 1] ::
        rest.drop (max maxSize 1 + 1) = rest := by
      rw [List.getElem_cons_drop, List.take_append_drop]
    have hget := charIndices_get (rest.take (max maxSize 1)) rest[max maxSize 1]
      (rest.drop (max maxSize 1 + 1))
    rw [hsplit, hlen] at hget
    rw [windowEnd, hget]
    rfl
  · have hshort := Nat.le_of_not_lt hlong
    have hnone : (charIndices rest)[max maxSize 1]? = none := by
      rw [List.getElem?_eq_none_iff, charIndices, length_charIndicesFrom]
      exact hshort
    rw [windowEnd, hnone, List.take_of_length_le hshort]
    rfl

/-- The text up to the last whitespace. -/
def upToSpace (head : List Char) : List Char := head.rdropWhile fun c => !isWhitespace c

theorem lastSpaceEnd_eq (head : List Char) : lastSpaceEnd head =
    if upToSpace head = [] then none else some (byteLen (upToSpace head)) := by
  induction head using List.reverseRecOn with
  | nil => rfl
  | append_singleton head c ih =>
    have hreverse : (charIndices (head ++ [c])).reverse =
        (byteLen head, c) :: (charIndices head).reverse := by
      rw [charIndices_append, List.reverse_append]
      rfl
    rw [lastSpaceEnd, hreverse, List.find?_cons]
    cases hc : isWhitespace c with
    | true =>
      have hkeep : upToSpace (head ++ [c]) = head ++ [c] := by
        rw [upToSpace, List.rdropWhile_concat_neg]
        simp [hc]
      rw [hkeep, if_neg (List.concat_ne_nil c head), byteLen_append, byteLen_cons]
      rfl
    | false =>
      have hdrop : upToSpace (head ++ [c]) = upToSpace head :=
        List.rdropWhile_concat_pos _ _ _ (by rw [hc]; rfl)
      rw [hdrop, ← ih]
      rfl

theorem byteLen_lt_iff {s t : List Char} (h : s <+: t) :
    byteLen s < byteLen t ↔ s.length < t.length := by
  obtain ⟨u, rfl⟩ := h
  cases u with
  | nil => simp
  | cons c u =>
    have hpos := Char.utf8Size_pos c
    rw [byteLen_append, byteLen_cons, List.length_append, List.length_cons]
    omega

/-- The loop cuts where the piece ends. -/
theorem cutEnd_eq (maxSize : Nat) (rest : List Char) :
    cutEnd maxSize rest = some (byteLen (nextPiece (max maxSize 1) rest)) := by
  have htake := List.take_prefix (max maxSize 1) rest
  have hlt : byteLen (rest.take (max maxSize 1)) < byteLen rest ↔ max maxSize 1 < rest.length := by
    rw [byteLen_lt_iff htake, List.length_take]
    omega
  rw [cutEnd, windowEnd_eq, nextPiece]
  by_cases hlong : max maxSize 1 < rest.length
  · have hsplit := splitAtByte_append (rest.take (max maxSize 1)) (rest.drop (max maxSize 1))
    rw [List.take_append_drop] at hsplit
    rw [if_pos (hlt.2 hlong), if_pos hlong, hsplit, Option.map_some, lastSpaceEnd_eq, upToSpace]
    cases hw : (rest.take (max maxSize 1)).rdropWhile fun c => !isWhitespace c with
    | nil => rfl
    | cons c w => rfl
  · rw [if_neg (fun h => hlong (hlt.1 h)), if_neg hlong,
      List.take_of_length_le (Nat.le_of_not_lt hlong)]

/-- The loop cuts the text into its pieces, in no more rounds than there are characters. -/
theorem splitLoop_eq (maxSize : Nat) {rest : List Char} (hrest : rest.length ≤ fuel) :
    splitLoop maxSize (fuel + 1) rest = some (splitFrom (max maxSize 1) fuel rest) := by
  induction fuel generalizing rest with
  | zero =>
    rw [List.eq_nil_of_length_eq_zero (Nat.le_zero.1 hrest)]
    rfl
  | succ fuel ih =>
    rw [splitLoop, splitFrom]
    by_cases hnil : rest.isEmpty = true
    · rw [if_pos hnil, if_pos hnil]
    · have hne : rest ≠ [] := by
        intro hr
        rw [hr] at hnil
        exact hnil rfl
      have hpos : 0 < max maxSize 1 := by omega
      have hpiece := List.length_pos_iff.2 (nextPiece_ne_nil hpos hne)
      have hdrop := List.prefix_iff_eq_append.1 (nextPiece_isPrefix (max maxSize 1) rest)
      have hsplit := splitAtByte_append (nextPiece (max maxSize 1) rest)
        (rest.drop (nextPiece (max maxSize 1) rest).length)
      rw [hdrop] at hsplit
      have hless : (rest.drop (nextPiece (max maxSize 1) rest).length).length ≤ fuel := by
        rw [List.length_drop]
        omega
      rw [if_neg hnil, if_neg hnil, cutEnd_eq, Option.bind_eq_bind, Option.bind_some, hsplit,
        Option.bind_eq_bind, Option.bind_some, ih hless]
      rfl

theorem splitCharsIn_eq (text : List Char) (maxSize : Nat) :
    splitCharsIn (text.length + 1) text maxSize = some (splitChars text maxSize) := by
  rw [splitCharsIn, splitChars]
  split
  · rfl
  · exact splitLoop_eq maxSize (Nat.le_refl _)

/-! The pieces. -/

theorem length_nextPiece (n : Nat) (rest : List Char) : (nextPiece n rest).length ≤ n := by
  rw [nextPiece]
  split
  · have htake : (rest.take n).length ≤ n := List.length_take_le n rest
    split
    · exact htake
    · exact Nat.le_trans (List.rdropWhile_prefix _ _).length_le htake
  · next hshort => exact Nat.le_of_not_lt hshort

/-- A piece that the text goes on after ends after the last whitespace of its window. -/
theorem nextPiece_space (h : n < rest.length) (hw : ∃ w ∈ rest.take n, isWhitespace w = true) :
    ∃ init w, nextPiece n rest = init ++ [w] ∧ isWhitespace w = true ∧
      ∀ x ∈ (rest.take n).drop (nextPiece n rest).length, isWhitespace x = false := by
  have hne : upToSpace (rest.take n) ≠ [] := by
    intro hnil
    obtain ⟨w, hmem, hspace⟩ := hw
    have hnone := List.rdropWhile_eq_nil_iff.1 hnil w hmem
    rw [hspace] at hnone
    cases hnone
  have hpiece : nextPiece n rest = upToSpace (rest.take n) := by
    rw [nextPiece, if_pos h]
    split
    · next hnil => exact absurd hnil hne
    · rfl
  have hlast := List.rdropWhile_last_not (fun c => !isWhitespace c) (rest.take n) hne
  have hrest : (rest.take n).drop (upToSpace (rest.take n)).length =
      (rest.take n).rtakeWhile fun c => !isWhitespace c := by
    have hsplit : upToSpace (rest.take n) ++ (rest.take n).rtakeWhile (fun c => !isWhitespace c) =
        rest.take n := List.rdropWhile_append_rtakeWhile
    exact (congrArg (List.drop _) hsplit.symm).trans List.drop_left
  rw [hpiece, hrest]
  refine ⟨_, _, (List.dropLast_append_getLast hne).symm, ?_, ?_⟩
  · rw [Bool.not_eq_true', Bool.not_eq_false] at hlast
    exact hlast
  · intro x hx
    have hnot := List.mem_rtakeWhile_imp hx
    rwa [Bool.not_eq_true'] at hnot

/-- Each chunk is the first piece of what is left, and one that is followed by others is cut. -/
theorem splitFrom_split (hn : 0 < n) {rest : List Char} (h : rest.length ≤ fuel)
    (hc : splitFrom n fuel rest = before ++ c :: after) :
    c ++ after.flatten ≠ [] ∧ c = nextPiece n (c ++ after.flatten) ∧
      (after ≠ [] → n < (c ++ after.flatten).length) := by
  induction fuel generalizing rest before with
  | zero => cases before <;> cases hc
  | succ fuel ih =>
    rw [splitFrom] at hc
    by_cases hnil : rest = []
    · rw [hnil] at hc
      cases before <;> cases hc
    · have hpiece := List.length_pos_iff.2 (nextPiece_ne_nil hn hnil)
      have hdrop := List.prefix_iff_eq_append.1 (nextPiece_isPrefix n rest)
      have hless : (rest.drop (nextPiece n rest).length).length ≤ fuel := by
        rw [List.length_drop]
        omega
      rw [if_neg (by simpa using hnil)] at hc
      cases before with
      | cons b before => exact ih hless (List.cons.inj hc).2
      | nil =>
        obtain ⟨rfl, rfl⟩ := List.cons.inj hc
        rw [splitFrom_flatten hn hless, hdrop]
        refine ⟨hnil, rfl, ?_⟩
        intro hafter
        by_contra hshort
        apply hafter
        have hall : nextPiece n rest = rest := by rw [nextPiece, if_neg hshort]
        rw [hall, List.drop_length]
        cases fuel with
        | zero => rfl
        | succ fuel => rfl

/-- What the chunks of a text are. -/
structure Splits (text : List Char) (maxSize : Nat) (chunks : List (List Char)) : Prop where
  lossless : chunks.flatten = text
  bounded : ∀ c ∈ chunks, c.length ≤ max maxSize 1
  nonempty : text ≠ [] → ∀ c ∈ chunks, c ≠ []
  whole : text.length ≤ maxSize → chunks = [text]
  /-- The window of a chunk is what the text goes on with. -/
  spaced : ∀ before c after, chunks = before ++ c :: after → after ≠ [] →
    (∃ w ∈ (c ++ after.flatten).take (max maxSize 1), isWhitespace w = true) →
    ∃ init w, c = init ++ [w] ∧ isWhitespace w = true ∧
      ∀ x ∈ ((c ++ after.flatten).take (max maxSize 1)).drop c.length, isWhitespace x = false

/-- The splitter ends, cuts between characters only, and loses nothing. -/
theorem splitChars_splits (text : List Char) (maxSize : Nat) :
    splitCharsIn (text.length + 1) text maxSize = some (splitChars text maxSize) ∧
      Splits text maxSize (splitChars text maxSize) := by
  refine ⟨splitCharsIn_eq text maxSize, ?_⟩
  have hpos : 0 < max maxSize 1 := by omega
  by_cases hshort : text.length ≤ maxSize
  · have hone : splitChars text maxSize = [text] := if_pos hshort
    rw [hone]
    refine ⟨List.flatten_singleton, ?_, ?_, fun _ => rfl, ?_⟩
    · intro c hc
      rw [List.mem_singleton.1 hc]
      omega
    · intro hne c hc
      rw [List.mem_singleton.1 hc]
      exact hne
    · intro before c after hsplit hafter
      cases before with
      | nil => exact absurd (List.cons.inj hsplit).2.symm hafter
      | cons b before => cases before <;> cases (List.cons.inj hsplit).2
  · have hmany : splitChars text maxSize = splitFrom (max maxSize 1) text.length text :=
      if_neg hshort
    have hpiece : ∀ c ∈ splitChars text maxSize, ∃ rest, rest ≠ [] ∧
        c = nextPiece (max maxSize 1) rest := by
      intro c hc
      obtain ⟨before, after, hsplit⟩ := List.append_of_mem hc
      rw [hmany] at hsplit
      obtain ⟨hne, hnext, _⟩ := splitFrom_split hpos (Nat.le_refl _) hsplit
      exact ⟨_, hne, hnext⟩
    refine ⟨splitChars_flatten text maxSize, ?_, ?_, fun h => absurd h hshort, ?_⟩
    · intro c hc
      obtain ⟨rest, _, hnext⟩ := hpiece c hc
      rw [hnext]
      exact length_nextPiece _ rest
    · intro _ c hc
      obtain ⟨rest, hne, hnext⟩ := hpiece c hc
      rw [hnext]
      exact nextPiece_ne_nil hpos hne
    · intro before c after hsplit hafter hspace
      rw [hmany] at hsplit
      obtain ⟨_, hnext, hcut⟩ := splitFrom_split hpos (Nat.le_refl _) hsplit
      obtain ⟨init, w, hend, hw, hrest⟩ := nextPiece_space (hcut hafter) hspace
      rw [← hnext] at hend hrest
      exact ⟨init, w, hend, hw, hrest⟩

end SplitChars

end LocalMind
