import LocalMind.Text.Str

namespace Text
open Utf8
set_option autoImplicit true

/-! Byte offsets into a text. -/

/-- The number of bytes of a text. -/
def byteLen (s : List Char) : Nat := (encode s).length

/-- The text cut at a byte offset that stands between two of its characters. -/
def splitAtByte : Nat → List Char → Option (List Char × List Char)
  | 0, s => some ([], s)
  | _ + 1, [] => none
  | n + 1, c :: t =>
    if c.utf8Size ≤ n + 1 then
      (splitAtByte (n + 1 - c.utf8Size) t).map fun r => (c :: r.1, r.2)
    else none

/-- The offset of the first place where a pattern stands. -/
def find (pat s : List Char) : Option Nat := (splitOnce pat s).map fun r => byteLen r.1

/-- The characters of a text that starts at an offset, with theirs. -/
def charIndicesFrom (pos : Nat) : List Char → List (Nat × Char)
  | [] => []
  | c :: t => (pos, c) :: charIndicesFrom (pos + c.utf8Size) t

def charIndices (s : List Char) : List (Nat × Char) := charIndicesFrom 0 s

theorem byteLen_cons (c : Char) (s : List Char) : byteLen (c :: s) = c.utf8Size + byteLen s := by
  rw [byteLen, encode_cons, List.length_append, String.length_utf8EncodeChar]
  rfl

theorem byteLen_append (s t : List Char) : byteLen (s ++ t) = byteLen s + byteLen t := by
  rw [byteLen, encode_append, List.length_append]
  rfl

theorem splitAtByte_append (s t : List Char) : splitAtByte (byteLen s) (s ++ t) = some (s, t) := by
  induction s with
  | nil => exact splitAtByte.eq_1 t
  | cons c s ih =>
    have hpos := Char.utf8Size_pos c
    obtain ⟨n, hn⟩ : ∃ n, byteLen (c :: s) = n + 1 :=
      Nat.exists_eq_add_one.2 (by rw [byteLen_cons]; omega)
    have hrest : n + 1 - c.utf8Size = byteLen s := by
      rw [← hn, byteLen_cons, Nat.add_sub_cancel_left]
    have hle : c.utf8Size ≤ n + 1 := by
      rw [← hn, byteLen_cons]
      exact Nat.le_add_right _ _
    rw [hn, List.cons_append, splitAtByte, if_pos hle, hrest, ih]
    rfl

theorem splitAtByte_eq_some (h : splitAtByte n s = some (a, b)) : s = a ++ b ∧ byteLen a = n := by
  induction s generalizing n a with
  | nil =>
    cases n with
    | zero =>
      cases h
      exact ⟨rfl, rfl⟩
    | succ n => cases h
  | cons c t ih =>
    cases n with
    | zero =>
      cases h
      exact ⟨rfl, rfl⟩
    | succ n =>
      rw [splitAtByte] at h
      split at h
      · next hle =>
        obtain ⟨⟨x, y⟩, hx, hq⟩ := Option.map_eq_some_iff.1 h
        cases hq
        obtain ⟨rfl, hlen⟩ := ih hx
        refine ⟨rfl, ?_⟩
        rw [byteLen_cons, hlen]
        omega
      · cases h

/-- An offset of one byte cuts after a first character of one byte. -/
theorem splitAtByte_one (c : Char) (t : List Char) :
    splitAtByte 1 (c :: t) = if c.utf8Size = 1 then some ([c], t) else none := by
  have hpos := Char.utf8Size_pos c
  rw [splitAtByte]
  by_cases h : c.utf8Size = 1
  · rw [if_pos h, h, if_pos (Nat.le_refl _), Nat.sub_self, splitAtByte]
    rfl
  · rw [if_neg h, if_neg (by omega)]

end Text
