import LocalMind.Atem.Channels

namespace LocalMind
open Text
set_option autoImplicit true

namespace Atem

/-! What is held back at the end of a growing text. -/

/-- The last `k` characters may be the start of a marker. -/
def Held (s : List Char) (k : Nat) : Prop :=
  ∃ u ∈ PARTIAL_MARKERS, k < u.length ∧ u.take k <:+ s

def heldLength (s : List Char) : Nat := (PARTIAL_MARKERS.map (partialOverlap s)).foldl max 0

theorem le_foldl_max (l : List Nat) (a : Nat) :
    a ≤ l.foldl max a ∧ ∀ x ∈ l, x ≤ l.foldl max a := by
  induction l generalizing a with
  | nil => exact ⟨Nat.le_refl a, fun x hx => by cases hx⟩
  | cons y l ih =>
    obtain ⟨ha, hl⟩ := ih (max a y)
    refine ⟨Nat.le_trans (Nat.le_max_left a y) ha, ?_⟩
    intro x hx
    obtain rfl | hx := List.mem_cons.1 hx
    · exact Nat.le_trans (Nat.le_max_right a x) ha
    · exact hl x hx

theorem foldl_max_mem (l : List Nat) (a : Nat) : l.foldl max a = a ∨ l.foldl max a ∈ l := by
  induction l generalizing a with
  | nil => exact .inl rfl
  | cons y l ih =>
    rw [List.foldl_cons]
    obtain h | h := ih (max a y)
    · rw [h]
      cases Nat.le_total a y with
      | inl hle =>
        rw [Nat.max_eq_right hle]
        exact .inr List.mem_cons_self
      | inr hle =>
        rw [Nat.max_eq_left hle]
        exact .inl rfl
    · exact .inr (List.mem_cons_of_mem y h)

theorem mem_overlapLengths {s u : List Char} :
    k ∈ overlapLengths s u ↔ 0 < k ∧ k ≤ min (u.length - 1) s.length := by
  rw [overlapLengths, List.mem_reverse, List.mem_map]
  constructor
  · intro h
    obtain ⟨j, hj, rfl⟩ := h
    exact ⟨Nat.succ_pos j, List.mem_range.1 hj⟩
  · intro h
    exact ⟨k - 1, List.mem_range.2 (by omega), by omega⟩

theorem overlapLengths_decreasing (s u : List Char) :
    (overlapLengths s u).Pairwise (· > ·) := by
  rw [overlapLengths, List.pairwise_reverse, List.pairwise_map]
  apply List.pairwise_lt_range.imp
  intro i j h
  exact Nat.succ_lt_succ h

theorem le_partialOverlap {s u : List Char} (hk : 0 < k) (hlt : k < u.length)
    (h : u.take k <:+ s) : k ≤ partialOverlap s u := by
  have hlen : k ≤ s.length := by
    have hle := h.length_le
    rw [List.length_take] at hle
    omega
  have hmem : k ∈ overlapLengths s u := mem_overlapLengths.2 ⟨hk, by omega⟩
  have hsuffix : (u.take k).isSuffixOf s = true := List.isSuffixOf_iff_suffix.2 h
  rw [partialOverlap]
  cases hf : (overlapLengths s u).find? fun k => (u.take k).isSuffixOf s with
  | none => exact absurd hsuffix (List.find?_eq_none.1 hf k hmem)
  | some j =>
    obtain ⟨-, before, after, heq, hbefore⟩ := List.find?_eq_some_iff_append.1 hf
    have hdec := overlapLengths_decreasing s u
    rw [heq] at hmem hdec
    obtain hm | hm := List.mem_append.1 hmem
    · have hno := hbefore k hm
      rw [hsuffix] at hno
      cases hno
    · obtain rfl | hm := List.mem_cons.1 hm
      · exact Nat.le_refl k
      · have hpair := (List.pairwise_append.1 hdec).2.1
        exact Nat.le_of_lt ((List.pairwise_cons.1 hpair).1 k hm)

theorem partialOverlap_held {s u : List Char} :
    partialOverlap s u = 0 ∨
      partialOverlap s u < u.length ∧ u.take (partialOverlap s u) <:+ s := by
  rw [partialOverlap]
  cases hf : (overlapLengths s u).find? fun k => (u.take k).isSuffixOf s with
  | none => exact .inl rfl
  | some j =>
    obtain ⟨hpos, hle⟩ := mem_overlapLengths.1 (List.mem_of_find?_eq_some hf)
    have hsuffix : (u.take j).isSuffixOf s = true :=
      List.find?_some (p := fun k => (u.take k).isSuffixOf s) hf
    right
    rw [Option.getD_some]
    exact ⟨by omega, List.isSuffixOf_iff_suffix.1 hsuffix⟩

/-- What is held back is the longest end of the text that may be the start of a marker. -/
theorem heldLength_spec (s : List Char) :
    Held s (heldLength s) ∧ ∀ k, Held s k → k ≤ heldLength s := by
  constructor
  · have hzero : Held s 0 := ⟨START, by decide, by decide, List.nil_suffix⟩
    obtain h | h := foldl_max_mem (PARTIAL_MARKERS.map (partialOverlap s)) 0
    · rw [heldLength, h]
      exact hzero
    · obtain ⟨u, hu, heq⟩ := List.mem_map.1 h
      rw [heldLength, ← heq]
      obtain h | ⟨hlt, hsuffix⟩ := partialOverlap_held (s := s) (u := u)
      · rw [h]
        exact hzero
      · exact ⟨u, hu, hlt, hsuffix⟩
  · intro k h
    obtain ⟨u, hu, hlt, hsuffix⟩ := h
    cases k with
    | zero => exact Nat.zero_le _
    | succ k =>
      apply Nat.le_trans (le_partialOverlap (Nat.succ_pos k) hlt hsuffix)
      exact (le_foldl_max _ 0).2 _ (List.mem_map_of_mem hu)

theorem Held.le_length (h : Held s k) : k ≤ s.length := by
  obtain ⟨u, -, hlt, hsuffix⟩ := h
  have hle := hsuffix.length_le
  rw [List.length_take] at hle
  omega

theorem holdBack_isPrefix (s : List Char) : holdBack s <+: s := List.take_prefix _ s

theorem length_holdBack (s : List Char) : (holdBack s).length + heldLength s = s.length := by
  have hle := (heldLength_spec s).1.le_length
  rw [holdBack, List.length_take]
  change min (s.length - heldLength s) s.length + heldLength s = s.length
  omega

/-- What is held back is nothing, or the start of a marker. -/
theorem holdBack_append (s : List Char) :
    ∃ u ∈ PARTIAL_MARKERS, ∃ k < u.length, s = holdBack s ++ u.take k := by
  obtain ⟨u, hu, hlt, w, hw⟩ := (heldLength_spec s).1
  refine ⟨u, hu, heldLength s, hlt, ?_⟩
  have hlen := length_holdBack s
  have hwlen : w.length = (holdBack s).length := by
    have hl := congrArg List.length hw
    rw [List.length_append, List.length_take, Nat.min_eq_left (Nat.le_of_lt hlt)] at hl
    omega
  have heq : holdBack s = w := by
    have hpre : w <+: s := ⟨_, hw⟩
    exact List.IsPrefix.eq_of_length_le
      (List.prefix_of_prefix_length_le (holdBack_isPrefix s) hpre (Nat.le_of_eq hwlen.symm))
      (Nat.le_of_eq hwlen)
  rw [heq, hw]

/-- The end of a text that stays behind when more arrives. -/
theorem holdBack_length_le (hu : u ∈ PARTIAL_MARKERS) (hs : s = p ++ y) (hy : y <+: u)
    (hlt : y.length < u.length) : (holdBack s).length ≤ p.length := by
  have hheld : Held s y.length := by
    refine ⟨u, hu, hlt, ?_⟩
    rw [← List.prefix_iff_eq_take.1 hy, hs]
    exact List.suffix_append p y
  have hle := (heldLength_spec s).2 _ hheld
  have hlen := length_holdBack s
  rw [hs, List.length_append] at hlen
  rw [hs] at hle
  rw [hs]
  omega

theorem holdBack_mono (h : s <+: t) : holdBack s <+: holdBack t := by
  have hs := (holdBack_isPrefix s).trans h
  apply List.prefix_of_prefix_length_le hs (holdBack_isPrefix t)
  obtain ⟨z, rfl⟩ := h
  have hlen := length_holdBack (s ++ z)
  have hslen := length_holdBack s
  rw [List.length_append] at hlen
  by_cases hshort : heldLength (s ++ z) ≤ z.length
  · omega
  · -- the end that is held back begins in the shorter text
    obtain ⟨u, hu, hlt, w, hw⟩ := (heldLength_spec (s ++ z)).1
    obtain ⟨v, hsv, heq⟩ | ⟨v, -, hz⟩ := List.append_eq_append_iff.1 hw
    · have htake := List.take_prefix (heldLength (s ++ z)) u
      rw [heq] at htake
      have hv : v <+: u := (List.prefix_append v z).trans htake
      have hl := congrArg List.length heq
      rw [List.length_take, Nat.min_eq_left (Nat.le_of_lt hlt), List.length_append] at hl
      have hle := holdBack_length_le hu hsv hv (by omega)
      have hw := congrArg List.length hsv
      rw [List.length_append] at hw
      omega
    · have hl := congrArg List.length hz
      rw [List.length_append, List.length_take, Nat.min_eq_left (Nat.le_of_lt hlt)] at hl
      omega

end Atem

end LocalMind
