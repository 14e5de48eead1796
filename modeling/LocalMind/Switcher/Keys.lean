import LocalMind.Switcher.Brackets

namespace LocalMind.Switcher
open Json Text
set_option autoImplicit true

/-! The search for a key in a text that is put together of others. -/

/-- A character that no occurrence of the key with its colon holds. -/
structure Barrier (key : List Char) (c : Char) : Prop where
  quote : c ≠ '"'
  colon : c ≠ ':'
  visible : isWhitespace c = false
  notMem : c ∉ key

/-- A cut of a text, when more text follows. -/
def Cut.followedBy (r : Cut) (t : List Char) : Cut := { r with after := r.after ++ t }

/-- A cut of a text, when more text stands before it. -/
def Cut.behind (r : Cut) (s : List Char) : Cut := { r with before := s ++ r.before }

theorem afterColon_ws (hw : ∀ c ∈ w, isWhitespace c = true) (t : List Char) :
    afterColon (w ++ ':' :: t) = some (w ++ [':'], t) := by
  have htrim : trimStart (w ++ ':' :: t) = ':' :: t := by
    rw [trimStart_append hw, trimStart_cons (by decide)]
  have hcut : (w ++ ':' :: t).length - t.length = w.length + 1 := by
    rw [List.length_append, List.length_cons]
    omega
  rw [afterColon, htrim]
  change some (List.take ((w ++ ':' :: t).length - t.length) (w ++ ':' :: t), t) = _
  rw [hcut, List.take_append, List.take_of_length_le (Nat.le_succ _), Nat.add_sub_cancel_left]
  rfl

theorem afterColon_barrier (hc : c ≠ ':') (hw : isWhitespace c = false) (s t : List Char) :
    afterColon (s ++ c :: t) = (afterColon s).map fun r => (r.1, r.2 ++ c :: t) := by
  obtain ⟨w, u, rfl, hws, hu⟩ : ∃ w u, s = w ++ u ∧ (∀ c ∈ w, isWhitespace c = true) ∧
      ∀ d, u.head? = some d → isWhitespace d = false := by
    refine ⟨s.takeWhile isWhitespace, s.dropWhile isWhitespace, List.takeWhile_append_dropWhile.symm,
      fun c hc => List.mem_takeWhile_imp hc, ?_⟩
    intro d hd
    have hnot := List.head?_dropWhile_not isWhitespace s
    rw [hd] at hnot
    simpa using hnot
  cases u with
  | nil =>
    have hnone : ∀ u : List Char, (∀ d, u.head? = some d → isWhitespace d = false ∧ d ≠ ':') →
        afterColon (w ++ u) = none := by
      intro u hu
      rw [afterColon, trimStart_append hws]
      cases u with
      | nil => rfl
      | cons d u =>
        obtain ⟨hd, hne⟩ := hu d rfl
        rw [trimStart_cons hd]
        split
        · next he => exact absurd (List.cons.inj he).1 hne
        · rfl
    rw [hnone [] (by simp), List.append_nil, hnone (c :: t)]
    · rfl
    · intro d hd
      cases hd
      exact ⟨hw, hc⟩
  | cons d u =>
    have hd := hu d rfl
    by_cases hcolon : d = ':'
    · subst hcolon
      rw [afterColon_ws hws, List.append_assoc, List.cons_append, afterColon_ws hws]
      rfl
    · have hnone : ∀ u, afterColon (w ++ d :: u) = none := by
        intro u
        rw [afterColon, trimStart_append hws, trimStart_cons hd]
        split
        · next he => exact absurd (List.cons.inj he).1 hcolon
        · rfl
      rw [List.append_assoc, List.cons_append, hnone, hnone]
      rfl

theorem prefix_barrier {pat s t : List Char} (hc : c ∉ pat) :
    pat <+: s ++ c :: t ↔ pat <+: s := by
  constructor
  · intro h
    obtain hshort | hlong := List.prefix_or_prefix_of_prefix h (List.prefix_append s (c :: t))
    · exact hshort
    · obtain ⟨u, rfl⟩ := hlong
      rw [List.prefix_append_right_inj] at h
      cases u with
      | nil => rw [List.append_nil]
      | cons d u =>
        obtain ⟨rfl, -⟩ := List.cons_prefix_cons.1 h
        exact absurd (List.mem_append_right s List.mem_cons_self) hc
  · intro h
    exact h.trans (List.prefix_append s (c :: t))

theorem findKeyFrom_zero (pat : List Char) (c : Char) (t : List Char) :
    findKeyFrom pat 0 (c :: t) =
      if pat.isPrefixOf (c :: t) then
        match afterColon ((c :: t).drop pat.length) with
        | some (colon, rest) => some ⟨[], pat ++ colon, rest⟩
        | none => (findKeyFrom pat (pat.length - 1) t).map fun r =>
          { r with before := c :: r.before }
      else (findKeyFrom pat 0 t).map fun r => { r with before := c :: r.before } := rfl

theorem findKeyFrom_barrier {pat : List Char} (hne : pat ≠ []) (hpat : c ∉ pat) (hcolon : c ≠ ':')
    (hw : isWhitespace c = false) (s t : List Char) (hn : n ≤ s.length) :
    findKeyFrom pat n (s ++ c :: t) =
      ((findKeyFrom pat n s).map fun r => r.followedBy (c :: t)).or
        ((findKeyFrom pat 0 t).map fun r => r.behind (s ++ [c])) := by
  induction s generalizing n with
  | nil =>
    obtain rfl := Nat.le_zero.1 hn
    have hno : ¬ pat.isPrefixOf (c :: t) = true := by
      intro hp
      obtain ⟨d, u, rfl⟩ := List.exists_cons_of_ne_nil hne
      obtain ⟨rfl, -⟩ := List.cons_prefix_cons.1 (List.isPrefixOf_iff_prefix.1 hp)
      exact hpat List.mem_cons_self
    rw [List.nil_append, findKeyFrom_zero, if_neg hno]
    rfl
  | cons d s ih =>
    rw [List.length_cons] at hn
    have hnext : ∀ {m}, m ≤ s.length →
        ((findKeyFrom pat m (s ++ c :: t)).map fun r => { r with before := d :: r.before }) =
        (((findKeyFrom pat m s).map fun r => { r with before := d :: r.before }).map
          fun r => r.followedBy (c :: t)).or
          ((findKeyFrom pat 0 t).map fun r => r.behind (d :: s ++ [c])) := by
      intro m hm
      rw [ih hm]
      cases findKeyFrom pat m s with
      | some r => rfl
      | none =>
        cases findKeyFrom pat 0 t with
        | none => rfl
        | some r => rfl
    cases n with
    | succ n => exact hnext (Nat.le_of_succ_le_succ hn)
    | zero =>
      have hiff : pat.isPrefixOf (d :: (s ++ c :: t)) = true ↔ pat.isPrefixOf (d :: s) = true := by
        rw [List.isPrefixOf_iff_prefix, List.isPrefixOf_iff_prefix, ← List.cons_append]
        exact prefix_barrier hpat
      rw [List.cons_append, findKeyFrom_zero, findKeyFrom_zero]
      by_cases hp : pat.isPrefixOf (d :: s) = true
      · rw [if_pos hp, if_pos (hiff.2 hp)]
        obtain ⟨u, hu⟩ := List.isPrefixOf_iff_prefix.1 hp
        have hlen := congrArg List.length hu
        have hcons : (d :: s).length = s.length + 1 := rfl
        rw [List.length_append, hcons] at hlen
        have hskip : pat.length - 1 ≤ s.length := by omega
        rw [← List.cons_append, ← hu, List.append_assoc, List.drop_left, List.drop_left,
          afterColon_barrier hcolon hw]
        cases afterColon u with
        | some r => rfl
        | none =>
          have hrest := hnext hskip
          rw [← hu] at hrest
          exact hrest
      · rw [if_neg hp, if_neg fun h => hp (hiff.1 h)]
        exact hnext (Nat.zero_le _)

/-- A key is found in the text before a barrier, or in the text behind it. -/
theorem findKey_barrier (hb : Barrier key c) (s t : List Char) :
    findKey (s ++ c :: t) key = ((findKey s key).map fun r => r.followedBy (c :: t)).or
      ((findKey t key).map fun r => r.behind (s ++ [c])) := by
  apply findKeyFrom_barrier (List.cons_ne_nil _ _) _ hb.colon hb.visible _ _ (Nat.zero_le _)
  simp [hb.quote, hb.notMem]

theorem findKey_left (hb : Barrier key c) (h : findKey s key = some r) (t : List Char) :
    findKey (s ++ c :: t) key = some (r.followedBy (c :: t)) := by
  rw [findKey_barrier hb, h]
  rfl

theorem findKey_right (hb : Barrier key c) (h : findKey s key = none) (t : List Char) :
    findKey (s ++ c :: t) key = (findKey t key).map fun r => r.behind (s ++ [c]) := by
  rw [findKey_barrier hb, h]
  rfl

theorem afterColon_wsBehind (hw : ∀ c ∈ w, isWhitespace c = true) (s : List Char) :
    afterColon (s ++ w) = (afterColon s).map fun r => (r.1, r.2 ++ w) := by
  induction s with
  | nil =>
    have htrim : trimStart w = [] := List.dropWhile_eq_nil_iff.2 hw
    rw [List.nil_append, afterColon, htrim]
    rfl
  | cons c s ih =>
    cases hc : isWhitespace c with
    | true =>
      have hskip : ∀ t : List Char, afterColon (c :: t) =
          (afterColon t).map fun r => (c :: r.1, r.2) := by
        intro t
        have htrim : trimStart (c :: t) = trimStart t := List.dropWhile_cons_of_pos hc
        rw [afterColon, afterColon, htrim]
        split
        · next rest hrest =>
          have hle : rest.length < t.length := by
            have hlen := (List.dropWhile_suffix (l := t) isWhitespace).length_le
            rw [← trimStart, hrest, List.length_cons] at hlen
            exact hlen
          have hsub : (c :: t).length - rest.length = t.length - rest.length + 1 := by
            rw [List.length_cons]
            omega
          rw [Option.map_some, hsub, List.take_succ_cons]
        · rfl
      rw [List.cons_append, hskip, hskip, ih, Option.map_map, Option.map_map]
      rfl
    | false =>
      have hread : ∀ t : List Char, afterColon (c :: t) = if c = ':' then some ([':'], t) else none := by
        intro t
        by_cases hcolon : c = ':'
        · subst hcolon
          exact afterColon_ws (List.forall_mem_nil _) t
        · rw [afterColon, trimStart_cons hc, if_neg hcolon]
          split
          · next he => exact absurd (List.cons.inj he).1 hcolon
          · rfl
      rw [List.cons_append, hread, hread]
      split
      · rfl
      · rfl

/-- Whitespace behind a text does not change where a key is found in it. -/
theorem findKeyFrom_wsBehind {pat : List Char} (hne : pat ≠ [])
    (hpat : ∀ c ∈ pat, isWhitespace c = false) (hw : ∀ c ∈ w, isWhitespace c = true)
    (s : List Char) (hn : n ≤ s.length) :
    findKeyFrom pat n (s ++ w) = (findKeyFrom pat n s).map fun r => r.followedBy w := by
  have hnone : findKeyFrom pat 0 w = none := by
    induction w with
    | nil => rfl
    | cons c w ih =>
      obtain ⟨d, u, rfl⟩ := List.exists_cons_of_ne_nil hne
      have hno : ¬ (d :: u).isPrefixOf (c :: w) = true := by
        intro hp
        obtain ⟨rfl, -⟩ := List.cons_prefix_cons.1 (List.isPrefixOf_iff_prefix.1 hp)
        have hd := hpat d List.mem_cons_self
        rw [hw d List.mem_cons_self] at hd
        cases hd
      rw [findKeyFrom_zero, if_neg hno, ih fun e he => hw e (List.mem_cons_of_mem c he)]
      rfl
  induction s generalizing n with
  | nil =>
    obtain rfl := Nat.le_zero.1 hn
    exact hnone
  | cons d s ih =>
    rw [List.length_cons] at hn
    have hnext : ∀ {m}, m ≤ s.length →
        ((findKeyFrom pat m (s ++ w)).map fun r => { r with before := d :: r.before }) =
        ((findKeyFrom pat m s).map fun r => { r with before := d :: r.before }).map
          fun r => r.followedBy w := by
      intro m hm
      rw [ih hm]
      cases findKeyFrom pat m s with
      | some r => rfl
      | none => rfl
    cases n with
    | succ n => exact hnext (Nat.le_of_succ_le_succ hn)
    | zero =>
      have hiff : pat.isPrefixOf (d :: (s ++ w)) = true ↔ pat.isPrefixOf (d :: s) = true := by
        rw [List.isPrefixOf_iff_prefix, List.isPrefixOf_iff_prefix, ← List.cons_append]
        cases w with
        | nil => rw [List.append_nil]
        | cons c w =>
          apply prefix_barrier
          intro hmem
          have hc := hpat c hmem
          rw [hw c List.mem_cons_self] at hc
          cases hc
      rw [List.cons_append, findKeyFrom_zero, findKeyFrom_zero]
      by_cases hp : pat.isPrefixOf (d :: s) = true
      · rw [if_pos hp, if_pos (hiff.2 hp)]
        obtain ⟨u, hu⟩ := List.isPrefixOf_iff_prefix.1 hp
        have hlen := congrArg List.length hu
        have hcons : (d :: s).length = s.length + 1 := rfl
        rw [List.length_append, hcons] at hlen
        have hskip : pat.length - 1 ≤ s.length := by
          have hpos := List.length_pos_of_ne_nil hne
          omega
        rw [← List.cons_append, ← hu, List.append_assoc, List.drop_left, List.drop_left,
          afterColon_wsBehind hw]
        cases afterColon u with
        | some r => rfl
        | none => exact hnext hskip
      · rw [if_neg hp, if_neg fun h => hp (hiff.1 h)]
        exact hnext (Nat.zero_le _)

theorem findKey_cons (h : c ≠ '"') (t : List Char) (key : List Char) :
    findKey (c :: t) key = (findKey t key).map fun r => r.behind [c] := by
  have hno : ¬ ('"' :: key ++ ['"']).isPrefixOf (c :: t) = true := by
    intro hp
    exact h (List.cons_prefix_cons.1 (List.isPrefixOf_iff_prefix.1 hp)).1.symm
  rw [findKey, findKeyFrom_zero, if_neg hno]
  rfl

end LocalMind.Switcher
