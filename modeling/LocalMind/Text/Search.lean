import Mathlib.Data.List.Infix

namespace Text
set_option autoImplicit true

/-! The matches of a pattern, leftmost first, and the texts between them. -/

/-- The match of a pattern at the start of a text, after a given character: what is captured and
how many symbols the match takes. -/
abbrev Matcher (α β : Type) := Option α → List α → Option (β × Nat)

variable {α β : Type} {m : Matcher α β}

/-- The text before the first match, and each match with the text up to the next one. The first
`n` symbols still belong to a match. -/
def pieces (m : Matcher α β) : Option α → Nat → List α → List α × List (β × List α)
  | _, _, [] => ([], [])
  | _, n + 1, c :: cs => pieces m (some c) n cs
  | prev, 0, c :: cs =>
    match m prev (c :: cs) with
    | some (a, k) =>
      let r := pieces m (some c) (k - 1) cs
      ([], (a, r.1) :: r.2)
    | none =>
      let r := pieces m (some c) 0 cs
      (c :: r.1, r.2)

attribute [local simp] pieces in
theorem pieces_match {prev : Option α} (h : m prev (c :: cs) = some (a, k)) :
    pieces m prev 0 (c :: cs) =
      ([], (a, (pieces m (some c) (k - 1) cs).1) :: (pieces m (some c) (k - 1) cs).2) := by
  rw [pieces, h]

theorem pieces_skip {prev : Option α} (h : m prev (c :: cs) = none) :
    pieces m prev 0 (c :: cs) =
      (c :: (pieces m (some c) 0 cs).1, (pieces m (some c) 0 cs).2) := by
  rw [pieces, h]

theorem pieces_of_none {s : List α} (h : ∀ prev t, t <:+ s → m prev t = none) (prev : Option α) :
    pieces m prev 0 s = (s, []) := by
  induction s generalizing prev with
  | nil => rfl
  | cons c cs ih =>
    rw [pieces_skip (h prev _ List.suffix_rfl),
      ih fun p t ht => h p t (ht.trans (List.suffix_cons c cs))]

theorem pieces_isPrefix (m : Matcher α β) (prev : Option α) (n : Nat) (s : List α) :
    (pieces m prev n s).1 <+: s.drop n := by
  induction s generalizing prev n with
  | nil => rw [pieces]; exact List.nil_prefix
  | cons c cs ih =>
    cases n with
    | succ n => exact ih _ n
    | zero =>
      cases h : m prev (c :: cs) with
      | none =>
        rw [pieces_skip h]
        exact (List.prefix_cons_inj c).2 (ih _ 0)
      | some p =>
        rw [pieces_match h]
        exact List.nil_prefix

theorem infix_of_mem_pieces {prev : Option α} (h : p ∈ (pieces m prev n s).2) : p.2 <:+: s := by
  induction s generalizing prev n with
  | nil =>
    rw [pieces] at h
    cases h
  | cons c cs ih =>
    have hcs := (List.suffix_cons c cs).isInfix
    cases n with
    | succ n => exact (ih h).trans hcs
    | zero =>
      cases hm : m prev (c :: cs) with
      | none =>
        rw [pieces_skip hm] at h
        exact (ih h).trans hcs
      | some q =>
        rw [pieces_match hm] at h
        obtain rfl | h := List.mem_cons.1 h
        · apply List.IsInfix.trans _ hcs
          exact (pieces_isPrefix m (some c) (q.2 - 1) cs).isInfix.trans
            (List.drop_suffix _ cs).isInfix
        · exact (ih h).trans hcs

/-- A word that always starts a match does not occur between the matches. -/
theorem not_infix_pieces {u : List α} (hu : u ≠ [])
    (hm : ∀ prev t, u <+: t → (m prev t).isSome = true) (prev : Option α) (n : Nat)
    (s : List α) :
    ¬ u <:+: (pieces m prev n s).1 ∧ ∀ p ∈ (pieces m prev n s).2, ¬ u <:+: p.2 := by
  induction s generalizing prev n with
  | nil =>
    rw [pieces]
    refine ⟨?_, fun p hp => by cases hp⟩
    intro h
    exact hu (List.infix_nil.1 h)
  | cons c cs ih =>
    cases n with
    | succ n => exact ih _ n
    | zero =>
      cases h : m prev (c :: cs) with
      | none =>
        rw [pieces_skip h]
        refine ⟨?_, (ih (some c) 0).2⟩
        intro hin
        obtain hpre | hin := List.infix_cons_iff.1 hin
        · have hstart := hm prev (c :: cs)
            (hpre.trans ((List.prefix_cons_inj c).2 (pieces_isPrefix m (some c) 0 cs)))
          rw [h] at hstart
          cases hstart
        · exact (ih (some c) 0).1 hin
      | some p =>
        rw [pieces_match h]
        obtain ⟨hfirst, hrest⟩ := ih (some c) (p.2 - 1)
        constructor
        · intro hin
          exact hu (List.infix_nil.1 hin)
        · intro q hq
          obtain rfl | hq := List.mem_cons.1 hq
          · exact hfirst
          · exact hrest q hq

theorem exists_of_mem_pieces {prev : Option α} (h : p ∈ (pieces m prev n s).2) :
    ∃ prev' t k, m prev' t = some (p.1, k) := by
  induction s generalizing prev n with
  | nil =>
    rw [pieces] at h
    cases h
  | cons c cs ih =>
    cases n with
    | succ n => exact ih h
    | zero =>
      cases hm : m prev (c :: cs) with
      | none =>
        rw [pieces_skip hm] at h
        exact ih h
      | some q =>
        obtain ⟨a, k⟩ := q
        rw [pieces_match hm] at h
        obtain rfl | h := List.mem_cons.1 h
        · exact ⟨prev, c :: cs, k, hm⟩
        · exact ih h

/-- The matches and the texts between them make up the text. -/
theorem pieces_text (text : β → List α)
    (hm : ∀ prev s a k, m prev s = some (a, k) → 0 < k ∧ text a = s.take k)
    (prev : Option α) (n : Nat) (s : List α) :
    s.drop n = (pieces m prev n s).1 ++
      (pieces m prev n s).2.flatMap fun p => text p.1 ++ p.2 := by
  induction s generalizing prev n with
  | nil => rw [pieces]; exact List.drop_nil
  | cons c cs ih =>
    cases n with
    | succ n => exact ih _ n
    | zero =>
      cases h : m prev (c :: cs) with
      | none =>
        rw [pieces_skip h, List.drop_zero, List.cons_append, ← ih (some c) 0, List.drop_zero]
      | some p =>
        obtain ⟨a, k⟩ := p
        obtain ⟨hk, ha⟩ := hm prev (c :: cs) a k h
        rw [pieces_match h, List.nil_append, List.flatMap_cons, List.append_assoc,
          ← ih (some c) (k - 1), ha, List.drop_zero]
        obtain ⟨k, rfl⟩ := Nat.exists_eq_succ_of_ne_zero (Nat.ne_of_gt hk)
        change _ = (c :: cs).take (k + 1) ++ cs.drop k
        rw [List.take_succ_cons, List.cons_append, List.take_append_drop]

/-! More text arrives. -/

/-- The first pieces, continued: the last text grows, or an incomplete match at its end is
completed. -/
inductive Continues (text : β → List α) :
    List α × List (β × List α) → List α × List (β × List α) → Prop
  | more (p z : List α) (ms : List (β × List α)) : Continues text (p, []) (p ++ z, ms)
  | complete (p : List α) (hy : y ≠ []) (ht : y <+: text a) (hne : y ≠ text a)
      (b : List α) (ms : List (β × List α)) : Continues text (p ++ y, []) (p, (a, b) :: ms)
  | next (p : List α) (a : β) (h : Continues text (b, ms) (b', ms')) :
      Continues text (p, (a, b) :: ms) (p, (a, b') :: ms')

/-- A pattern whose matches are found again in a longer text, and contain no earlier match. -/
structure Stable (text : β → List α) (m : Matcher α β) : Prop where
  extend : ∀ prev s a k x, m prev s = some (a, k) → m prev (s ++ x) = some (a, k)
  bound : ∀ prev s a k, m prev s = some (a, k) → 0 < k ∧ k ≤ s.length ∧ text a = s.take k
  restrict : ∀ prev s a k, m prev s = some (a, k) → m prev (s.take k) = some (a, k)
  inner : ∀ prev s a k, m prev s = some (a, k) →
    ∀ t, t <+: s → t.length < k → ∀ prev' u, u <:+ t → m prev' u = none

theorem Continues.cons {text : β → List α} (c : α) (h : Continues text (p, ms) (p', ms')) :
    Continues text (c :: p, ms) (c :: p', ms') := by
  cases h with
  | more => exact .more (c :: p) _ _
  | complete _ hy ht hne b ms => exact .complete (c :: p') hy ht hne b ms
  | next _ a h => exact .next (c :: p) a h

theorem pieces_continues {text : β → List α} (hm : Stable text m) (prev : Option α)
    (s x : List α) (hn : n ≤ s.length) :
    Continues text (pieces m prev n s) (pieces m prev n (s ++ x)) := by
  induction s generalizing prev n with
  | nil =>
    obtain rfl := Nat.le_zero.1 hn
    exact .more [] _ _
  | cons c cs ih =>
    cases n with
    | succ n => exact ih _ (Nat.le_of_succ_le_succ hn)
    | zero =>
      cases h : m prev (c :: cs) with
      | some p =>
        obtain ⟨a, k⟩ := p
        have hext := hm.extend _ _ _ _ x h
        obtain ⟨-, hk, -⟩ := hm.bound _ _ _ _ h
        rw [List.cons_append] at hext ⊢
        rw [pieces_match h, pieces_match hext]
        exact .next [] a (ih (some c) (Nat.sub_le_of_le_add hk))
      | none =>
        cases hx : m prev (c :: (cs ++ x)) with
        | none =>
          rw [List.cons_append, pieces_skip h, pieces_skip hx]
          exact (ih (some c) (Nat.zero_le _)).cons c
        | some p =>
          obtain ⟨a, k⟩ := p
          obtain ⟨-, -, ha⟩ := hm.bound _ _ _ _ hx
          -- the match takes some of the new text, else it was there before
          have hlong : (c :: cs).length < k := by
            by_contra hle
            have hres := hm.restrict _ _ _ _ hx
            rw [← List.cons_append, List.take_append_of_le_length (Nat.le_of_not_lt hle)] at hres
            have hsame := hm.extend _ _ _ _ ((c :: cs).drop k) hres
            rw [List.take_append_drop, h] at hsame
            cases hsame
          have hpre : c :: cs <+: c :: (cs ++ x) := List.prefix_append (c :: cs) x
          rw [List.cons_append, pieces_match hx,
            pieces_of_none (hm.inner _ _ _ _ hx _ hpre hlong)]
          apply Continues.complete [] (List.cons_ne_nil c cs)
          · rw [ha]
            exact List.prefix_take_iff.2 ⟨hpre, Nat.le_of_lt hlong⟩
          · intro he
            rw [ha] at he
            have hl := congrArg List.length he
            rw [List.length_take] at hl
            have hb := (hm.bound _ _ _ _ hx).2.1
            omega

/-! The text before the first of some words. -/

def startsWithAny [DecidableEq α] (us : List (List α)) (s : List α) : Bool :=
  us.any fun u => u.isPrefixOf s

def containsAny [DecidableEq α] (us : List (List α)) : List α → Bool
  | [] => startsWithAny us []
  | c :: cs => startsWithAny us (c :: cs) || containsAny us cs

def cutBefore [DecidableEq α] (us : List (List α)) : List α → List α
  | [] => []
  | c :: cs => if startsWithAny us (c :: cs) then [] else c :: cutBefore us cs

section Words

variable [DecidableEq α] {us : List (List α)} {s : List α}

theorem startsWithAny_iff : startsWithAny us s = true ↔ ∃ u ∈ us, u <+: s := by
  rw [startsWithAny, List.any_eq_true]
  simp only [List.isPrefixOf_iff_prefix]

theorem containsAny_iff : containsAny us s = true ↔ ∃ u ∈ us, u <:+: s := by
  induction s with
  | nil =>
    rw [containsAny, startsWithAny_iff]
    simp only [List.prefix_nil, List.infix_nil]
  | cons c cs ih =>
    rw [containsAny, Bool.or_eq_true, startsWithAny_iff, ih]
    simp only [List.infix_cons_iff, and_or_left, exists_or]

theorem cutBefore_isPrefix (us : List (List α)) (s : List α) : cutBefore us s <+: s := by
  induction s with
  | nil => exact List.nil_prefix
  | cons c cs ih =>
    rw [cutBefore]
    split
    · exact List.nil_prefix
    · exact (List.prefix_cons_inj c).2 ih

theorem cutBefore_of_not (h : containsAny us s = false) : cutBefore us s = s := by
  induction s with
  | nil => rfl
  | cons c cs ih =>
    rw [containsAny, Bool.or_eq_false_iff] at h
    rw [cutBefore, h.1, ih h.2]
    rfl

theorem not_infix_cutBefore (hu : u ∈ us) (hne : u ≠ []) (s : List α) :
    ¬ u <:+: cutBefore us s := by
  induction s with
  | nil =>
    intro h
    exact hne (List.infix_nil.1 h)
  | cons c cs ih =>
    rw [cutBefore]
    split
    · intro h
      exact hne (List.infix_nil.1 h)
    · next hno =>
      intro h
      obtain hpre | hin := List.infix_cons_iff.1 h
      · apply hno
        rw [startsWithAny_iff]
        exact ⟨u, hu, hpre.trans ((List.prefix_cons_inj c).2 (cutBefore_isPrefix us cs))⟩
      · exact ih hin

/-- The words have their first symbol nowhere else. -/
def Led (c : α) (us : List (List α)) : Prop := ∀ u ∈ us, ∃ t, u = c :: t ∧ c ∉ t

omit [DecidableEq α] in
theorem Led.ne_nil {c : α} (h : Led c us) (hu : u ∈ us) : u ≠ [] := by
  obtain ⟨t, rfl, -⟩ := h u hu
  exact List.cons_ne_nil c t

/-- What comes after a word changes nothing before it. -/
theorem cutBefore_append {c : α} (hled : Led c us) (h : containsAny us s = true) (x : List α) :
    cutBefore us (s ++ x) = cutBefore us s := by
  induction s with
  | nil =>
    obtain ⟨u, hu, hin⟩ := containsAny_iff.1 h
    exact absurd (List.infix_nil.1 hin) (hled.ne_nil hu)
  | cons a s ih =>
    rw [containsAny, Bool.or_eq_true] at h
    by_cases hs : startsWithAny us (a :: s) = true
    · obtain ⟨u, hu, hpre⟩ := startsWithAny_iff.1 hs
      have hx : startsWithAny us (a :: (s ++ x)) = true :=
        startsWithAny_iff.2 ⟨u, hu, hpre.trans (List.prefix_append (a :: s) x)⟩
      rw [List.cons_append, cutBefore, cutBefore, if_pos hs, if_pos hx]
    · have hin := h.resolve_left hs
      have hx : ¬ startsWithAny us (a :: (s ++ x)) = true := by
        intro hx
        obtain ⟨u, hu, hpre⟩ := startsWithAny_iff.1 hx
        obtain ⟨t, rfl, hct⟩ := hled u hu
        obtain hshort | hlong := List.prefix_or_prefix_of_prefix hpre
          (List.prefix_append (a :: s) x)
        · exact hs (startsWithAny_iff.2 ⟨_, hu, hshort⟩)
        · obtain ⟨v, hv, hvs⟩ := containsAny_iff.1 hin
          obtain ⟨w, rfl, -⟩ := hled v hv
          obtain ⟨-, hst⟩ := List.cons_prefix_cons.1 hlong
          exact hct (hst.subset (hvs.subset List.mem_cons_self))
      rw [List.cons_append, cutBefore, cutBefore, if_neg hs, if_neg hx, ih hin]

end Words

end Text
