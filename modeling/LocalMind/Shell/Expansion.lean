import LocalMind.Shell.Words

namespace Shell
set_option autoImplicit true

/-! The fields that the words of a command stand for, whatever the parameters and the files. -/

def isPattern (c : Char) : Bool := ['*', '?', '['].contains c

def Mark.isPattern : Mark → Bool
  | .bare c => Shell.isPattern c
  | .kept _ => false
  | .live _ => false
  | .quote => false

def Mark.isSlash : Mark → Bool
  | .bare c => c == '/'
  | .kept c => c == '/'
  | .live _ => false
  | .quote => false

/-- What a mark stands for where nothing is expanded. -/
def Mark.text : Mark → List Char
  | .bare c => [c]
  | .kept c => [c]
  | .live c => [c]
  | .quote => []

def text (w : Word) : List Char := w.flatMap Mark.text

/-- The home directory, a command's output, or parameters that may split: what the word stands
for is not in its text. -/
def unbound (w : Word) : Bool :=
  w.head? == some (.bare '~') || w.contains (.bare '$') || w.contains (.bare '`') ||
    w.contains (.live '`') ||
    w.tails.any fun v => v.take 2 == [.live '$', .kept '@'] || v.take 2 == [.live '$', .kept '{']

/-- The texts of one field of a word: a pattern stands for part of a file's name (which a pattern
at the name's start does not begin with a dot), a parameter for any text. -/
inductive Reads : Bool → Word → List Char → Prop where
  | nil : Reads fresh [] []
  | bare : Reads (c == '/') w t → Reads fresh (.bare c :: w) (c :: t)
  | kept : Reads (c == '/') w t → Reads fresh (.kept c :: w) (c :: t)
  | quote : Reads fresh w t → Reads fresh (.quote :: w) t
  | live : Reads fresh (.live c :: w) t
  | pattern : isPattern c = true → '/' ∉ u →
      (fresh = true → ∃ d v, u = d :: v ∧ d ≠ '.') → (∀ m ∈ skipped, m.isSlash = false) →
      Reads false w t → Reads fresh (.bare c :: (skipped ++ w)) (u ++ t)

inductive Fields : Word → List (List Char) → Prop where
  | anything : unbound w = true → Fields w fs
  | one : unbound w = false → Reads true w t → Fields w [t]
  | files : unbound w = false → w.any Mark.isPattern = true → fs ≠ [] →
      (∀ t ∈ fs, Reads true w t) → Fields w fs

inductive Expands : List Word → List (List Char) → Prop where
  | nil : Expands [] []
  | cons : Fields w fs → Expands ws gs → Expands (w :: ws) (fs ++ gs)

/-- A field that a utility takes for options, or for their end. -/
def isOption (f : List Char) : Bool := f.head? == some '-' && f != ['-']

theorem isOption_of_head (h : f.head? ≠ some '-') : isOption f = false := by
  rw [isOption, beq_eq_false_iff_ne.2 h, Bool.false_and]

/-- The operands among a utility's arguments. -/
def operands : List (List Char) → List (List Char)
  | [] => []
  | f :: fs =>
    if f = ['-', '-'] then fs
    else if isOption f then operands fs
    else f :: operands fs

theorem mem_operands : p ∈ operands fs ↔
    ∃ before after, fs = before ++ p :: after ∧ (isOption p = false ∨ ['-', '-'] ∈ before) := by
  induction fs with
  | nil => simp [operands]
  | cons f fs ih =>
    rw [operands]
    constructor
    · intro h
      split_ifs at h with h₁ h₂
      · obtain ⟨before, after, rfl⟩ := List.append_of_mem h
        exact ⟨f :: before, after, rfl, .inr (by rw [h₁]; exact List.mem_cons_self)⟩
      · obtain ⟨before, after, rfl, hp⟩ := ih.1 h
        exact ⟨f :: before, after, rfl, hp.imp_right (List.mem_cons_of_mem f)⟩
      · rcases List.mem_cons.1 h with rfl | h
        · exact ⟨[], fs, rfl, .inl (Bool.eq_false_iff.2 h₂)⟩
        · obtain ⟨before, after, rfl, hp⟩ := ih.1 h
          exact ⟨f :: before, after, rfl, hp.imp_right (List.mem_cons_of_mem f)⟩
    · rintro ⟨before, after, he, hp⟩
      cases before with
      | nil =>
        rw [List.nil_append, List.cons.injEq] at he
        obtain ⟨rfl, rfl⟩ := he
        rcases hp with hp | hp
        · have hne : f ≠ ['-', '-'] := by
            rintro rfl
            exact absurd hp (by decide)
          rw [if_neg hne, hp, if_neg Bool.false_ne_true]
          exact List.mem_cons_self
        · exact absurd hp List.not_mem_nil
      | cons g before =>
        rw [List.cons_append, List.cons.injEq] at he
        obtain ⟨rfl, rfl⟩ := he
        have hmem : p ∈ before ++ p :: after := List.mem_append_right before List.mem_cons_self
        split_ifs with h₁ h₂
        · exact hmem
        · refine ih.2 ⟨before, after, rfl, hp.imp_right fun h => ?_⟩
          rcases List.mem_cons.1 h with h | h
          · exact absurd h.symm h₁
          · exact h
        · refine List.mem_cons_of_mem f (ih.2 ⟨before, after, rfl, hp.imp_right fun h => ?_⟩)
          rcases List.mem_cons.1 h with h | h
          · exact absurd h.symm h₁
          · exact h

theorem reads_text (fresh : Bool) (w : Word) : Reads fresh w (text w) := by
  induction w generalizing fresh with
  | nil => exact .nil
  | cons m w ih =>
    cases m with
    | bare c => exact .bare (ih _)
    | kept c => exact .kept (ih _)
    | live c => exact .live
    | quote => exact .quote (ih _)

/-- A character outside quotes that is no pattern stands for itself. -/
theorem Reads.bare_inv (h : Reads fresh (.bare c :: w) t) (hc : isPattern c = false) :
    ∃ u, t = c :: u ∧ Reads (c == '/') w u := by
  generalize hv : Mark.bare c :: w = v at h
  cases h with
  | nil => exact absurd hv (by simp)
  | bare h =>
    rw [List.cons.injEq, Mark.bare.injEq] at hv
    obtain ⟨rfl, rfl⟩ := hv
    exact ⟨_, rfl, h⟩
  | kept h => exact absurd hv (by simp)
  | quote h => exact absurd hv (by simp)
  | live => exact absurd hv (by simp)
  | pattern hp _ _ _ _ =>
    rw [List.cons.injEq, Mark.bare.injEq] at hv
    rw [← hv.1, hc] at hp
    exact absurd hp Bool.false_ne_true

theorem Reads.bares_inv (hr : ∀ c ∈ r, isPattern c = false) (h : Reads fresh (r.map .bare ++ w) t) :
    ∃ u later, t = r ++ u ∧ Reads later w u := by
  induction r generalizing fresh t with
  | nil => exact ⟨t, fresh, rfl, h⟩
  | cons c r ih =>
    obtain ⟨u, rfl, hu⟩ := Reads.bare_inv h (hr c List.mem_cons_self)
    obtain ⟨v, later, rfl, hv⟩ := ih (fun d hd => hr d (List.mem_cons_of_mem c hd)) hu
    exact ⟨v, later, rfl, hv⟩

theorem Reads.bares (hr : ∀ c ∈ r, isPattern c = false) (h : Reads fresh (r.map .bare) t) :
    t = r := by
  rw [← List.append_nil (r.map Mark.bare)] at h
  obtain ⟨u, later, rfl, hu⟩ := Reads.bares_inv hr h
  cases hu with
  | nil => rw [List.append_nil]

theorem Fields.reads (h : Fields w fs) (hw : unbound w = false) (ht : t ∈ fs) :
    Reads true w t := by
  cases h with
  | anything h =>
    rw [hw] at h
    exact absurd h Bool.false_ne_true
  | one _ hr =>
    rw [List.mem_singleton] at ht
    rw [ht]
    exact hr
  | files _ _ _ hr => exact hr t ht

/-- A word has more than one field only where it is a pattern. -/
theorem Fields.pattern (h : Fields w (before ++ t :: after)) (hw : unbound w = false)
    (hs : s ∈ before) : w.any Mark.isPattern = true := by
  generalize hf : before ++ t :: after = fs at h
  cases h with
  | anything h =>
    rw [hw] at h
    exact absurd h Bool.false_ne_true
  | one _ _ =>
    cases before with
    | nil => exact absurd hs List.not_mem_nil
    | cons f before => simp at hf
  | files _ hp _ _ => exact hp

theorem fields_some (w : Word) : ∃ fs, Fields w fs := by
  cases h : unbound w with
  | true => exact ⟨[], .anything h⟩
  | false => exact ⟨[text w], .one h (reads_text true w)⟩

theorem expands_some (ws : List Word) : ∃ fs, Expands ws fs := by
  induction ws with
  | nil => exact ⟨[], .nil⟩
  | cons w ws ih =>
    obtain ⟨fs, hfs⟩ := fields_some w
    obtain ⟨gs, hgs⟩ := ih
    exact ⟨fs ++ gs, .cons hfs hgs⟩

theorem Expands.append (h : Expands ws fs) (hg : Expands vs gs) :
    Expands (ws ++ vs) (fs ++ gs) := by
  induction h with
  | nil => exact hg
  | cons hf _ ih =>
    rw [List.append_assoc]
    exact .cons hf ih

/-- A field of an expansion is a field of one of the words, with the fields before it. -/
theorem Expands.split (h : Expands ws (b ++ t :: after)) :
    ∃ pre w post gs xs ys, ws = pre ++ w :: post ∧ Expands pre gs ∧ Fields w (xs ++ t :: ys) ∧
      b = gs ++ xs := by
  generalize hf : b ++ t :: after = fs at h
  induction h generalizing b with
  | nil => exact absurd hf (by simp)
  | @cons w xs ws gs hw hws ih =>
    rcases List.append_eq_append_iff.1 hf with ⟨d, hd, hg⟩ | ⟨d, hd, hg⟩
    · cases d with
      | nil =>
        rw [List.nil_append] at hg
        obtain ⟨pre, v, post, hs, us, ys, rfl, hpre, hv, hb⟩ := ih (b := []) hg
        obtain ⟨rfl, rfl⟩ := List.append_eq_nil_iff.1 hb.symm
        rw [List.append_nil] at hd
        exact ⟨w :: pre, v, post, xs ++ [], [], ys, rfl, .cons hw hpre, hv, by simp [hd]⟩
      | cons x d =>
        rw [List.cons_append, List.cons.injEq] at hg
        obtain ⟨rfl, rfl⟩ := hg
        rw [hd] at hw
        exact ⟨[], w, ws, [], b, d, rfl, .nil, hw, rfl⟩
    · obtain ⟨pre, v, post, hs, us, ys, rfl, hpre, hv, rfl⟩ := ih hg.symm
      exact ⟨w :: pre, v, post, xs ++ hs, us, ys, rfl, .cons hw hpre, hv,
        by rw [hd, List.append_assoc]⟩

/-- The words at which the arguments can be behind the end of the options. -/
def Behind (before : List Word) (w : Word) : Prop :=
  (∃ v ∈ before, Reads true v ['-', '-']) ∨
    (w.any Mark.isPattern = true ∧ Reads true w ['-', '-'])

theorem Expands.end_of_mem (hws : ∀ w ∈ ws, unbound w = false) (h : Expands ws fs)
    (hm : t ∈ fs) : ∃ w ∈ ws, Reads true w t := by
  obtain ⟨before, after, rfl⟩ := List.append_of_mem hm
  obtain ⟨pre, w, post, gs, xs, ys, rfl, _, hw, _⟩ := h.split
  have hmem : w ∈ pre ++ w :: post := List.mem_append_right pre List.mem_cons_self
  exact ⟨w, hmem, hw.reads (hws w hmem) (List.mem_append_right xs List.mem_cons_self)⟩

/-- What holds of every operand, whatever the words stand for. -/
theorem operands_iff {P : List Char → Prop} (hws : ∀ w ∈ ws, unbound w = false) :
    (∀ fs, Expands ws fs → ∀ p ∈ operands fs, P p) ↔
      ∀ before w after t, ws = before ++ w :: after → Reads true w t →
        (isOption t = false ∨ Behind before w) → P t := by
  constructor
  · rintro h before w after t rfl ht hopt
    have hbound : ∀ v ∈ before, unbound v = false :=
      fun v hv => hws v (List.mem_append_left _ hv)
    have hw : unbound w = false := hws w (List.mem_append_right before List.mem_cons_self)
    obtain ⟨gs, hgs⟩ := expands_some after
    rcases hopt with hopt | ⟨v, hv, hend⟩ | ⟨hp, hend⟩
    · obtain ⟨fs, hfs⟩ := expands_some before
      refine h _ (hfs.append (.cons (.one hw ht) hgs)) t (mem_operands.2 ?_)
      exact ⟨fs, gs, rfl, .inl hopt⟩
    · obtain ⟨b₁, b₂, rfl⟩ := List.append_of_mem hv
      obtain ⟨fs₁, hfs₁⟩ := expands_some b₁
      obtain ⟨fs₂, hfs₂⟩ := expands_some b₂
      have hbefore := hfs₁.append (.cons (.one (hbound v hv) hend) hfs₂)
      refine h _ (hbefore.append (.cons (.one hw ht) hgs)) t (mem_operands.2 ?_)
      exact ⟨_, gs, rfl, .inr (List.mem_append_right fs₁ List.mem_cons_self)⟩
    · obtain ⟨fs, hfs⟩ := expands_some before
      have hfields : Fields w [['-', '-'], t] := by
        refine .files hw hp (List.cons_ne_nil _ _) fun s hs => ?_
        rcases List.mem_cons.1 hs with rfl | hs
        · exact hend
        · rw [List.mem_singleton] at hs
          rw [hs]
          exact ht
      refine h _ (hfs.append (.cons hfields hgs)) t (mem_operands.2 ?_)
      exact ⟨fs ++ [['-', '-']], gs, by simp, .inr (List.mem_append_right fs List.mem_cons_self)⟩
  · intro h fs hfs p hp
    obtain ⟨before, after, rfl, hopt⟩ := mem_operands.1 hp
    obtain ⟨pre, w, post, gs, xs, ys, rfl, hpre, hw, rfl⟩ := hfs.split
    have hbound : unbound w = false := hws w (List.mem_append_right pre List.mem_cons_self)
    have hread := fun t (ht : t ∈ xs ++ p :: ys) => hw.reads hbound ht
    apply h pre w post p rfl (hread p (List.mem_append_right xs List.mem_cons_self))
    refine hopt.imp_right fun hend => ?_
    rcases List.mem_append.1 hend with hend | hend
    · exact .inl (hpre.end_of_mem (fun v hv => hws v (List.mem_append_left _ hv)) hend)
    · exact .inr ⟨hw.pattern hbound hend, hread _ (List.mem_append_left _ hend)⟩

end Shell
