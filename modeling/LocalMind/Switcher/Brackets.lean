import LocalMind.Switcher.Spans

namespace LocalMind.Switcher
open Json Text
set_option autoImplicit true

/-! Spans in brackets. -/

/-- Where the bracket search stands. -/
structure Nest where
  depth : Nat
  inStr : Bool
  esc : Bool
  deriving DecidableEq

def Nest.step (opening closing : Char) (n : Nest) (c : Char) : Nest :=
  if n.inStr then
    if n.esc then { n with esc := false }
    else if c = '\\' then { n with esc := true }
    else if c = '"' then { n with inStr := false }
    else n
  else if c = '"' then { n with inStr := true }
  else if c = opening then { n with depth := n.depth + 1 }
  else if c = closing then { n with depth := n.depth - 1 }
  else n

/-- Where the search stands behind a text that does not close the first bracket. -/
def Nest.pass (opening closing : Char) (n : Nest) : List Char → Option Nest
  | [] => some n
  | c :: t =>
    let m := n.step opening closing c
    if m.depth = 0 then none else Nest.pass opening closing m t

/-- A text inside brackets whose own brackets and strings are closed. -/
def Neutral (opening closing : Char) (s : List Char) : Prop :=
  Nest.pass opening closing ⟨1, false, false⟩ s = some ⟨1, false, false⟩

instance (opening closing : Char) (s : List Char) : Decidable (Neutral opening closing s) :=
  inferInstanceAs (Decidable (_ = _))

theorem Nest.pass_append (o c : Char) (n : Nest) (s t : List Char) :
    Nest.pass o c n (s ++ t) = (Nest.pass o c n s).bind fun m => Nest.pass o c m t := by
  induction s generalizing n with
  | nil => rfl
  | cons d s ih =>
    rw [List.cons_append, Nest.pass, Nest.pass]
    split
    · rfl
    · exact ih _

theorem Neutral.nil (o c : Char) : Neutral o c [] := rfl

theorem Neutral.append (h : Neutral o c s) (h' : Neutral o c t) : Neutral o c (s ++ t) := by
  rw [Neutral, Nest.pass_append, h]
  exact h'

/-- Brackets of one kind. -/
structure BracketPair (o c : Char) : Prop where
  opens : o ≠ '"'
  closes : c ≠ '"'
  differ : c ≠ o
  visible : isWhitespace o = false

theorem brackets : BracketPair '[' ']' := ⟨by decide, by decide, by decide, by decide⟩

/-- A character that the bracket search passes over. -/
def Dull (o c d : Char) : Prop := d ≠ '"' ∧ d ≠ '\\' ∧ d ≠ o ∧ d ≠ c

theorem Nest.step_dull (h : Dull o c d) (n : Nest) :
    n.step o c d = { n with esc := n.esc && !n.inStr } := by
  obtain ⟨hquote, hback, hopen, hclose⟩ := h
  obtain ⟨k, a, b⟩ := n
  cases a <;> cases b <;> simp [Nest.step, hquote, hback, hopen, hclose]

theorem Nest.pass_dull (hd : ∀ d ∈ s, Dull o c d) : Nest.pass o c ⟨k + 1, b, false⟩ s =
    some ⟨k + 1, b, false⟩ := by
  induction s with
  | nil => rfl
  | cons d s ih =>
    have hstep : Nest.step o c ⟨k + 1, b, false⟩ d = ⟨k + 1, b, false⟩ :=
      Nest.step_dull (hd d List.mem_cons_self) _
    rw [Nest.pass, hstep, if_neg (Nat.succ_ne_zero k)]
    exact ih fun e he => hd e (List.mem_cons_of_mem d he)

theorem neutral_dull (hd : ∀ d ∈ s, Dull o c d) : Neutral o c s := Nest.pass_dull hd

theorem Nest.eq_of_pass_dull {m : Nest} (hd : ∀ d ∈ s, Dull o c d)
    (h : Nest.pass o c m s = some ⟨1, false, false⟩) : m = ⟨1, false, false⟩ := by
  induction s generalizing m with
  | nil => exact Option.some.inj h
  | cons d s ih =>
    rw [Nest.pass] at h
    split at h
    · cases h
    · have hm := ih (fun e he => hd e (List.mem_cons_of_mem d he)) h
      rw [Nest.step_dull (hd d List.mem_cons_self)] at hm
      obtain ⟨k, a, b⟩ := m
      simp only [Nest.mk.injEq] at hm
      obtain ⟨rfl, rfl, hb⟩ := hm
      rw [Bool.not_false, Bool.and_true] at hb
      rw [hb]

/-- A text stays neutral without the dull characters at its end. -/
theorem Neutral.start (h : Neutral o c (s ++ t)) (ht : ∀ d ∈ t, Dull o c d) : Neutral o c s := by
  rw [Neutral, Nest.pass_append] at h
  obtain ⟨m, hm, h⟩ := Option.bind_eq_some_iff.1 h
  rw [Nest.eq_of_pass_dull ht h] at hm
  exact hm

end LocalMind.Switcher
