import LocalMind.Json.Print
import LocalMind.Switcher.Items
import LocalMind.Switcher.Keys

namespace LocalMind.Switcher
open Json Text
set_option autoImplicit true

/-! Edits inside the object of a line. -/

def contextKey : List Char := ['c', 'o', 'n', 't', 'e', 'x', 't']

def inputKey : List Char := ['i', 'n', 'p', 'u', 't']

/-- Append an entry to an object on one line. -/
def insertEntry (obj entry : List Char) : List Char :=
  if (trim (obj.drop 1).dropLast).isEmpty then '{' :: ' ' :: entry ++ [' ', '}']
  else
    let body := trimEnd obj.dropLast
    body ++ ',' :: ' ' :: entry ++ obj.drop body.length

/-- The text before the last mark, and the text after it. -/
def rsplitOnce (mark : Char) (s : List Char) : Option (List Char × List Char) :=
  (splitOnce [mark] s.reverse).map fun r => (r.2.reverse, r.1.reverse)

/-- An object without the entry between two of its parts, and without one comma beside it. -/
def removeEntry (before after : List Char) : List Char :=
  match (rsplitOnce ',' before).filter fun r => (trim r.2).isEmpty with
  | some (kept, _) => kept ++ after
  | none =>
    match trimStart after with
    | ',' :: rest => before ++ trimStart rest
    | _ => before ++ after

/-- Whitespace, the digits behind it, and the rest. -/
def leadingNumber (t : List Char) : Cut :=
  ⟨t.takeWhile isWhitespace, (trimStart t).takeWhile Char.isDigit,
    (trimStart t).dropWhile Char.isDigit⟩

def decimal (n : UInt64) : List Char := Nat.toDigits 10 n.toNat

def numberEntry (key : List Char) (n : UInt64) : List Char :=
  '"' :: key ++ ['"', ':', ' '] ++ decimal n

/-- Set or remove a number in an object on one line. -/
def setNumberInObject (obj key : List Char) (val : Option UInt64) : List Char :=
  match findKey obj key, val with
  | some found, some v =>
    let num := leadingNumber found.after
    found.before ++ found.span ++ num.before ++ decimal v ++ num.after
  | none, some v =>
    match if key = inputKey then findKey obj contextKey else none with
    | some found =>
      let num := leadingNumber found.after
      found.before ++ found.span ++ num.before ++ num.span ++ ',' :: ' ' :: numberEntry key v ++
        num.after
    | none => insertEntry obj (numberEntry key v)
  | some found, none => removeEntry found.before (leadingNumber found.after).after
  | none, none => obj

/-- A key of letters alone. -/
def Word (key : List Char) : Prop := ∀ c ∈ key, c.isAlpha = true

instance (key : List Char) : Decidable (Word key) := List.decidableBAll _ key

theorem Word.barrier (hk : Word key) (hc : c.isAlpha = false) (hq : c ≠ '"') (hcolon : c ≠ ':')
    (hw : isWhitespace c = false) : Barrier key c := by
  refine ⟨hq, hcolon, hw, ?_⟩
  intro hmem
  rw [hk c hmem] at hc
  cases hc

theorem Word.comma (hk : Word key) : Barrier key ',' :=
  hk.barrier (by decide) (by decide) (by decide) (by decide)

theorem Word.opening (hk : Word key) : Barrier key '{' :=
  hk.barrier (by decide) (by decide) (by decide) (by decide)

theorem Word.closing (hk : Word key) : Barrier key '}' :=
  hk.barrier (by decide) (by decide) (by decide) (by decide)

theorem Word.slash (hk : Word key) : Barrier key '/' :=
  hk.barrier (by decide) (by decide) (by decide) (by decide)

theorem Word.colon (hk : Word key) : ':' ∉ key := by
  intro hmem
  cases hk _ hmem

theorem isDigit_range (h : Char.isDigit c = true) : 48 ≤ c.toNat ∧ c.toNat ≤ 57 := by
  rw [Char.isDigit, Bool.and_eq_true, decide_eq_true_iff, decide_eq_true_iff] at h
  exact h

theorem Word.digit (hk : Word key) (h : Char.isDigit c = true) : Barrier key c := by
  have hrange := isDigit_range h
  apply hk.barrier
  · cases halpha : c.isAlpha with
    | false => rfl
    | true =>
      simp only [Char.isAlpha, Char.isUpper, Char.isLower, Bool.or_eq_true, decide_eq_true_eq,
        Bool.and_eq_true] at halpha
      change (65 ≤ c.toNat ∧ c.toNat ≤ 90) ∨ (97 ≤ c.toNat ∧ c.toNat ≤ 122) at halpha
      omega
  · rintro rfl
    revert hrange
    decide
  · rintro rfl
    revert hrange
    decide
  · simp only [isWhitespace, Bool.or_eq_false_iff, decide_eq_false_iff_not, beq_eq_false_iff_ne]
    omega

theorem Cut.behind_behind (r : Cut) (s t : List Char) :
    (r.behind t).behind s = r.behind (s ++ t) := by
  rw [Cut.behind, Cut.behind, Cut.behind, List.append_assoc]

theorem map_behind (x : Option Cut) (s t : List Char) :
    (x.map fun r => r.behind t).map (fun r => r.behind s) = x.map fun r => r.behind (s ++ t) := by
  cases x with
  | none => rfl
  | some r => exact congrArg some (r.behind_behind s t)

/-- No text of these cells holds the key. -/
def AllFree (key : List Char) (cs : List Cell) : Prop := ∀ c ∈ cs, findKey c.text key = none

theorem findKey_nil (key : List Char) : findKey [] key = none := rfl

theorem findKey_upTo {front : List Cell} (hk : Word key) (h : AllFree key front) (t : List Char) :
    findKey ('{' :: upTo front ++ t) key =
      (findKey t key).map fun r => r.behind ('{' :: upTo front) := by
  have hcells : findKey (upTo front ++ t) key = (findKey t key).map fun r =>
      r.behind (upTo front) := by
    induction front with
    | nil =>
      cases ht : findKey t key with
      | none => exact ht
      | some r => exact ht
    | cons c front ih =>
      have hrest := ih fun c' hc => h c' (List.mem_cons_of_mem c hc)
      have happ : upTo (c :: front) ++ t = c.text ++ ',' :: (upTo front ++ t) := by
        rw [upTo, List.flatMap_cons, ← upTo]
        simp
      have hup : upTo (c :: front) = c.text ++ [','] ++ upTo front := List.flatMap_cons
      rw [happ, findKey_right hk.comma (h c List.mem_cons_self), hrest, map_behind, hup]
  have hopen := findKey_right hk.opening (findKey_nil key) (upTo front ++ t)
  rw [List.nil_append, hcells, map_behind] at hopen
  exact hopen

theorem behind_close (back : List Cell) :
    ∃ c r, behind back ++ ['}'] = c :: r ∧ (c = ',' ∨ c = '}') := by
  cases back with
  | nil => exact ⟨'}', [], rfl, .inr rfl⟩
  | cons c back => exact ⟨',', c.text ++ (behind back ++ ['}']), by simp [behind], .inl rfl⟩

/-- The key is found in the first cell that holds it. -/
theorem findKey_objectOf {front : List Cell} (hk : Word key) (hfree : AllFree key front)
    (h : findKey (Cell.text c) key = some r) (back : List Cell) :
    findKey (objectOf (front ++ c :: back)) key =
      some ⟨'{' :: upTo front ++ r.before, r.span, r.after ++ (behind back ++ ['}'])⟩ := by
  obtain ⟨d, t, ht, hd⟩ := behind_close back
  have hb : Barrier key d := by
    rcases hd with rfl | rfl
    · exact hk.comma
    · exact hk.closing
  rw [objectOf_at, List.append_assoc, findKey_upTo hk hfree, ht, findKey_left hb h]
  rfl

theorem findKey_objectOf_free (hk : Word key) (h : AllFree key cs) :
    findKey (objectOf cs) key = none := by
  obtain rfl | ⟨front, c, rfl⟩ := List.eq_nil_or_concat' cs
  · have hopen := findKey_right hk.opening (findKey_nil key) ['}']
    have hclose := findKey_right hk.closing (findKey_nil key) []
    rw [List.nil_append, findKey_nil] at hclose
    rw [List.nil_append, hclose] at hopen
    exact hopen
  · have hfront : AllFree key front := fun c' hc => h c' (List.mem_append_left _ hc)
    have hc := h c (List.mem_append_right front List.mem_cons_self)
    have hclose := findKey_right hk.closing hc []
    rw [findKey_nil] at hclose
    rw [objectOf_at, List.append_assoc, findKey_upTo hk hfront]
    change (findKey (c.text ++ '}' :: []) key).map _ = none
    rw [hclose]
    rfl

/-! The search across whitespace and comments on one line. -/

theorem whitespace_of_allWs (hw : AllWs w) : ∀ c ∈ w, isWhitespace c = true :=
  fun c hc => (isWs_plain (hw c hc)).2.2.2

theorem Word.visible (hk : Word key) : ∀ c ∈ '"' :: key ++ ['"'], isWhitespace c = false := by
  intro c hc
  have hmem : c = '"' ∨ c ∈ key := by simpa [or_comm] using hc
  obtain rfl | hmem := hmem
  · rfl
  · have halpha := hk c hmem
    simp only [Char.isAlpha, Char.isUpper, Char.isLower, Bool.or_eq_true, decide_eq_true_eq,
      Bool.and_eq_true] at halpha
    change (65 ≤ c.toNat ∧ c.toNat ≤ 90) ∨ (97 ≤ c.toNat ∧ c.toNat ≤ 122) at halpha
    simp only [isWhitespace, Bool.or_eq_false_iff, decide_eq_false_iff_not, beq_eq_false_iff_ne]
    omega

theorem findKey_wsBehind (hk : Word key) (hw : ∀ c ∈ w, isWhitespace c = true) (s : List Char) :
    findKey (s ++ w) key = (findKey s key).map fun r => r.followedBy w :=
  findKeyFrom_wsBehind (List.cons_ne_nil _ _) hk.visible hw s (Nat.zero_le _)

theorem findKey_wsBefore (hw : ∀ c ∈ w, isWhitespace c = true) (t key : List Char) :
    findKey (w ++ t) key = (findKey t key).map fun r => r.behind w := by
  induction w with
  | nil =>
    cases ht : findKey t key with
    | none => exact ht
    | some r => exact ht
  | cons c w ih =>
    have hc : c ≠ '"' := by
      rintro rfl
      cases hw _ List.mem_cons_self
    rw [List.cons_append, findKey_cons hc, ih fun d hd => hw d (List.mem_cons_of_mem c hd),
      map_behind]
    rfl

/-- Trivia on one line are whitespace, or end in a slash before whitespace. -/
theorem trivia_ends (h : Trivia g) (hn : '\n' ∉ g) :
    AllWs g ∨ ∃ u w, g = u ++ '/' :: w ∧ AllWs w := by
  induction h with
  | nil => exact .inl allWs_nil
  | @space c g hc _ ih =>
    obtain hg | ⟨u, w, rfl, hw⟩ := ih fun hmem => hn (List.mem_cons_of_mem c hmem)
    · exact .inl ((allWs_singleton hc).append hg)
    · exact .inr ⟨c :: u, w, rfl, hw⟩
  | line _ _ _ => exact absurd (by simp) hn
  | @block s g _ _ ih =>
    obtain hg | ⟨u, w, rfl, hw⟩ := ih fun hmem => hn (by simp [hmem])
    · exact .inr ⟨'/' :: '*' :: s ++ ['*'], g, by simp, hg⟩
    · exact .inr ⟨'/' :: '*' :: s ++ '*' :: '/' :: u, w, by simp, hw⟩

/-- Trivia are whitespace, or have a slash behind whitespace. -/
theorem trivia_starts (h : Trivia g) : AllWs g ∨ ∃ w u, g = w ++ '/' :: u ∧ AllWs w := by
  induction h with
  | nil => exact .inl allWs_nil
  | @space c g hc _ ih =>
    obtain hg | ⟨w, u, rfl, hw⟩ := ih
    · exact .inl ((allWs_singleton hc).append hg)
    · exact .inr ⟨c :: w, u, rfl, (allWs_singleton hc).append hw⟩
  | line _ _ _ => exact .inr ⟨[], _, rfl, allWs_nil⟩
  | block _ _ _ => exact .inr ⟨[], _, rfl, allWs_nil⟩

theorem findKey_free_split (hb : Barrier key c) :
    findKey (s ++ c :: t) key = none ↔ findKey s key = none ∧ findKey t key = none := by
  rw [findKey_barrier hb]
  cases findKey s key with
  | some r => simp
  | none =>
    cases findKey t key with
    | none => simp
    | some r => simp

theorem findKey_triviaBefore (hk : Word key) (h : Trivia g) (hn : '\n' ∉ g)
    (hfree : findKey g key = none) (t : List Char) :
    findKey (g ++ t) key = (findKey t key).map fun r => r.behind g := by
  obtain hw | ⟨u, w, rfl, hw⟩ := trivia_ends h hn
  · exact findKey_wsBefore (whitespace_of_allWs hw) t key
  · rw [findKey_free_split hk.slash] at hfree
    rw [List.append_assoc, List.cons_append, findKey_right hk.slash hfree.1,
      findKey_wsBefore (whitespace_of_allWs hw), map_behind]
    simp

theorem findKey_triviaBehind (hk : Word key) (h : Trivia g) (s : List Char) :
    findKey (s ++ g) key = ((findKey s key).map fun r => r.followedBy g).or
      ((findKey g key).map fun r => r.behind s) := by
  obtain hw | ⟨w, u, rfl, hw⟩ := trivia_starts h
  · have hnone : findKey g key = none := by
      have hall := findKey_wsBehind hk (whitespace_of_allWs hw) []
      rw [List.nil_append, findKey_nil] at hall
      exact hall
    rw [findKey_wsBehind hk (whitespace_of_allWs hw), hnone]
    cases findKey s key with
    | none => rfl
    | some r => rfl
  · rw [← List.append_assoc, findKey_barrier hk.slash, findKey_wsBehind hk (whitespace_of_allWs hw),
      findKey_wsBefore (whitespace_of_allWs hw), findKey_cons (by decide)]
    cases findKey s key with
    | some r => simp [Cut.followedBy]
    | none =>
      cases findKey u key with
      | none => rfl
      | some r => simp [Cut.behind]

/-- The item's own key is the first that is found in it. -/
structure Item.Owns (word : List Char) (i : Item) : Prop where
  spelled : i.key = word
  lead : findKey i.lead word = none
  gap : ∀ c ∈ i.gap, isWhitespace c = true

/-- The item's value is written in digits, right behind its colon. -/
structure Item.Counts (i : Item) : Prop where
  mid : ∀ c ∈ i.mid, isWhitespace c = true
  ne_nil : i.value ≠ []
  digits : ∀ c ∈ i.value, c.isDigit = true

theorem owns_found {i : Item} (hk : Word key) (h : i.Owns key) (hlead : Trivia i.lead)
    (hn : '\n' ∉ i.lead) :
    findKey i.text key = some ⟨i.lead, i.name, i.mid ++ i.value ++ i.trail⟩ := by
  have hname : findKey (i.name ++ (i.mid ++ i.value ++ i.trail)) key =
      some ⟨[], i.name, i.mid ++ i.value ++ i.trail⟩ := by
    generalize i.mid ++ i.value ++ i.trail = rest
    have happ : i.name ++ rest = '"' :: (key ++ ['"'] ++ (i.gap ++ ':' :: rest)) := by
      rw [Item.name, h.spelled]
      simp
    have hword : ('"' :: key ++ ['"']).isPrefixOf ('"' :: (key ++ ['"'] ++ (i.gap ++ ':' :: rest))) =
        true := List.isPrefixOf_iff_prefix.2 (List.prefix_append ('"' :: key ++ ['"']) _)
    have hdrop : ('"' :: (key ++ ['"'] ++ (i.gap ++ ':' :: rest))).drop ('"' :: key ++ ['"']).length =
        i.gap ++ ':' :: rest := by
      have hcons : '"' :: (key ++ ['"'] ++ (i.gap ++ ':' :: rest)) =
          ('"' :: key ++ ['"']) ++ (i.gap ++ ':' :: rest) := rfl
      rw [hcons, List.drop_left]
    rw [happ, findKey, findKeyFrom_zero, if_pos hword, hdrop, afterColon_ws h.gap]
    rw [Item.name, h.spelled]
    simp
  rw [Item.text, List.append_assoc, findKey_triviaBefore hk hlead hn h.lead, hname]
  simp [Cut.behind]

end LocalMind.Switcher
