import LocalMind.Text.Str

namespace Cells
open Text
set_option autoImplicit true

/-! A line of `key=value` cells with a space between them, and where a reader finds a key. -/

structure Cell where
  key : List Char
  value : List Char

def Cell.text (c : Cell) : List Char := c.key ++ '=' :: c.value

/-- The cells joined by spaces. -/
def row (cells : List Cell) : List Char := [' '].intercalate (cells.map Cell.text)

/-- The text of a line before one of its cells. -/
def lead (cells : List Cell) : List Char := cells.flatMap fun c => c.text ++ [' ']

/-- The texts before each of some cells that stand after `a`. -/
def starts (a : List Char) : List Cell → List (List Char)
  | [] => []
  | c :: cells => a :: starts (a ++ (c.text ++ [' '])) cells

def PlainKey (k : List Char) : Prop := k ≠ [] ∧ '=' ∉ k ∧ ' ' ∉ k

instance (k : List Char) : Decidable (PlainKey k) :=
  inferInstanceAs (Decidable (k ≠ [] ∧ '=' ∉ k ∧ ' ' ∉ k))

structure Clean (c : Cell) : Prop where
  key : PlainKey c.key
  value : '=' ∉ c.value

/-- A reader that looks for `key=` finds it right after `a`. -/
def FoundAt (line key a : List Char) : Prop := ∃ b, line = a ++ (key ++ '=' :: b)

theorem row_cons_cons (c d : Cell) (cells : List Cell) :
    row (c :: d :: cells) = c.text ++ ' ' :: row (d :: cells) := by
  rw [row, List.map_cons, List.map_cons, List.intercalate_cons_cons, row, List.map_cons,
    List.append_assoc]
  rfl

theorem row_singleton (c : Cell) : row [c] = c.text := by
  rw [row, List.map_singleton, List.intercalate_singleton]

theorem row_append (pre : List Cell) (c : Cell) (post : List Cell) :
    row (pre ++ c :: post) = lead pre ++ row (c :: post) := by
  induction pre with
  | nil => rfl
  | cons d pre ih =>
    cases pre with
    | nil =>
      rw [List.singleton_append, row_cons_cons, lead, List.flatMap_singleton, List.append_assoc]
      rfl
    | cons e pre =>
      rw [List.cons_append, List.cons_append, row_cons_cons, ← List.cons_append, ih]
      simp only [lead, List.flatMap_cons, List.append_assoc, List.cons_append, List.nil_append]

/-- The cells of two lines joined by a space. -/
theorem row_join (c d : Cell) (cs ds : List Cell) :
    row (c :: cs) ++ ' ' :: row (d :: ds) = row (c :: cs ++ d :: ds) := by
  induction cs generalizing c with
  | nil => rw [row_singleton, List.singleton_append, row_cons_cons]
  | cons e cs ih =>
    rw [row_cons_cons, List.cons_append, List.cons_append, row_cons_cons, List.append_assoc,
      List.cons_append, ih]
    rfl

/-- Where two texts with their first `x` agree. -/
theorem append_cons_inj {x : α} {s t : List α} (hs : x ∉ s) (ht : x ∉ t)
    (h : s ++ x :: b = t ++ x :: r) : s = t ∧ b = r := by
  induction s generalizing t with
  | nil =>
    cases t with
    | nil =>
      cases h
      exact ⟨rfl, rfl⟩
    | cons y t =>
      cases h
      exact absurd List.mem_cons_self ht
  | cons y s ih =>
    cases t with
    | nil =>
      cases h
      exact absurd List.mem_cons_self hs
    | cons z t =>
      obtain ⟨rfl, htail⟩ := List.cons.inj h
      obtain ⟨rfl, rfl⟩ := ih (fun hmem => hs (List.mem_cons_of_mem _ hmem))
        (fun hmem => ht (List.mem_cons_of_mem _ hmem)) htail
      exact ⟨rfl, rfl⟩

/-- A key found in a text that starts with a key is found in that key, or after its value. -/
theorem found_in_key (hk : PlainKey k) (hkey : '=' ∉ key)
    (h : a ++ (k ++ '=' :: b) = key ++ '=' :: r) :
    (∃ x, key = x ++ k ∧ a = x) ∨ ∃ a', a = key ++ '=' :: a' ∧ r = a' ++ (k ++ '=' :: b) := by
  obtain ⟨a', hkeyeq, hrest⟩ | ⟨c, ha, hrest⟩ := List.append_eq_append_iff.1 h
  · left
    have hnot : '=' ∉ a' := by
      intro hmem
      apply hkey
      rw [hkeyeq]
      exact List.mem_append_right a hmem
    obtain ⟨rfl, _⟩ := append_cons_inj hk.2.1 hnot hrest
    exact ⟨a, hkeyeq, rfl⟩
  · cases c with
    | nil =>
      exfalso
      cases k with
      | nil => exact hk.1 rfl
      | cons y k =>
        obtain ⟨rfl, _⟩ := List.cons.inj hrest
        exact hk.2.1 List.mem_cons_self
    | cons y c =>
      obtain ⟨rfl, htail⟩ := List.cons.inj hrest
      exact .inr ⟨c, ha, htail⟩

/-- No key is found in a value, nor across the space after it. -/
theorem found_after_value (hk : PlainKey k) (hvalue : '=' ∉ value)
    (h : value ++ ' ' :: r = a ++ (k ++ '=' :: b)) :
    ∃ a', a = value ++ ' ' :: a' ∧ r = a' ++ (k ++ '=' :: b) := by
  obtain ⟨c, ha, hrest⟩ | ⟨v, hv, hrest⟩ := List.append_eq_append_iff.1 h
  · cases c with
    | nil =>
      exfalso
      cases k with
      | nil => exact hk.1 rfl
      | cons y k =>
        obtain ⟨rfl, _⟩ := List.cons.inj hrest
        exact hk.2.2 List.mem_cons_self
    | cons y c =>
      obtain ⟨rfl, htail⟩ := List.cons.inj hrest
      exact ⟨c, ha, htail⟩
  · exfalso
    have hnot : '=' ∉ v := by
      intro hmem
      apply hvalue
      rw [hv]
      exact List.mem_append_right a hmem
    obtain ⟨w, hvw, hw⟩ | ⟨w, hkw, hw⟩ := List.append_eq_append_iff.1 hrest
    · cases w with
      | nil => cases hw
      | cons y w =>
        obtain ⟨rfl, _⟩ := List.cons.inj hw
        apply hnot
        rw [hvw]
        exact List.mem_append_right k List.mem_cons_self
    · cases w with
      | nil => cases hw
      | cons y w =>
        obtain ⟨rfl, _⟩ := List.cons.inj hw
        apply hk.2.2
        rw [hkw]
        exact List.mem_append_right v List.mem_cons_self

/-- A key is found where a cell has it, or has one that ends in it. -/
theorem foundAt_row_iff (hk : PlainKey k) (hclean : ∀ c ∈ cells, Clean c) (a : List Char) :
    FoundAt (row cells) k a ↔
      ∃ pre c post x, cells = pre ++ c :: post ∧ c.key = x ++ k ∧ a = lead pre ++ x := by
  constructor
  · intro ⟨b, h⟩
    induction cells generalizing a with
    | nil =>
      exfalso
      have hlen := congrArg List.length h
      rw [List.length_append, List.length_append, List.length_cons] at hlen
      have hnil : (row []).length = 0 := rfl
      omega
    | cons c cells ih =>
      obtain ⟨hckey, hvalue⟩ := hclean c List.mem_cons_self
      have hrest : ∀ d ∈ cells, Clean d := fun d hd => hclean d (List.mem_cons_of_mem c hd)
      cases cells with
      | nil =>
        rw [row_singleton, Cell.text] at h
        obtain ⟨x, hx, rfl⟩ | ⟨a', _, hr⟩ := found_in_key hk hckey.2.1 h.symm
        · exact ⟨[], c, [], _, rfl, hx, rfl⟩
        · exfalso
          apply hvalue
          rw [hr]
          exact List.mem_append_right a' (List.mem_append_right k List.mem_cons_self)
      | cons d cells =>
        rw [row_cons_cons, Cell.text, List.append_assoc, List.cons_append] at h
        obtain ⟨x, hx, rfl⟩ | ⟨a', ha, hr⟩ := found_in_key hk hckey.2.1 h.symm
        · exact ⟨[], c, d :: cells, _, rfl, hx, rfl⟩
        · obtain ⟨a'', ha'', hrow⟩ := found_after_value hk hvalue hr
          obtain ⟨pre, e, post, x, hcells, hx, hlead⟩ := ih hrest a'' hrow
          refine ⟨c :: pre, e, post, x, ?_, hx, ?_⟩
          · rw [hcells]
            rfl
          · rw [ha, ha'', hlead, lead, lead, List.flatMap_cons, Cell.text, List.append_assoc,
              List.append_assoc, List.append_assoc]
            rfl
  · intro ⟨pre, c, post, x, hcells, hx, ha⟩
    rw [hcells, row_append]
    have htext : ∃ r, row (c :: post) = x ++ (k ++ '=' :: r) := by
      cases post with
      | nil =>
        rw [row_singleton, Cell.text, hx, List.append_assoc]
        exact ⟨_, rfl⟩
      | cons d post =>
        rw [row_cons_cons, Cell.text, hx, List.append_assoc, List.append_assoc, List.cons_append]
        exact ⟨_, rfl⟩
    obtain ⟨r, hr⟩ := htext
    refine ⟨r, ?_⟩
    rw [hr, ha, List.append_assoc]

/-- A key that one cell has, and that no other key ends in, is found once. -/
theorem foundAt_iff_of_unique {pre post : List Cell} (hclean : ∀ d ∈ pre ++ c :: post, Clean d)
    (hother : ∀ d ∈ pre ++ post, ¬ c.key <:+ d.key) (a : List Char) :
    FoundAt (row (pre ++ c :: post)) c.key a ↔ a = lead pre := by
  have hmem : c ∈ pre ++ c :: post := List.mem_append_right pre List.mem_cons_self
  rw [foundAt_row_iff (hclean c hmem).key hclean]
  constructor
  · intro ⟨pre', d, post', x, hcells, hx, ha⟩
    have hsuffix : c.key <:+ d.key := ⟨x, hx.symm⟩
    obtain ⟨w, hpre, hw⟩ | ⟨w, hpre, hw⟩ := List.append_eq_append_iff.1 hcells
    · cases w with
      | nil =>
        rw [List.append_nil] at hpre
        obtain ⟨rfl, _⟩ := List.cons.inj hw
        rw [List.self_eq_append_left.1 hx, List.append_nil, hpre] at ha
        exact ha
      | cons y w =>
        exfalso
        obtain ⟨rfl, hpost⟩ := List.cons.inj hw
        apply hother d _ hsuffix
        rw [hpost]
        exact List.mem_append_right pre (List.mem_append_right w List.mem_cons_self)
    · cases w with
      | nil =>
        rw [List.append_nil] at hpre
        obtain ⟨rfl, _⟩ := List.cons.inj hw
        rw [List.self_eq_append_left.1 hx, List.append_nil, ← hpre] at ha
        exact ha
      | cons y w =>
        exfalso
        obtain ⟨rfl, _⟩ := List.cons.inj hw
        apply hother d _ hsuffix
        rw [hpre]
        exact List.mem_append_left post (List.mem_append_right pre' List.mem_cons_self)
  · intro ha
    exact ⟨pre, c, post, [], rfl, rfl, by rw [ha, List.append_nil]⟩

theorem lead_append (pre post : List Cell) : lead (pre ++ post) = lead pre ++ lead post :=
  List.flatMap_append

theorem lead_singleton (c : Cell) : lead [c] = c.text ++ [' '] := by
  rw [lead, List.flatMap_singleton]

theorem lead_snoc (pre : List Cell) (c : Cell) :
    lead (pre ++ [c]) = lead pre ++ (c.text ++ [' ']) := by
  rw [lead_append, lead_singleton]

/-- The keys of the first cells are each found once, where the cell starts. -/
theorem found_starts {pre cells post : List Cell}
    (hclean : ∀ d ∈ pre ++ (cells ++ post), Clean d)
    (hpre : ∀ c ∈ cells, ∀ d ∈ pre, ¬ c.key <:+ d.key)
    (hcells : cells.Pairwise fun c d => ¬ c.key <:+ d.key ∧ ¬ d.key <:+ c.key)
    (hpost : ∀ c ∈ cells, ∀ d ∈ post, ¬ c.key <:+ d.key) :
    List.Forall₂ (fun c a => ∀ a', FoundAt (row (pre ++ (cells ++ post))) c.key a' ↔ a' = a) cells
      (starts (lead pre) cells) := by
  induction cells generalizing pre with
  | nil => exact .nil
  | cons c cells ih =>
    obtain ⟨hc, hrest⟩ := List.pairwise_cons.1 hcells
    have hsnoc : pre ++ (c :: cells ++ post) = (pre ++ [c]) ++ (cells ++ post) := by
      rw [List.append_assoc, List.singleton_append, List.cons_append]
    apply List.Forall₂.cons
    · apply foundAt_iff_of_unique hclean
      intro d hd
      rcases List.mem_append.1 hd with hd | hd
      · exact hpre c List.mem_cons_self d hd
      · rcases List.mem_append.1 hd with hd | hd
        · exact (hc d hd).1
        · exact hpost c List.mem_cons_self d hd
    · rw [hsnoc, ← lead_snoc]
      apply ih
      · rw [← hsnoc]
        exact hclean
      · intro d hd e he
        rcases List.mem_append.1 he with he | he
        · exact hpre d (List.mem_cons_of_mem c hd) e he
        · rw [List.mem_singleton.1 he]
          exact (hc d hd).2
      · exact hrest
      · intro d hd
        exact hpost d (List.mem_cons_of_mem c hd)

theorem length_le_starts (a : List Char) (cells : List Cell) :
    ∀ s ∈ starts a cells, a.length ≤ s.length := by
  induction cells generalizing a with
  | nil =>
    intro s hs
    cases hs
  | cons c cells ih =>
    intro s hs
    rcases List.mem_cons.1 hs with rfl | hs
    · exact le_rfl
    · have hle := ih _ s hs
      rw [List.length_append] at hle
      omega

theorem starts_pairwise (a : List Char) (cells : List Cell) :
    (starts a cells).Pairwise fun s t => s.length < t.length := by
  induction cells generalizing a with
  | nil => exact .nil
  | cons c cells ih =>
    apply List.Pairwise.cons
    · intro s hs
      have hle := length_le_starts _ cells s hs
      rw [List.length_append, List.length_append, List.length_singleton] at hle
      omega
    · exact ih _

theorem starts_lt_lead (pre cells : List Cell) :
    ∀ s ∈ starts (lead pre) cells, s.length < (lead (pre ++ cells)).length := by
  induction cells generalizing pre with
  | nil =>
    intro s hs
    cases hs
  | cons c cells ih =>
    have hsnoc : pre ++ c :: cells = (pre ++ [c]) ++ cells := List.append_cons pre c cells
    intro s hs
    rcases List.mem_cons.1 hs with rfl | hs
    · rw [hsnoc, lead_append, lead_snoc, List.length_append, List.length_append,
        List.length_append, List.length_singleton]
      omega
    · rw [hsnoc]
      apply ih
      rw [lead_snoc]
      exact hs

/-- A key that no cell of the first ones ends in is found after them. -/
theorem found_after (hk : PlainKey k) {cells post : List Cell}
    (hclean : ∀ d ∈ cells ++ post, Clean d) (hother : ∀ c ∈ cells, ¬ k <:+ c.key)
    (h : FoundAt (row (cells ++ post)) k a) : (lead cells).length ≤ a.length := by
  obtain ⟨pre, c, rest, x, hcells, hx, rfl⟩ := (foundAt_row_iff hk hclean a).1 h
  obtain ⟨w, hpre, _⟩ | ⟨w, hw, hsplit⟩ := List.append_eq_append_iff.1 hcells
  · rw [hpre, lead_append, List.length_append, List.length_append]
    omega
  · cases w with
    | nil =>
      rw [List.append_nil] at hw
      rw [hw, List.length_append]
      omega
    | cons d w =>
      exfalso
      obtain ⟨rfl, _⟩ := List.cons.inj hsplit
      apply hother c _ ⟨x, hx.symm⟩
      rw [hw]
      exact List.mem_append_right pre List.mem_cons_self

/-- A line loses the blanks at its end from its last value only. -/
theorem trimEnd_row (pre : List Cell) (c : Cell) (t : List Char) :
    trimEnd (row (pre ++ [c]) ++ t) = row (pre ++ [⟨c.key, trimEnd (c.value ++ t)⟩]) := by
  have heq : isWhitespace '=' = false := by decide
  rw [row_append, row_append, row_singleton, row_singleton, Cell.text, Cell.text,
    List.append_assoc, List.append_assoc, List.cons_append, ← List.append_assoc,
    trimEnd_append heq, List.append_assoc]

theorem mem_text {c : Cell} (h : x ∈ c.text) : x = '=' ∨ x ∈ c.key ∨ x ∈ c.value := by
  rw [Cell.text] at h
  rcases List.mem_append.1 h with h | h
  · exact .inr (.inl h)
  · rcases List.mem_cons.1 h with h | h
    · exact .inl h
    · exact .inr (.inr h)

theorem mem_row (h : x ∈ row cells) :
    x = '=' ∨ x = ' ' ∨ ∃ c ∈ cells, x ∈ c.key ∨ x ∈ c.value := by
  induction cells with
  | nil => cases h
  | cons c cells ih =>
    have htext : x ∈ c.text → x = '=' ∨ x = ' ' ∨ ∃ d ∈ c :: cells, x ∈ d.key ∨ x ∈ d.value := by
      intro hx
      rcases mem_text hx with hx | hx
      · exact .inl hx
      · exact .inr (.inr ⟨c, List.mem_cons_self, hx⟩)
    cases cells with
    | nil =>
      rw [row_singleton] at h
      exact htext h
    | cons d cells =>
      rw [row_cons_cons] at h
      rcases List.mem_append.1 h with h | h
      · exact htext h
      · rcases List.mem_cons.1 h with h | h
        · exact .inr (.inl h)
        · obtain heq | hblank | ⟨e, he, hx⟩ := ih h
          · exact .inl heq
          · exact .inr (.inl hblank)
          · exact .inr (.inr ⟨e, List.mem_cons_of_mem c he, hx⟩)

/-- Where cells of some lengths start, and one more cell after them, from `n` on. -/
def offsets (n : Nat) : List Nat → List Nat
  | [] => [n]
  | l :: ls => n :: offsets (n + (l + 1)) ls

/-- A measure that adds lengths after `a` finds the cells at their offsets. -/
theorem map_starts {measure : List Char → Nat} {p : Char → Prop}
    (hmeasure : ∀ t, (∀ x ∈ t, p x) → measure (a ++ t) = n + t.length) (hblank : p ' ')
    (hcells : ∀ c ∈ cells, ∀ x ∈ c.text, p x) (d : Cell) :
    (starts a (cells ++ [d])).map measure = offsets n (cells.map fun c => c.text.length) := by
  have hhere := hmeasure [] (fun x hx => absurd hx List.not_mem_nil)
  rw [List.append_nil, List.length_nil, Nat.add_zero] at hhere
  induction cells generalizing a n with
  | nil =>
    rw [List.nil_append, starts, starts, List.map_singleton, hhere]
    rfl
  | cons c cells ih =>
    have htext : ∀ x ∈ c.text ++ [' '], p x := by
      intro x hx
      rcases List.mem_append.1 hx with hx | hx
      · exact hcells c List.mem_cons_self x hx
      · rw [List.mem_singleton.1 hx]
        exact hblank
    have hrest : ∀ t, (∀ x ∈ t, p x) →
        measure (a ++ (c.text ++ [' ']) ++ t) = n + (c.text.length + 1) + t.length := by
      intro t ht
      have hall : ∀ x ∈ c.text ++ [' '] ++ t, p x := by
        intro x hx
        rcases List.mem_append.1 hx with hx | hx
        · exact htext x hx
        · exact ht x hx
      rw [List.append_assoc, hmeasure _ hall, List.length_append, List.length_append,
        List.length_singleton]
      omega
    have hnext := hrest [] (fun x hx => absurd hx List.not_mem_nil)
    rw [List.append_nil, List.length_nil, Nat.add_zero] at hnext
    rw [List.cons_append, starts, List.map_cons, List.map_cons, offsets, hhere,
      ih hrest (fun e he => hcells e (List.mem_cons_of_mem c he)) hnext]

end Cells
