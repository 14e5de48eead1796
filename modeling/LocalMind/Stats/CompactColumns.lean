import LocalMind.Stats.Compact

namespace LocalMind.Compact
open Cells Text
set_option autoImplicit true

/-! The record as a row of cells. -/

section
variable (f : PrintedFloats F) (w : Widths) (m : RequestMetrics F)

def rateCells : List Cell :=
  match tpsTier f m with
  | 1 => [⟨"pp".toList,
        padLeft 8 (f.fixed 3 (f.div (m.promptTps.getD (literal f 0)) (literal f 1000))) ++ ['k']⟩,
      ⟨"tg".toList, padLeft 7 (f.fixed 1 (m.generationTps.getD (literal f 0)))⟩]
  | 2 => [⟨"pp".toList, "     n/a".toList⟩, ⟨"tg>".toList, padLeft 7 (f.fixed 1 m.decodeTpsMin)⟩]
  | _ => [⟨"pp".toList, "     n/a".toList⟩, ⟨"tg".toList, "     n/a".toList⟩]

def modelCell : Cell := ⟨"model".toList, padCells w (modelValue w m) 16⟩

/-- The cells of the head after the rates and before its last one. -/
def countCells : List Cell :=
  [⟨"dur".toList, padLeft 7 (f.fixed 0 (durValue f m)) ++ "ms".toList⟩,
    ⟨"ctx".toList, padLeft 6 (countCell m.contextUsed) ++ '/' :: padLeft 6 (countCell m.contextTotal)⟩,
    ⟨"tok".toList, padLeft 6 (countCell m.promptTokens) ++
      '/' :: padLeft 6 (countCell m.completionTokens)⟩,
    ⟨"stream".toList, padCells w (badge m).toList 7⟩]

def frontCells : List Cell := modelCell w m :: (rateCells f m ++ countCells f w m)

def finishCell : Cell := ⟨"finish".toList, padCells w (finishValue w m) 10⟩

def tailCells : List Cell :=
  (m.groupName.map fun g => ⟨"group".toList, freeForm g⟩).toList ++
    (if tpsTier f m ≠ 1 ∧ positive f m.totalTps then
      [⟨"work".toList, f.fixed 2 m.totalTps⟩] else []) ++
    ((m.queueMs.filter fun q => f.le (literal f 1) q).map fun q =>
      ⟨"queue".toList, f.fixed 0 q ++ "ms".toList⟩).toList ++
    (m.concurrentRequests.map fun c => ⟨"concurrent".toList, Nat.toDigits 10 c⟩).toList ++
    ((m.cachedTokens.filter fun c => 0 < c).map fun c =>
      ⟨"cache".toList, Nat.toDigits 10 c.toNat⟩).toList

def tgKey : String := if tpsTier f m = 2 then "tg>" else "tg"

def headKeys : List String := ["model", "pp", tgKey f m, "dur", "ctx", "tok", "stream", "finish"]

end

def tailKeys : List String := ["group", "work", "queue", "concurrent", "cache"]

theorem tpsTier_cases (f : PrintedFloats F) (m : RequestMetrics F) :
    tpsTier f m = 1 ∨ tpsTier f m = 2 ∨ tpsTier f m = 3 := by
  rw [tpsTier]
  split
  · exact .inl rfl
  · split
    · exact .inr (.inl rfl)
    · exact .inr (.inr rfl)

theorem rateGroup_eq (f : PrintedFloats F) (m : RequestMetrics F) :
    rateGroup f m = row (rateCells f m) := by
  rcases tpsTier_cases f m with h | h | h
  · simp only [rateGroup, rateCells, h, row_cons_cons, row_singleton, Cell.text, List.append_assoc,
      List.cons_append]
    rfl
  · simp only [rateGroup, rateCells, h, row_cons_cons, row_singleton, Cell.text]
    rfl
  · simp only [rateGroup, rateCells, h, row_cons_cons, row_singleton, Cell.text]
    rfl

theorem rateCells_pair (f : PrintedFloats F) (m : RequestMetrics F) :
    ∃ c d, rateCells f m = [c, d] := by
  rcases tpsTier_cases f m with h | h | h
  · rw [rateCells, h]
    exact ⟨_, _, rfl⟩
  · rw [rateCells, h]
    exact ⟨_, _, rfl⟩
  · rw [rateCells, h]
    exact ⟨_, _, rfl⟩

theorem headTexts_row (f : PrintedFloats F) (w : Widths) (m : RequestMetrics F) :
    [' '].intercalate (headTexts f w m) = row (frontCells f w m ++ [finishCell w m]) := by
  obtain ⟨c, d, h⟩ := rateCells_pair f m
  have hheads : headTexts f w m = [(modelCell w m).text, row [c, d]] ++
      (countCells f w m ++ [finishCell w m]).map Cell.text := by
    rw [headTexts, rateGroup_eq, h]
    simp only [countCells, List.cons_append, List.nil_append, List.map_cons, List.map_nil,
      Cell.text, List.append_assoc]
    rfl
  rw [hheads, frontCells, h, row_cons_cons, row_singleton, countCells]
  simp only [row, List.cons_append, List.nil_append, List.map_cons, List.map_nil,
    List.intercalate_cons_cons, List.append_assoc]

theorem tailTexts_eq (f : PrintedFloats F) (m : RequestMetrics F) :
    tailTexts f m = (tailCells f m).map Cell.text := by
  have hoption : ∀ {α : Type} (o : Option α) (g : α → Cell),
      (o.map g).toList.map Cell.text = (o.map fun a => (g a).text).toList := by
    intro α o g
    cases o with
    | none => rfl
    | some a => rfl
  have hwork : (if tpsTier f m ≠ 1 ∧ positive f m.totalTps then
      [(⟨"work".toList, f.fixed 2 m.totalTps⟩ : Cell)] else []).map Cell.text =
      if tpsTier f m ≠ 1 ∧ positive f m.totalTps then
        ["work=".toList ++ f.fixed 2 m.totalTps] else [] := by
    split
    · rfl
    · rfl
  rw [tailCells, List.map_append, List.map_append, List.map_append, List.map_append, hwork,
    hoption, hoption, hoption, hoption]
  rfl

def Made (p : Char → Bool) (s : List Char) : Prop := ∀ c ∈ s, p c = true

/-- The characters of numbers, units and badges, other than digits. -/
def marks : List Char := "-./ Nacdefgiklmnorstuy".toList

structure TakesNumbers (p : Char → Bool) : Prop where
  digit : ∀ c, Char.isDigit c = true → p c = true
  mark : ∀ c ∈ marks, p c = true

theorem Made.append (hs : Made p s) (ht : Made p t) : Made p (s ++ t) := by
  intro c hc
  rcases List.mem_append.1 hc with hc | hc
  · exact hs c hc
  · exact ht c hc

theorem Made.mono (h : Made p s) (hsub : t ⊆ s) : Made p t := fun c hc => h c (hsub hc)

section
variable {p : Char → Bool} (hp : TakesNumbers p)
include hp

theorem made_marks (h : s.all marks.contains = true) : Made p s :=
  fun c hc => hp.mark c (List.contains_iff_mem.1 (List.all_eq_true.1 h c hc))

theorem made_blanks (n : Nat) : Made p (List.replicate n ' ') := by
  intro c hc
  rw [List.eq_of_mem_replicate hc]
  exact hp.mark ' ' (by decide)

theorem made_fixed (f : PrintedFloats F) (n : Nat) (x : F) : Made p (f.fixed n x) := by
  intro c hc
  have hnumeric := f.numeric n x c hc
  rw [isNumeric, Bool.or_eq_true] at hnumeric
  rcases hnumeric with h | h
  · exact hp.digit c h
  · have hmarks : "-.Nainf".toList.all marks.contains = true := by rfl
    exact made_marks hp hmarks c (List.contains_iff_mem.1 h)

theorem made_toDigits (n : Nat) : Made p (Nat.toDigits 10 n) :=
  fun c hc => hp.digit c (Nat.isDigit_of_mem_toDigits (by decide) (by decide) hc)

theorem made_countCell (n : Option UInt64) : Made p (countCell n) := by
  cases n with
  | none => exact made_marks hp (by rfl)
  | some n => exact made_toDigits hp _

theorem Made.padCells (h : Made p s) (w : Widths) (n : Nat) : Made p (padCells w s n) := by
  rw [Compact.padCells]
  split
  · exact h.append (made_blanks hp _)
  · exact h

theorem Made.padLeft (h : Made p s) (n : Nat) : Made p (padLeft n s) := (made_blanks hp _).append h

theorem made_counts (a b : Option UInt64) :
    Made p (Compact.padLeft 6 (countCell a) ++ '/' :: Compact.padLeft 6 (countCell b)) := by
  have hslash : Made p ['/'] := made_marks hp (by rfl)
  have hb := hslash.append ((made_countCell hp b).padLeft hp 6)
  exact ((made_countCell hp a).padLeft hp 6).append hb

theorem made_badge (m : RequestMetrics F) : Made p (badge m).toList := by
  rw [badge]
  split
  · split
    · exact made_marks hp (by rfl)
    · exact made_marks hp (by rfl)
    · exact made_marks hp (by rfl)
    · exact made_marks hp (by rfl)
    · split
      · exact made_marks hp (by rfl)
      · exact made_marks hp (by rfl)
  · exact made_marks hp (by rfl)

theorem made_rateCells (f : PrintedFloats F) (m : RequestMetrics F) :
    ∀ c ∈ rateCells f m, Made p c.value := by
  have hk : Made p ['k'] := made_marks hp (by rfl)
  have hna : Made p "     n/a".toList := made_marks hp (by rfl)
  rcases tpsTier_cases f m with h | h | h
  · simp only [rateCells, h, List.forall_mem_cons, List.not_mem_nil, false_implies, implies_true,
      and_true]
    exact ⟨((made_fixed hp f _ _).padLeft hp _).append hk, (made_fixed hp f _ _).padLeft hp _⟩
  · simp only [rateCells, h, List.forall_mem_cons, List.not_mem_nil, false_implies, implies_true,
      and_true]
    exact ⟨hna, (made_fixed hp f _ _).padLeft hp _⟩
  · simp only [rateCells, h, List.forall_mem_cons, List.not_mem_nil, false_implies, implies_true,
      and_true]
    exact ⟨hna, hna⟩

theorem made_countCells (f : PrintedFloats F) (w : Widths) (m : RequestMetrics F) :
    ∀ c ∈ countCells f w m, Made p c.value := by
  have hms : Made p "ms".toList := made_marks hp (by rfl)
  simp only [countCells, List.forall_mem_cons, List.not_mem_nil, false_implies, implies_true,
    and_true]
  exact ⟨((made_fixed hp f _ _).padLeft hp _).append hms, made_counts hp _ _, made_counts hp _ _,
    (made_badge hp m).padCells hp w _⟩

end

/-- What one character of a value may be. -/
def isPlain (c : Char) : Bool := !isControl c && !isLineSeparator c && c != '='

theorem isPlain_of_isDigit (h : Char.isDigit c = true) : isPlain c = true := by
  have hrange : 48 ≤ c.toNat ∧ c.toNat ≤ 57 := by
    rw [Char.isDigit, Bool.and_eq_true, decide_eq_true_eq, decide_eq_true_eq] at h
    exact ⟨UInt32.le_iff_toNat_le.1 h.1, UInt32.le_iff_toNat_le.1 h.2⟩
  have hcontrol : isControl c = false := by
    apply decide_eq_false
    omega
  have hne : ∀ d, Char.isDigit d = false → (c == d) = false := by
    intro d hd
    apply beq_false_of_ne
    intro hcd
    rw [hcd, hd] at h
    cases h
  rw [isPlain, hcontrol, isLineSeparator, hne _ rfl, hne _ rfl, bne, hne _ rfl]
  rfl

theorem takesNumbers_isPlain : TakesNumbers isPlain where
  digit _ h := isPlain_of_isDigit h
  mark := List.all_eq_true.1 (by rfl)

theorem plain_freeForm (value : String) : Made isPlain (freeForm value) := by
  intro c hc
  obtain ⟨d, _, rfl⟩ := List.mem_map.1 hc
  by_cases h : (isControl d || isLineSeparator d || d == '=') = true
  · rw [if_pos h]
    decide
  · rw [if_neg h]
    rw [Bool.not_eq_true, Bool.or_eq_false_iff, Bool.or_eq_false_iff] at h
    rw [isPlain, h.1.1, h.1.2, bne, h.2]
    rfl

theorem fitting_isPrefix (w : Widths) (budget used : Nat) (s : List Char) :
    fitting w budget used s <+: s := by
  induction s generalizing used with
  | nil => exact List.prefix_rfl
  | cons c s ih =>
    rw [fitting]
    split
    · exact List.nil_prefix
    · exact (List.prefix_cons_inj c).2 (ih _)

theorem Made.truncate (h : Made isPlain s) (w : Widths) (n : Nat) :
    Made isPlain (truncateToWidth w s n) := by
  have hdots : Made isPlain ['.', '.', '.'] := made_marks takesNumbers_isPlain (by rfl)
  rw [truncateToWidth]
  split
  · exact h
  · exact (h.mono (fitting_isPrefix w _ _ s).subset).append hdots

theorem plain_finishValue (w : Widths) (m : RequestMetrics F) : Made isPlain (finishValue w m) := by
  have hna : Made isPlain "n/a".toList := made_marks takesNumbers_isPlain (by rfl)
  rw [finishValue]
  split
  · exact hna
  · split
    · exact hna
    · exact (plain_freeForm _).truncate w _

theorem plain_frontCells (f : PrintedFloats F) (w : Widths) (m : RequestMetrics F) :
    ∀ c ∈ frontCells f w m, Made isPlain c.value := by
  have hp := takesNumbers_isPlain
  intro c hc
  rcases List.mem_cons.1 hc with rfl | hc
  · exact ((plain_freeForm _).truncate w _).padCells hp w _
  · rcases List.mem_append.1 hc with hc | hc
    · exact made_rateCells hp f m c hc
    · exact made_countCells hp f w m c hc

/-- A cell of the tail. -/
def IsTail (c : Cell) : Prop := c.key ∈ tailKeys.map String.toList ∧ Made isPlain c.value

theorem isTail_mk (hk : k ∈ tailKeys) (hv : Made isPlain v) : IsTail ⟨k.toList, v⟩ :=
  ⟨List.mem_map_of_mem hk, hv⟩

theorem isTail_of_mem (f : PrintedFloats F) (m : RequestMetrics F) :
    ∀ c ∈ tailCells f m, IsTail c := by
  have hp := takesNumbers_isPlain
  have hms : Made isPlain "ms".toList := made_marks hp (by rfl)
  have hoption : ∀ {α : Type} (o : Option α) (g : α → Cell), (∀ a, IsTail (g a)) →
      ∀ c ∈ (o.map g).toList, IsTail c := by
    intro α o g hg c hc
    cases o with
    | none => cases hc
    | some a =>
      rw [List.mem_singleton.1 hc]
      exact hg a
  intro c hc
  rw [tailCells] at hc
  rcases List.mem_append.1 hc with hc | hc
  · rcases List.mem_append.1 hc with hc | hc
    · rcases List.mem_append.1 hc with hc | hc
      · rcases List.mem_append.1 hc with hc | hc
        · exact hoption _ _ (fun g => isTail_mk (by decide) (plain_freeForm g)) c hc
        · split at hc
          · rw [List.mem_singleton.1 hc]
            exact isTail_mk (by decide) (made_fixed hp f _ _)
          · cases hc
      · exact hoption _ _ (fun q => isTail_mk (by decide) ((made_fixed hp f _ _).append hms)) c hc
    · exact hoption _ _ (fun n => isTail_mk (by decide) (made_toDigits hp n)) c hc
  · exact hoption _ _ (fun n => isTail_mk (by decide) (made_toDigits hp _)) c hc

theorem Made.trimEnd (h : Made p s) : Made p (trimEnd s) :=
  h.mono (List.rdropWhile_prefix _ s).subset

/-- The record is a row of cells: the head, whose last value may be trimmed, and a tail. -/
theorem formatCompact_row (f : PrintedFloats F) (w : Widths) (m : RequestMetrics F) :
    ∃ v tail, formatCompact f w m = row (frontCells f w m ++ ⟨"finish".toList, v⟩ :: tail) ∧
      Made isPlain v ∧ ∀ c ∈ tail, IsTail c := by
  have hfinish : Made isPlain (finishCell w m).value := (plain_finishValue w m).padCells takesNumbers_isPlain w _
  have htail := isTail_of_mem f m
  rw [formatCompact, headTexts_row, tailTexts_eq]
  change ∃ v tail, Text.trimEnd (row _ ++ ' ' :: row (tailCells f m)) = _ ∧ _
  rcases List.eq_nil_or_concat' (tailCells f m) with h | ⟨ds, d, h⟩
  · rw [h]
    change ∃ v tail, Text.trimEnd (row _ ++ [' ']) = _ ∧ _
    rw [trimEnd_row]
    exact ⟨_, [], rfl, (hfinish.append (made_blanks takesNumbers_isPlain 1)).trimEnd, fun c hc => absurd hc (by simp)⟩
  · rw [h] at htail ⊢
    obtain ⟨e, es, he⟩ : ∃ e es, ds ++ [d] = e :: es := by
      cases ds with
      | nil => exact ⟨d, [], rfl⟩
      | cons e ds => exact ⟨e, ds ++ [d], rfl⟩
    have hjoin : row (frontCells f w m ++ [finishCell w m]) ++ ' ' :: row (ds ++ [d]) =
        row (frontCells f w m ++ [finishCell w m] ++ ds ++ [d]) ++ [] := by
      rw [he, List.append_nil, List.append_assoc _ ds, he]
      exact row_join _ _ _ _
    rw [hjoin, trimEnd_row, List.append_nil, List.append_assoc, List.append_assoc]
    refine ⟨_, ds ++ [_], rfl, hfinish, ?_⟩
    intro c hc
    rcases List.mem_append.1 hc with hc | hc
    · exact htail c (List.mem_append_left _ hc)
    · rw [List.mem_singleton.1 hc]
      have hd := htail d (List.mem_append_right ds List.mem_cons_self)
      exact ⟨hd.1, hd.2.trimEnd⟩

/-- Where a reader of a line finds the keys of the head: each at one place only, in order, and
before the keys of the tail. -/
structure HeadFirst (line : List Char) (keys : List String) (places : List (List Char)) : Prop where
  once : List.Forall₂ (fun k a => ∀ a', FoundAt line k.toList a' ↔ a' = a) keys places
  inOrder : places.Pairwise fun a b => a.length < b.length
  beforeTail : ∀ k ∈ tailKeys, ∀ a, FoundAt line k.toList a → ∀ b ∈ places, b.length < a.length

theorem rateCells_keys (f : PrintedFloats F) (m : RequestMetrics F) :
    (rateCells f m).map Cell.key = ["pp", tgKey f m].map String.toList := by
  rcases tpsTier_cases f m with h | h | h
  · simp only [rateCells, tgKey, h]
    rfl
  · simp only [rateCells, tgKey, h]
    rfl
  · simp only [rateCells, tgKey, h]
    rfl

/-- The cells of the head, with the text of the last one as the line has it. -/
def headCells (f : PrintedFloats F) (w : Widths) (m : RequestMetrics F) (v : List Char) :
    List Cell := frontCells f w m ++ [⟨"finish".toList, v⟩]

theorem headCells_keys (f : PrintedFloats F) (w : Widths) (m : RequestMetrics F) (v : List Char) :
    (headCells f w m v).map Cell.key = (headKeys f m).map String.toList := by
  rw [headCells, frontCells, List.map_append, List.map_cons, List.map_append, rateCells_keys]
  rfl

theorem clean_of_plain (hk : PlainKey c.key) (hv : Made isPlain c.value) : Clean c := by
  refine ⟨hk, ?_⟩
  intro hmem
  have heq := hv _ hmem
  revert heq
  decide

/-- The keys of a head with either rate. -/
def keysOf (tg : String) : List (List Char) :=
  ["model", "pp", tg, "dur", "ctx", "tok", "stream", "finish"].map String.toList

theorem headKeys_cases (f : PrintedFloats F) (m : RequestMetrics F) :
    (headKeys f m).map String.toList = keysOf "tg" ∨
      (headKeys f m).map String.toList = keysOf "tg>" := by
  rw [headKeys, tgKey]
  split
  · exact .inr rfl
  · exact .inl rfl

theorem headKeys_plain (f : PrintedFloats F) (m : RequestMetrics F) :
    ∀ k ∈ (headKeys f m).map String.toList, PlainKey k := by
  rcases headKeys_cases f m with h | h
  · rw [h]
    decide
  · rw [h]
    decide

theorem headKeys_apart (f : PrintedFloats F) (m : RequestMetrics F) :
    ((headKeys f m).map String.toList).Pairwise fun k l => ¬ k <:+ l ∧ ¬ l <:+ k := by
  rcases headKeys_cases f m with h | h
  · rw [h]
    decide
  · rw [h]
    decide

theorem headKeys_tail (f : PrintedFloats F) (m : RequestMetrics F) :
    ∀ k ∈ (headKeys f m).map String.toList, ∀ t ∈ tailKeys.map String.toList,
      ¬ k <:+ t ∧ ¬ t <:+ k := by
  rcases headKeys_cases f m with h | h
  · rw [h]
    decide
  · rw [h]
    decide

theorem tailKeys_plain : ∀ k ∈ tailKeys.map String.toList, PlainKey k := by decide

theorem clean_cells (f : PrintedFloats F) (w : Widths) (m : RequestMetrics F) (hv : Made isPlain v)
    (htail : ∀ c ∈ tail, IsTail c) : ∀ c ∈ headCells f w m v ++ tail, Clean c := by
  intro c hc
  rcases List.mem_append.1 hc with hc | hc
  · have hkey : PlainKey c.key := by
      apply headKeys_plain f m
      rw [← headCells_keys f w m v]
      exact List.mem_map_of_mem hc
    rcases List.mem_append.1 hc with hc | hc
    · exact clean_of_plain hkey (plain_frontCells f w m c hc)
    · rw [List.mem_singleton.1 hc] at hkey ⊢
      exact clean_of_plain hkey hv
  · obtain ⟨hkey, hvalue⟩ := htail c hc
    exact clean_of_plain (tailKeys_plain _ hkey) hvalue

theorem headFirst_row (f : PrintedFloats F) (w : Widths) (m : RequestMetrics F) (hv : Made isPlain v)
    (htail : ∀ c ∈ tail, IsTail c) :
    HeadFirst (row (headCells f w m v ++ tail)) (headKeys f m) (starts [] (headCells f w m v)) := by
  have hclean := clean_cells f w m hv htail
  have hkeys := headCells_keys f w m v
  have hmem : ∀ c ∈ headCells f w m v, c.key ∈ (headKeys f m).map String.toList := by
    intro c hc
    rw [← hkeys]
    exact List.mem_map_of_mem hc
  have hpairs := headKeys_apart f m
  rw [← hkeys] at hpairs
  constructor
  · have hall : ∀ d ∈ [] ++ (headCells f w m v ++ tail), Clean d := hclean
    have hfound := found_starts hall (fun c _ d hd => absurd hd List.not_mem_nil)
      (List.pairwise_map.1 hpairs)
      (fun c hc d hd => (headKeys_tail f m _ (hmem c hc) _ (htail d hd).1).1)
    have hmap : List.Forall₂ (fun k a => ∀ a', FoundAt (row (headCells f w m v ++ tail)) k a' ↔ a' = a)
        ((headCells f w m v).map Cell.key) (starts [] (headCells f w m v)) :=
      List.forall₂_map_left_iff.2 hfound
    rw [hkeys] at hmap
    exact List.forall₂_map_left_iff.1 hmap
  · exact starts_pairwise [] _
  · intro k hk a hfound b hb
    have hkey : k.toList ∈ tailKeys.map String.toList := List.mem_map_of_mem hk
    have hlead := found_after (tailKeys_plain _ hkey) hclean
      (fun c hc => (headKeys_tail f m _ (hmem c hc) _ hkey).2) hfound
    have hlt := starts_lt_lead [] (headCells f w m v) b hb
    rw [List.nil_append] at hlt
    omega

theorem keys_plain (f : PrintedFloats F) (m : RequestMetrics F) :
    ∀ k ∈ (headKeys f m).map String.toList ++ tailKeys.map String.toList, Made isPlain k := by
  have hall : ∀ ks : List (List Char), (ks.all fun k => k.all isPlain) = true →
      ∀ k ∈ ks, Made isPlain k :=
    fun ks h k hk => List.all_eq_true.1 (List.all_eq_true.1 h k hk)
  rcases headKeys_cases f m with h | h
  · rw [h]
    exact hall _ (by rfl)
  · rw [h]
    exact hall _ (by rfl)

theorem line_char (f : PrintedFloats F) (w : Widths) (m : RequestMetrics F) (hv : Made isPlain v)
    (htail : ∀ c ∈ tail, IsTail c) (hx : x ∈ row (headCells f w m v ++ tail)) :
    isControl x = false ∧ isLineSeparator x = false := by
  have hplain : ∀ y, isPlain y = true → isControl y = false ∧ isLineSeparator y = false := by
    intro y hy
    rw [isPlain, Bool.and_eq_true, Bool.and_eq_true] at hy
    rw [Bool.not_eq_true', Bool.not_eq_true'] at hy
    exact hy.1
  have hkeys := keys_plain f m
  rcases mem_row hx with rfl | rfl | ⟨c, hc, hx⟩
  · decide
  · decide
  · apply hplain
    rcases List.mem_append.1 hc with hc | hc
    · rcases hx with hx | hx
      · apply hkeys c.key _ x hx
        rw [← headCells_keys f w m v]
        exact List.mem_append_left _ (List.mem_map_of_mem hc)
      · rcases List.mem_append.1 hc with hc | hc
        · exact plain_frontCells f w m c hc x hx
        · rw [List.mem_singleton.1 hc] at hx
          exact hv x hx
    · obtain ⟨hkey, hvalue⟩ := htail c hc
      rcases hx with hx | hx
      · exact hkeys c.key (List.mem_append_right _ hkey) x hx
      · exact hvalue x hx

/-- The numbers of a sample fit their cells. -/
structure NumbersFit (f : PrintedFloats F) (m : RequestMetrics F) : Prop where
  prefill : tpsTier f m = 1 →
    (f.fixed 3 (f.div (m.promptTps.getD (literal f 0)) (literal f 1000))).length ≤ 8
  decode : tpsTier f m = 1 → (f.fixed 1 (m.generationTps.getD (literal f 0))).length ≤ 7
  floor : tpsTier f m = 2 → (f.fixed 1 m.decodeTpsMin).length ≤ 7
  duration : (f.fixed 0 (durValue f m)).length ≤ 7
  counts : ∀ n ∈ [m.contextUsed, m.contextTotal, m.promptTokens, m.completionTokens],
    (countCell n).length ≤ 6

/-- Printable ASCII. -/
def isPrintable (c : Char) : Bool := decide (0x20 ≤ c.toNat ∧ c.toNat < 0x7f)

/-- Printable ASCII is one cell wide, and a space parts what is measured on its two sides. -/
structure AsciiCells (w : Widths) : Prop where
  ascii : ∀ s, Made isPrintable s → w.str s = s.length
  parted : ∀ k s t, Made isPrintable k → Made isPrintable t →
    w.str (k ++ '=' :: (s ++ ' ' :: t)) = k.length + 1 + w.str s + 1 + t.length

/-- Where the keys of the head start. -/
def columns (f : PrintedFloats F) (m : RequestMetrics F) : List Nat :=
  [0, 23, if tpsTier f m = 1 then 36 else 35, 47, 61, 79, 97, 112]

theorem takesNumbers_isPrintable : TakesNumbers isPrintable where
  digit c h := by
    rw [Char.isDigit, Bool.and_eq_true, decide_eq_true_eq, decide_eq_true_eq] at h
    have hlow : 48 ≤ c.toNat := UInt32.le_iff_toNat_le.1 h.1
    have hhigh : c.toNat ≤ 57 := UInt32.le_iff_toNat_le.1 h.2
    apply decide_eq_true
    omega
  mark := List.all_eq_true.1 (by rfl)

theorem length_padLeft (h : s.length ≤ n) : (padLeft n s).length = n := by
  rw [padLeft, List.length_append, List.length_replicate]
  omega

theorem length_ratio (ha : (countCell a).length ≤ 6) (hb : (countCell b).length ≤ 6) :
    (padLeft 6 (countCell a) ++ '/' :: padLeft 6 (countCell b)).length = 13 := by
  rw [List.length_append, List.length_cons, length_padLeft ha, length_padLeft hb]

theorem replicate_shift (n : Nat) (a : α) (s : List α) :
    List.replicate n a ++ a :: s = a :: (List.replicate n a ++ s) := by
  induction n with
  | zero => rfl
  | succ n ih => rw [List.replicate_succ, List.cons_append, ih, List.cons_append]

theorem str_lead_model (hw : AsciiCells w) (m : RequestMetrics F)
    (h : w.str (modelValue w m) ≤ 16) (ht : Made isPrintable t) :
    w.str (lead [modelCell w m] ++ t) = 23 + t.length := by
  have hblanks := (made_blanks takesNumbers_isPrintable (16 - w.str (modelValue w m))).append ht
  have hmodel : Made isPrintable "model".toList := List.all_eq_true.1 (by rfl)
  have htext : lead [modelCell w m] ++ t = "model".toList ++ '=' ::
      (modelValue w m ++ ' ' :: (List.replicate (16 - w.str (modelValue w m)) ' ' ++ t)) := by
    rw [← replicate_shift, lead_singleton, modelCell, Cell.text, padCells, if_pos h]
    simp only [List.append_assoc, List.cons_append, List.nil_append]
  have hlength : "model".toList.length = 5 := by rfl
  rw [htext, hw.parted _ _ _ hmodel hblanks, hlength, List.length_append, List.length_replicate]
  omega

theorem text_printable {c : Cell} (hk : c.key.all isPrintable = true) (hv : Made isPrintable c.value) :
    Made isPrintable c.text := by
  intro x hx
  rcases mem_text hx with rfl | hx | hx
  · decide
  · exact List.all_eq_true.1 hk x hx
  · exact hv x hx

theorem headKeys_printable (f : PrintedFloats F) (m : RequestMetrics F) :
    ∀ k ∈ (headKeys f m).map String.toList, k.all isPrintable = true := by
  rcases headKeys_cases f m with h | h
  · rw [h]
    decide
  · rw [h]
    decide

theorem rateCells_lengths {f : PrintedFloats F} {m : RequestMetrics F} (hfit : NumbersFit f m) :
    (rateCells f m).map (fun c => c.text.length) = if tpsTier f m = 1 then [12, 10] else [11, 11] := by
  have hpp : "pp".toList.length = 2 := by rfl
  have htg : "tg".toList.length = 2 := by rfl
  have hfloor : "tg>".toList.length = 3 := by rfl
  have hna : "     n/a".toList.length = 8 := by rfl
  rcases tpsTier_cases f m with h | h | h
  · simp only [rateCells, h, List.map_cons, List.map_nil, Cell.text, List.length_append,
      List.length_cons, List.length_nil, length_padLeft (hfit.prefill h),
      length_padLeft (hfit.decode h), hpp, htg]
    rfl
  · simp only [rateCells, h, List.map_cons, List.map_nil, Cell.text, List.length_append,
      List.length_cons, length_padLeft (hfit.floor h), hpp, hfloor, hna]
    rfl
  · simp only [rateCells, h, List.map_cons, List.map_nil, Cell.text, List.length_append,
      List.length_cons, hpp, htg, hna]
    rfl

theorem length_badge (m : RequestMetrics F) : (badge m).toList.length ≤ 7 := by
  rw [badge]
  split
  · split
    · decide
    · rfl
    · decide
    · decide
    · split
      · decide
      · decide
  · decide

theorem countCells_lengths {f : PrintedFloats F} {m : RequestMetrics F} (hw : AsciiCells w)
    (hfit : NumbersFit f m) :
    (countCells f w m).map (fun c => c.text.length) = [13, 17, 17, 14] := by
  have hdur : "dur".toList.length = 3 := by rfl
  have hctx : "ctx".toList.length = 3 := by rfl
  have htok : "tok".toList.length = 3 := by rfl
  have hstream : "stream".toList.length = 6 := by rfl
  have hms : "ms".toList.length = 2 := by rfl
  have hfits : ∀ n ∈ [m.contextUsed, m.contextTotal, m.promptTokens, m.completionTokens],
      (countCell n).length ≤ 6 := hfit.counts
  simp only [List.forall_mem_cons] at hfits
  obtain ⟨hused, htotal, hprompt, hcompletion, _⟩ := hfits
  have hbadge : (padCells w (badge m).toList 7).length = 7 := by
    have hle := length_badge m
    rw [padCells, hw.ascii _ (made_badge takesNumbers_isPrintable m), if_pos hle, List.length_append,
      List.length_replicate]
    omega
  simp only [countCells, List.map_cons, List.map_nil, Cell.text]
  rw [List.length_append, List.length_append, List.length_append, List.length_append,
    List.length_cons, List.length_cons, List.length_cons, List.length_cons, length_ratio hused htotal,
    length_ratio hprompt hcompletion, hbadge, List.length_append, length_padLeft hfit.duration,
    hdur, hctx, htok, hstream, hms]

theorem map_str_starts {f : PrintedFloats F} {m : RequestMetrics F} (hw : AsciiCells w)
    (hfit : NumbersFit f m) (hmodel : w.str (modelValue w m) ≤ 16) (v : List Char) :
    (starts [] (headCells f w m v)).map w.str = columns f m := by
  have hp := takesNumbers_isPrintable
  have hcells : ∀ c ∈ rateCells f m ++ countCells f w m, ∀ x ∈ c.text, isPrintable x = true := by
    intro c hc
    apply text_printable
    · apply headKeys_printable f m
      rw [← headCells_keys f w m v]
      exact List.mem_map_of_mem (List.mem_append_left _ (List.mem_cons_of_mem _ hc))
    · rcases List.mem_append.1 hc with hc | hc
      · exact made_rateCells hp f m c hc
      · exact made_countCells hp f w m c hc
  have hmeasure : ∀ t, (∀ x ∈ t, isPrintable x = true) →
      w.str ([] ++ ((modelCell w m).text ++ [' ']) ++ t) = 23 + t.length := by
    intro t ht
    rw [List.nil_append, ← lead_singleton]
    exact str_lead_model hw m hmodel ht
  have hnil : w.str [] = 0 := hw.ascii [] (fun x hx => absurd hx List.not_mem_nil)
  rw [headCells, frontCells, List.cons_append, starts, List.map_cons, hnil,
    map_starts hmeasure (by decide) hcells, List.map_append, rateCells_lengths hfit,
    countCells_lengths hw hfit, columns]
  split
  · rfl
  · rfl

/-- The rate key of the other tiers is nowhere in the line. -/
theorem other_tg (f : PrintedFloats F) (w : Widths) (m : RequestMetrics F) (hv : Made isPlain v)
    (htail : ∀ c ∈ tail, IsTail c) (hk : k ∈ ["tg", "tg>"]) (hne : k ≠ tgKey f m) (a : List Char) :
    ¬ FoundAt (row (headCells f w m v ++ tail)) k.toList a := by
  have hplain : ∀ k ∈ ["tg", "tg>"], PlainKey k.toList := by decide
  have htailKeys : ∀ k ∈ ["tg", "tg>"], ∀ t ∈ tailKeys.map String.toList, ¬ k.toList <:+ t := by
    decide
  have hkeys : ∀ tg ∈ ["tg", "tg>"], ∀ k ∈ ["tg", "tg>"], k ≠ tg → ∀ t ∈ keysOf tg,
      ¬ k.toList <:+ t := by decide
  have htg : tgKey f m ∈ ["tg", "tg>"] := by
    rw [tgKey]
    split
    · decide
    · decide
  intro hfound
  obtain ⟨pre, c, post, x, hcells, hx, _⟩ :=
    (foundAt_row_iff (hplain k hk) (clean_cells f w m hv htail) a).1 hfound
  have hmem : c ∈ headCells f w m v ++ tail := by
    rw [hcells]
    exact List.mem_append_right pre List.mem_cons_self
  rcases List.mem_append.1 hmem with hc | hc
  · apply hkeys _ htg k hk hne c.key _ ⟨x, hx.symm⟩
    change c.key ∈ (headKeys f m).map String.toList
    rw [← headCells_keys f w m v]
    exact List.mem_map_of_mem hc
  · exact htailKeys k hk c.key (htail c hc).1 ⟨x, hx.symm⟩

/-- The record is one line that a reader of keys cannot misread, and with numbers that fit and a
model name that was cut to its cells its keys stand in their columns. -/
theorem formatCompact_columns (f : PrintedFloats F) (hw : AsciiCells w) (m : RequestMetrics F) :
    (∀ c ∈ formatCompact f w m, isControl c = false ∧ isLineSeparator c = false) ∧
      (∀ k ∈ ["tg", "tg>"], k ≠ tgKey f m → ∀ a, ¬ FoundAt (formatCompact f w m) k.toList a) ∧
      ∃ places, HeadFirst (formatCompact f w m) (headKeys f m) places ∧
        (NumbersFit f m → w.str (modelValue w m) ≤ 16 → places.map w.str = columns f m) := by
  obtain ⟨v, tail, hline, hv, htail⟩ := formatCompact_row f w m
  have hcells : frontCells f w m ++ ⟨"finish".toList, v⟩ :: tail = headCells f w m v ++ tail :=
    List.append_cons _ _ _
  rw [hline, hcells]
  constructor
  · intro c hc
    exact line_char f w m hv htail hc
  · constructor
    · intro k hk hne a
      exact other_tg f w m hv htail hk hne a
    · refine ⟨_, headFirst_row f w m hv htail, ?_⟩
      intro hfit hmodel
      exact map_str_starts hw hfit hmodel v

/-- The widths of the characters of a text together. -/
def charCells (w : Widths) : List Char → Nat
  | [] => 0
  | c :: s => w.char c + charCells w s

theorem charCells_fitting (w : Widths) (h : used ≤ budget) (s : List Char) :
    used + charCells w (fitting w budget used s) ≤ budget := by
  induction s generalizing used with
  | nil => exact h
  | cons c s ih =>
    rw [fitting]
    split
    · exact h
    · next hfits =>
      have hrest := ih (Nat.le_of_not_lt hfits)
      rw [charCells]
      omega

/-- A name is cut to its cells unless some text measures wider than its characters, as an emoji
presentation sequence does. -/
theorem str_modelValue (w : Widths) (m : RequestMetrics F)
    (h : ∀ s, s <+: freeForm m.model → w.str (s ++ ['.', '.', '.']) ≤ charCells w s + 3) :
    w.str (modelValue w m) ≤ 16 := by
  rw [modelValue, truncateToWidth]
  split
  · next hfits => exact hfits
  · have hcut := h _ (fitting_isPrefix w (16 - 3) 0 _)
    have hcells := charCells_fitting w (Nat.zero_le (16 - 3)) (freeForm m.model)
    omega

/-- A number of thousandths, cut after `p` decimals. -/
def decimal (p : Nat) (x : Int) : List Char :=
  let n := x.toNat / 10 ^ (3 - p)
  Nat.toDigits 10 (n / 10 ^ p) ++ if p = 0 then [] else
    '.' :: (List.replicate (p - (Nat.toDigits 10 (n % 10 ^ p)).length) '0' ++
      Nat.toDigits 10 (n % 10 ^ p))

theorem isNumeric_decimal (p : Nat) (x : Int) : ∀ c ∈ decimal p x, isNumeric c = true := by
  have hdigits : ∀ n, ∀ c ∈ Nat.toDigits 10 n, isNumeric c = true := by
    intro n c hc
    rw [isNumeric, Nat.isDigit_of_mem_toDigits (by decide) (by decide) hc]
    rfl
  intro c hc
  rcases List.mem_append.1 hc with hc | hc
  · exact hdigits _ c hc
  · split at hc
    · cases hc
    · rcases List.mem_cons.1 hc with rfl | hc
      · rfl
      · rcases List.mem_append.1 hc with hc | hc
        · rw [List.eq_of_mem_replicate hc]
          rfl
        · exact hdigits _ c hc

def thousandths : PrintedFloats Int where
  ofU64 n := 1000 * n.toNat
  mul x y := x * y / 1000
  div x y := x * 1000 / y
  lt x y := decide (x < y)
  le x y := decide (x ≤ y)
  isFinite _ := true
  nan := 0
  minPositive := 1
  fixed := decimal
  numeric := isNumeric_decimal

/-- Every character one cell wide, as in ASCII. -/
def narrow : Widths := ⟨List.length, fun _ => 1⟩

theorem asciiCells_narrow : AsciiCells narrow where
  ascii _ _ := rfl
  parted k s t _ _ := by
    change (k ++ '=' :: (s ++ ' ' :: t)).length = k.length + 1 + s.length + 1 + t.length
    rw [List.length_append, List.length_cons, List.length_append, List.length_cons]
    omega

def unmeasured : RequestMetrics Int :=
  { RequestMetrics.new 0 0 with model := "test-model", durationMs := 1000000 }

def measured : RequestMetrics Int :=
  { unmeasured with
    promptTps := some 1000000, generationTps := some 25500, promptTokens := some 100,
    completionTokens := some 50, finishReason := "stop" }

theorem numbersFit_unmeasured : NumbersFit thousandths unmeasured where
  prefill _ := by decide
  decode _ := by decide
  floor _ := by decide
  duration := by decide
  counts := by
    rw [List.forall_mem_cons, List.forall_mem_cons, List.forall_mem_cons, List.forall_mem_singleton]
    decide

theorem numbersFit_measured : NumbersFit thousandths measured where
  prefill _ := by decide
  decode _ := by decide
  floor _ := by decide
  duration := by decide
  counts := by
    rw [List.forall_mem_cons, List.forall_mem_cons, List.forall_mem_cons, List.forall_mem_singleton]
    decide

theorem formatCompact_columns_measured :
    ∃ places, HeadFirst (formatCompact thousandths narrow measured) (headKeys thousandths measured)
      places ∧ places.map narrow.str = [0, 23, 36, 47, 61, 79, 97, 112] := by
  obtain ⟨_, _, places, hfirst, hcolumns⟩ :=
    formatCompact_columns thousandths asciiCells_narrow measured
  refine ⟨places, hfirst, ?_⟩
  rw [hcolumns numbersFit_measured (by decide)]
  rfl

/-- The second rate stands one cell further left where the first one has no number. -/
theorem rate_moves_with_tier : ¬ ∀ (m m' : RequestMetrics Int) (places places' : List (List Char)),
    NumbersFit thousandths m → NumbersFit thousandths m' →
    HeadFirst (formatCompact thousandths narrow m) (headKeys thousandths m) places →
    HeadFirst (formatCompact thousandths narrow m') (headKeys thousandths m') places' →
    places.map narrow.str = places'.map narrow.str := by
  intro h
  obtain ⟨v, tail, hline, hv, htail⟩ := formatCompact_row thousandths narrow measured
  obtain ⟨v', tail', hline', hv', htail'⟩ := formatCompact_row thousandths narrow unmeasured
  have hfirst := headFirst_row thousandths narrow measured hv htail
  have hfirst' := headFirst_row thousandths narrow unmeasured hv' htail'
  rw [headCells, List.append_assoc, List.singleton_append, ← hline] at hfirst
  rw [headCells, List.append_assoc, List.singleton_append, ← hline'] at hfirst'
  have heq := h _ _ _ _ numbersFit_measured numbersFit_unmeasured hfirst hfirst'
  have hleft := map_str_starts asciiCells_narrow numbersFit_measured (by decide) v
  have hright := map_str_starts asciiCells_narrow numbersFit_unmeasured (by decide) v'
  rw [headCells] at hleft hright
  rw [hleft, hright] at heq
  revert heq
  decide

end LocalMind.Compact
