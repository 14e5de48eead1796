import LocalMind.Text.Str
import LocalMind.Text.Words

namespace LocalMind.Holder
open Text
set_option autoImplicit true

/-! The memory maps of a process, as `model-holder check` reads them. -/

structure FileIdentity where
  dev : List Char
  inode : UInt64
  deriving DecidableEq

structure MappedRegion where
  path : List Char
  start : UInt64
  stop : UInt64
  dev : List Char
  inode : UInt64
  deriving DecidableEq

def MappedRegion.identity (region : MappedRegion) : FileIdentity := ⟨region.dev, region.inode⟩

/-- `char::to_digit`. -/
def toDigit (radix : Nat) (c : Char) : Option Nat :=
  let n := c.toNat
  let digit :=
    if 48 ≤ n ∧ n ≤ 57 then some (n - 48)
    else if 97 ≤ n ∧ n ≤ 122 then some (n - 87)
    else if 65 ≤ n ∧ n ≤ 90 then some (n - 55)
    else none
  digit.filter fun d => decide (d < radix)

def fromDigits (radix acc : Nat) : List Char → Option UInt64
  | [] => some (UInt64.ofNat acc)
  | c :: cs =>
    match toDigit radix c with
    | none => none
    | some d => if acc * radix + d < 2 ^ 64 then fromDigits radix (acc * radix + d) cs else none

/-- `u64::from_str_radix`. -/
def fromStrRadix (radix : Nat) (s : List Char) : Option UInt64 :=
  match s with
  | [] => none
  | '+' :: cs => if cs.isEmpty then none else fromDigits radix 0 cs
  | c :: cs => fromDigits radix 0 (c :: cs)

/-- The region of a line, where it has one of a file. -/
def parseRegion (line : List Char) : Option MappedRegion :=
  match runs isWhitespace line with
  | addr :: _ :: _ :: dev :: inodeText :: first :: rest =>
    match addr.splitOn '-' with
    | [startText, stopText] =>
      match fromStrRadix 16 startText, fromStrRadix 16 stopText with
      | some start, some stop =>
        let inode := (fromStrRadix 10 inodeText).getD 0
        let path := [' '].intercalate (first :: rest)
        if path.head? = some '/' ∧ 0 < inode then some ⟨path, start, stop, dev, inode⟩ else none
      | _, _ => none
    | _ => none
  | _ => none

/-- A line that is no text is an error of the whole file. -/
def readProcessMaps (file : List (List UInt8)) : Option (List MappedRegion) :=
  (file.mapM fun line => (Utf8.decode line).map stripCR).map fun texts =>
    texts.filterMap parseRegion

/-- A line as the kernel prints it. -/
structure MapsLine where
  start : List Char
  stop : List Char
  perms : List Char
  offset : List Char
  dev : List Char
  inode : List Char
  pad : Nat
  path : List UInt8

def digitsValue (radix : Nat) (s : List Char) : Nat :=
  s.foldl (fun n c => n * radix + (toDigit radix c).getD 0) 0

/-- The digits of a number that fits. -/
structure IsNumber (radix : Nat) (s : List Char) : Prop where
  ne_nil : s ≠ []
  digits : ∀ c ∈ s, (toDigit radix c).isSome = true
  fits : digitsValue radix s < 2 ^ 64

def IsWord (s : List Char) : Prop := s ≠ [] ∧ ∀ c ∈ s, isWhitespace c = false

namespace MapsLine

def fields (line : MapsLine) : List Char :=
  line.start ++ '-' :: line.stop ++ ' ' :: line.perms ++ ' ' :: line.offset ++ ' ' :: line.dev ++
    ' ' :: line.inode ++ ' ' :: List.replicate line.pad ' '

def text (line : MapsLine) : List UInt8 := Utf8.encode line.fields ++ line.path

def size (line : MapsLine) : Nat := digitsValue 16 line.stop - digitsValue 16 line.start

def identity (line : MapsLine) : FileIdentity :=
  ⟨line.dev, UInt64.ofNat (digitsValue 10 line.inode)⟩

/-- A region of a file: its path name is absolute and its inode is not zero. -/
def backed (line : MapsLine) : Bool :=
  line.path.head? == some 47 && decide (0 < digitsValue 10 line.inode)

structure WellFormed (line : MapsLine) : Prop where
  start : IsNumber 16 line.start
  stop : IsNumber 16 line.stop
  lt : digitsValue 16 line.start < digitsValue 16 line.stop
  perms : IsWord line.perms
  offset : IsWord line.offset
  dev : IsWord line.dev
  inode : IsNumber 10 line.inode
  head : ∀ b, line.path.head? = some b → 0x21 ≤ b.toNat ∧ b.toNat ≤ 0x7E
  oneLine : 10 ∉ line.path

end MapsLine

theorem toDigit_eq_some (h : toDigit radix c = some d) : d < radix ∧
    (48 ≤ c.toNat ∧ c.toNat ≤ 57 ∨ 97 ≤ c.toNat ∧ c.toNat ≤ 122 ∨
      65 ≤ c.toNat ∧ c.toNat ≤ 90) := by
  rw [toDigit] at h
  obtain ⟨he, hlt⟩ := Option.filter_eq_some_iff.1 h
  refine ⟨of_decide_eq_true hlt, ?_⟩
  split at he
  · next hc => exact .inl hc
  · split at he
    · next hc => exact .inr (.inl hc)
    · split at he
      · next hc => exact .inr (.inr hc)
      · cases he

theorem isSome_toDigit (h : (toDigit radix c).isSome = true) :
    isWhitespace c = false ∧ c ≠ '-' ∧ c ≠ '+' := by
  obtain ⟨d, hd⟩ := Option.isSome_iff_exists.1 h
  obtain ⟨-, hc⟩ := toDigit_eq_some hd
  refine ⟨?_, ?_, ?_⟩
  · simp only [isWhitespace, Bool.or_eq_false_iff, decide_eq_false_iff_not, beq_eq_false_iff_ne]
    omega
  · intro he
    rw [he] at hc
    revert hc
    decide
  · intro he
    rw [he] at hc
    revert hc
    decide

theorem le_foldl_digits (hr : 0 < radix) (s : List Char) (acc : Nat) :
    acc ≤ s.foldl (fun n c => n * radix + (toDigit radix c).getD 0) acc := by
  induction s generalizing acc with
  | nil => exact Nat.le_refl acc
  | cons c s ih =>
    have hmul := Nat.le_mul_of_pos_right acc hr
    exact (hmul.trans (Nat.le_add_right _ _)).trans (ih _)

theorem fromDigits_eq (hr : 0 < radix) {s : List Char}
    (hs : ∀ c ∈ s, (toDigit radix c).isSome = true) {acc : Nat}
    (hlt : s.foldl (fun n c => n * radix + (toDigit radix c).getD 0) acc < 2 ^ 64) :
    fromDigits radix acc s =
      some (UInt64.ofNat (s.foldl (fun n c => n * radix + (toDigit radix c).getD 0) acc)) := by
  induction s generalizing acc with
  | nil => rfl
  | cons c s ih =>
    obtain ⟨d, hd⟩ := Option.isSome_iff_exists.1 (hs c List.mem_cons_self)
    rw [List.foldl_cons, hd, Option.getD_some] at hlt
    rw [List.foldl_cons, fromDigits, hd, Option.getD_some]
    have hle := le_foldl_digits hr s (acc * radix + d)
    dsimp only
    rw [if_pos (by omega)]
    exact ih (fun x hx => hs x (List.mem_cons_of_mem c hx)) hlt

theorem IsNumber.fromStrRadix (hr : 0 < radix) (h : IsNumber radix s) :
    fromStrRadix radix s = some (UInt64.ofNat (digitsValue radix s)) := by
  obtain ⟨c, cs, rfl⟩ := List.exists_cons_of_ne_nil h.ne_nil
  obtain ⟨-, -, hplus⟩ := isSome_toDigit (h.digits c List.mem_cons_self)
  have hread := fromDigits_eq hr h.digits h.fits
  rw [Holder.fromStrRadix]
  · exact hread
  · exact hplus

theorem IsNumber.isWord (h : IsNumber radix s) : IsWord s :=
  ⟨h.ne_nil, fun c hc => (isSome_toDigit (h.digits c hc)).1⟩

theorem IsNumber.notMem (h : IsNumber radix s) : '-' ∉ s := by
  intro hmem
  exact (isSome_toDigit (h.digits '-' hmem)).2.1 rfl

theorem runs_word (hw : IsWord w) (s : List Char) :
    runs isWhitespace (w ++ ' ' :: s) = w :: runs isWhitespace s := by
  rw [runs_append (by decide), runs_single hw.1 hw.2]
  rfl

theorem runs_stripCR (s : List Char) : runs isWhitespace (stripCR s) = runs isWhitespace s := by
  rw [stripCR]
  split
  · next h =>
    obtain ⟨init, rfl⟩ := List.getLast?_eq_some_iff.1 h
    rw [List.dropLast_concat]
    apply Eq.symm
    apply runs_append_gaps
    intro c hc
    rw [List.mem_singleton.1 hc]
    decide
  · rfl

namespace MapsLine

theorem runs_fields {line : MapsLine} (h : line.WellFormed) (s : List Char) :
    runs isWhitespace (line.fields ++ s) =
      (line.start ++ '-' :: line.stop) :: line.perms :: line.offset :: line.dev :: line.inode ::
        runs isWhitespace s := by
  have haddr : IsWord (line.start ++ '-' :: line.stop) := by
    refine ⟨?_, ?_⟩
    · intro he
      exact h.start.ne_nil (List.append_eq_nil_iff.1 he).1
    · intro c hc
      obtain hc | hc := List.mem_append.1 hc
      · exact h.start.isWord.2 c hc
      · obtain rfl | hc := List.mem_cons.1 hc
        · decide
        · exact h.stop.isWord.2 c hc
  have hpad : ∀ c ∈ List.replicate line.pad ' ', isWhitespace c = true := by
    intro c hc
    rw [List.eq_of_mem_replicate hc]
    decide
  have hfields : line.fields ++ s = (line.start ++ '-' :: line.stop) ++ ' ' :: (line.perms ++
      ' ' :: (line.offset ++ ' ' :: (line.dev ++ ' ' :: (line.inode ++
        ' ' :: (List.replicate line.pad ' ' ++ s))))) := by
    simp only [fields, List.append_assoc, List.cons_append]
  rw [hfields, runs_word haddr, runs_word h.perms, runs_word h.offset, runs_word h.dev,
    runs_word h.inode.isWord, runs_gaps hpad]

theorem splitOn_address {line : MapsLine} (h : line.WellFormed) :
    (line.start ++ '-' :: line.stop).splitOn '-' = [line.start, line.stop] := by
  rw [List.splitOn_append_cons_self, List.splitOn_eq_singleton h.start.notMem,
    List.splitOn_eq_singleton h.stop.notMem]
  rfl

/-- The path as it is joined again from its words. -/
def rejoined (path : List Char) : List Char := [' '].intercalate (runs isWhitespace path)

/-- The region of a line whose path name reads as a text. -/
def region (line : MapsLine) (path : List Char) : MappedRegion where
  path := rejoined path
  start := UInt64.ofNat (digitsValue 16 line.start)
  stop := UInt64.ofNat (digitsValue 16 line.stop)
  dev := line.dev
  inode := UInt64.ofNat (digitsValue 10 line.inode)

theorem head_of_decode {line : MapsLine} (h : line.WellFormed)
    (hpath : Utf8.decode line.path = some cs) (hc : cs.head? = some c) :
    ∃ b, line.path.head? = some b ∧ c.toNat = b.toNat ∧ 0x21 ≤ b.toNat ∧ b.toNat ≤ 0x7E := by
  obtain ⟨t, rfl⟩ := List.head?_eq_some_iff.1 hc
  have hbytes := Utf8.decode_eq_some hpath
  cases hp : line.path with
  | nil =>
    rw [hp] at hpath
    cases hpath
  | cons b bs =>
    have hb := h.head b (by rw [hp]; rfl)
    rw [hp] at hbytes
    exact ⟨b, rfl, Utf8.toNat_head (by omega) hbytes.symm, hb⟩

theorem word_head {line : MapsLine} (h : line.WellFormed)
    (hpath : Utf8.decode line.path = some cs) :
    ∀ c, cs.head? = some c → isWhitespace c = false := by
  intro c hc
  obtain ⟨b, -, hcb, hb⟩ := head_of_decode h hpath hc
  simp only [isWhitespace, Bool.or_eq_false_iff, decide_eq_false_iff_not, beq_eq_false_iff_ne]
  omega

theorem head_slash {line : MapsLine} (h : line.WellFormed)
    (hpath : Utf8.decode line.path = some cs) :
    cs.head? = some '/' ↔ line.path.head? = some 47 := by
  constructor
  · intro hc
    obtain ⟨b, hb, hcb, -⟩ := head_of_decode h hpath hc
    have heq : b = 47 := UInt8.toNat_inj.1 hcb.symm
    rw [hb, heq]
  · intro hb
    cases cs with
    | nil =>
      rw [Utf8.decode_eq_some hpath] at hb
      cases hb
    | cons c t =>
      obtain ⟨b, hb', hcb, -⟩ := head_of_decode (c := c) h hpath rfl
      rw [hb] at hb'
      cases hb'
      have heq : c = '/' := Char.toNat_inj.1 hcb
      rw [heq]
      rfl

theorem runs_head {cs : List Char} (hhead : ∀ c, cs.head? = some c → isWhitespace c = false)
    (hne : cs ≠ []) : ∃ first rest, runs isWhitespace cs = first :: rest ∧
      first.head? = cs.head? := by
  obtain ⟨c, t, rfl⟩ := List.exists_cons_of_ne_nil hne
  have hc := hhead c rfl
  have hfront := front_append (w := [c]) (by simpa using hc) t
  rw [List.singleton_append] at hfront
  obtain ⟨ws, hws⟩ := runs_front (by rw [hfront]; exact List.cons_ne_nil _ _)
  refine ⟨front isWhitespace (c :: t), ws, hws, ?_⟩
  rw [hfront]
  rfl

theorem head_intercalate {m : α} {w : List α} (hw : w ≠ []) (ws : List (List α)) :
    ([m].intercalate (w :: ws)).head? = w.head? := by
  by_cases hnil : ws = []
  · rw [hnil, List.intercalate_singleton]
  · obtain ⟨c, t, rfl⟩ := List.exists_cons_of_ne_nil hw
    rw [List.intercalate_cons_of_ne_nil hnil]
    rfl

theorem parseRegion_fields {line : MapsLine} (h : line.WellFormed)
    (hpath : Utf8.decode line.path = some cs) :
    parseRegion (stripCR (line.fields ++ cs)) =
      if line.backed then some (line.region cs) else none := by
  rw [parseRegion, runs_stripCR, runs_fields h]
  by_cases hnil : cs = []
  · have hempty : line.path.head? = none := by
      rw [Utf8.decode_eq_some hpath, hnil]
      rfl
    have hback : line.backed = false := by
      rw [backed, hempty]
      rfl
    rw [hnil, runs_nil, hback]
    rfl
  · obtain ⟨first, rest, hruns, hfirst⟩ := runs_head (word_head h hpath) hnil
    have hne : first ≠ [] := by
      rintro rfl
      obtain ⟨c, t, rfl⟩ := List.exists_cons_of_ne_nil hnil
      cases hfirst
    have hhead : (rejoined cs).head? = cs.head? := by
      rw [rejoined, hruns, head_intercalate hne, hfirst]
    have hinode : 0 < UInt64.ofNat (digitsValue 10 line.inode) ↔ 0 < digitsValue 10 line.inode := by
      rw [UInt64.lt_iff_toNat_lt, UInt64.toNat_ofNat_of_lt' h.inode.fits]
      rfl
    have hback : ((rejoined cs).head? = some '/' ∧
        0 < UInt64.ofNat (digitsValue 10 line.inode)) ↔ line.backed = true := by
      rw [hhead, head_slash h hpath, hinode, backed, Bool.and_eq_true, beq_iff_eq,
        decide_eq_true_iff]
    rw [hruns]
    dsimp only
    rw [splitOn_address h]
    dsimp only
    rw [h.start.fromStrRadix (by decide), h.stop.fromStrRadix (by decide),
      h.inode.fromStrRadix (by decide)]
    dsimp only
    rw [Option.getD_some, ← hruns]
    exact if_congr hback rfl rfl

/-- The path name as a text. -/
def pathText (line : MapsLine) : List Char := (Utf8.decode line.path).getD []

/-- The regions of files. -/
def regions (process : List MapsLine) : List MappedRegion :=
  (process.filter backed).map fun line => line.region line.pathText

theorem mapM_text {process : List MapsLine}
    (h : ∀ line ∈ process, ∃ cs, Utf8.decode line.path = some cs) :
    (process.map text).mapM (fun line => (Utf8.decode line).map stripCR) =
      some (process.map fun line => stripCR (line.fields ++ line.pathText)) := by
  induction process with
  | nil => rfl
  | cons line process ih =>
    obtain ⟨cs, hcs⟩ := h line List.mem_cons_self
    rw [List.map_cons, List.map_cons, List.mapM_cons,
      ih fun l hl => h l (List.mem_cons_of_mem line hl), text, Utf8.decode_append, pathText, hcs]
    rfl

theorem decode_of_mapM {process : List MapsLine} (h : (process.map text).mapM
    (fun line => (Utf8.decode line).map stripCR) = some texts) :
    ∀ line ∈ process, ∃ cs, Utf8.decode line.path = some cs := by
  induction process generalizing texts with
  | nil => exact List.forall_mem_nil _
  | cons line process ih =>
    rw [List.map_cons, List.mapM_cons] at h
    obtain ⟨first, hfirst, h⟩ := Option.bind_eq_some_iff.1 h
    obtain ⟨rest, hrest, -⟩ := Option.bind_eq_some_iff.1 h
    rw [text, Utf8.decode_append, Option.map_map] at hfirst
    obtain ⟨cs, hcs, -⟩ := Option.map_eq_some_iff.1 hfirst
    intro l hl
    obtain rfl | hl := List.mem_cons.1 hl
    · exact ⟨cs, hcs⟩
    · exact ih hrest l hl

theorem filterMap_fields {process : List MapsLine} (hwf : ∀ line ∈ process, line.WellFormed)
    (h : ∀ line ∈ process, ∃ cs, Utf8.decode line.path = some cs) :
    (process.map fun line => stripCR (line.fields ++ line.pathText)).filterMap parseRegion =
      regions process := by
  induction process with
  | nil => rfl
  | cons line process ih =>
    obtain ⟨cs, hcs⟩ := h line List.mem_cons_self
    have hparse := parseRegion_fields (hwf line List.mem_cons_self) hcs
    have hrest := ih (fun l hl => hwf l (List.mem_cons_of_mem line hl))
      fun l hl => h l (List.mem_cons_of_mem line hl)
    have htext : line.pathText = cs := by
      rw [pathText, hcs]
      rfl
    rw [List.map_cons, List.filterMap_cons, htext, hparse, hrest, regions, regions,
      List.filter_cons]
    cases line.backed with
    | false => rfl
    | true => rw [if_pos rfl, if_pos rfl, List.map_cons, htext]

/-- A file of maps is read where every path name is a text. -/
theorem readProcessMaps_text {process : List MapsLine}
    (hwf : ∀ line ∈ process, line.WellFormed)
    (h : ∀ line ∈ process, ∃ cs, Utf8.decode line.path = some cs) :
    readProcessMaps (process.map text) = some (regions process) := by
  rw [readProcessMaps, mapM_text h, Option.map_some, filterMap_fields hwf h]

theorem decode_of_readProcessMaps {process : List MapsLine}
    (h : readProcessMaps (process.map text) = some maps) :
    ∀ line ∈ process, ∃ cs, Utf8.decode line.path = some cs := by
  obtain ⟨texts, htexts, -⟩ := Option.map_eq_some_iff.1 h
  exact decode_of_mapM htexts

end MapsLine

end LocalMind.Holder
