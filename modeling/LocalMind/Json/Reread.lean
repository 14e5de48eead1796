import LocalMind.Json.Entries

namespace Json
set_option autoImplicit true

/-! What comes back of a printed value. -/

mutual

/-- A value with each float as it is read from its printed text. -/
def reread (codec : FloatCodec) : Value → Value
  | .null => .null
  | .bool b => .bool b
  | .number (.float bits) => .number (.float ((codec.read (codec.print bits).text).getD bits))
  | .number n => .number n
  | .string s => .string s
  | .array xs => .array (rereadItems codec xs)
  | .object m => .object (rereadEntries codec m)

def rereadItems (codec : FloatCodec) : List Value → List Value
  | [] => []
  | x :: xs => reread codec x :: rereadItems codec xs

def rereadEntries (codec : FloatCodec) : List (String × Value) → List (String × Value)
  | [] => []
  | (k, x) :: m => (k, reread codec x) :: rereadEntries codec m

end

def rereadEntry (codec : FloatCodec) (e : String × Value) : String × Value :=
  (e.1, reread codec e.2)

theorem rereadItems_eq (codec : FloatCodec) (xs : List Value) :
    rereadItems codec xs = xs.map (reread codec) := by
  induction xs with
  | nil => rfl
  | cons x xs ih => rw [rereadItems, ih, List.map_cons]

theorem rereadEntries_eq (codec : FloatCodec) (m : List (String × Value)) :
    rereadEntries codec m = m.map (rereadEntry codec) := by
  induction m with
  | nil => rfl
  | cons e m ih => rw [rereadEntries, ih, List.map_cons, rereadEntry]

theorem Fields.get_map (f : α → β) (m : List (String × α)) (k : String) :
    get (m.map fun e => (e.1, f e.2)) k = (get m k).map f := by
  induction m with
  | nil => rfl
  | cons e m ih =>
    rw [List.map_cons, get_cons, get_cons, ih]
    split <;> rfl

/-- Entries with distinct keys are inserted one behind another. -/
theorem Fields.insertAll_of_nodup {m es : List (String × α)} (h : (keys (m ++ es)).Nodup) :
    insertAll m es = m ++ es := by
  induction es generalizing m with
  | nil => exact (List.append_nil m).symm
  | cons e es ih =>
    have hm : e.1 ∉ keys m := by
      rw [keys, List.map_append, List.nodup_append] at h
      intro he
      exact h.2.2 e.1 he e.1 List.mem_cons_self rfl
    rw [List.append_cons] at h
    rw [insertAll_cons, insert_of_notMem hm, ih h, List.append_assoc]
    rfl

/-- A number that a parser can have made prints as a literal of it, up to a float's reading. -/
theorem numberOf_printNumber {codec : FloatCodec} (h : Readable codec n) :
    ((numberOf codec (printNumber codec n)).map .number) = some (reread codec (.number n)) := by
  cases n with
  | posInt n =>
    have hlt : n.toNat < 2 ^ 64 := n.toNat_lt
    rw [printNumber, numberOf, if_neg (by simp),
      if_pos (by simpa [NumLit.isInteger, Nat.ofDigitChars_ten_toDigits] using hlt)]
    simp [Nat.ofDigitChars_ten_toDigits, reread]
  | negInt n =>
    have hlo : -2 ^ 63 ≤ n.toInt := n.le_toInt
    have hneg : n.toInt < 0 := Int64.lt_iff_toInt_lt.1 h
    have hrange : 0 < n.toInt.natAbs ∧ n.toInt.natAbs ≤ 2 ^ 63 := by omega
    have hn : n < 0 := h
    have habs : -(n.toInt.natAbs : Int) = n.toInt := by omega
    rw [printNumber, numberOf,
      if_pos (by simpa [NumLit.isInteger, Nat.ofDigitChars_ten_toDigits, hn] using hrange)]
    dsimp only
    rw [Nat.ofDigitChars_ten_toDigits, habs, Int64.ofInt_toInt]
    rfl
  | float bits =>
    obtain ⟨t, ht⟩ := h
    obtain ⟨-, hi, hs⟩ := codec.readable t bits ht
    obtain ⟨b, hb⟩ := Option.isSome_iff_exists.1 hs
    rw [printNumber, numberOf, hi, reread, hb]
    rfl

theorem print_leaf_reread {codec : FloatCodec} {v : Value} (hf : Fits codec d v)
    (harr : ∀ xs, v ≠ .array xs) (hobj : ∀ m, v ≠ .object m) :
    LeafText (valueHandlers codec) (print codec v) (reread codec v) := by
  cases v with
  | null => exact .null
  | bool b =>
    cases b with
    | true => exact .true
    | false => exact .false
  | number n =>
    have hn : Readable codec n := by cases d <;> exact hf
    exact .num (printNumber_reads hn).1 (numberOf_printNumber hn)
  | string s =>
    obtain ⟨hb, hq⟩ := strBody_print local_escape unescapes_escape s.toList
    have htext := LeafText.str (h := valueHandlers codec) hb hq
    rwa [show (valueHandlers codec).str s.toList = .string s from
      congrArg Value.string String.ofList_toList] at htext
  | array xs => exact absurd rfl (harr xs)
  | object m => exact absurd rfl (hobj m)

theorem forall₂_map_of_mem {R : β → γ → Prop} {f : α → β} {g : α → γ} {xs : List α}
    (h : ∀ x ∈ xs, R (f x) (g x)) : List.Forall₂ R (xs.map f) (xs.map g) := by
  rw [List.forall₂_map_left_iff, List.forall₂_map_right_iff, List.forall₂_same]
  exact h

/-- What is printed of the value is the text of its rereading. -/
def Prints (codec : FloatCodec) (d : Nat) (v : Value) : Prop :=
  Tok (valueHandlers codec) d (print codec v) (reread codec v)

theorem Prints.array {codec : FloatCodec} (h : ∀ x ∈ xs, Prints codec d x) :
    Prints codec (d + 1) (.array xs) := by
  refine .inr (.inl ⟨_, _, joinItems_text (forall₂_map_of_mem h), ?_, ?_⟩)
  · rw [print, printItems_eq]
  · rw [reread, rereadItems_eq]
    rfl

theorem Prints.object {codec : FloatCodec} (hm : (Fields.keys m).Nodup)
    (h : ∀ e ∈ m, Prints codec d e.2) : Prints codec (d + 1) (.object m) := by
  have hentries := forall₂_map_of_mem (f := entryPiece codec) (g := rereadEntry codec)
    fun e he => entryPiece_text local_escape unescapes_escape (h e he) e.1
  refine .inr (.inr ⟨_, _, joinItems_text hentries, ?_, ?_⟩)
  · rw [print, printEntries_eq]
  · have hkeys : (Fields.keys ([] ++ m.map (rereadEntry codec))).Nodup := by
      rw [List.nil_append, Fields.keys, List.map_map]
      exact hm
    rw [reread, rereadEntries_eq]
    change _ = Value.object (Fields.insertAll [] _)
    rw [Fields.insertAll_of_nodup hkeys, List.nil_append]

theorem prints_of_fits {codec : FloatCodec} {v : Value} (hf : Fits codec d v) :
    Prints codec d v := by
  induction d generalizing v with
  | zero =>
    exact print_leaf_reread hf (by rintro xs rfl; cases hf) (by rintro m rfl; cases hf)
  | succ d ih =>
    cases v with
    | array xs => exact .array fun x hx => ih (hf x hx)
    | object m => exact .object hf.1 fun e he => ih (hf.2 e he)
    | null | bool | number | string =>
      exact .leaf (print_leaf_reread hf (by simp) (by simp)) _

theorem Prints.fromStr {codec : FloatCodec} {v : Value} (h : Prints codec MAX_DEPTH v) :
    fromStr codec (print codec v) = some (reread codec v) :=
  fromStr_eq_some_iff.2 ⟨[], _, [], by simp, allWs_nil, allWs_nil, h⟩

/-! Bytes. -/

/-- `serde_json::from_slice::<Value>`: the bytes have to be those of a text. -/
def fromSlice (codec : FloatCodec) (body : List UInt8) : Option Value :=
  (Utf8.decode body).bind (fromStr codec)

/-- `serde_json::to_vec`. -/
def toVec (codec : FloatCodec) (v : Value) : List UInt8 := Utf8.encode (print codec v)

theorem fits_of_fromSlice {codec : FloatCodec} (h : fromSlice codec body = some v) :
    Fits codec MAX_DEPTH v := by
  obtain ⟨s, -, hs⟩ := Option.bind_eq_some_iff.1 h
  exact fits_of_fromStr hs

theorem Prints.fromSlice {codec : FloatCodec} {v : Value} (h : Prints codec MAX_DEPTH v) :
    fromSlice codec (toVec codec v) = some (reread codec v) := by
  rw [Json.fromSlice, toVec, Utf8.decode_encode, Option.bind_some, h.fromStr]

end Json
