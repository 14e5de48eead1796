import LocalMind.Stream.Mealy

namespace Utf8
set_option autoImplicit true

/-- The character that stands for each maximal invalid part of a byte string. -/
def replacement : Char := Char.ofNat 0xFFFD

/-- The length of the character a byte starts; zero for a byte that starts none. -/
def charWidth (b : UInt8) : Nat :=
  if b.toNat < 0x80 then 1
  else if b.toNat < 0xC2 then 0
  else if b.toNat < 0xE0 then 2
  else if b.toNat < 0xF0 then 3
  else if b.toNat < 0xF5 then 4
  else 0

def isCont (b : UInt8) : Bool := decide (0x80 ≤ b.toNat ∧ b.toNat ≤ 0xBF)

/-- The second byte rules out overlong forms, surrogates and values past the last character. -/
def secondOk (lead second : UInt8) : Bool :=
  if lead.toNat = 0xE0 then decide (0xA0 ≤ second.toNat ∧ second.toNat ≤ 0xBF)
  else if lead.toNat = 0xED then decide (0x80 ≤ second.toNat ∧ second.toNat ≤ 0x9F)
  else if lead.toNat = 0xF0 then decide (0x90 ≤ second.toNat ∧ second.toNat ≤ 0xBF)
  else if lead.toNat = 0xF4 then decide (0x80 ≤ second.toNat ∧ second.toNat ≤ 0x8F)
  else isCont second

/-- The value of a continuation byte. -/
def low (b : UInt8) : Nat := b.toNat - 0x80

/-- One character and the number of bytes it takes after its first. -/
def decodeFirst (b : UInt8) (rest : List UInt8) : Char × Nat :=
  if charWidth b = 1 then (Char.ofNat b.toNat, 0)
  else if charWidth b = 2 then
    match rest with
    | c :: _ =>
      if isCont c then (Char.ofNat ((b.toNat - 0xC0) * 64 + low c), 1) else (replacement, 0)
    | [] => (replacement, 0)
  else if charWidth b = 3 then
    match rest with
    | c :: d :: _ =>
      if secondOk b c then
        if isCont d then (Char.ofNat ((b.toNat - 0xE0) * 4096 + low c * 64 + low d), 2)
        else (replacement, 1)
      else (replacement, 0)
    | [c] => (replacement, if secondOk b c then 1 else 0)
    | [] => (replacement, 0)
  else if charWidth b = 4 then
    match rest with
    | c :: d :: e :: _ =>
      if secondOk b c then
        if isCont d then
          if isCont e then
            (Char.ofNat ((b.toNat - 0xF0) * 262144 + low c * 4096 + low d * 64 + low e), 3)
          else (replacement, 2)
        else (replacement, 1)
      else (replacement, 0)
    | [c, d] => (replacement, if secondOk b c then if isCont d then 2 else 1 else 0)
    | [c] => (replacement, if secondOk b c then 1 else 0)
    | [] => (replacement, 0)
  else (replacement, 0)

def decodeFrom (skip : Nat) : List UInt8 → List Char
  | [] => []
  | b :: rest =>
    match skip with
    | n + 1 => decodeFrom n rest
    | 0 => (decodeFirst b rest).1 :: decodeFrom (decodeFirst b rest).2 rest

/-- Decode any bytes; what is not UTF-8 is replaced. -/
def decodeLossy (bs : List UInt8) : List Char := decodeFrom 0 bs

def encode (cs : List Char) : List UInt8 := cs.flatMap String.utf8EncodeChar

theorem decodeFrom_eq (n : Nat) (bs : List UInt8) : decodeFrom n bs = decodeLossy (bs.drop n) := by
  induction bs generalizing n with
  | nil => cases n <;> rfl
  | cons b rest ih =>
    cases n with
    | zero => rfl
    | succ n => exact ih n

theorem decodeLossy_cons (b : UInt8) (rest : List UInt8) :
    decodeLossy (b :: rest) =
      (decodeFirst b rest).1 :: decodeLossy (rest.drop (decodeFirst b rest).2) := by
  rw [← decodeFrom_eq]
  rfl

@[simp] theorem encode_nil : encode [] = [] := rfl

theorem encode_cons (c : Char) (cs : List Char) :
    encode (c :: cs) = String.utf8EncodeChar c ++ encode cs := rfl

theorem encode_append (cs ds : List Char) : encode (cs ++ ds) = encode cs ++ encode ds :=
  List.flatMap_append

theorem isCont_iff : isCont b = true ↔ 0x80 ≤ b.toNat ∧ b.toNat ≤ 0xBF := decide_eq_true_iff

theorem secondOk_iff : secondOk a c = true ↔
    0x80 ≤ c.toNat ∧ c.toNat ≤ 0xBF ∧ (a.toNat = 0xE0 → 0xA0 ≤ c.toNat) ∧
      (a.toNat = 0xED → c.toNat ≤ 0x9F) ∧ (a.toNat = 0xF0 → 0x90 ≤ c.toNat) ∧
      (a.toNat = 0xF4 → c.toNat ≤ 0x8F) := by
  unfold secondOk
  split_ifs <;> simp only [decide_eq_true_iff, isCont_iff] <;> omega

theorem charWidth_two (h : 0xC2 ≤ b.toNat ∧ b.toNat < 0xE0) : charWidth b = 2 := by
  rw [charWidth, if_neg (by omega), if_neg (by omega), if_pos (by omega)]

theorem charWidth_three (h : 0xE0 ≤ b.toNat ∧ b.toNat < 0xF0) : charWidth b = 3 := by
  rw [charWidth, if_neg (by omega), if_neg (by omega), if_neg (by omega), if_pos (by omega)]

theorem charWidth_four (h : 0xF0 ≤ b.toNat ∧ b.toNat < 0xF5) : charWidth b = 4 := by
  rw [charWidth, if_neg (by omega), if_neg (by omega), if_neg (by omega), if_neg (by omega),
    if_pos (by omega)]

theorem decodeFirst_one (hb : charWidth b = 1) (t : List UInt8) :
    decodeFirst b t = (Char.ofNat b.toNat, 0) := by
  unfold decodeFirst
  exact if_pos hb

theorem decodeFirst_two (hb : charWidth b = 2) (hc : isCont c = true) (t : List UInt8) :
    decodeFirst b (c :: t) = (Char.ofNat ((b.toNat - 0xC0) * 64 + low c), 1) := by
  rw [decodeFirst, if_neg (by rw [hb]; decide), if_pos hb]
  exact if_pos hc

theorem decodeFirst_three (hb : charWidth b = 3) (hc : secondOk b c = true) (hd : isCont d = true)
    (t : List UInt8) : decodeFirst b (c :: d :: t) =
      (Char.ofNat ((b.toNat - 0xE0) * 4096 + low c * 64 + low d), 2) := by
  rw [decodeFirst, if_neg (by rw [hb]; decide), if_neg (by rw [hb]; decide), if_pos hb]
  dsimp only
  rw [if_pos hc, if_pos hd]

theorem decodeFirst_four (hb : charWidth b = 4) (hc : secondOk b c = true) (hd : isCont d = true)
    (he : isCont e = true) (t : List UInt8) : decodeFirst b (c :: d :: e :: t) =
      (Char.ofNat ((b.toNat - 0xF0) * 262144 + low c * 4096 + low d * 64 + low e), 3) := by
  rw [decodeFirst, if_neg (by rw [hb]; decide), if_neg (by rw [hb]; decide),
    if_neg (by rw [hb]; decide), if_pos hb]
  dsimp only
  rw [if_pos hc, if_pos hd, if_pos he]

theorem ofNat_toNat_eq {c : Char} {n : Nat} (h : n = c.val.toNat) : Char.ofNat n = c := by
  rw [h]
  exact Char.ofNat_toNat c

theorem contByte_toNat {n : Nat} (h : n < 64) : (UInt8.ofNat (n + 0x80)).toNat = n + 0x80 := by
  rw [UInt8.toNat_ofNat']
  omega

theorem isCont_ofNat {n : Nat} (h : n < 64) : isCont (UInt8.ofNat (n + 0x80)) = true := by
  rw [isCont_iff, contByte_toNat h]
  omega

theorem low_ofNat {n : Nat} (h : n < 64) : low (UInt8.ofNat (n + 0x80)) = n := by
  unfold low
  rw [contByte_toNat h, Nat.add_sub_cancel]

/-- A character is decoded from its own encoding, whatever follows. -/
theorem decodeLossy_encodeChar (c : Char) (t : List UInt8) :
    decodeLossy (String.utf8EncodeChar c ++ t) = c :: decodeLossy t := by
  have hv : c.val.toNat < 0xD800 ∨ 0xDFFF < c.val.toNat ∧ c.val.toNat < 0x110000 := c.valid
  unfold String.utf8EncodeChar
  dsimp only
  generalize hn : c.val.toNat = n at hv ⊢
  split_ifs with h₁ h₂ h₃
  · have hb : (UInt8.ofNat n).toNat = n := by rw [UInt8.toNat_ofNat']; omega
    have hw : charWidth (UInt8.ofNat n) = 1 := by rw [charWidth, if_pos (by omega)]
    have hd := decodeFirst_one hw t
    rw [hb, ofNat_toNat_eq hn.symm] at hd
    rw [List.singleton_append, decodeLossy_cons, hd]
    rfl
  · have hb : (UInt8.ofNat (n / 64 % 32 + 0xC0)).toNat = n / 64 + 0xC0 := by
      rw [UInt8.toNat_ofNat']
      omega
    have hw : charWidth (UInt8.ofNat (n / 64 % 32 + 0xC0)) = 2 := charWidth_two (by omega)
    have hd := decodeFirst_two hw (isCont_ofNat (n := n % 64) (by omega)) t
    have he : (n / 64 + 0xC0 - 0xC0) * 64 + n % 64 = c.val.toNat := by omega
    rw [hb, low_ofNat (by omega), ofNat_toNat_eq he] at hd
    rw [List.cons_append, decodeLossy_cons, List.cons_append, List.nil_append, hd]
    rfl
  · have hb : (UInt8.ofNat (n / 4096 % 16 + 0xE0)).toNat = n / 4096 + 0xE0 := by
      rw [UInt8.toNat_ofNat']
      omega
    have hs : secondOk (UInt8.ofNat (n / 4096 % 16 + 0xE0)) (UInt8.ofNat (n / 64 % 64 + 0x80)) =
        true := by
      rw [secondOk_iff, hb, UInt8.toNat_ofNat']
      omega
    have hw : charWidth (UInt8.ofNat (n / 4096 % 16 + 0xE0)) = 3 := charWidth_three (by omega)
    have hd := decodeFirst_three hw hs (isCont_ofNat (n := n % 64) (by omega)) t
    have he : (n / 4096 + 0xE0 - 0xE0) * 4096 + n / 64 % 64 * 64 + n % 64 = c.val.toNat := by
      omega
    rw [hb, low_ofNat (by omega), low_ofNat (by omega), ofNat_toNat_eq he] at hd
    rw [List.cons_append, decodeLossy_cons, List.cons_append, List.cons_append, List.nil_append,
      hd]
    rfl
  · have hb : (UInt8.ofNat (n / 262144 % 8 + 0xF0)).toNat = n / 262144 + 0xF0 := by
      rw [UInt8.toNat_ofNat']
      omega
    have hs : secondOk (UInt8.ofNat (n / 262144 % 8 + 0xF0))
        (UInt8.ofNat (n / 4096 % 64 + 0x80)) = true := by
      rw [secondOk_iff, hb, UInt8.toNat_ofNat']
      omega
    have hw : charWidth (UInt8.ofNat (n / 262144 % 8 + 0xF0)) = 4 := charWidth_four (by omega)
    have hd := decodeFirst_four hw hs (isCont_ofNat (n := n / 64 % 64) (by omega))
      (isCont_ofNat (n := n % 64) (by omega)) t
    have he : (n / 262144 + 0xF0 - 0xF0) * 262144 + n / 4096 % 64 * 4096 + n / 64 % 64 * 64 +
        n % 64 = c.val.toNat := by omega
    rw [hb, low_ofNat (by omega), low_ofNat (by omega), low_ofNat (by omega),
      ofNat_toNat_eq he] at hd
    rw [List.cons_append, decodeLossy_cons, List.cons_append, List.cons_append, List.cons_append,
      List.nil_append, hd]
    rfl

/-- Valid UTF-8 is decoded without loss. -/
theorem decodeLossy_encode (cs : List Char) : decodeLossy (encode cs) = cs := by
  induction cs with
  | nil => rfl
  | cons c cs ih => rw [encode_cons, decodeLossy_encodeChar, ih]

/-- The encoding of another character has no byte of an ASCII one. -/
theorem notMem_encodeChar {b : UInt8} (hb : b.toNat < 0x80) (hc : c.toNat ≠ b.toNat) :
    b ∉ String.utf8EncodeChar c := by
  have hv : c.val.toNat < 0x110000 := by
    have := c.valid
    rw [UInt32.isValidChar, Nat.isValidChar] at this
    omega
  change c.val.toNat ≠ b.toNat at hc
  intro hmem
  unfold String.utf8EncodeChar at hmem
  dsimp only at hmem
  split_ifs at hmem <;> simp only [List.mem_cons, List.not_mem_nil, or_false] at hmem
  · rw [hmem, UInt8.toNat_ofNat'] at hc hb
    omega
  · obtain rfl | rfl := hmem <;> rw [UInt8.toNat_ofNat'] at hb <;> omega
  · obtain rfl | rfl | rfl := hmem <;> rw [UInt8.toNat_ofNat'] at hb <;> omega
  · obtain rfl | rfl | rfl | rfl := hmem <;> rw [UInt8.toNat_ofNat'] at hb <;> omega

/-- The text of some bytes, where they are one. -/
def decode (bs : List UInt8) : Option (List Char) :=
  if encode (decodeLossy bs) = bs then some (decodeLossy bs) else none

theorem decode_encode (cs : List Char) : decode (encode cs) = some cs := by
  rw [decode, decodeLossy_encode, if_pos rfl]

theorem decode_eq_some {bs : List UInt8} (h : decode bs = some cs) : bs = encode cs := by
  rw [decode] at h
  split at h
  · next he =>
    cases h
    exact he.symm
  · cases h

theorem decodeLossy_append (cs : List Char) (bs : List UInt8) :
    decodeLossy (encode cs ++ bs) = cs ++ decodeLossy bs := by
  induction cs with
  | nil => rfl
  | cons c cs ih => rw [encode_cons, List.append_assoc, decodeLossy_encodeChar, ih]; rfl

theorem decode_append (cs : List Char) (bs : List UInt8) :
    decode (encode cs ++ bs) = (decode bs).map (cs ++ ·) := by
  rw [decode, decode, decodeLossy_append, encode_append]
  by_cases h : encode (decodeLossy bs) = bs
  · rw [if_pos h, if_pos (congrArg (encode cs ++ ·) h)]
    rfl
  · rw [if_neg h, if_neg fun he => h (List.append_cancel_left he)]
    rfl

/-- The first byte of a text is its first character where it is an ASCII one. -/
theorem toNat_head {b : UInt8} (hb : b.toNat < 0x80) (h : encode (c :: cs) = b :: bs) :
    c.toNat = b.toNat := by
  by_contra hc
  apply notMem_encodeChar hb hc
  rw [encode_cons] at h
  cases he : String.utf8EncodeChar c with
  | nil =>
    have hlen := congrArg List.length he
    rw [String.length_utf8EncodeChar] at hlen
    have hsize := Char.utf8Size_pos c
    rw [hlen] at hsize
    cases hsize
  | cons d ds =>
    rw [he, List.cons_append] at h
    rw [(List.cons.inj h).1]
    exact List.mem_cons_self

end Utf8
