import LocalMind.Text.Str

namespace LocalMind
open Text
set_option autoImplicit true

/-! What a backend's body is decoded to, within a cap. -/

/-- What a decoder gives of a body, and the error it ends on. -/
abbrev Output := List UInt8 × Option String

structure Decoders where
  gzip : List UInt8 → Output
  zlib : List UInt8 → Output
  rawDeflate : List UInt8 → Output
  brotli : List UInt8 → Output
  /-- There is no output for a body whose frame header is refused. -/
  zstd : List UInt8 → Except String Output

inductive Decompressed where
  | passthrough (body : List UInt8)
  | decoded (body : List UInt8)
  deriving DecidableEq

inductive DecompressError where
  | decode (message : String)
  | payloadTooLarge (limitBytes : Nat)
  deriving DecidableEq

def MAX_DECOMPRESSED_BYTES : Nat := 64 * 1024 * 1024

def capBreached : DecompressError := .payloadTooLarge MAX_DECOMPRESSED_BYTES

/-- `take(limit)` and `read_to_end`: what is read, and the error met before the limit. -/
def readToEnd (limit : Nat) (out : Output) : Output :=
  if limit ≤ out.1.length then (out.1.take limit, none) else out

def decodedWithinCap (decoded : List UInt8) : Except DecompressError Decompressed :=
  if MAX_DECOMPRESSED_BYTES < decoded.length then .error capBreached else .ok (.decoded decoded)

/-- A read through the cap, with what is made of an error. -/
def decodeCapped (out : Output) (failed : String → Except DecompressError Decompressed) :
    Except DecompressError Decompressed :=
  match readToEnd (MAX_DECOMPRESSED_BYTES + 1) out with
  | (decompressed, none) => decodedWithinCap decompressed
  | (decompressed, some e) =>
    if MAX_DECOMPRESSED_BYTES < decompressed.length then .error capBreached else failed e

def decodeFailed (codec e : String) : Except DecompressError Decompressed :=
  .error (.decode (codec ++ " decompression failed: " ++ e))

def decodeBodyBytes (decoders : Decoders) (body : List UInt8)
    (contentEncoding : Option (List Char)) : Except DecompressError Decompressed :=
  match contentEncoding with
  | none => .ok (.passthrough body)
  | some encoding =>
    match String.ofList (toAsciiLower encoding) with
    | "gzip" => decodeCapped (decoders.gzip body) (decodeFailed "gzip")
    | "deflate" =>
      decodeCapped (decoders.zlib body) fun zlibErr =>
        decodeCapped (decoders.rawDeflate body) fun rawErr =>
          decodeFailed "deflate" ("zlib: " ++ zlibErr ++ "; raw-deflate: " ++ rawErr)
    | "br" => decodeCapped (decoders.brotli body) (decodeFailed "brotli")
    | "zstd" =>
      match decoders.zstd body with
      | .ok out => decodeCapped out (decodeFailed "zstd")
      | .error e => decodeFailed "zstd" e
    | _ => .ok (.passthrough body)

/-! What that comes to. -/

/-- The decoders that a body's encoding names, by what they give, in the order they are tried;
none for a body that is handed on as it is. -/
def outputs (decoders : Decoders) (body : List UInt8) : Option (List Char) → List Output
  | none => []
  | some encoding =>
    match String.ofList (toAsciiLower encoding) with
    | "gzip" => [decoders.gzip body]
    | "deflate" => [decoders.zlib body, decoders.rawDeflate body]
    | "br" => [decoders.brotli body]
    | "zstd" =>
      match decoders.zstd body with
      | .ok out => [out]
      | .error e => [([], some e)]
    | _ => []

/-- The output settles what becomes of a body: all of it came, or too much. -/
def Output.settles (out : Output) : Bool :=
  out.2.isNone || decide (MAX_DECOMPRESSED_BYTES < out.1.length)

/-- The fate of a body, by the first output that settles it. -/
inductive Decoding (body : List UInt8) (outs : List Output) :
    Except DecompressError Decompressed → Prop where
  | passthrough : outs = [] → Decoding body outs (.ok (.passthrough body))
  | decoded : outs.find? Output.settles = some (bytes, none) →
    bytes.length ≤ MAX_DECOMPRESSED_BYTES → Decoding body outs (.ok (.decoded bytes))
  | tooLarge : outs.find? Output.settles = some out →
    MAX_DECOMPRESSED_BYTES < out.1.length → Decoding body outs (.error capBreached)
  | failed : outs ≠ [] → outs.find? Output.settles = none →
    Decoding body outs (.error (.decode message))

theorem decodeCapped_large (h : MAX_DECOMPRESSED_BYTES < out.1.length)
    (failed : String → Except DecompressError Decompressed) :
    decodeCapped out failed = .error capBreached := by
  have hread : readToEnd (MAX_DECOMPRESSED_BYTES + 1) out =
      (out.1.take (MAX_DECOMPRESSED_BYTES + 1), none) := if_pos h
  have hlen : (out.1.take (MAX_DECOMPRESSED_BYTES + 1)).length = MAX_DECOMPRESSED_BYTES + 1 :=
    List.length_take_of_le h
  rw [decodeCapped, hread]
  dsimp only
  rw [decodedWithinCap, hlen, if_pos (Nat.lt_succ_self _)]

theorem decodeCapped_whole (h : bytes.length ≤ MAX_DECOMPRESSED_BYTES)
    (failed : String → Except DecompressError Decompressed) :
    decodeCapped (bytes, none) failed = .ok (.decoded bytes) := by
  have hread : readToEnd (MAX_DECOMPRESSED_BYTES + 1) (bytes, none) = (bytes, none) :=
    if_neg (Nat.not_le.2 (Nat.lt_succ_of_le h))
  rw [decodeCapped, hread]
  exact if_neg (Nat.not_lt.2 h)

theorem decodeCapped_failed (h : bytes.length ≤ MAX_DECOMPRESSED_BYTES)
    (failed : String → Except DecompressError Decompressed) :
    decodeCapped (bytes, some e) failed = failed e := by
  have hread : readToEnd (MAX_DECOMPRESSED_BYTES + 1) (bytes, some e) = (bytes, some e) :=
    if_neg (Nat.not_le.2 (Nat.lt_succ_of_le h))
  rw [decodeCapped, hread]
  exact if_neg (Nat.not_lt.2 h)

/-- One output settles a body, or leaves it to the next. -/
theorem decoding_cons (body : List UInt8) (out : Output) (outs : List Output)
    {failed : String → Except DecompressError Decompressed}
    (hnext : ∀ e, outs ≠ [] → Decoding body outs (failed e))
    (hlast : ∀ e, outs = [] → ∃ message, failed e = .error (.decode message)) :
    Decoding body (out :: outs) (decodeCapped out failed) := by
  obtain ⟨bytes, err⟩ := out
  by_cases hlarge : MAX_DECOMPRESSED_BYTES < bytes.length
  · rw [decodeCapped_large hlarge]
    refine .tooLarge (List.find?_cons_of_pos ?_) hlarge
    simp [Output.settles, hlarge]
  · have hle := Nat.not_lt.1 hlarge
    cases err with
    | none =>
      rw [decodeCapped_whole hle]
      exact .decoded (List.find?_cons_of_pos rfl) hle
    | some e =>
      have hopen : ¬ Output.settles (bytes, some e) = true := by simp [Output.settles, hle]
      rw [decodeCapped_failed hle]
      by_cases houts : outs = []
      · obtain ⟨message, hmessage⟩ := hlast e houts
        rw [hmessage]
        refine .failed (by simp) ?_
        rw [List.find?_cons_of_neg hopen, houts, List.find?_nil]
      · have hrest := hnext e houts
        generalize failed e = r at hrest ⊢
        cases hrest with
        | passthrough hnil => exact absurd hnil houts
        | decoded hfind hlen => exact .decoded (by rwa [List.find?_cons_of_neg hopen]) hlen
        | tooLarge hfind hlen => exact .tooLarge (by rwa [List.find?_cons_of_neg hopen]) hlen
        | failed hne hfind => exact .failed (by simp) (by rwa [List.find?_cons_of_neg hopen])

theorem decoding_single (body : List UInt8) (out : Output) (codec : String) :
    Decoding body [out] (decodeCapped out (decodeFailed codec)) :=
  decoding_cons body out [] (fun _ h => absurd rfl h) fun _ _ => ⟨_, rfl⟩

/-- A body is handed on whole, decoded whole, or refused. -/
theorem decodeBodyBytes_decoding (decoders : Decoders) (body : List UInt8)
    (contentEncoding : Option (List Char)) :
    Decoding body (outputs decoders body contentEncoding)
      (decodeBodyBytes decoders body contentEncoding) := by
  cases contentEncoding with
  | none => exact .passthrough rfl
  | some encoding =>
    rw [outputs, decodeBodyBytes]
    generalize String.ofList (toAsciiLower encoding) = token
    split
    · exact decoding_single body _ _
    · refine decoding_cons body _ _ (fun zlibErr _ => ?_) fun _ h => absurd h (by simp)
      exact decoding_cons body _ [] (fun _ h => absurd rfl h) fun _ _ => ⟨_, rfl⟩
    · exact decoding_single body _ _
    · cases decoders.zstd body with
      | ok out => exact decoding_single body out _
      | error e => exact .failed (by simp) rfl
    · exact .passthrough rfl

end LocalMind
