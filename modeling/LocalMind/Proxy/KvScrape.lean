import LocalMind.Proxy.KvLabelsExact

namespace LocalMind.KvScrape
set_option autoImplicit true
open Text KvLabels

/-! The scan of a backend's metrics as they arrive. -/

def KV_SCAN_CEILING_BYTES : Nat := 16 * 1024 * 1024

inductive Scrape where
  | found (info : Labels)
  | absent
  | failed (reason : String)
  deriving Repr, DecidableEq

/-- What a body yields next. -/
inductive StreamItem where
  | chunk (bytes : List UInt8)
  | error
  deriving Repr, DecidableEq

/-- An answer has the items that its body yields until it ends. -/
inductive MetricsResponse where
  | unreachable
  | answered (status : Nat) (stream : List StreamItem)
  deriving Repr, DecidableEq

def isSuccess (status : Nat) : Bool := decide (200 ≤ status ∧ status < 300)

def NEWLINE : UInt8 := 0x0A

/-- The complete lines of the pending bytes, of which `line` are already passed. -/
def scanPending (line : List UInt8) : List UInt8 → Labels ⊕ List UInt8
  | [] => .inr line
  | byte :: rest =>
    if byte = NEWLINE then
      match parseCacheConfigInfo (Utf8.decodeLossy (line ++ [byte])) with
      | some info => .inl info
      | none => scanPending [] rest
    else scanPending (line ++ [byte]) rest

def scanStream (pending : List UInt8) (scanned : Nat) : List StreamItem → Scrape
  | [] => .absent
  | .error :: _ => .failed "stream error"
  | .chunk bytes :: stream =>
    if scanned + bytes.length > KV_SCAN_CEILING_BYTES then .failed "scan ceiling exceeded"
    else
      match scanPending [] (pending ++ bytes) with
      | .inl info => .found info
      | .inr pending => scanStream pending (scanned + bytes.length) stream

def scrapeKvStream : MetricsResponse → Scrape
  | .unreachable => .failed "transport error"
  | .answered status stream =>
    if isSuccess status then scanStream [] 0 stream else .failed "non-2xx response"

/-! The cuts between chunks change nothing. -/

theorem scanPending_append (line a b : List UInt8) :
    scanPending line (a ++ b) =
      match scanPending line a with
      | .inl info => .inl info
      | .inr pending => scanPending pending b := by
  induction a generalizing line with
  | nil => rfl
  | cons byte a ih =>
    rw [List.cons_append, scanPending, scanPending]
    split
    · split
      · rfl
      · exact ih []
    · exact ih (line ++ [byte])

theorem scanPending_open (h : NEWLINE ∉ a) (line : List UInt8) :
    scanPending line a = .inr (line ++ a) := by
  induction a generalizing line with
  | nil => rw [List.append_nil, scanPending]
  | cons byte a ih =>
    have hbyte : byte ≠ NEWLINE := fun hb => h (hb ▸ List.mem_cons_self)
    have hrest : NEWLINE ∉ a := fun ha => h (List.mem_cons_of_mem byte ha)
    rw [scanPending, if_neg hbyte, ih hrest, List.append_assoc]
    rfl

theorem scanPending_rest (hline : NEWLINE ∉ line) (h : scanPending line a = .inr pending) :
    NEWLINE ∉ pending := by
  induction a generalizing line with
  | nil =>
    cases h
    exact hline
  | cons byte a ih =>
    rw [scanPending] at h
    split at h
    · split at h
      · cases h
      · exact ih List.not_mem_nil h
    · next hbyte =>
      apply ih _ h
      intro hmem
      rcases List.mem_append.1 hmem with hmem | hmem
      · exact hline hmem
      · exact hbyte (List.mem_singleton.1 hmem).symm

/-- A scan of chunks is the scan of what they make up. -/
theorem scanStream_chunks {chunks : List (List UInt8)} (hpending : NEWLINE ∉ pending)
    (hceiling : scanned + chunks.flatten.length ≤ KV_SCAN_CEILING_BYTES) :
    scanStream pending scanned (chunks.map .chunk) =
      match scanPending pending chunks.flatten with
      | .inl info => .found info
      | .inr _ => .absent := by
  induction chunks generalizing pending scanned with
  | nil => rfl
  | cons bytes chunks ih =>
    rw [List.flatten_cons, List.length_append] at hceiling
    have hbelow : ¬ scanned + bytes.length > KV_SCAN_CEILING_BYTES := by omega
    have hopen : scanPending [] (pending ++ bytes) = scanPending pending bytes := by
      rw [scanPending_append, scanPending_open hpending]
      rfl
    rw [List.map_cons, scanStream, if_neg hbelow, hopen, List.flatten_cons, scanPending_append]
    cases hscan : scanPending pending bytes with
    | inl info => rfl
    | inr pending =>
      apply ih (scanPending_rest hpending hscan)
      omega

/-! The scan reads the lines of the text. -/

theorem newline_notMem_encodeChar (h : c ≠ '\n') : NEWLINE ∉ String.utf8EncodeChar c := by
  apply Utf8.notMem_encodeChar
  · decide
  · intro hc
    exact h (Char.toNat_inj.1 hc)

theorem lines_terminated (h : '\n' ∉ line) (cur : List Char) :
    linesFrom cur (line ++ ['\n']) = [stripCR (cur ++ line)] := by
  induction line generalizing cur with
  | nil =>
    rw [List.nil_append, linesFrom, if_pos rfl, List.append_nil]
    rfl
  | cons c line ih =>
    have hc : c ≠ '\n' := fun hc => h (hc ▸ List.mem_cons_self)
    have hline : '\n' ∉ line := fun hmem => h (List.mem_cons_of_mem c hmem)
    rw [List.cons_append, linesFrom, if_neg hc, ih hline, List.append_assoc]
    rfl

theorem parseCacheConfigInfo_terminated (h : '\n' ∉ line) :
    parseCacheConfigInfo (line ++ ['\n']) = cacheConfigLabels (stripCR line) := by
  rw [parseCacheConfigInfo, lines, lines_terminated h, List.nil_append, List.foldl_cons,
    List.foldl_nil, pickLowest]
  cases cacheConfigLabels (stripCR line) with
  | none => rfl
  | some labels => rfl

/-- A text whose last line, after what is passed of it, ends. -/
def Terminated (cur text : List Char) : Prop :=
  (text = [] ∧ cur = []) ∨ text.getLast? = some '\n'

theorem Terminated.tail (h : Terminated cur (c :: text)) (hc : c ≠ '\n') :
    Terminated (cur ++ [c]) text := by
  obtain ⟨h, -⟩ | h := h
  · cases h
  · cases text with
    | nil => exact absurd (Option.some.inj h) hc
    | cons d text => exact .inr h

theorem Terminated.next (h : Terminated cur ('\n' :: text)) : Terminated [] text := by
  cases text with
  | nil => exact .inl ⟨rfl, rfl⟩
  | cons d text =>
    obtain ⟨h, -⟩ | h := h
    · cases h
    · exact .inr h

/-- The scan of a text takes the first of its lines that the parser accepts. -/
theorem scanPending_encode (hcur : '\n' ∉ cur) (h : Terminated cur text) :
    scanPending (Utf8.encode cur) (Utf8.encode text) =
      match (linesFrom cur text).findSome? cacheConfigLabels with
      | some info => .inl info
      | none => .inr [] := by
  induction text generalizing cur with
  | nil =>
    obtain ⟨-, rfl⟩ | h := h
    · rfl
    · cases h
  | cons c text ih =>
    rw [Utf8.encode_cons, linesFrom]
    by_cases hc : c = '\n'
    · subst hc
      have hline : Utf8.encode cur ++ [NEWLINE] = Utf8.encode (cur ++ ['\n']) :=
        (Utf8.encode_append cur ['\n']).symm
      change scanPending _ (NEWLINE :: Utf8.encode text) = _
      rw [scanPending, if_pos rfl, hline, Utf8.decodeLossy_encode,
        parseCacheConfigInfo_terminated hcur, if_pos rfl, List.findSome?_cons]
      cases cacheConfigLabels (stripCR cur) with
      | some info => rfl
      | none => exact ih List.not_mem_nil h.next
    · have hnext : '\n' ∉ cur ++ [c] := by
        intro hmem
        rcases List.mem_append.1 hmem with hmem | hmem
        · exact hcur hmem
        · exact hc (List.mem_singleton.1 hmem).symm
      have hencode : Utf8.encode cur ++ String.utf8EncodeChar c = Utf8.encode (cur ++ [c]) := by
        rw [Utf8.encode_append, Utf8.encode_cons]
        exact congrArg _ (List.append_nil _).symm
      rw [if_neg hc, scanPending_append, scanPending_open (newline_notMem_encodeChar hc), hencode]
      exact ih hnext (h.tail hc)

/-- What a scan of a body finds: the first line that the parser accepts, which is what the parser
takes from the whole body where no other line has a lower engine. -/
structure Agrees (body : List Char) (r : Scrape) : Prop where
  absent : r = .absent ↔ parseCacheConfigInfo body = none
  found : r = .found info ↔ (lines body).findSome? cacheConfigLabels = some info
  whole : r = .found info → (parseCacheConfigInfo body = some info ↔
    ∀ labels ∈ (lines body).filterMap cacheConfigLabels, ¬ engineOf labels < engineOf info)

theorem agrees_first (body : List Char) :
    Agrees body (((lines body).findSome? cacheConfigLabels).elim .absent .found) := by
  have hpicks := picks_lines body
  have hhead : ((lines body).filterMap cacheConfigLabels).head? =
      (lines body).findSome? cacheConfigLabels := List.head?_filterMap
  rw [← hhead]
  cases hseries : (lines body).filterMap cacheConfigLabels with
  | nil =>
    rw [hseries] at hpicks
    constructor
    case absent => exact iff_of_true rfl (hpicks.eq_none_iff.2 rfl)
    case found =>
      intro info
      rw [← hhead, hseries]
      constructor
      · intro h
        cases h
      · intro h
        cases h
    case whole =>
      intro info h
      cases h
  | cons first series =>
    rw [hseries] at hpicks
    constructor
    case absent =>
      apply iff_of_false
      · intro h
        cases h
      · intro h
        cases hpicks.eq_none_iff.1 h
    case found =>
      intro info
      rw [← hhead, hseries]
      constructor
      · intro h
        cases h
        rfl
      · intro h
        cases h
        rfl
    case whole =>
      intro info h
      cases h
      rw [hseries]
      exact hpicks.eq_head_iff

/-- However a body whose last line ends is cut into chunks, the scan of them agrees with it. -/
theorem scrapeKvStream_agrees {chunks : List (List UInt8)} (hstatus : isSuccess status = true)
    (hchunks : chunks.flatten = Utf8.encode body)
    (hend : body = [] ∨ body.getLast? = some '\n')
    (hceiling : (Utf8.encode body).length ≤ KV_SCAN_CEILING_BYTES) :
    Agrees body (scrapeKvStream (.answered status (chunks.map .chunk))) := by
  have hterminated : Terminated [] body := hend.imp_left fun h => ⟨h, rfl⟩
  have hlength : 0 + chunks.flatten.length ≤ KV_SCAN_CEILING_BYTES := by
    rw [hchunks, Nat.zero_add]
    exact hceiling
  have hfirst : scrapeKvStream (.answered status (chunks.map .chunk)) =
      ((lines body).findSome? cacheConfigLabels).elim .absent .found := by
    have hscan : scanPending [] (Utf8.encode body) = _ :=
      scanPending_encode List.not_mem_nil hterminated
    rw [scrapeKvStream, if_pos hstatus, scanStream_chunks List.not_mem_nil hlength, hchunks, hscan,
      lines]
    cases (linesFrom [] body).findSome? cacheConfigLabels with
    | none => rfl
    | some info => rfl
  rw [hfirst]
  exact agrees_first body

theorem scrapeKvStream_agrees_cut :
    Agrees ['#', 'é', '\n']
      (scrapeKvStream (.answered 200 [.chunk [0x23, 0xC3], .chunk [0xA9, 0x0A]])) := by
  have hstatus : isSuccess 200 = true := rfl
  have hchunks : [[0x23, 0xC3], [0xA9, 0x0A]].flatten = Utf8.encode ['#', 'é', '\n'] := by decide
  have hagrees := scrapeKvStream_agrees hstatus hchunks (.inr rfl) (by decide)
  exact hagrees

/-- Of the series of two engines the one that arrives first is found, the lower one is picked. -/
theorem scrapeKvStream_stops_early :
    ∃ body bytes info, bytes = Utf8.encode body ∧ bytes.length ≤ KV_SCAN_CEILING_BYTES ∧
      scrapeKvStream (.answered 200 [.chunk bytes]) = .found info ∧
      parseCacheConfigInfo body ≠ some info := by
  refine ⟨renderSeries [("engine", "1")] false [] ++ '\n' ::
    (renderSeries [("engine", "0")] false [] ++ ['\n']), _, [("engine", "1")], rfl, ?_, ?_, ?_⟩ <;>
    decide

end LocalMind.KvScrape
