import LocalMind.Fixes.BadFilepath
import LocalMind.Fixes.JsonScanAgreement
import LocalMind.Json.Reread

namespace LocalMind
open Json
set_option autoImplicit true

/-! A duplicated `filePath` keeps its first value, and the other entries theirs. -/

namespace ToolcallBadFilepathFix

/-- Some key other than `filePath` stands more than once. -/
def ForeignDuplicate (es : List (String × Value)) : Prop :=
  ∃ k, k ≠ "filePath" ∧ 1 < (Fields.keys es).count k

/-- What the repair makes of a function whose arguments have these entries, of which the first
one with a key counts. The values come back as `f` says. -/
structure ResolvesFirst (codec : FloatCodec) (f : Value → Value) (function : Value)
    (args : String) (es : List (String × Value)) : Prop where
  refused : ForeignDuplicate es →
    repairFunction (fixFunction codec) function = .ok (function, [])
  resolved : ¬ ForeignDuplicate es → ∃ r m,
    repairFunction (fixFunction codec) function =
      .ok (function.put "arguments" (.string r), [.fixed args r]) ∧
    fromStr codec r.toList = some (.object m) ∧
    topLevelKeyCount r.toList "filePath" = 1 ∧
    (∀ k, Fields.get m k = (Fields.get es k).map f) ∧
    repairFunction (fixFunction codec) (function.put "arguments" (.string r)) =
      .ok (function.put "arguments" (.string r), [])

theorem hasForeignDuplicate_iff (h : depth1Keys args = some (Fields.keys es)) :
    hasForeignDuplicate args = true ↔ ForeignDuplicate es := by
  rw [hasForeignDuplicate, h]
  simp only [Bool.not_eq_true', decide_eq_false_iff_not, List.nodup_iff_count_le_one, not_forall,
    Nat.not_le]
  constructor
  · rintro ⟨k, hk⟩
    have hmem := List.count_pos_iff.1 (Nat.zero_lt_of_lt hk)
    have hne : (k != "filePath") = true := (List.mem_filter.1 hmem).2
    rw [List.count_filter (p := (· != "filePath")) hne] at hk
    exact ⟨k, bne_iff_ne.1 hne, hk⟩
  · rintro ⟨k, hne, hk⟩
    refine ⟨k, ?_⟩
    rwa [List.count_filter (p := (· != "filePath")) (bne_iff_ne.2 hne)]

/-- The first child with a key gives the key its entry. -/
theorem get_entries (cs : List Child) (k : String) :
    Fields.get (cs.map Child.entry) k = ((cs.filter fun c => c.key = k).head?).map Child.value := by
  induction cs with
  | nil => rfl
  | cons c cs ih =>
    rw [List.map_cons, Child.entry, Fields.get_cons, ih, List.filter_cons]
    by_cases hk : c.key = k
    · rw [if_pos hk, if_pos (decide_eq_true hk)]
      rfl
    · rw [if_neg hk, if_neg (by rwa [decide_eq_true_eq])]

theorem topLevelKeySpans_root (h : Root codec json cs) (key : String) :
    topLevelKeySpans json key = (cs.filter fun c => c.key = key).map Child.span := by
  rw [topLevelKeySpans, scanRoot_root h (readsEach_span codec cs), Option.getD_some,
    List.filter_map]
  congr 1
  apply List.filter_congr
  intro c hc
  rw [Function.comp, (h.valid c hc).decodeKey]
  simp

theorem topLevelKeyCount_root (h : Root codec json cs) (key : String) :
    topLevelKeyCount json key = (Fields.keys (cs.map Child.entry)).count key := by
  rw [topLevelKeyCount, h.streamKeys, Fields.keys, List.map_map]
  rfl

theorem firstWinsFilepath_root {codec : FloatCodec} (h : Root codec json cs)
    (hdup : 1 < (Fields.keys (cs.map Child.entry)).count "filePath") :
    ∃ first, firstWinsFilepath codec json = some first ∧
      Fields.get (cs.map Child.entry) "filePath" = some first := by
  have hlen : 1 < (cs.filter fun c => c.key = "filePath").length := by
    rw [Fields.keys, List.map_map, List.count, List.countP_map,
      List.countP_eq_length_filter] at hdup
    exact hdup
  rw [firstWinsFilepath, topLevelKeySpans_root h, get_entries]
  cases hf : cs.filter fun c => c.key = "filePath" with
  | nil =>
    rw [hf] at hlen
    cases hlen
  | cons c ds =>
    have hc : c ∈ cs := by
      have hmem : c ∈ cs.filter fun c => c.key = "filePath" := by
        rw [hf]
        exact List.mem_cons_self
      exact (List.mem_filter.1 hmem).1
    cases ds with
    | nil =>
      rw [hf] at hlen
      exact absurd hlen (Nat.lt_irrefl 1)
    | cons d ds =>
      refine ⟨c.value, ?_, rfl⟩
      exact (h.valid c hc).fromStr

/-- A key that stands at most once among the entries. -/
theorem get_insertAll_of_count {m es : List (String × α)} (h : (Fields.keys es).count k ≤ 1) :
    Fields.get (Fields.insertAll m es) k = (Fields.get es k).or (Fields.get m k) := by
  induction es generalizing m with
  | nil => rfl
  | cons e es ih =>
    obtain ⟨l, v⟩ := e
    rw [Fields.insertAll_cons, Fields.get_cons]
    rw [Fields.keys, List.map_cons, List.count_cons] at h
    by_cases hk : l = k
    · rw [if_pos (beq_iff_eq.2 hk)] at h
      have hnot : k ∉ Fields.keys es := List.count_eq_zero.1 (by rw [Fields.keys]; omega)
      rw [Fields.get_insertAll_of_notMem hnot, Fields.get_insert, if_pos hk, if_pos hk]
      rfl
    · rw [ih (by rw [Fields.keys]; omega), Fields.get_insert, if_neg hk, if_neg hk]

/-- A text with one `filePath` at most is left alone. -/
theorem fixFunction_of_single {codec : FloatCodec} (hv : fromStr codec args = some v)
    (hc : topLevelKeyCount args "filePath" ≤ 1) (function : Value) :
    fixFunction codec function args = .ok none := by
  rw [fixFunction, isMalformed, isValid, hv, decide_eq_false (Nat.not_lt.2 hc)]
  rfl

theorem repairFunction_kept {function : Value}
    {fix : Value → List Char → Except Fault (Option (List Char))}
    (h : function.get "arguments" = some (.string args))
    (hfix : fix function args.toList = .ok none) :
    repairFunction fix function = .ok (function, []) := by
  rw [repairFunction, h, Option.bind_some, Value.asStr]
  dsimp only
  rw [hfix]

theorem repairFunction_fixed {function : Value}
    {fix : Value → List Char → Except Fault (Option (List Char))}
    (h : function.get "arguments" = some (.string args))
    (hfix : fix function args.toList = .ok (some r)) :
    repairFunction fix function = .ok (function.put "arguments" (.string (String.ofList r)),
      [.fixed args (String.ofList r)]) := by
  rw [repairFunction, h, Option.bind_some, Value.asStr]
  dsimp only
  rw [hfix]

/-- The repair of arguments that parse: other duplicates keep it away, and a duplicated
`filePath` keeps its first value. -/
theorem repairFunction_resolvesFirst {codec : FloatCodec} {function : Value}
    (hargs : function.get "arguments" = some (.string args))
    (hv : fromStr codec args.toList = some (.object m))
    (hes : streamEntries codec args.toList = some es)
    (hdup : 1 < (Fields.keys es).count "filePath") :
    ResolvesFirst codec (reread codec) function args es := by
  obtain ⟨cs, hroot, hm⟩ := root_of_fromStr hv
  have hagrees := scannerAgrees_of_root hroot
  obtain rfl : cs.map Child.entry = es := Option.some.inj (hagrees.parsed.symm.trans hes)
  have hkeys : depth1Keys args.toList = some (Fields.keys (cs.map Child.entry)) := by
    rw [hagrees.keys, Fields.keys, List.map_map]
    rfl
  have hcount : decide (1 < topLevelKeyCount args.toList "filePath") = true := by
    rw [topLevelKeyCount_root hroot]
    exact decide_eq_true hdup
  constructor
  case refused =>
    intro hforeign
    apply repairFunction_kept hargs
    rw [fixFunction, (hasForeignDuplicate_iff hkeys).2 hforeign, Bool.not_true, Bool.and_false]
    rfl
  case resolved =>
    intro hforeign
    obtain ⟨first, hfirst, hget⟩ := firstWinsFilepath_root hroot hdup
    have hno : hasForeignDuplicate args.toList = false := by
      rw [← Bool.not_eq_true, hasForeignDuplicate_iff hkeys]
      exact hforeign
    have hfit : Fits codec MAX_DEPTH (.object (Fields.insert m "filePath" first)) :=
      fits_put (fits_of_fromStr hv) (firstWinsFilepath_fits hv hfirst) "filePath"
    have hfix : fixFunction codec function args.toList =
        .ok (some (print codec (.object (Fields.insert m "filePath" first)))) := by
      rw [fixFunction, isMalformed, hcount, Bool.or_true, hno, Bool.not_false, Bool.and_true,
        if_pos rfl, fixArguments, hv]
      dsimp only
      rw [hfirst]
      rfl
    have hparse := (prints_of_fits hfit).fromStr
    rw [reread, rereadEntries_eq] at hparse
    have hsingle : topLevelKeyCount (print codec (.object (Fields.insert m "filePath" first)))
        "filePath" = 1 := by
      rw [topLevelKeyCount, streamKeys_print hfit, Option.getD_some]
      exact List.count_eq_one_of_mem hfit.1 (Fields.mem_keys_insert.2 (.inl rfl))
    refine ⟨_, (Fields.insert m "filePath" first).map (rereadEntry codec),
      repairFunction_fixed hargs hfix, ?_, ?_, ?_, ?_⟩
    · rw [String.toList_ofList]
      exact hparse
    · rw [String.toList_ofList]
      exact hsingle
    · intro k
      rw [show (rereadEntry codec) = fun e => (e.1, reread codec e.2) from rfl, Fields.get_map,
        Fields.get_insert]
      by_cases hk : "filePath" = k
      · rw [if_pos hk, ← hk, hget]
      · have hle : (Fields.keys (cs.map Child.entry)).count k ≤ 1 := by
          apply Nat.not_lt.1
          intro hlt
          exact hforeign ⟨k, fun h => hk h.symm, hlt⟩
        rw [if_neg hk, hm, get_insertAll_of_count hle, Fields.get_nil, Option.or_none]
    · have hagain := Value.get_put_of_get hargs
        (.string (String.ofList (print codec (.object (Fields.insert m "filePath" first)))))
      apply repairFunction_kept hagain
      apply fixFunction_of_single
      · rw [String.toList_ofList]
        exact hparse
      · rw [String.toList_ofList]
        exact hsingle.le

/-- A call that names its path twice, once through an escape. -/
def pathTwice : String := "\x7b\"filePath\":\"/a\",\"b\":[1],\"file\\u0050ath\":\"/b\"\x7d"

theorem repairFunction_resolvesFirst_pathTwice :
    ResolvesFirst integersOnly (reread integersOnly) (.object [("arguments", .string pathTwice)])
      pathTwice [("filePath", .string "/a"), ("b", .array [.number (.posInt 1)]),
        ("filePath", .string "/b")] :=
  repairFunction_resolvesFirst (m := [("filePath", .string "/b"),
    ("b", .array [.number (.posInt 1)])]) rfl (by decide +kernel) (by decide +kernel)
    (by decide)

/-- Three literals as the parser reads them, dividing the digits by a power of ten: each step
rounds, and the second literal, which is what the first one prints as, is read a unit off. -/
def quotientFloats : FloatCodec where
  read := fun t =>
    if t = "1.6887299505573842".toList then some 0x3FFB0509B256B6F0
    else if t = "1.6887299505573843".toList ∨ t = "1.6887299505573845".toList then
      some 0x3FFB0509B256B6F1
    else none
  print := fun bits =>
    if bits = 0x3FFB0509B256B6F0 then ⟨false, ['1'], ".6887299505573843".toList, []⟩
    else ⟨false, ['1'], ".6887299505573845".toList, []⟩
  readable := by
    intro t bits h
    have hbits : bits = 0x3FFB0509B256B6F0 ∨ bits = 0x3FFB0509B256B6F1 := by
      split at h
      · cases h
        exact .inl rfl
      · split at h
        · cases h
          exact .inr rfl
        · cases h
    rcases hbits with rfl | rfl <;> decide +kernel

def offByUnit : String :=
  "\x7b\"filePath\":\"/a\",\"filePath\":\"/b\",\"n\":1.6887299505573842\x7d"

def movedUnit : String := "\x7b\"filePath\":\"/a\",\"n\":1.6887299505573843\x7d"

/-- The number after a duplicated path comes back as another number. -/
theorem repairFunction_moves_float : ∃ m es,
    fromStr quotientFloats offByUnit.toList = some (.object m) ∧
    streamEntries quotientFloats offByUnit.toList = some es ∧
    1 < (Fields.keys es).count "filePath" ∧
    ¬ ResolvesFirst quotientFloats (fun v => v) (.object [("arguments", .string offByUnit)])
      offByUnit es := by
  refine ⟨[("filePath", .string "/b"), ("n", .number (.float 0x3FFB0509B256B6F0))],
    [("filePath", .string "/a"), ("filePath", .string "/b"),
      ("n", .number (.float 0x3FFB0509B256B6F0))], by decide +kernel, by decide +kernel,
    by decide, ?_⟩
  intro h
  have hforeign : ¬ ForeignDuplicate [("filePath", .string "/a"), ("filePath", .string "/b"),
      ("n", .number (.float 0x3FFB0509B256B6F0))] := by
    rintro ⟨k, hk, hc⟩
    simp only [Fields.keys, List.map_cons, List.map_nil, List.count_cons, List.count_nil] at hc
    simp [Ne.symm hk] at hc
    split at hc <;> omega
  obtain ⟨r, m, hrun, hparse, -, hget, -⟩ := h.resolved hforeign
  have hfix : fixFunction quotientFloats (.object [("arguments", .string offByUnit)])
      offByUnit.toList = .ok (some movedUnit.toList) := by
    decide +kernel
  have hargs : (Value.object [("arguments", .string offByUnit)]).get "arguments" =
      some (.string offByUnit) := rfl
  have hr := repairFunction_fixed hargs hfix
  rw [hr] at hrun
  simp only [Except.ok.injEq, Prod.mk.injEq, List.cons.injEq, FixAction.fixed.injEq,
    String.ofList_toList] at hrun
  obtain ⟨-, ⟨-, rfl⟩, -⟩ := hrun
  have hm : fromStr quotientFloats movedUnit.toList = some (.object [("filePath", .string "/a"),
      ("n", .number (.float 0x3FFB0509B256B6F1))]) := by
    decide +kernel
  rw [hm] at hparse
  cases hparse
  have hn := hget "n"
  revert hn
  decide +kernel

end ToolcallBadFilepathFix

end LocalMind
