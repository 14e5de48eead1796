import LocalMind.Holder.Check

namespace LocalMind.Holder
open Text
set_option autoImplicit true

/-! When the report is what the kernel printed. -/

/-- The lines of a file. -/
def linesOf (id : FileIdentity) (process : List MapsLine) : List MapsLine :=
  process.filter fun line => line.backed && decide (line.identity = id)

def mappedBytes (process : List MapsLine) (id : FileIdentity) : Nat :=
  (linesOf id process).foldl (fun n line => n + line.size) 0

/-- The path name that the kernel printed first for a file. -/
def printedPath (process : List MapsLine) (id : FileIdentity) : Option (List UInt8) :=
  (linesOf id process).head?.map (·.path)

section
variable (lower : List Char → List Char) (extensions : List (List Char))

/-- The last extension of the file's name is a listed one, ignoring case. -/
def HasListedExtension (path : List Char) : Prop :=
  ∃ dir stem ext, path = dir ++ '/' :: stem ++ '.' :: ext ∧ '/' ∉ stem ∧ '/' ∉ ext ∧ '.' ∉ ext ∧
    ∃ listed ∈ extensions, lower listed = lower ext

/-- The files of a process, as the kernel mapped them. -/
structure Lists (process : List MapsLine) (maps : List MappedRegion) : Prop where
  nodup : (identities (aggregateMaps maps)).Nodup
  files : ∀ id, id ∈ identities (aggregateMaps maps) ↔
    ∃ line ∈ process, line.backed = true ∧ line.identity = id
  size : ∀ file ∈ aggregateMaps maps, file.mappedSize.toNat = mappedBytes process file.identity
  path : ∀ file ∈ aggregateMaps maps,
    printedPath process file.identity = some (Utf8.encode file.path)
  kept : ∀ file ∈ aggregateMaps maps, file ∈ modelFiles lower extensions maps ↔
    HasListedExtension lower extensions file.path

def Reported (process : List MapsLine) : Prop :=
  ∃ maps, readProcessMaps (process.map MapsLine.text) = some maps ∧
    Lists lower extensions process maps

/-- Path names that survive being split and joined, sizes that fit, and extensions that are
listed in the case the match compares with. -/
structure Clean (process : List MapsLine) : Prop where
  utf8 : ∀ line ∈ process, ∃ cs, Utf8.decode line.path = some cs
  spaced : ∀ id path cs, printedPath process id = some path → Utf8.decode path = some cs →
    SingleSpaced isWhitespace ' ' cs
  fits : ∀ id, mappedBytes process id < 2 ^ 64
  extension : ∀ id path stem ext, printedPath process id = some path →
    Utf8.decode path = some (stem ++ '.' :: ext) → '.' ∉ ext →
      if '/' ∈ ext then lower ext ∉ extensions
      else ∀ listed ∈ extensions, lower listed = lower ext → lower ext ∈ extensions

end

section
variable {id : FileIdentity} {process : List MapsLine}

theorem regionsOf_regions (process : List MapsLine) (id : FileIdentity) :
    regionsOf id (MapsLine.regions process) =
      (linesOf id process).map fun line => line.region line.pathText := by
  rw [regionsOf, MapsLine.regions, List.filter_map, List.filter_filter, linesOf]
  apply congrArg
  apply List.filter_congr
  intro line _
  rw [Bool.and_comm]
  rfl

theorem mem_linesOf {line : MapsLine} : line ∈ linesOf id process ↔
    line ∈ process ∧ line.backed = true ∧ line.identity = id := by
  rw [linesOf, List.mem_filter, Bool.and_eq_true, decide_eq_true_iff]

theorem MapsLine.region_size {line : MapsLine} (h : line.WellFormed) (path : List Char) :
    ((line.region path).stop - (line.region path).start).toNat = line.size := by
  have hstart := UInt64.toNat_ofNat_of_lt' h.start.fits
  have hstop := UInt64.toNat_ofNat_of_lt' h.stop.fits
  rw [UInt64.toNat_sub_of_le]
  · rw [region, size, hstart, hstop]
  · rw [UInt64.le_iff_toNat_le, region, hstart, hstop]
    exact h.lt.le

theorem total_toNat {process : List MapsLine} (hwf : ∀ line ∈ process, line.WellFormed) :
    (total (process.map fun line => line.region line.pathText)).toNat =
      process.foldl (fun n line => n + line.size) 0 % 2 ^ 64 := by
  induction process using List.reverseRecOn with
  | nil => rfl
  | append_singleton process line ih =>
    have hline := hwf line (List.mem_append_right _ List.mem_cons_self)
    rw [List.map_append, List.map_singleton, total, List.foldl_append, List.foldl_append,
      List.foldl_cons, List.foldl_nil, List.foldl_cons, List.foldl_nil, ← total,
      UInt64.toNat_add, line.region_size hline,
      ih fun l hl => hwf l (List.mem_append_left _ hl), Nat.mod_add_mod]

/-- What the aggregate says of a file: the path of its first line, and all its bytes. -/
theorem fileOf_regions (process : List MapsLine) (id : FileIdentity) :
    fileOf id (aggregateMaps (MapsLine.regions process)) =
      (linesOf id process).head?.map fun line => ⟨MapsLine.rejoined line.pathText, id,
        total ((linesOf id process).map fun line => line.region line.pathText)⟩ := by
  rw [fileOf_aggregateMaps, regionsOf_regions, List.head?_map, Option.map_map]
  rfl

theorem mem_aggregateMaps_regions :
    file ∈ aggregateMaps (MapsLine.regions process) ↔
      ∃ line, (linesOf file.identity process).head? = some line ∧
        file.path = MapsLine.rejoined line.pathText ∧ file.mappedSize = total
          ((linesOf file.identity process).map fun line => line.region line.pathText) := by
  rw [mem_aggregateMaps_iff, fileOf_regions, Option.map_eq_some_iff]
  constructor
  · rintro ⟨line, hline, hfile⟩
    rw [← hfile]
    rw [← hfile] at hline
    exact ⟨line, hline, rfl, rfl⟩
  · rintro ⟨line, hline, hpath, hsize⟩
    refine ⟨line, hline, ?_⟩
    rw [← hpath, ← hsize]

theorem mem_identities_regions : id ∈ identities (aggregateMaps (MapsLine.regions process)) ↔
    ∃ line ∈ process, line.backed = true ∧ line.identity = id := by
  rw [identities, List.mem_map]
  constructor
  · rintro ⟨file, hfile, rfl⟩
    obtain ⟨line, hline, -⟩ := mem_aggregateMaps_regions.1 hfile
    exact ⟨line, mem_linesOf.1 (List.mem_of_head? hline)⟩
  · rintro ⟨line, hline⟩
    have hmem := mem_linesOf.2 hline
    obtain ⟨first, rest, hlines⟩ := List.exists_cons_of_ne_nil (List.ne_nil_of_mem hmem)
    refine ⟨⟨MapsLine.rejoined first.pathText, id, total ((linesOf id process).map fun line =>
      line.region line.pathText)⟩, ?_, rfl⟩
    apply mem_aggregateMaps_regions.2
    refine ⟨first, ?_, rfl, rfl⟩
    change (linesOf id process).head? = _
    rw [hlines]
    rfl

end

theorem encode_injective (h : Utf8.encode cs = Utf8.encode ds) : cs = ds := by
  have hdecode := Utf8.decode_encode cs
  rw [h, Utf8.decode_encode] at hdecode
  exact (Option.some.inj hdecode).symm

theorem rejoined_iff {line : MapsLine} (hwf : line.WellFormed)
    (hcs : Utf8.decode line.path = some cs) :
    line.path = Utf8.encode (MapsLine.rejoined line.pathText) ↔
      SingleSpaced isWhitespace ' ' cs := by
  rw [MapsLine.pathText, hcs, Option.getD_some, Utf8.decode_eq_some hcs,
    ← intercalate_runs_iff (by decide) (MapsLine.word_head hwf hcs)]
  constructor
  · intro h
    exact (encode_injective h).symm
  · intro h
    rw [MapsLine.rejoined, h]

theorem rtakeWhile_extension (h : '.' ∉ ext) (stem : List Char) :
    (stem ++ '.' :: ext).rtakeWhile (· != '.') = ext := by
  rw [List.rtakeWhile, List.reverse_append, List.reverse_cons, List.append_assoc,
    List.takeWhile_append_of_pos]
  · rw [List.singleton_append, List.takeWhile_cons_of_neg (by decide), List.append_nil,
      List.reverse_reverse]
  · intro c hc
    rw [bne_iff_ne]
    rintro rfl
    exact h (List.mem_reverse.1 hc)

theorem exists_last (h : c ∈ s) : ∃ init tail, s = init ++ c :: tail ∧ c ∉ tail := by
  obtain ⟨tail, init, hs, hnot⟩ := List.eq_append_cons_of_mem (List.mem_reverse.2 h)
  refine ⟨init.reverse, tail.reverse, ?_, ?_⟩
  · rw [← List.reverse_reverse s, hs, List.reverse_append, List.reverse_cons, List.append_assoc]
    rfl
  · rw [List.mem_reverse]
    exact hnot

section
variable {lower : List Char → List Char} {extensions : List (List Char)}

theorem isModelFile_extension (h : '.' ∉ ext) (stem : List Char) :
    isModelFile lower (stem ++ '.' :: ext) extensions = true ↔ lower ext ∈ extensions := by
  rw [isModelFile, rtakeWhile_extension h, Bool.and_eq_true, decide_eq_true_iff,
    decide_eq_true_iff]
  exact and_iff_right (List.mem_append_right _ List.mem_cons_self)

theorem last_unique (h : s ++ c :: t = s' ++ c :: t') (ht : c ∉ t) (ht' : c ∉ t') :
    s = s' ∧ t = t' := by
  obtain ⟨a, hs, hc⟩ | ⟨a, hs, hc⟩ := List.append_eq_append_iff.1 h
  · cases a with
    | nil =>
      rw [List.append_nil] at hs
      exact ⟨hs.symm, (List.cons.inj hc).2⟩
    | cons d a =>
      obtain ⟨-, htail⟩ := List.cons.inj hc
      rw [htail] at ht
      exact absurd (List.mem_append_right _ List.mem_cons_self) ht
  · cases a with
    | nil =>
      rw [List.append_nil] at hs
      exact ⟨hs, (List.cons.inj hc).2.symm⟩
    | cons d a =>
      obtain ⟨-, htail⟩ := List.cons.inj hc
      rw [htail] at ht'
      exact absurd (List.mem_append_right _ List.mem_cons_self) ht'

theorem hasListedExtension_iff (hslash : s.head? = some '/') (hs : s = stem ++ '.' :: ext)
    (h : '.' ∉ ext) : HasListedExtension lower extensions s ↔
      '/' ∉ ext ∧ ∃ listed ∈ extensions, lower listed = lower ext := by
  constructor
  · rintro ⟨dir, name, ext', hs', -, hnot, hext', hlisted⟩
    rw [hs] at hs'
    obtain ⟨-, rfl⟩ := last_unique hs' h hext'
    exact ⟨hnot, hlisted⟩
  · rintro ⟨hnot, hlisted⟩
    have hmem : '/' ∈ stem := by
      cases stem with
      | nil =>
        rw [hs] at hslash
        cases hslash
      | cons c stem =>
        rw [hs] at hslash
        cases hslash
        exact List.mem_cons_self
    obtain ⟨dir, name, rfl, hname⟩ := exists_last hmem
    exact ⟨dir, name, ext, hs, hname, hnot, h, hlisted⟩

theorem mem_modelFiles : file ∈ modelFiles lower extensions maps ↔
    file ∈ aggregateMaps maps ∧ isModelFile lower file.path extensions = true := List.mem_filter

theorem exists_file {id : FileIdentity} {process : List MapsLine}
    (h : printedPath process id = some path) :
    ∃ line ∈ process, line.path = path ∧ line.backed = true ∧
      ∃ file ∈ aggregateMaps (MapsLine.regions process),
        file.identity = id ∧ file.path = MapsLine.rejoined line.pathText := by
  obtain ⟨line, hline, hpath⟩ := Option.map_eq_some_iff.1 h
  obtain ⟨hmem, hback, -⟩ := mem_linesOf.1 (List.mem_of_head? hline)
  refine ⟨line, hmem, hpath, hback, ⟨MapsLine.rejoined line.pathText, id,
    total ((linesOf id process).map fun line => line.region line.pathText)⟩, ?_, rfl, rfl⟩
  exact mem_aggregateMaps_regions.2 ⟨line, hline, rfl, rfl⟩

theorem rejoined_eq {line : MapsLine} (hwf : line.WellFormed)
    (hcs : Utf8.decode line.path = some cs) (hspaced : SingleSpaced isWhitespace ' ' cs) :
    MapsLine.rejoined line.pathText = cs := by
  rw [MapsLine.pathText, hcs, Option.getD_some, MapsLine.rejoined]
  exact (intercalate_runs_iff (by decide) (MapsLine.word_head hwf hcs)).2 hspaced

theorem head_of_backed {line : MapsLine} (hwf : line.WellFormed) (hback : line.backed = true)
    (hcs : Utf8.decode line.path = some cs) : cs.head? = some '/' := by
  rw [MapsLine.backed, Bool.and_eq_true, beq_iff_eq] at hback
  exact (MapsLine.head_slash hwf hcs).2 hback.1

theorem mappedBytes_lt_iff {process : List MapsLine} (hwf : ∀ line ∈ process, line.WellFormed)
    (id : FileIdentity) :
    (total ((linesOf id process).map fun line => line.region line.pathText)).toNat =
      mappedBytes process id ↔ mappedBytes process id < 2 ^ 64 := by
  have hlines : ∀ line ∈ linesOf id process, line.WellFormed :=
    fun line hline => hwf line (mem_linesOf.1 hline).1
  rw [total_toNat hlines, mappedBytes]
  exact Nat.mod_eq_iff_lt (by decide)

theorem Lists.clean {process : List MapsLine} (hwf : ∀ line ∈ process, line.WellFormed)
    (hutf8 : ∀ line ∈ process, ∃ cs, Utf8.decode line.path = some cs)
    (h : Lists lower extensions process (MapsLine.regions process)) :
    Clean lower extensions process where
  utf8 := hutf8
  spaced := by
    intro id path cs hprinted hcs
    obtain ⟨line, hmem, rfl, -, file, hfile, rfl, hpath⟩ := exists_file hprinted
    apply (rejoined_iff (hwf line hmem) hcs).1
    have hkept := h.path file hfile
    rw [hprinted, hpath] at hkept
    exact Option.some.inj hkept
  fits := by
    intro id
    cases hline : (linesOf id process).head? with
    | none =>
      rw [mappedBytes, List.head?_eq_none_iff.1 hline]
      decide
    | some line =>
      apply (mappedBytes_lt_iff hwf id).1
      exact h.size ⟨_, id, _⟩ (mem_aggregateMaps_regions.2 ⟨line, hline, rfl, rfl⟩)
  extension := by
    intro id path stem ext hprinted hcs hext
    obtain ⟨line, hmem, rfl, hback, file, hfile, rfl, hpath⟩ := exists_file hprinted
    have hprint := h.path file hfile
    rw [hprinted] at hprint
    have hdecode := Utf8.decode_encode file.path
    rw [← Option.some.inj hprint, hcs] at hdecode
    have hhead := head_of_backed (hwf line hmem) hback hcs
    have hkept := h.kept file hfile
    rw [mem_modelFiles, and_iff_right hfile, ← Option.some.inj hdecode,
      isModelFile_extension hext, hasListedExtension_iff hhead rfl hext] at hkept
    split
    · next hslash =>
      intro hin
      exact (hkept.1 hin).1 hslash
    · next hslash =>
      intro listed hlisted he
      exact hkept.2 ⟨hslash, listed, hlisted, he⟩

theorem Clean.lists {process : List MapsLine} (hlower : ∀ s, lower (lower s) = lower s)
    (hwf : ∀ line ∈ process, line.WellFormed) (h : Clean lower extensions process) :
    Lists lower extensions process (MapsLine.regions process) where
  nodup := nodup_aggregateMaps _
  files := fun id => mem_identities_regions
  size := by
    intro file hfile
    obtain ⟨line, -, -, hsize⟩ := mem_aggregateMaps_regions.1 hfile
    rw [hsize]
    exact (mappedBytes_lt_iff hwf _).2 (h.fits _)
  path := by
    intro file hfile
    obtain ⟨line, hline, hpath, -⟩ := mem_aggregateMaps_regions.1 hfile
    have hmem := (mem_linesOf.1 (List.mem_of_head? hline)).1
    obtain ⟨cs, hcs⟩ := h.utf8 line hmem
    have hprinted : printedPath process file.identity = some line.path := by
      rw [printedPath, hline]
      rfl
    rw [hprinted, hpath]
    exact congrArg some ((rejoined_iff (hwf line hmem) hcs).2 (h.spaced _ _ cs hprinted hcs))
  kept := by
    intro file hfile
    obtain ⟨line, hline, hpath, -⟩ := mem_aggregateMaps_regions.1 hfile
    obtain ⟨hmem, hback, -⟩ := mem_linesOf.1 (List.mem_of_head? hline)
    obtain ⟨cs, hcs⟩ := h.utf8 line hmem
    have hprinted : printedPath process file.identity = some line.path := by
      rw [printedPath, hline]
      rfl
    rw [rejoined_eq (hwf line hmem) hcs (h.spaced _ _ cs hprinted hcs)] at hpath
    have hhead := head_of_backed (hwf line hmem) hback hcs
    rw [mem_modelFiles, and_iff_right hfile, hpath]
    by_cases hdot : '.' ∈ cs
    · obtain ⟨stem, ext, rfl, hext⟩ := exists_last hdot
      have hlisted := h.extension _ _ stem ext hprinted hcs hext
      rw [isModelFile_extension hext, hasListedExtension_iff hhead rfl hext]
      split at hlisted
      · next hslash => exact iff_of_false hlisted fun hin => hin.1 hslash
      · next hslash =>
        constructor
        · intro hin
          exact ⟨hslash, lower ext, hin, hlower ext⟩
        · rintro ⟨-, listed, hin, he⟩
          exact hlisted listed hin he
    · apply iff_of_false
      · rw [isModelFile, decide_eq_false hdot]
        exact Bool.false_ne_true
      · rintro ⟨dir, stem, ext, hs, -⟩
        rw [hs] at hdot
        exact hdot (List.mem_append_right _ List.mem_cons_self)

/-- A process is reported as the kernel printed it exactly where its maps are clean. -/
theorem reported_iff {process : List MapsLine} (hlower : ∀ s, lower (lower s) = lower s)
    (hwf : ∀ line ∈ process, line.WellFormed) :
    Reported lower extensions process ↔ Clean lower extensions process := by
  constructor
  · rintro ⟨maps, hread, hlists⟩
    have hutf8 := MapsLine.decode_of_readProcessMaps hread
    rw [MapsLine.readProcessMaps_text hwf hutf8] at hread
    obtain rfl := Option.some.inj hread
    exact hlists.clean hwf hutf8
  · intro h
    exact ⟨_, MapsLine.readProcessMaps_text hwf h.utf8, h.lists hlower hwf⟩

end

/-- Every file of the two groups is in exactly one of the three lists. -/
structure Partitioned (holder llama : FileIdentity → Prop) (comparison : Comparison) : Prop where
  shared : ∀ id, id ∈ comparison.shared ↔ holder id ∧ llama id
  holderOnly : ∀ id, id ∈ comparison.holderOnly ↔ holder id ∧ ¬ llama id
  llamaOnly : ∀ id, id ∈ comparison.llamaOnly ↔ llama id ∧ ¬ holder id
  exactlyOne : ∀ id, holder id ∨ llama id →
    id ∈ comparison.shared ∧ id ∉ comparison.holderOnly ∧ id ∉ comparison.llamaOnly ∨
    id ∉ comparison.shared ∧ id ∈ comparison.holderOnly ∧ id ∉ comparison.llamaOnly ∨
    id ∉ comparison.shared ∧ id ∉ comparison.holderOnly ∧ id ∈ comparison.llamaOnly

theorem displayModelComparison_partitioned {holder llama : Models}
    {inHolder inLlama : FileIdentity → Prop} (hholder : ∀ id, id ∈ holder.ids ↔ inHolder id)
    (hllama : ∀ id, id ∈ llama.ids ↔ inLlama id) :
    Partitioned inHolder inLlama (displayModelComparison holder llama) := by
  have hshared (id : FileIdentity) : id ∈ (displayModelComparison holder llama).shared ↔
      inHolder id ∧ inLlama id := by
    rw [← hholder, ← hllama, displayModelComparison, List.mem_filter, decide_eq_true_iff]
  have hholderOnly (id : FileIdentity) : id ∈ (displayModelComparison holder llama).holderOnly ↔
      inHolder id ∧ ¬ inLlama id := by
    rw [← hholder, ← hllama, displayModelComparison, List.mem_filter, decide_eq_true_iff]
  have hllamaOnly (id : FileIdentity) : id ∈ (displayModelComparison holder llama).llamaOnly ↔
      inLlama id ∧ ¬ inHolder id := by
    rw [← hholder, ← hllama, displayModelComparison, List.mem_filter, decide_eq_true_iff]
  refine ⟨hshared, hholderOnly, hllamaOnly, ?_⟩
  intro id h
  rw [hshared, hholderOnly, hllamaOnly]
  tauto

theorem mem_ids_insert {models : Models} {id : FileIdentity} : id ∈ (models.insert file).ids ↔
    id ∈ models.ids ∨ file.identity = id := by
  rw [Models.insert, Models.ids, List.map_append, List.mem_append, List.map_singleton,
    List.mem_singleton, List.mem_map]
  constructor
  · rintro (⟨m, hm, rfl⟩ | h)
    · exact .inl (List.mem_map_of_mem (List.mem_filter.1 hm).1)
    · exact .inr h.symm
  · rintro (h | h)
    · by_cases he : id = file.identity
      · exact .inr he
      · obtain ⟨m, hm, rfl⟩ := List.mem_map.1 h
        exact .inl ⟨m, List.mem_filter.2 ⟨hm, decide_eq_true he⟩, rfl⟩
    · exact .inr h.symm

theorem mem_ids_foldl_insert {files : List AggregatedFile} {models : Models} {id : FileIdentity} :
    id ∈ (files.foldl Models.insert models).ids ↔
      id ∈ models.ids ∨ ∃ file ∈ files, file.identity = id := by
  induction files generalizing models with
  | nil =>
    rw [List.foldl_nil]
    exact (or_iff_left fun ⟨file, hfile, _⟩ => absurd hfile List.not_mem_nil).symm
  | cons file files ih =>
    rw [List.foldl_cons, ih, mem_ids_insert, or_assoc]
    simp only [List.mem_cons, exists_eq_or_imp]

/-- The model files of a group. -/
def InGroup (lower : List Char → List Char) (extensions : List (List Char))
    (processes : List (List (List UInt8))) (id : FileIdentity) : Prop :=
  ∃ process ∈ processes, ∃ maps, readProcessMaps process = some maps ∧
    ∃ file ∈ modelFiles lower extensions maps, file.identity = id

theorem mem_ids_displayProcessInfo (lower : List Char → List Char)
    (extensions : List (List Char)) (processes : List (List (List UInt8))) (id : FileIdentity) :
    id ∈ (displayProcessInfo lower extensions processes).ids ↔
      InGroup lower extensions processes id := by
  induction processes using List.reverseRecOn with
  | nil =>
    apply iff_of_false List.not_mem_nil
    rintro ⟨process, hprocess, -⟩
    cases hprocess
  | append_singleton processes process ih =>
    rw [displayProcessInfo, List.foldl_append, List.foldl_cons, List.foldl_nil,
      ← displayProcessInfo, InGroup]
    have hsplit : (∃ p ∈ processes ++ [process], ∃ maps, readProcessMaps p = some maps ∧
        ∃ file ∈ modelFiles lower extensions maps, file.identity = id) ↔
        InGroup lower extensions processes id ∨ ∃ maps, readProcessMaps process = some maps ∧
          ∃ file ∈ modelFiles lower extensions maps, file.identity = id := by
      constructor
      · rintro ⟨p, hp, hfile⟩
        obtain hp | hp := List.mem_append.1 hp
        · exact .inl ⟨p, hp, hfile⟩
        · rw [List.mem_singleton.1 hp] at hfile
          exact .inr hfile
      · rintro (⟨p, hp, hfile⟩ | hfile)
        · exact ⟨p, List.mem_append_left _ hp, hfile⟩
        · exact ⟨process, List.mem_append_right _ List.mem_cons_self, hfile⟩
    rw [hsplit]
    cases hread : readProcessMaps process with
    | none =>
      rw [ih]
      apply (or_iff_left _).symm
      rintro ⟨maps, hmaps, -⟩
      cases hmaps
    | some maps =>
      dsimp only
      rw [mem_ids_foldl_insert, ih]
      apply or_congr Iff.rfl
      constructor
      · intro h
        exact ⟨maps, rfl, h⟩
      · rintro ⟨maps', hmaps, h⟩
        rw [Option.some.inj hmaps]
        exact h

/-- The memory maps of processes, as the kernel printed them. -/
def printed (processes : List (List MapsLine)) : List (List (List UInt8)) :=
  processes.map fun process => process.map MapsLine.text

/-- The check reports what the kernel mapped exactly where the maps are clean. -/
theorem checkMmaps_reports {lower : List Char → List Char} {extensions : List Char}
    {holder llama : List (List MapsLine)} (hlower : ∀ s, lower (lower s) = lower s)
    (hvalid : validateExtensions extensions = true)
    (hwf : ∀ process ∈ holder ++ llama, ∀ line ∈ process, line.WellFormed) :
    (∀ process ∈ holder ++ llama, Reported lower (extensionSet extensions) process) ∧
      (∃ comparison,
        checkMmaps lower extensions (printed holder) (printed llama) = some comparison ∧
        Partitioned (InGroup lower (extensionSet extensions) (printed holder))
          (InGroup lower (extensionSet extensions) (printed llama)) comparison) ↔
    ∀ process ∈ holder ++ llama, Clean lower (extensionSet extensions) process := by
  have hpartition : ∃ comparison,
      checkMmaps lower extensions (printed holder) (printed llama) = some comparison ∧
      Partitioned (InGroup lower (extensionSet extensions) (printed holder))
        (InGroup lower (extensionSet extensions) (printed llama)) comparison := by
    refine ⟨_, if_pos hvalid, ?_⟩
    apply displayModelComparison_partitioned
    · exact mem_ids_displayProcessInfo lower _ _
    · exact mem_ids_displayProcessInfo lower _ _
  rw [and_iff_left hpartition]
  constructor
  · intro h process hprocess
    exact (reported_iff hlower (hwf process hprocess)).1 (h process hprocess)
  · intro h process hprocess
    exact (reported_iff hlower (hwf process hprocess)).2 (h process hprocess)

def modelLine (path : List UInt8) : MapsLine where
  start := "7f0000000000".toList
  stop := "7f0000400000".toList
  perms := "r--s".toList
  offset := "00000000".toList
  dev := "08:01".toList
  inode := "1234".toList
  pad := 27
  path := path

theorem isWord_of_any (hne : s ≠ []) (h : s.any isWhitespace = false) : IsWord s := by
  refine ⟨hne, ?_⟩
  intro c hc
  exact Bool.eq_false_iff.2 (List.any_eq_false.1 h c hc)

theorem modelLine_wellFormed {path : List UInt8}
    (hhead : ∀ b, path.head? = some b → 0x21 ≤ b.toNat ∧ b.toNat ≤ 0x7E) (hline : 10 ∉ path) :
    (modelLine path).WellFormed := by
  have hstart : IsNumber 16 "7f0000000000".toList :=
    ⟨by decide, List.all_eq_true.1 (by decide), by decide⟩
  have hstop : IsNumber 16 "7f0000400000".toList :=
    ⟨by decide, List.all_eq_true.1 (by decide), by decide⟩
  have hinode : IsNumber 10 "1234".toList :=
    ⟨by decide, List.all_eq_true.1 (by decide), by decide⟩
  have hperms : IsWord "r--s".toList := isWord_of_any (by decide) (by decide)
  have hoffset : IsWord "00000000".toList := isWord_of_any (by decide) (by decide)
  have hdev : IsWord "08:01".toList := isWord_of_any (by decide) (by decide)
  have hlt : digitsValue 16 "7f0000000000".toList < digitsValue 16 "7f0000400000".toList := by
    decide
  exact ⟨hstart, hstop, hlt, hperms, hoffset, hdev, hinode, hhead, hline⟩

theorem toAsciiLower_toAsciiLower (s : List Char) :
    toAsciiLower (toAsciiLower s) = toAsciiLower s := by
  rw [toAsciiLower, toAsciiLower, List.map_map]
  apply List.map_congr_left
  intro c _
  exact Char.toLower_toLower_eq_toLower c

theorem checkMmaps_reports_one :
    (∀ process ∈ [[modelLine (Utf8.encode "/models/a.gguf".toList)]] ++ [],
      Reported toAsciiLower (extensionSet "gguf".toList) process) ∧
      (∃ comparison, checkMmaps toAsciiLower "gguf".toList
          (printed [[modelLine (Utf8.encode "/models/a.gguf".toList)]]) (printed []) =
            some comparison ∧
        Partitioned (InGroup toAsciiLower (extensionSet "gguf".toList)
            (printed [[modelLine (Utf8.encode "/models/a.gguf".toList)]]))
          (InGroup toAsciiLower (extensionSet "gguf".toList) (printed [])) comparison) ↔
    ∀ process ∈ [[modelLine (Utf8.encode "/models/a.gguf".toList)]] ++ [],
      Clean toAsciiLower (extensionSet "gguf".toList) process := by
  apply checkMmaps_reports toAsciiLower_toAsciiLower (by decide)
  intro process hprocess line hline
  obtain rfl := by simpa using hprocess
  obtain rfl := by simpa using hline
  exact modelLine_wellFormed (by decide +kernel) (by decide +kernel)

theorem linesOf_modelLine (path : List UInt8) (hback : (modelLine path).backed = true) :
    linesOf (modelLine path).identity [modelLine path] = [modelLine path] := by
  rw [linesOf, List.filter_cons_of_pos]
  · rfl
  · rw [hback, decide_eq_true rfl]
    rfl

/-- A path name with two blanks, and an extension listed in capitals. -/
theorem checkMmaps_changes :
    (∀ path ∈ ["/models/a  b.gguf".toList, "/models/a.gguf".toList],
      (modelLine (Utf8.encode path)).WellFormed) ∧
    validateExtensions "gguf".toList = true ∧
    ¬ Reported toAsciiLower (extensionSet "gguf".toList)
      [modelLine (Utf8.encode "/models/a  b.gguf".toList)] ∧
    validateExtensions "GGUF".toList = true ∧
    ¬ Reported toAsciiLower (extensionSet "GGUF".toList)
      [modelLine (Utf8.encode "/models/a.gguf".toList)] := by
  have hspaced : (modelLine (Utf8.encode "/models/a  b.gguf".toList)).WellFormed :=
    modelLine_wellFormed (by decide +kernel) (by decide +kernel)
  have hplain : (modelLine (Utf8.encode "/models/a.gguf".toList)).WellFormed :=
    modelLine_wellFormed (by decide +kernel) (by decide +kernel)
  refine ⟨?_, by decide, ?_, by decide, ?_⟩
  · intro path hpath
    obtain rfl | rfl := by simpa using hpath
    · exact hspaced
    · exact hplain
  · intro h
    have hclean := (reported_iff toAsciiLower_toAsciiLower (by simpa using hspaced)).1 h
    have hprinted : printedPath [modelLine (Utf8.encode "/models/a  b.gguf".toList)]
        (modelLine (Utf8.encode "/models/a  b.gguf".toList)).identity =
        some (Utf8.encode "/models/a  b.gguf".toList) := by
      rw [printedPath, linesOf_modelLine _ (by decide)]
      rfl
    have hblanks := (hclean.spaced _ _ _ hprinted (Utf8.decode_encode _)).single
    exact hblanks ⟨"/models/a".toList, "b.gguf".toList, by decide⟩
  · intro h
    have hclean := (reported_iff toAsciiLower_toAsciiLower (by simpa using hplain)).1 h
    have hprinted : printedPath [modelLine (Utf8.encode "/models/a.gguf".toList)]
        (modelLine (Utf8.encode "/models/a.gguf".toList)).identity =
        some (Utf8.encode "/models/a.gguf".toList) := by
      rw [printedPath, linesOf_modelLine _ (by decide)]
      rfl
    have hlisted := hclean.extension _ _ "/models/a".toList "gguf".toList hprinted
      (Utf8.decode_encode _) (by decide)
    rw [if_neg (by decide)] at hlisted
    exact absurd (hlisted "GGUF".toList (by decide) (by decide)) (by decide)

end LocalMind.Holder
