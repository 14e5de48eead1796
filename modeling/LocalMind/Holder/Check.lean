import LocalMind.Holder.Maps

namespace LocalMind.Holder
open Text
set_option autoImplicit true

/-! The report on the model files that two groups of processes have mapped. -/

structure AggregatedFile where
  path : List Char
  identity : FileIdentity
  mappedSize : UInt64
  deriving DecidableEq

def entry (region : MappedRegion) : List AggregatedFile → List AggregatedFile
  | [] => [⟨region.path, region.identity, region.stop - region.start⟩]
  | file :: files =>
    if file.identity = region.identity then
      { file with mappedSize := file.mappedSize + (region.stop - region.start) } :: files
    else file :: entry region files

def aggregateMaps (maps : List MappedRegion) : List AggregatedFile :=
  maps.foldl (fun files region => entry region files) []

section
variable (lower : List Char → List Char)

def isModelFile (path : List Char) (extensions : List (List Char)) : Bool :=
  decide ('.' ∈ path) && decide (lower (path.rtakeWhile (· != '.')) ∈ extensions)

def modelFiles (extensions : List (List Char)) (maps : List MappedRegion) : List AggregatedFile :=
  (aggregateMaps maps).filter fun file => isModelFile lower file.path extensions

abbrev Models := List (FileIdentity × (List Char × UInt64))

def Models.insert (models : Models) (file : AggregatedFile) : Models :=
  models.filter (fun m => m.1 ≠ file.identity) ++ [(file.identity, (file.path, file.mappedSize))]

/-- A process whose maps are not read has no files. -/
def displayProcessInfo (extensions : List (List Char)) (processes : List (List (List UInt8))) :
    Models :=
  processes.foldl (fun models file =>
    match readProcessMaps file with
    | none => models
    | some maps => (modelFiles lower extensions maps).foldl Models.insert models) []

end

def Models.ids (models : Models) : List FileIdentity := models.map Prod.fst

structure Comparison where
  shared : List FileIdentity
  holderOnly : List FileIdentity
  llamaOnly : List FileIdentity

def displayModelComparison (holder llama : Models) : Comparison where
  shared := holder.ids.filter (· ∈ llama.ids)
  holderOnly := holder.ids.filter (· ∉ llama.ids)
  llamaOnly := llama.ids.filter (· ∉ holder.ids)

def extensionSet (extensions : List Char) : List (List Char) := (extensions.splitOn ',').map trim

def validateExtensions (extensions : List Char) : Bool :=
  decide (extensions ≠ []) && (extensionSet extensions).all fun ext =>
    decide (ext ≠ []) && decide ('.' ∉ ext)

def checkMmaps (lower : List Char → List Char) (extensions : List Char)
    (holder llama : List (List (List UInt8))) : Option Comparison :=
  if validateExtensions extensions then
    some (displayModelComparison (displayProcessInfo lower (extensionSet extensions) holder)
      (displayProcessInfo lower (extensionSet extensions) llama))
  else none

section Aggregate

variable {id : FileIdentity}

def identities (files : List AggregatedFile) : List FileIdentity := files.map (·.identity)

def total (maps : List MappedRegion) : UInt64 :=
  maps.foldl (fun n region => n + (region.stop - region.start)) 0

theorem identities_entry (region : MappedRegion) (files : List AggregatedFile) :
    identities (entry region files) = if region.identity ∈ identities files then identities files
      else identities files ++ [region.identity] := by
  induction files with
  | nil => rfl
  | cons file files ih =>
    rw [entry]
    by_cases h : file.identity = region.identity
    · rw [if_pos h, if_pos (by rw [← h]; exact List.mem_cons_self)]
      rfl
    · rw [if_neg h]
      change file.identity :: identities (entry region files) =
        if region.identity ∈ file.identity :: identities files then
          file.identity :: identities files else file.identity :: identities files ++ _
      rw [ih]
      by_cases hmem : region.identity ∈ identities files
      · rw [if_pos hmem, if_pos (List.mem_cons_of_mem _ hmem)]
      · rw [if_neg hmem, if_neg]
        · rfl
        · intro hcons
          obtain he | hcons := List.mem_cons.1 hcons
          · exact h he.symm
          · exact hmem hcons

theorem nodup_aggregateMaps (maps : List MappedRegion) :
    (identities (aggregateMaps maps)).Nodup := by
  induction maps using List.reverseRecOn with
  | nil => exact List.nodup_nil
  | append_singleton maps region ih =>
    rw [aggregateMaps, List.foldl_append, List.foldl_cons, List.foldl_nil, identities_entry]
    split
    · exact ih
    · next hmem => exact List.nodup_append.2 ⟨ih, List.nodup_singleton _, by
        intro a ha b hb
        rw [List.mem_singleton.1 hb]
        intro he
        rw [he] at ha
        exact hmem ha⟩

def fileOf (id : FileIdentity) (files : List AggregatedFile) : Option AggregatedFile :=
  files.find? fun file => decide (file.identity = id)

theorem fileOf_cons_self {file : AggregatedFile} (h : file.identity = id)
    (files : List AggregatedFile) : fileOf id (file :: files) = some file := by
  rw [fileOf, List.find?_cons_of_pos]
  exact decide_eq_true h

theorem fileOf_cons_of_ne {file : AggregatedFile} (h : file.identity ≠ id)
    (files : List AggregatedFile) : fileOf id (file :: files) = fileOf id files :=
  List.find?_cons_of_neg (by simpa using h)

theorem fileOf_entry (region : MappedRegion) (files : List AggregatedFile) (id : FileIdentity) :
    fileOf id (entry region files) = if region.identity = id then
      some (match fileOf id files with
        | none => ⟨region.path, id, region.stop - region.start⟩
        | some file =>
          { file with mappedSize := file.mappedSize + (region.stop - region.start) })
      else fileOf id files := by
  induction files with
  | nil =>
    rw [entry]
    by_cases h : region.identity = id
    · rw [if_pos h, fileOf_cons_self h, h]
      rfl
    · rw [if_neg h, fileOf_cons_of_ne h]
  | cons file files ih =>
    rw [entry]
    by_cases hsame : file.identity = region.identity
    · rw [if_pos hsame]
      by_cases h : region.identity = id
      · have hfile : file.identity = id := hsame.trans h
        rw [if_pos h, fileOf_cons_self hfile]
        apply fileOf_cons_self
        exact hfile
      · have hfile : file.identity ≠ id := fun he => h (hsame.symm.trans he)
        rw [if_neg h, fileOf_cons_of_ne hfile]
        apply fileOf_cons_of_ne
        exact hfile
    · rw [if_neg hsame]
      by_cases hfile : file.identity = id
      · have h : ¬ region.identity = id := fun he => hsame (hfile.trans he.symm)
        rw [if_neg h, fileOf_cons_self hfile, fileOf_cons_self hfile]
      · rw [fileOf_cons_of_ne hfile, fileOf_cons_of_ne hfile]
        exact ih

def regionsOf (id : FileIdentity) (maps : List MappedRegion) : List MappedRegion :=
  maps.filter fun region => decide (region.identity = id)

/-- Every identity has the path of its first region, and the size of all of them. -/
theorem fileOf_aggregateMaps (maps : List MappedRegion) (id : FileIdentity) :
    fileOf id (aggregateMaps maps) =
      (regionsOf id maps).head?.map fun first => ⟨first.path, id, total (regionsOf id maps)⟩ := by
  induction maps using List.reverseRecOn with
  | nil => rfl
  | append_singleton maps region ih =>
    rw [aggregateMaps, List.foldl_append, List.foldl_cons, List.foldl_nil, fileOf_entry,
      ← aggregateMaps, ih, regionsOf, regionsOf, List.filter_append]
    by_cases h : region.identity = id
    · have hone : [region].filter (fun region => decide (region.identity = id)) = [region] := by
        rw [List.filter_cons_of_pos]
        · rfl
        · exact decide_eq_true h
      rw [if_pos h, hone]
      cases maps.filter fun (region : MappedRegion) => decide (region.identity = id) with
      | nil =>
        have htotal : total [region] = region.stop - region.start := by
          rw [total, List.foldl_cons, List.foldl_nil, UInt64.zero_add]
        rw [List.nil_append, htotal]
        rfl
      | cons first rest =>
        rw [total, total, List.foldl_append]
        rfl
    · have hnone : [region].filter (fun region => decide (region.identity = id)) = [] :=
        List.filter_cons_of_neg (by simpa using h)
      rw [if_neg h, hnone, List.append_nil]

theorem mem_aggregateMaps_iff {maps : List MappedRegion} : file ∈ aggregateMaps maps ↔
    fileOf file.identity (aggregateMaps maps) = some file := by
  constructor
  · intro h
    have hnodup := nodup_aggregateMaps maps
    generalize aggregateMaps maps = files at h hnodup
    induction files with
    | nil => cases h
    | cons first files ih =>
      obtain ⟨hnot, hnodup⟩ := List.nodup_cons.1 hnodup
      obtain rfl | h := List.mem_cons.1 h
      · exact fileOf_cons_self rfl files
      · have hne : first.identity ≠ file.identity := by
          intro he
          apply hnot
          change first.identity ∈ _
          rw [he]
          exact List.mem_map_of_mem h
        rw [fileOf_cons_of_ne hne]
        exact ih h hnodup
  · intro h
    exact List.mem_of_find?_eq_some h

end Aggregate

end LocalMind.Holder
