import LocalMind.Stats.Collector
import LocalMind.Proxy.MergeSafety
import LocalMind.Json.Entries

namespace LocalMind.Collector
open Json
set_option autoImplicit true

/-! Null in place of a measurement. -/

def MEASURED_KEYS : List String := ["usage", "timings", "metrics", "model"]

def dropNull (m : List (String × Value)) (k : String) : List (String × Value) :=
  if Fields.get m k = some .null then m.filter (·.1 ≠ k) else m

/-- A body or a chunk without the measured keys that are null in it. -/
def dropNulls : Value → Value
  | .object m => .object (MEASURED_KEYS.foldl dropNull m)
  | v => v

/-- The value under a key, where it is not null. -/
def block (k : String) (v : Value) : Option Value := (v.get k).filter (!·.isNull)

/-- What the last element that gives something gives. -/
def lastOf (g : α → Option β) (as : List α) : Option β := as.reverse.findSome? g

theorem lastOf_cons (g : α → Option β) (a : α) (as : List α) :
    lastOf g (a :: as) = (lastOf g as).or (g a) := by
  rw [lastOf, List.reverse_cons, List.findSome?_append, List.findSome?_singleton, lastOf]

theorem foldl_or (g : α → Option β) (b : Option β) (as : List α) :
    as.foldl (fun b a => (g a).or b) b = (lastOf g as).or b := by
  induction as generalizing b with
  | nil => rfl
  | cons a as ih => rw [List.foldl_cons, ih, lastOf_cons, Option.or_assoc]

theorem lastOf_eq_none_iff {g : α → Option β} : lastOf g as = none ↔ ∀ a ∈ as, g a = none := by
  rw [lastOf, List.findSome?_eq_none_iff]
  constructor
  · intro h a ha
    exact h a (List.mem_reverse.2 ha)
  · intro h a ha
    exact h a (List.mem_reverse.1 ha)

/-- What comes last is also last among what passes a test that it passes. -/
theorem lastOf_filter {g : α → Option β} (h : lastOf g as = some b) (hp : p b = true) :
    lastOf (fun a => (g a).filter p) as = some b := by
  induction as with
  | nil => cases h
  | cons a as ih =>
    rw [lastOf_cons] at h ⊢
    cases hlast : lastOf g as with
    | some c =>
      rw [hlast] at h
      rw [ih (hlast.trans h)]
      rfl
    | none =>
      have hnone : lastOf (fun a => (g a).filter p) as = none := by
        apply lastOf_eq_none_iff.2
        intro c hc
        rw [lastOf_eq_none_iff.1 hlast c hc]
        rfl
      rw [hlast, Option.none_or] at h
      rw [hnone, Option.none_or, h, Option.filter_some, if_pos hp]

theorem lastOf_filter_iff {g : α → Option β} :
    (lastOf g as).filter p = lastOf (fun a => (g a).filter p) as ↔
      (lastOf g as).all p = true ∨ ∀ a ∈ as, (g a).filter p = none := by
  cases h : lastOf g as with
  | none =>
    have hnone : ∀ a ∈ as, (g a).filter p = none := by
      intro a ha
      rw [lastOf_eq_none_iff.1 h a ha]
      rfl
    rw [lastOf_eq_none_iff.2 hnone]
    exact ⟨fun _ => .inl rfl, fun _ => rfl⟩
  | some b =>
    by_cases hp : p b = true
    · rw [lastOf_filter h hp, Option.filter_some, if_pos hp]
      exact ⟨fun _ => .inl hp, fun _ => rfl⟩
    · rw [Option.filter_some, if_neg hp]
      constructor
      · intro hnone
        exact .inr (lastOf_eq_none_iff.1 hnone.symm)
      · intro hall
        rcases hall with hall | hall
        · exact absurd hall hp
        · exact (lastOf_eq_none_iff.2 hall).symm

theorem filter_notNull (x : Option Value) (h : x ≠ some .null) : x.filter (!·.isNull) = x := by
  cases x with
  | none => rfl
  | some v =>
    rw [Option.filter_some, if_pos]
    cases v with
    | null => exact absurd rfl h
    | _ => rfl

theorem get_dropNull (m : List (String × Value)) (k l : String) :
    Fields.get (dropNull m k) l =
      if l = k then (Fields.get m l).filter (!·.isNull) else Fields.get m l := by
  rw [dropNull]
  by_cases h : Fields.get m k = some .null
  · rw [if_pos h, Fields.get_filter fun l => l ≠ k]
    by_cases hl : l = k
    · rw [if_pos hl, hl, h, if_neg (by simp)]
      rfl
    · rw [if_neg hl, if_pos (by simpa using hl)]
  · rw [if_neg h]
    split
    · next hl => rw [hl, filter_notNull _ h]
    · rfl

theorem get_foldl_dropNull (ks : List String) (m : List (String × Value)) (l : String) :
    Fields.get (ks.foldl dropNull m) l =
      if l ∈ ks then (Fields.get m l).filter (!·.isNull) else Fields.get m l := by
  induction ks generalizing m with
  | nil => rfl
  | cons k ks ih =>
    rw [List.foldl_cons, ih, get_dropNull]
    by_cases hk : l = k
    · rw [if_pos hk, if_pos (List.mem_cons.2 (.inl hk))]
      split
      · rw [Option.filter_filter]
        congr 1
        funext x
        exact Bool.and_self _
      · rfl
    · rw [if_neg hk]
      by_cases hks : l ∈ ks
      · rw [if_pos hks, if_pos (List.mem_cons_of_mem k hks)]
      · rw [if_neg hks, if_neg (List.not_mem_cons_of_ne_of_not_mem hk hks)]

theorem get_dropNulls (v : Value) (l : String) :
    (dropNulls v).get l = if l ∈ MEASURED_KEYS then block l v else v.get l := by
  cases v with
  | object m => exact get_foldl_dropNull MEASURED_KEYS m l
  | _ =>
    change none = _
    split
    · rfl
    · rfl

/-! What a sample reads of a body. -/

theorem bind_block {g : Value → Option β} (hg : g .null = none) (k : String) (v : Value) :
    (v.get k).bind g = (block k v).bind g := by
  rw [block]
  cases v.get k with
  | none => rfl
  | some x =>
    cases x with
    | null => exact hg
    | _ => rfl

theorem extractUsage_block (response : Value) (m : RequestMetrics F) :
    extractUsage response m =
      match block "usage" response with
      | some usage => extractDetails usage (extractCounts usage m)
      | none => m := by
  rw [extractUsage, block]
  cases response.get "usage" with
  | none => rfl
  | some usage =>
    cases usage with
    | null => rfl
    | _ => rfl

theorem cacheIsASubset_block (response : Value) :
    cacheIsASubset response =
      ((block "usage" response).map fun u => (u.get "prompt_tokens").isSome).getD false := by
  rw [cacheIsASubset, block]
  cases response.get "usage" with
  | none => rfl
  | some usage =>
    cases usage with
    | null => rfl
    | _ => rfl

/-- Two bodies that a sample reads alike. -/
structure ReadAlike (body body' : Value) : Prop where
  frame : ∀ k, k ∉ MEASURED_KEYS → body.get k = body'.get k
  blocks : ∀ k ∈ MEASURED_KEYS, block k body = block k body'
  timings : body.get "timings" = body'.get "timings"

theorem extractVllmUsage_congr (f : JsonFloats F) (h : ReadAlike body body')
    (m : RequestMetrics F) : extractVllmUsage f body m = extractVllmUsage f body' m := by
  have hmetrics : (body.get "metrics").filter (!·.isNull) = (body'.get "metrics").filter (!·.isNull) :=
    h.blocks "metrics" (by decide)
  have hsubset : cacheIsASubset body = cacheIsASubset body' := by
    rw [cacheIsASubset_block, cacheIsASubset_block, h.blocks "usage" (by decide)]
  have hprefill : ∀ ttft m, vllmPrefill f body ttft m = vllmPrefill f body' ttft m := by
    intro ttft m
    simp only [vllmPrefill, computedTokens, hsubset]
  rw [extractVllmUsage, extractVllmUsage, hmetrics]
  simp only [hprefill]

theorem fromResponse_congr (f : JsonFloats F) (h : ReadAlike body body') (now : Int)
    (request : Value) (streaming : Bool) (durationMs : F) :
    fromResponse f now body request streaming durationMs =
      fromResponse f now body' request streaming durationMs := by
  have hmodel : ∀ m : RequestMetrics F, modelOf body m = modelOf body' m := by
    intro m
    have hname : strAt body "model" = strAt body' "model" := by
      rw [strAt, strAt, bind_block rfl, bind_block rfl, h.blocks "model" (by decide)]
    rw [modelOf, modelOf, hname, h.frame "message" (by decide)]
  have husage : ∀ m : RequestMetrics F, extractUsage body m = extractUsage body' m := by
    intro m
    rw [extractUsage_block, extractUsage_block, h.blocks "usage" (by decide)]
  have htimings : ∀ m, extractTimings f body m = extractTimings f body' m := by
    intro m
    rw [extractTimings, extractTimings, h.timings, extractVllmUsage_congr f h]
  have hfinish : ∀ m : RequestMetrics F, finishOf body m = finishOf body' m := by
    intro m
    rw [finishOf, finishOf, strAt, strAt, h.frame "choices" (by decide),
      h.frame "stop_reason" (by decide), h.frame "content" (by decide)]
  rw [fromResponse, fromResponse]
  simp only [hmodel, husage, htimings, extractLengthFallbacks, hfinish]

/-! What merging takes from the chunks. -/

/-- What a chunk brings for a key. -/
def arrives (k : String) (chunk : Value) : Option Value :=
  if k = "usage" ∨ k = "timings" then chunk.get k
  else if k = "model" ∨ k = "metrics" then block k chunk
  else none

theorem mergeStat_get {acc : Value} (h : acc.isObject = true) (key : String) (skipNull : Bool)
    (chunk : Value) :
    ∃ out, mergeStat key skipNull chunk acc = .ok out ∧ out.isObject = true ∧ ∀ l,
      out.get l = if l = key then
        ((chunk.get key).filter fun x => !(skipNull && x.isNull)).or (acc.get key)
      else acc.get l := by
  have hsame : ∀ l, acc.get l = if l = key then acc.get key else acc.get l := by
    intro l
    split
    · next hl => rw [hl]
    · rfl
  rw [mergeStat]
  cases chunk.get key with
  | none => exact ⟨acc, rfl, h, hsame⟩
  | some x =>
    dsimp only
    cases hskip : skipNull && x.isNull with
    | true =>
      refine ⟨acc, rfl, h, ?_⟩
      rw [Option.filter_some, hskip]
      exact hsame
    | false =>
      refine ⟨acc.put key x, Value.indexAssign_of_isObject h key x, ?_, ?_⟩
      · rw [Value.put_isObject, h]
      · intro l
        rw [Option.filter_some, hskip, Value.get_put h]
        split
        · next hl => rw [if_pos hl.symm]; rfl
        · next hl => rw [if_neg fun he => hl he.symm]

theorem mergeStreamStats_get {acc : Value} (h : acc.isObject = true) (chunk : Value) :
    ∃ out, mergeStreamStats acc chunk = .ok out ∧ ∀ l,
      out.get l = (arrives l chunk).or (acc.get l) := by
  have hall : ∀ x : Option Value, (x.filter fun y => !(false && y.isNull)) = x := by
    intro x
    cases x with
    | none => rfl
    | some y => rfl
  obtain ⟨a₁, h₁, o₁, g₁⟩ := mergeStat_get h "usage" false chunk
  obtain ⟨a₂, h₂, o₂, g₂⟩ := mergeStat_get o₁ "model" true chunk
  obtain ⟨a₃, h₃, o₃, g₃⟩ := mergeStat_get o₂ "timings" false chunk
  obtain ⟨a₄, h₄, o₄, g₄⟩ := mergeStat_get o₃ "metrics" true chunk
  refine ⟨a₄, ?_, ?_⟩
  · rw [mergeStreamStats, h₁, Fallible.ok_bind, h₂, Fallible.ok_bind, h₃, Fallible.ok_bind, h₄]
  · intro l
    have husage : a₄.get "usage" = (chunk.get "usage").or (acc.get "usage") := by
      rw [g₄, if_neg (by decide), g₃, if_neg (by decide), g₂, if_neg (by decide), g₁, if_pos rfl,
        hall]
    have hmodel : a₄.get "model" = (block "model" chunk).or (acc.get "model") := by
      rw [g₄, if_neg (by decide), g₃, if_neg (by decide), g₂, if_pos rfl, g₁, if_neg (by decide)]
      rfl
    have htimings : a₄.get "timings" = (chunk.get "timings").or (acc.get "timings") := by
      rw [g₄, if_neg (by decide), g₃, if_pos rfl, g₂, if_neg (by decide), g₁, if_neg (by decide),
        hall]
    have hmetrics : a₄.get "metrics" = (block "metrics" chunk).or (acc.get "metrics") := by
      rw [g₄, if_pos rfl, g₃, if_neg (by decide), g₂, if_neg (by decide), g₁, if_neg (by decide)]
      rfl
    rw [arrives]
    by_cases hraw : l = "usage" ∨ l = "timings"
    · rw [if_pos hraw]
      rcases hraw with rfl | rfl
      · exact husage
      · exact htimings
    · rw [if_neg hraw]
      by_cases hkept : l = "model" ∨ l = "metrics"
      · rw [if_pos hkept]
        rcases hkept with rfl | rfl
        · exact hmodel
        · exact hmetrics
      · rw [not_or] at hraw hkept
        rw [if_neg (not_or.2 hkept), g₄, if_neg hkept.2, g₃, if_neg hraw.2, g₂, if_neg hkept.1, g₁,
          if_neg hraw.1, Option.none_or]

/-- The slots after a chunk. -/
def slotsAfter (slots : List Value) (chunk : Value) : Except Panic (List Value) :=
  match chunk.get "choices" with
  | some (.array choices) => mergeEach slots choices
  | _ => .ok slots

theorem mergeChunkChoices_eq {acc : Value} (h : acc.get "choices" = some (.array slots))
    (chunk : Value) :
    mergeChunkChoices acc chunk =
      (slotsAfter slots chunk).map fun slots' => acc.put "choices" (.array slots') := by
  rw [mergeChunkChoices, Value.updateM_of_get h, slotsAfter]
  cases hc : chunk.get "choices" with
  | none => rfl
  | some choices =>
    cases choices with
    | array choices =>
      have hmerge := mergeChoices_eq [] slots choices
      rw [List.nil_append, List.length_nil] at hmerge
      dsimp only
      rw [hmerge]
      cases mergeEach slots choices with
      | ok slots' => rfl
      | error e => rfl
    | _ => rfl

/-- Merging a chunk into an accumulator: its slots come from the choices, everything else from
what arrives. -/
theorem mergeInto_ok {acc : Value} (h : acc.get "choices" = some (.array slots))
    (hs : slotsAfter slots chunk = .ok slots') :
    ∃ out, mergeInto acc chunk = .ok out ∧ out.get "choices" = some (.array slots') ∧
      ∀ l, l ≠ "choices" → out.get l = (arrives l chunk).or (acc.get l) := by
  have hput : (acc.put "choices" (.array slots')).isObject = true := by
    rw [Value.put_isObject]
    exact Value.isObject_iff.2 (Value.object_of_get h)
  obtain ⟨out, ho, hget⟩ := mergeStreamStats_get hput chunk
  refine ⟨out, ?_, ?_, ?_⟩
  · rw [mergeInto, mergeChunkChoices_eq h, hs]
    exact ho
  · have hnone : arrives "choices" chunk = none := rfl
    rw [hget, hnone, Option.none_or, Value.get_put_of_get h]
  · intro l hl
    rw [hget, Value.get_put_of_ne hl.symm]

theorem mergeInto_slots {acc : Value} (h : acc.get "choices" = some (.array slots))
    (ho : mergeInto acc chunk = .ok out) : ∃ slots', slotsAfter slots chunk = .ok slots' := by
  rw [mergeInto, mergeChunkChoices_eq h] at ho
  cases hs : slotsAfter slots chunk with
  | ok slots' => exact ⟨slots', rfl⟩
  | error e =>
    rw [hs] at ho
    cases ho

/-- Two accumulators that differ in measured keys only. -/
def Parallel (acc acc' : Value) : Prop :=
  (∃ slots, acc.get "choices" = some (.array slots) ∧ acc'.get "choices" = some (.array slots)) ∧
    ∀ k, k ∉ MEASURED_KEYS → acc.get k = acc'.get k

theorem arrives_frame (hk : k ∉ MEASURED_KEYS) (chunk : Value) : arrives k chunk = none := by
  have hne : ∀ l ∈ MEASURED_KEYS, k ≠ l := fun l hl he => hk (he ▸ hl)
  rw [arrives, if_neg, if_neg]
  · rw [not_or]
    exact ⟨hne _ (by decide), hne _ (by decide)⟩
  · rw [not_or]
    exact ⟨hne _ (by decide), hne _ (by decide)⟩

theorem slotsAfter_dropNulls (slots : List Value) (chunk : Value) :
    slotsAfter slots (dropNulls chunk) = slotsAfter slots chunk := by
  rw [slotsAfter, slotsAfter, get_dropNulls, if_neg (by decide)]

/-- What a whole run takes from its chunks. -/
def Took (acc : Value) (chunks : List Value) (out : Value) : Prop :=
  ∀ k ∈ MEASURED_KEYS, out.get k = (lastOf (arrives k) chunks).or (acc.get k)

theorem took_cons {acc next : Value} (hstep : ∀ k ∈ MEASURED_KEYS,
    next.get k = (arrives k chunk).or (acc.get k)) (h : Took next chunks out) :
    Took acc (chunk :: chunks) out := by
  intro k hk
  rw [h k hk, hstep k hk, lastOf_cons, Option.or_assoc]

theorem mergeChunks_parallel (h : Parallel acc acc')
    (hr : mergeChunks (some acc) chunks = .ok (some out)) :
    ∃ out', mergeChunks (some acc') (chunks.map dropNulls) = .ok (some out') ∧
      Parallel out out' ∧ Took acc chunks out ∧ Took acc' (chunks.map dropNulls) out' := by
  induction chunks generalizing acc acc' with
  | nil =>
    cases hr
    exact ⟨acc', rfl, h, fun k _ => rfl, fun k _ => rfl⟩
  | cons chunk chunks ih =>
    obtain ⟨⟨slots, hs, hs'⟩, hframe⟩ := h
    rw [mergeChunks, List.foldlM_cons, Fallible.bind_eq_ok_iff] at hr
    obtain ⟨next, hnext, hr⟩ := hr
    obtain ⟨next, hmerge, rfl⟩ := Fallible.map_eq_ok_iff.1 hnext
    obtain ⟨slots', hslots⟩ := mergeInto_slots hs hmerge
    obtain ⟨_, hmerge₁, hchoices, hget⟩ := mergeInto_ok hs hslots
    cases hmerge.symm.trans hmerge₁
    have hslots' : slotsAfter slots (dropNulls chunk) = .ok slots' := by
      rw [slotsAfter_dropNulls, hslots]
    obtain ⟨next', hmerge', hchoices', hget'⟩ := mergeInto_ok hs' hslots'
    have hparallel : Parallel next next' := by
      refine ⟨⟨slots', hchoices, hchoices'⟩, ?_⟩
      intro k hk
      by_cases hc : k = "choices"
      · rw [hc, hchoices, hchoices']
      · rw [hget k hc, hget' k hc, arrives_frame hk, arrives_frame hk, hframe k hk]
    obtain ⟨out', hr', hout, htook, htook'⟩ := ih hparallel hr
    have hmeasured : ∀ k ∈ MEASURED_KEYS, k ≠ "choices" := by decide
    refine ⟨out', ?_, hout, took_cons (fun k hk => hget k (hmeasured k hk)) htook,
      took_cons (fun k hk => hget' k (hmeasured k hk)) htook'⟩
    rw [List.map_cons, mergeChunks, List.foldlM_cons, mergeChunk, hmerge']
    exact hr'

theorem envelope_get (h : envelope chunk = .ok acc) (hl : l ≠ "choices") :
    acc.get l = chunk.get l := by
  rw [envelope] at h
  split at h
  · cases h
    exact Value.get_put_of_ne hl.symm _ _
  · cases chunk with
    | null =>
      cases h
      exact Fields.get_cons_of_ne hl.symm _ _
    | object m =>
      cases h
      exact Fields.get_insert_of_ne hl.symm m _
    | _ => cases h

theorem dropNulls_isObjectOrNull (v : Value) :
    (dropNulls v).isObjectOrNull = v.isObjectOrNull := by
  cases v with
  | _ => rfl

theorem mergeChunks_envelope (h : envelope chunk = .ok acc) (chunks : List Value) :
    mergeChunks none (chunk :: chunks) = mergeChunks (some acc) (chunk :: chunks) := by
  rw [mergeChunks, mergeChunks, List.foldlM_cons, List.foldlM_cons, mergeChunk, mergeChunk, h,
    Fallible.ok_bind]

theorem lastOf_map (g : β → Option γ) (h : α → β) (as : List α) :
    lastOf g (as.map h) = lastOf (fun a => g (h a)) as := by
  rw [lastOf, lastOf, ← List.map_reverse, List.findSome?_map]
  rfl

theorem lastOf_or_first (g : α → Option β) (a : α) (as : List α) :
    (lastOf g (a :: as)).or (g a) = lastOf g (a :: as) := by
  rw [lastOf_cons, Option.or_assoc, Option.or_self]

theorem block_filter (k : String) (v : Value) :
    (block k v).filter (!·.isNull) = block k v := by
  rw [block, Option.filter_filter]
  congr 1
  funext x
  exact Bool.and_self _

theorem lastOf_block_filter (k : String) (chunks : List Value) :
    (lastOf (block k) chunks).filter (!·.isNull) = lastOf (block k) chunks := by
  cases h : lastOf (block k) chunks with
  | none => rfl
  | some x =>
    obtain ⟨c, _, hc⟩ := List.exists_of_findSome?_eq_some h
    rw [← hc, block_filter]

/-- The measured keys of a folded body, as the chunks have them. -/
structure Folds (chunks : List Value) (body : Value) : Prop where
  raw : ∀ k ∈ ["usage", "timings"], body.get k = lastOf (·.get k) chunks
  kept : ∀ k ∈ ["metrics", "model"], block k body = lastOf (block k) chunks

theorem arrives_raw (hk : k ∈ ["usage", "timings"]) : arrives k = (·.get k) := by
  have hor : k = "usage" ∨ k = "timings" := by simpa using hk
  funext chunk
  rw [arrives, if_pos hor]

theorem arrives_kept (hk : k ∈ ["metrics", "model"]) : arrives k = block k := by
  have hraw : ¬ (k = "usage" ∨ k = "timings") := by
    revert k
    decide
  have hor : k = "model" ∨ k = "metrics" := by
    revert k
    decide
  funext chunk
  rw [arrives, if_neg hraw, if_pos hor]

theorem folds_of_took (hget : ∀ k ∈ MEASURED_KEYS, acc.get k = chunk.get k)
    (h : Took acc (chunk :: chunks) body) : Folds (chunk :: chunks) body := by
  constructor
  · intro k hk
    have hkey : k ∈ MEASURED_KEYS := by
      revert k
      decide
    rw [h k hkey, hget k hkey, arrives_raw hk]
    exact lastOf_or_first _ _ _
  · intro k hk
    have hkey : k ∈ MEASURED_KEYS := by
      revert k
      decide
    rw [block, h k hkey, hget k hkey, arrives_kept hk]
    have hfilter := lastOf_block_filter k (chunk :: chunks)
    cases hlast : lastOf (block k) (chunk :: chunks) with
    | some x =>
      rw [hlast] at hfilter
      exact hfilter
    | none =>
      rw [Option.none_or]
      exact lastOf_eq_none_iff.1 hlast chunk List.mem_cons_self

theorem block_dropNulls (hk : k ∈ MEASURED_KEYS) (v : Value) :
    block k (dropNulls v) = block k v := by
  rw [block, get_dropNulls, if_pos hk, block_filter]

/-- A list of chunks and the one without nulls fold alike. -/
theorem mergeChunks_dropNulls (h : mergeChunks none chunks = .ok (some body)) :
    ∃ body', mergeChunks none (chunks.map dropNulls) = .ok (some body') ∧
      (∀ k, k ∉ MEASURED_KEYS → body.get k = body'.get k) ∧ Folds chunks body ∧
      ∀ k ∈ MEASURED_KEYS, body'.get k = lastOf (block k) chunks := by
  cases chunks with
  | nil => cases h
  | cons chunk chunks =>
    have hchunk := h
    rw [mergeChunks, List.foldlM_cons, Fallible.bind_eq_ok_iff] at hchunk
    obtain ⟨_, hfirst, _⟩ := hchunk
    obtain ⟨first, hfirst, _⟩ := Fallible.map_eq_ok_iff.1 hfirst
    rw [mergeChunk, Fallible.bind_eq_ok_iff] at hfirst
    obtain ⟨acc, henvelope, _⟩ := hfirst
    have hobject := (envelope_isOk_iff chunk).1 (Fallible.isOk_iff.2 ⟨acc, henvelope⟩)
    obtain ⟨acc', henvelope'⟩ := Fallible.isOk_iff.1
      ((envelope_isOk_iff (dropNulls chunk)).2 (by rw [dropNulls_isObjectOrNull, hobject]))
    have hne : ∀ k ∈ MEASURED_KEYS, k ≠ "choices" := by decide
    have hparallel : Parallel acc acc' := by
      refine ⟨⟨[], envelope_ok henvelope, envelope_ok henvelope'⟩, ?_⟩
      intro k hk
      by_cases hc : k = "choices"
      · rw [hc, envelope_ok henvelope, envelope_ok henvelope']
      · rw [envelope_get henvelope hc, envelope_get henvelope' hc, get_dropNulls, if_neg hk]
    rw [mergeChunks_envelope henvelope] at h
    obtain ⟨body', hbody', hout, htook, htook'⟩ := mergeChunks_parallel hparallel h
    rw [List.map_cons, ← mergeChunks_envelope henvelope', ← List.map_cons] at hbody'
    refine ⟨body', hbody', hout.2,
      folds_of_took (fun k hk => envelope_get henvelope (hne k hk)) htook, ?_⟩
    intro k hk
    have harrives : ∀ c, arrives k (dropNulls c) = block k c := by
      intro c
      have hcases : k ∈ ["usage", "timings"] ∨ k ∈ ["metrics", "model"] := by
        revert k
        decide
      rcases hcases with hraw | hkept
      · rw [arrives_raw hraw]
        exact (get_dropNulls c k).trans (if_pos hk)
      · rw [arrives_kept hkept, block_dropNulls hk]
    have hfirst : acc'.get k = block k chunk := by
      rw [envelope_get henvelope' (hne k hk), get_dropNulls, if_pos hk]
    rw [htook' k hk, lastOf_map, hfirst, funext harrives]
    exact lastOf_or_first _ _ _

/-- The numbers of a sample. -/
structure Measurement (F : Type) where
  promptTokens : Option UInt64
  completionTokens : Option UInt64
  totalTokens : UInt64
  cachedTokens : Option UInt64
  cacheCreationTokens : Option UInt64
  reasoningTokens : Option UInt64
  acceptedPredictionTokens : Option UInt64
  rejectedPredictionTokens : Option UInt64
  contextUsed : Option UInt64
  contextTotal : Option UInt64
  promptMs : F
  generationMs : F
  queueMs : Option F
  meanItlMs : Option F
  durationMs : F
  promptTps : Option F
  generationTps : Option F
  totalTps : F
  decodeTpsMin : F
  hasTimingSplit : Bool

def measured (m : RequestMetrics F) : Measurement F where
  promptTokens := m.promptTokens
  completionTokens := m.completionTokens
  totalTokens := m.totalTokens
  cachedTokens := m.cachedTokens
  cacheCreationTokens := m.cacheCreationTokens
  reasoningTokens := m.reasoningTokens
  acceptedPredictionTokens := m.acceptedPredictionTokens
  rejectedPredictionTokens := m.rejectedPredictionTokens
  contextUsed := m.contextUsed
  contextTotal := m.contextTotal
  promptMs := m.promptMs
  generationMs := m.generationMs
  queueMs := m.queueMs
  meanItlMs := m.meanItlMs
  durationMs := m.durationMs
  promptTps := m.promptTps
  generationTps := m.generationTps
  totalTps := m.totalTps
  decodeTpsMin := m.decodeTpsMin
  hasTimingSplit := m.hasTimingSplit

/-- A body measures like one without its nulls: no null has erased a block, and none is taken
for timings. -/
structure NullIsAbsent (f : JsonFloats F) (body body' : Value) : Prop where
  same : ∀ now request streaming durationMs,
    measured (fromResponse f now body request streaming durationMs) =
      measured (fromResponse f now body' request streaming durationMs)
  notErased : ∀ k ∈ MEASURED_KEYS, block k body = block k body'
  notSwitched : body.get "timings" ≠ some .null

/-- No null stands last where it does harm. -/
structure NullsHarmless (chunks : List Value) : Prop where
  usage : lastOf (·.get "usage") chunks = some .null → ∀ c ∈ chunks, block "usage" c = none
  timings : lastOf (·.get "timings") chunks ≠ some .null

theorem nullIsAbsent_of_readAlike (f : JsonFloats F) (h : ReadAlike body body')
    (htimings : body.get "timings" ≠ some .null) : NullIsAbsent f body body' where
  same now request streaming durationMs := by rw [fromResponse_congr f h]
  notErased := h.blocks
  notSwitched := htimings

theorem all_of_ne_null {x : Option Value} (h : x ≠ some .null) : x.all (!·.isNull) = true := by
  cases x with
  | none => rfl
  | some v =>
    cases v with
    | null => exact absurd rfl h
    | _ => rfl

/-- What is folded from chunks measures as if their nulls were absent exactly where no null
stands last that does harm; a whole body, where its timings are not null. -/
theorem nullIsAbsent_iff (f : JsonFloats F) :
    (∀ chunks body, mergeChunks none chunks = .ok (some body) →
      ∃ body', mergeChunks none (chunks.map dropNulls) = .ok (some body') ∧
        (NullIsAbsent f body body' ↔ NullsHarmless chunks)) ∧
      ∀ body, NullIsAbsent f body (dropNulls body) ↔ body.get "timings" ≠ some .null := by
  constructor
  · intro chunks body h
    obtain ⟨body', hbody', hframe, hfolds, hget'⟩ := mergeChunks_dropNulls h
    have hmeasured : ∀ k ∈ MEASURED_KEYS, block k body' = lastOf (block k) chunks := by
      intro k hk
      rw [block, hget' k hk, lastOf_block_filter]
    have husage := hfolds.raw "usage" (by decide)
    have htimings := hfolds.raw "timings" (by decide)
    refine ⟨body', hbody', ?_⟩
    constructor
    · intro hlaw
      constructor
      · intro hnull
        have herased := hlaw.notErased "usage" (by decide)
        rw [block, husage, hnull, hmeasured "usage" (by decide)] at herased
        exact lastOf_eq_none_iff.1 herased.symm
      · rw [← htimings]
        exact hlaw.notSwitched
    · intro hharmless
      have htimings' : body.get "timings" = body'.get "timings" := by
        have hlast := lastOf_filter_iff.2
          (.inl (all_of_ne_null hharmless.timings))
        rw [htimings, hget' "timings" (by decide), ← filter_notNull _ hharmless.timings, hlast]
        rfl
      have husage' : block "usage" body = block "usage" body' := by
        rw [hmeasured "usage" (by decide), block, husage]
        apply lastOf_filter_iff.2
        by_cases hnull : lastOf (·.get "usage") chunks = some .null
        · exact .inr (hharmless.usage hnull)
        · exact .inl (all_of_ne_null hnull)
      apply nullIsAbsent_of_readAlike f _ (by rw [htimings]; exact hharmless.timings)
      refine ⟨hframe, ?_, htimings'⟩
      intro k hk
      have hcases : k = "usage" ∨ k = "timings" ∨ k ∈ ["metrics", "model"] := by
        revert k
        decide
      rcases hcases with rfl | rfl | hkept
      · exact husage'
      · rw [block, block, htimings']
      · rw [hmeasured k hk, hfolds.kept k hkept]
  · intro body
    constructor
    · intro hlaw
      exact hlaw.notSwitched
    · intro htimings
      apply nullIsAbsent_of_readAlike f _ htimings
      constructor
      · intro k hk
        rw [get_dropNulls, if_neg hk]
      · intro k hk
        rw [block_dropNulls hk]
      · rw [get_dropNulls, if_pos (by decide), block, filter_notNull _ htimings]

/-- Whole numbers in the place of `f64`. -/
def wholeNumbers : JsonFloats Int where
  ofU64 n := n.toNat
  mul := (· * ·)
  div := (· / ·)
  lt x y := decide (x < y)
  le x y := decide (x ≤ y)
  isFinite _ := true
  nan := 0
  minPositive := 1
  ofI64 n := n.toInt
  ofBits _ := 0

def usageChunk : Value :=
  .object [("choices", .array []), ("usage", .object [("prompt_tokens", .number (.posInt 5)),
    ("completion_tokens", .number (.posInt 3))])]

def nullUsageChunk : Value := .object [("choices", .array []), ("usage", .null)]

def nullTimingsChunk : Value := .object [("choices", .array []), ("timings", .null)]

theorem nullIsAbsent_iff_early : ∃ body body',
    mergeChunks none [nullUsageChunk, usageChunk] = .ok (some body) ∧
      mergeChunks none ([nullUsageChunk, usageChunk].map dropNulls) = .ok (some body') ∧
      NullIsAbsent wholeNumbers body body' := by
  obtain ⟨body', hbody', hiff⟩ := (nullIsAbsent_iff wholeNumbers).1 [nullUsageChunk, usageChunk] _ rfl
  refine ⟨_, body', rfl, hbody', hiff.2 ⟨?_, ?_⟩⟩
  · decide
  · decide

/-- A later null erases the usage of an earlier chunk, and null timings switch off the context. -/
theorem null_erases :
    (¬ ∀ body body', mergeChunks none [usageChunk, nullUsageChunk] = .ok (some body) →
      mergeChunks none ([usageChunk, nullUsageChunk].map dropNulls) = .ok (some body') →
      measured (fromResponse wholeNumbers 0 body .null true 1000) =
        measured (fromResponse wholeNumbers 0 body' .null true 1000)) ∧
      ¬ ∀ body body', mergeChunks none [usageChunk, nullTimingsChunk] = .ok (some body) →
        mergeChunks none ([usageChunk, nullTimingsChunk].map dropNulls) = .ok (some body') →
        measured (fromResponse wholeNumbers 0 body .null true 1000) =
          measured (fromResponse wholeNumbers 0 body' .null true 1000) := by
  constructor
  · intro h
    have hprompt := congrArg Measurement.promptTokens (h _ _ rfl rfl)
    revert hprompt
    decide
  · intro h
    have hcontext := congrArg Measurement.contextUsed (h _ _ rfl rfl)
    revert hcontext
    decide

end LocalMind.Collector
