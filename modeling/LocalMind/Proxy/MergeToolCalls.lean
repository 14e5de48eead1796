import LocalMind.Proxy.MergeFiling

namespace LocalMind
set_option autoImplicit true
open Json

/-! Tool calls that are cut into fragments. -/

structure CallHead where
  id : String
  name : String
deriving DecidableEq

/-- A fragment of a call: its first one, which may carry a piece of the arguments, or a later
one. -/
inductive CallPiece where
  | first (index : Nat) (call : CallHead) (piece : Option String)
  | later (index : Nat) (piece : String)
deriving DecidableEq

namespace CallPiece

def index : CallPiece → Nat
  | first index _ _ => index
  | later index _ => index

def piece : CallPiece → Option String
  | first _ _ piece => piece
  | later _ piece => some piece

end CallPiece

/-- What a fragment says beside its index and its piece. -/
def CarriesHead (v : Value) (func : List (String × Value)) : CallPiece → Prop
  | .first _ call _ => v.get "id" = some (.string call.id) ∧
      Fields.get func "name" = some (.string call.name)
  | .later _ _ => (Fields.get func "name").bind Value.asStr = none

/-- An entry of a `tool_calls` array carries a fragment. -/
structure CarriesPiece (v : Value) (p : CallPiece) : Prop where
  index : ∃ n : UInt64, n.toNat = p.index ∧ v.get "index" = some (.number (.posInt n))
  function : ∃ func, v.get "function" = some (.object func) ∧
    (Fields.get func "arguments").bind Value.asStr = p.piece ∧ CarriesHead v func p

/-- The `tool_calls` of a delta: an array of fragments, or nothing. -/
def CarriesArray (delta : Value) : Option (List CallPiece) → Prop
  | none => delta.get "tool_calls" = none ∨ delta.get "tool_calls" = some .null
  | some ps => ∃ vs, delta.get "tool_calls" = some (.array vs) ∧ List.Forall₂ CarriesPiece vs ps

/-- A chunk of one choice whose delta carries these fragments. -/
structure CarriesGroup (chunk : Value) (group : Option (List CallPiece)) : Prop where
  choice : ∃ choice delta, chunk.get "choices" = some (.array [choice]) ∧
    (∀ m, choice = .object m → (Fields.keys m).Nodup) ∧
    choice.get "delta" = some delta ∧ CarriesArray delta group

/-- The arrays of a run of groups. -/
def arraysOf (groups : List (Option (List CallPiece))) : List (List CallPiece) :=
  groups.filterMap id

/-- The fragments of a run of groups in their order. -/
def piecesOf (groups : List (Option (List CallPiece))) : List CallPiece :=
  (arraysOf groups).flatten

def ofCall (k : Nat) (run : List CallPiece) : List CallPiece := run.filter fun p => p.index = k

/-- The fragments of a call: one that opens it, then pieces of its arguments. -/
def Opens (k : Nat) (call : CallHead) (ps : List CallPiece) : Prop :=
  ∃ piece, ∃ pieces : List String, ps = .first k call piece :: pieces.map (.later k)

/-- A run that interleaves the fragments of these calls. -/
structure CutOf (heads : List CallHead) (run : List CallPiece) : Prop where
  indices : ∀ p ∈ run, p.index < heads.length
  opens : ∀ k call, heads[k]? = some call → Opens k call (ofCall k run)

/-- The pieces put together, where there are any. -/
def joined (pieces : List String) : Option String :=
  if pieces = [] then none else some (String.join pieces)

/-- A merged entry holds a call and the arguments its fragments bring. -/
structure HoldsCall (v : Value) (call : CallHead) (pieces : List String) : Prop where
  id : v.get "id" = some (.string call.id)
  function : ∃ func, v.get "function" = some (.object func) ∧
    Fields.get func "name" = some (.string call.name) ∧
    (Fields.get func "arguments").bind Value.asStr = joined pieces

/-- The tool calls of the first choice of an accumulator. -/
def reassembledCalls (acc : Option Value) : List Value :=
  ((((slotsOf acc).head?.bind (·.get "message")).bind (·.get "tool_calls")).bind
    Value.asArray).getD []

/-- Each call stands at its index, with all of its pieces. -/
def Reassembles (heads : List CallHead) (run : List CallPiece) (acc : Option Value) : Prop :=
  ∀ k call, heads[k]? = some call → ∃ v, (reassembledCalls acc)[k]? = some v ∧
    HoldsCall v call ((ofCall k run).filterMap CallPiece.piece)

/-- The fragments of the first array stand at their indices; later ones stay below the cap. -/
def Placed (groups : List (Option (List CallPiece))) : Prop :=
  match arraysOf groups with
  | [] => True
  | ps :: rest => (∀ (i : Nat) (p : CallPiece), ps[i]? = some p → p.index = i) ∧
      ∀ qs ∈ rest, ∀ q ∈ qs, q.index ≤ MAX_TRACKED_BLOCK_INDEX

/-! Slots. -/

/-- What a slot holds once these fragments of its call have been merged. -/
def HoldsSlot (slot : Option Value) : List CallPiece → Prop
  | [] => ∀ v, slot = some v → v = .null
  | .first _ call piece :: rest => ∃ v, slot = some v ∧
      HoldsCall v call (piece.toList ++ rest.filterMap CallPiece.piece)
  | .later _ _ :: _ => False

def HoldsSlots (arr : List Value) (run : List CallPiece) : Prop :=
  ∀ k, HoldsSlot arr[k]? (ofCall k run)

/-- Every call of a run is opened before its other fragments. -/
def WellCut (run : List CallPiece) : Prop :=
  ∀ k, ofCall k run = [] ∨ ∃ call, Opens k call (ofCall k run)

theorem ofCall_append (k : Nat) (run ps : List CallPiece) :
    ofCall k (run ++ ps) = ofCall k run ++ ofCall k ps := List.filter_append ..

theorem ofCall_concat_self (run : List CallPiece) (p : CallPiece) :
    ofCall p.index (run ++ [p]) = ofCall p.index run ++ [p] := by
  rw [ofCall_append]
  congr 1
  simp [ofCall]

theorem ofCall_concat_of_ne (run : List CallPiece) {p : CallPiece} (h : p.index ≠ k) :
    ofCall k (run ++ [p]) = ofCall k run := by
  rw [ofCall_append]
  simp [ofCall, h]

theorem CutOf.wellCut (h : CutOf heads run) : WellCut run := by
  intro k
  cases hk : heads[k]? with
  | some call => exact .inr ⟨call, h.opens k call hk⟩
  | none =>
    apply Or.inl
    rw [ofCall, List.filter_eq_nil_iff]
    intro p hp hi
    have hlt := h.indices p hp
    have hle := List.getElem?_eq_none_iff.1 hk
    have heq : p.index = k := by simpa using hi
    omega

/-- What was merged before a later part of a run was well cut too. -/
theorem WellCut.of_append (h : WellCut (run ++ rest)) : WellCut run := by
  intro k
  have hk := h k
  rw [ofCall_append] at hk
  cases hr : ofCall k run with
  | nil => exact .inl rfl
  | cons p ps =>
    rw [hr] at hk
    obtain hk | ⟨call, piece, pieces, hk⟩ := hk
    · cases hk
    · obtain ⟨hp, hps⟩ := List.cons.inj hk
      obtain ⟨as, bs, -, has, -⟩ := List.append_eq_map_iff.1 hps
      refine .inr ⟨call, piece, as, ?_⟩
      rw [hp, has]

theorem joined_concat (pieces : List String) (piece : String) :
    joined (pieces ++ [piece]) = some ((joined pieces).getD "" ++ piece) := by
  rw [joined, if_neg (by simp), joined]
  cases pieces with
  | nil => simp
  | cons s pieces => simp [String.append_assoc]

/-- A later fragment appends its piece. -/
theorem HoldsCall.merge (h : HoldsCall v call pieces) (hp : CarriesPiece w (.later k piece)) :
    ∃ v', mergeToolCallSlot v w = .ok v' ∧ HoldsCall v' call (pieces ++ [piece]) := by
  obtain ⟨func, hfunc, hargs, hname⟩ := hp.function
  obtain ⟨accFunc, haccFunc, haccName, haccArgs⟩ := h.function
  have hmerged : mergeToolCallSlot v w = .ok (v.put "function"
      (.object (mergeFunctionArguments accFunc (.object func)))) := by
    have hkept : mergeFunctionName accFunc (.object func) = accFunc := by
      rw [mergeFunctionName, Value.get_object, hname]
    rw [mergeToolCallSlot, hfunc, haccFunc]
    dsimp only
    rw [hkept]
  have hset : mergeFunctionArguments accFunc (.object func) = Fields.insert accFunc "arguments"
      (.string ((joined pieces).getD "" ++ piece)) := by
    rw [mergeFunctionArguments, Value.get_object, hargs, CallPiece.piece]
    dsimp only
    rw [← haccArgs]
    cases Fields.get accFunc "arguments" with
    | none => simp
    | some x => cases x <;> simp [Value.asStr]
  refine ⟨_, hmerged, ?_, _, Value.get_put_of_get haccFunc _, ?_, ?_⟩
  · rw [Value.get_put_of_ne (by decide)]
    exact h.id
  · rw [hset, Fields.get_insert_of_ne (by decide)]
    exact haccName
  · rw [hset, Fields.get_insert_self, joined_concat]
    rfl

/-- An entry that opens a call holds it. -/
theorem CarriesPiece.holds (h : CarriesPiece v (.first k call piece)) :
    HoldsCall v call piece.toList := by
  obtain ⟨func, hfunc, hargs, hid, hname⟩ := h.function
  refine ⟨hid, func, hfunc, hname, ?_⟩
  rw [hargs, CallPiece.piece]
  cases piece with
  | none => rfl
  | some s => simp [joined]

theorem HoldsCall.isNull (h : HoldsCall v call pieces) : v.isNull = false := by
  obtain ⟨m, rfl⟩ := Value.object_of_get h.id
  rfl

/-! One fragment. -/

theorem padTo_getElem? (arr : List Value) (idx k : Nat) :
    (padTo arr idx)[k]? = arr[k]? ∨ arr[k]? = none ∧ (padTo arr idx)[k]? = some .null := by
  rw [padTo]
  by_cases hk : k < arr.length
  · exact .inl (List.getElem?_append_left hk)
  · rw [List.getElem?_append_right (Nat.le_of_not_lt hk), List.getElem?_replicate,
      List.getElem?_eq_none (Nat.le_of_not_lt hk)]
    split
    · exact .inr ⟨rfl, rfl⟩
    · exact .inl rfl

theorem lt_length_padTo (arr : List Value) (idx : Nat) : idx < (padTo arr idx).length := by
  rw [padTo, List.length_append, List.length_replicate]
  omega

theorem HoldsSlot.of_null (h : HoldsSlot none ps) : HoldsSlot (some .null) ps := by
  cases ps with
  | nil =>
    intro v hv
    exact (Option.some.inj hv).symm
  | cons p ps =>
    cases p with
    | first k call piece =>
      obtain ⟨v, hv, -⟩ := h
      cases hv
    | later k piece => exact h

theorem HoldsSlots.padTo (h : HoldsSlots arr run) (idx : Nat) :
    HoldsSlots (padTo arr idx) run := by
  intro k
  have hk := h k
  obtain heq | ⟨hnone, hnull⟩ := padTo_getElem? arr idx k
  · rw [heq]
    exact hk
  · rw [hnone] at hk
    rw [hnull]
    exact hk.of_null

/-- A slot is replaced by one that has merged a fragment of its call. -/
theorem HoldsSlots.set (h : HoldsSlots arr run) (hlt : p.index < arr.length)
    (hv : HoldsSlot (some v) (ofCall p.index run ++ [p])) :
    HoldsSlots (arr.set p.index v) (run ++ [p]) := by
  intro k
  by_cases hk : p.index = k
  · subst hk
    rw [List.getElem?_set_self hlt, ofCall_concat_self]
    exact hv
  · rw [List.getElem?_set_ne hk, ofCall_concat_of_ne run hk]
    exact h k

theorem mergeToolCall_holds (h : HoldsSlots arr run) (hcut : WellCut (run ++ [p]))
    (hp : CarriesPiece w p) (hle : p.index ≤ MAX_TRACKED_BLOCK_INDEX) :
    ∃ arr', mergeToolCall arr w = .ok arr' ∧ HoldsSlots arr' (run ++ [p]) := by
  obtain ⟨n, hn, hindex⟩ := hp.index
  have hidx : (w.get "index").bind Value.asU64 = some n := by rw [hindex]; rfl
  have hpad := h.padTo p.index
  have hlt := lt_length_padTo arr p.index
  have hslot := hpad p.index
  rw [List.getElem?_eq_getElem hlt] at hslot
  have hget : (padTo arr p.index).getD p.index .null = (padTo arr p.index)[p.index] := by
    rw [List.getD_eq_getElem?_getD, List.getElem?_eq_getElem hlt]
    rfl
  rw [mergeToolCall, hidx]
  dsimp only
  rw [hn, if_neg (Nat.not_lt.2 hle), hget]
  generalize (padTo arr p.index)[p.index] = slot at hslot
  have hself := hcut p.index
  rw [ofCall_concat_self] at hself
  cases hr : ofCall p.index run with
  | nil =>
    rw [hr] at hself hslot
    obtain hself | ⟨call, piece, pieces, hself⟩ := hself
    · cases hself
    · have hfirst : p = .first p.index call piece := (List.cons.inj hself).1
      rw [hslot slot rfl]
      refine ⟨_, rfl, hpad.set hlt ?_⟩
      rw [hr]
      rw [hfirst] at hp ⊢
      refine ⟨w, rfl, ?_⟩
      rw [List.filterMap_nil, List.append_nil]
      exact hp.holds
  | cons q qs =>
    rw [hr] at hself hslot
    obtain hself | ⟨call, piece, pieces, hself⟩ := hself
    · cases hself
    · obtain ⟨rfl, hlater⟩ := List.cons.inj hself
      obtain ⟨v, hv, hcall⟩ := hslot
      cases hv
      have hmem : p ∈ pieces.map (CallPiece.later p.index) := by
        rw [← hlater]
        exact List.mem_append_right qs (List.mem_singleton_self p)
      obtain ⟨s, -, hs⟩ := List.mem_map.1 hmem
      rw [← hs] at hp
      obtain ⟨v', hv', hcall'⟩ := hcall.merge hp
      rw [hcall.isNull, hv']
      refine ⟨_, rfl, hpad.set hlt ?_⟩
      rw [hr]
      refine ⟨v', rfl, ?_⟩
      change HoldsCall v' call (piece.toList ++ (qs ++ [p]).filterMap CallPiece.piece)
      rw [← hs, List.filterMap_append, ← List.append_assoc]
      exact hcall'

theorem mergeToolCall_run (h : HoldsSlots arr run) (hcut : WellCut (run ++ ps))
    (hps : List.Forall₂ CarriesPiece vs ps) (hle : ∀ p ∈ ps, p.index ≤ MAX_TRACKED_BLOCK_INDEX) :
    ∃ arr', vs.foldlM mergeToolCall arr = .ok arr' ∧ HoldsSlots arr' (run ++ ps) := by
  induction hps generalizing arr run with
  | nil =>
    rw [List.append_nil]
    exact ⟨arr, rfl, h⟩
  | cons hp _ ih =>
    rw [List.append_cons] at hcut
    obtain ⟨hpe, hrest⟩ := List.forall_mem_cons.1 hle
    obtain ⟨arr', ha, hholds⟩ := mergeToolCall_holds h hcut.of_append hp hpe
    obtain ⟨out, ho, hout⟩ := ih hholds hcut hrest
    refine ⟨out, ?_, ?_⟩
    · rw [List.foldlM_cons, ha]
      exact ho
    · rw [List.append_cons]
      exact hout

/-! The first array is taken as it is. -/

theorem ofCall_placed (h : ∀ (i : Nat) (p : CallPiece), ps[i]? = some p → p.index = off + i)
    (k : Nat) : ofCall (off + k) ps = ps[k]?.toList := by
  induction ps generalizing off k with
  | nil => rfl
  | cons p ps ih =>
    have hp : p.index = off := h 0 p rfl
    have htail : ∀ (i : Nat) (q : CallPiece), ps[i]? = some q → q.index = off + 1 + i := by
      intro i q hq
      rw [h (i + 1) q hq]
      omega
    cases k with
    | zero =>
      have hnone : ofCall off ps = [] := by
        rw [ofCall, List.filter_eq_nil_iff]
        intro q hq hi
        obtain ⟨i, hget⟩ := List.getElem?_of_mem hq
        have hindex := htail i q hget
        have heq : q.index = off := by simpa using hi
        omega
      rw [ofCall] at hnone
      simp [ofCall, hp, hnone]
    | succ k =>
      have hskip : ofCall (off + (k + 1)) (p :: ps) = ofCall (off + 1 + k) ps := by
        rw [ofCall, List.filter_cons_of_neg (by simp [hp]), ofCall]
        congr 2
        funext q
        rw [Nat.add_assoc, Nat.add_comm k 1]
      rw [hskip, ih htail k, List.getElem?_cons_succ]

theorem holdsSlots_placed (hps : List.Forall₂ CarriesPiece vs ps)
    (hplaced : ∀ (i : Nat) (p : CallPiece), ps[i]? = some p → p.index = i) (hcut : WellCut ps) :
    HoldsSlots vs ps := by
  intro k
  have hcall : ofCall k ps = ps[k]?.toList := by
    have hoff := @ofCall_placed ps 0 (fun i p hp => by rw [hplaced i p hp, Nat.zero_add]) k
    rwa [Nat.zero_add] at hoff
  have hk := hcut k
  rw [hcall] at hk ⊢
  cases hp : ps[k]? with
  | none =>
    rw [List.getElem?_eq_none_iff, ← hps.length_eq, ← List.getElem?_eq_none_iff] at hp
    rw [hp]
    intro v hv
    cases hv
  | some p =>
    rw [hp] at hk
    obtain ⟨hlt, hget⟩ := List.getElem?_eq_some_iff.1 hp
    have hltv : k < vs.length := hps.length_eq ▸ hlt
    have hv : vs[k]? = some vs[k] := List.getElem?_eq_getElem hltv
    have hcarries : CarriesPiece vs[k] p := by
      rw [← hget]
      exact (List.forall₂_iff_get.1 hps).2 k hltv hlt
    obtain hk | ⟨call, piece, pieces, hk⟩ := hk
    · cases hk
    · obtain ⟨rfl, hnil⟩ := List.cons.inj hk
      rw [hv]
      refine ⟨vs[k], rfl, ?_⟩
      rw [List.filterMap_nil, List.append_nil]
      exact hcarries.holds

/-! One chunk. -/

/-- The tool calls of a message after these arrays: none yet, or slots with their fragments. -/
def HoldsArrays (t : Value) : List (List CallPiece) → Prop
  | [] => t = .null
  | arrays => ∃ arr, t = .array arr ∧ HoldsSlots arr arrays.flatten

/-- The next array is placed: as the first one, or below the cap. -/
def NextPlaced (arrays : List (List CallPiece)) (ps : List CallPiece) : Prop :=
  match arrays with
  | [] => ∀ (i : Nat) (p : CallPiece), ps[i]? = some p → p.index = i
  | _ => ∀ p ∈ ps, p.index ≤ MAX_TRACKED_BLOCK_INDEX

theorem mergeToolCalls_holds (h : HoldsArrays t arrays)
    (hps : List.Forall₂ CarriesPiece vs ps) (hcut : WellCut (arrays.flatten ++ ps))
    (hplaced : NextPlaced arrays ps) :
    ∃ t', mergeToolCalls (.array vs) t = .ok t' ∧ HoldsArrays t' (arrays ++ [ps]) := by
  cases arrays with
  | nil =>
    obtain rfl : t = .null := h
    refine ⟨.array vs, rfl, vs, rfl, ?_⟩
    rw [List.nil_append, List.flatten_singleton]
    exact holdsSlots_placed hps hplaced hcut
  | cons qs arrays =>
    obtain ⟨arr, rfl, hslots⟩ := h
    obtain ⟨arr', ha, hslots'⟩ := mergeToolCall_run hslots hcut hps hplaced
    refine ⟨.array arr', ?_, arr', rfl, ?_⟩
    · rw [mergeToolCalls, ha]
      rfl
    · rw [List.flatten_append, List.flatten_singleton]
      exact hslots'

/-- A delta leaves the calls to its `tool_calls` alone. -/
theorem mergeMessage_slots (h : m.isObjectOrNull = true) (delta : Value) :
    ∃ m₁, m₁.isObjectOrNull = true ∧ m₁.get "tool_calls" = m.get "tool_calls" ∧
      mergeMessage delta m = toolCallsInto delta m₁ := by
  have hr := writesField_roleInto delta
  have hc := writesField_textInto "content" delta
  have ht := writesField_textInto "reasoning_text" delta
  have ho := writesField_opaqueInto delta
  obtain ⟨m₁, h₁, s₁⟩ := hr.total h
  obtain ⟨m₂, h₂, s₂⟩ := hc.total s₁
  obtain ⟨m₃, h₃, s₃⟩ := ht.total s₂
  obtain ⟨m₄, h₄, s₄⟩ := ho.total s₃
  refine ⟨m₄, s₄, ?_, ?_⟩
  · rw [ho.frame h₄ "tool_calls" (by decide), ht.frame h₃ "tool_calls" (by decide),
      hc.frame h₂ "tool_calls" (by decide), hr.frame h₁ "tool_calls" (by decide)]
  · rw [mergeMessage, h₁, Fallible.ok_bind, h₂, Fallible.ok_bind, h₃, Fallible.ok_bind, h₄,
      Fallible.ok_bind]

def GroupPlaced (arrays : List (List CallPiece)) (group : Option (List CallPiece)) : Prop :=
  ∀ ps ∈ group, NextPlaced arrays ps

/-- A message whose tool calls hold the fragments of these arrays. -/
structure HoldsMessage (m : Value) (arrays : List (List CallPiece)) : Prop where
  shape : m.isObjectOrNull = true
  toolCalls : ∃ t, m.get "tool_calls" = some t ∧ HoldsArrays t arrays

theorem mergeMessage_holds (h : HoldsMessage m arrays) (hd : CarriesArray delta group)
    (hcut : WellCut (arrays ++ group.toList).flatten) (hplaced : GroupPlaced arrays group) :
    ∃ m', mergeMessage delta m = .ok m' ∧ HoldsMessage m' (arrays ++ group.toList) := by
  obtain ⟨t, ht, harrays⟩ := h.toolCalls
  obtain ⟨m₁, hshape, hkept, heq⟩ := mergeMessage_slots h.shape delta
  rw [heq, toolCallsInto]
  rw [← hkept] at ht
  cases group with
  | none =>
    rw [Option.toList_none, List.append_nil]
    obtain hd | hd := hd
    · rw [hd]
      exact ⟨m₁, rfl, hshape, t, ht, harrays⟩
    · rw [hd]
      dsimp only
      rw [Value.updateM_of_get ht]
      have hnull : mergeToolCalls .null t = .ok t := by
        cases t <;> rfl
      rw [hnull]
      refine ⟨_, rfl, ?_, t, Value.get_put_of_get ht t, harrays⟩
      rw [Value.put_get ht]
      exact hshape
  | some ps =>
    obtain ⟨vs, hvs, hps⟩ := hd
    rw [Option.toList_some, List.flatten_append, List.flatten_singleton] at hcut
    obtain ⟨t', hmerge, harrays'⟩ := mergeToolCalls_holds harrays hps hcut (hplaced ps rfl)
    rw [hvs]
    dsimp only
    rw [Value.updateM_of_get ht, hmerge]
    refine ⟨_, rfl, ?_, t', Value.get_put_of_get ht t', harrays'⟩
    obtain ⟨m₂, rfl⟩ := Value.object_of_get ht
    rfl

/-- A slot of a choice whose message holds the fragments of these arrays. -/
structure HoldsChoice (slot : Value) (arrays : List (List CallPiece)) : Prop where
  message : ∃ m, slot.get "message" = some m ∧ HoldsMessage m arrays

theorem mergeChoice_holds (h : HoldsChoice slot arrays) (hc : choice.get "delta" = some delta)
    (hd : CarriesArray delta group) (hcut : WellCut (arrays ++ group.toList).flatten)
    (hplaced : GroupPlaced arrays group) :
    ∃ merged, mergeChoice slot choice = .ok merged ∧
      HoldsChoice merged (arrays ++ group.toList) := by
  obtain ⟨m, hm, hholds⟩ := h.message
  obtain ⟨m', hm', hholds'⟩ := mergeMessage_holds hholds hd hcut hplaced
  have hslot : slot.isObject = true := Value.isObject_iff.2 (Value.object_of_get hm)
  have hput : (slot.put "message" m').isObject = true := (Value.put_isObject _ _ _).trans hslot
  obtain ⟨merged, hmerged, -, hframe⟩ := mergeFinish_finishOf hput choice
  refine ⟨merged, ?_, m', ?_, hholds'⟩
  · rw [mergeChoice, hc]
    dsimp only
    rw [mergeDelta_eq, Value.updateM_of_get hm, hm']
    exact hmerged
  · rw [hframe "message" (by decide), Value.get_put_of_get hm]

theorem seedChoice_holds {choice : Value}
    (hn : ∀ m, choice = .object m → (Fields.keys m).Nodup)
    (hd : choice.get "delta" = some delta) : HoldsChoice (seedChoice choice) [] :=
  ⟨seedMessage, (seedChoice_of_delta hn hd).1, rfl, .null, rfl, rfl⟩

/-! The whole run. -/

/-- An accumulator of one choice that holds the fragments of these arrays. -/
def HoldsAcc (acc : Option Value) (arrays : List (List CallPiece)) : Prop :=
  (acc = none ∧ arrays = []) ∨
    ∃ a slot, acc = some a ∧ a.get "choices" = some (.array [slot]) ∧ HoldsChoice slot arrays

theorem mergeChunk_holds (h : HoldsAcc acc arrays) (hc : CarriesGroup chunk group)
    (hcut : WellCut (arrays ++ group.toList).flatten) (hplaced : GroupPlaced arrays group) :
    ∃ out, mergeChunk acc chunk = .ok out ∧ HoldsAcc (some out) (arrays ++ group.toList) := by
  obtain ⟨choice, delta, hch, hnodup, hdelta, hgroup⟩ := hc.choice
  obtain ⟨rfl, rfl⟩ | ⟨a, slot, rfl, ha, hslot⟩ := h
  · obtain ⟨merged, hm, hholds⟩ :=
      mergeChoice_holds (seedChoice_holds hnodup hdelta) hdelta hgroup hcut hplaced
    have he : envelope chunk = .ok (chunk.put "choices" (.array [])) := by rw [envelope, hch]
    obtain ⟨out, ho, hg⟩ := ((mergeInto_eq (envelope_ok he) _).2 _ hch).2 [merged] (by
      rw [mergeEach, hm]
      rfl)
    refine ⟨out, ?_, .inr ⟨out, merged, rfl, hg.choices, hholds⟩⟩
    rw [mergeChunk, he]
    exact ho
  · obtain ⟨merged, hm, hholds⟩ := mergeChoice_holds hslot hdelta hgroup hcut hplaced
    obtain ⟨out, ho, hg⟩ := ((mergeInto_eq ha _).2 _ hch).2 [merged] (by
      rw [mergeEach, hm]
      rfl)
    exact ⟨out, ho, .inr ⟨out, merged, rfl, hg.choices, hholds⟩⟩

theorem toList_append_arraysOf (group : Option (List CallPiece))
    (groups : List (Option (List CallPiece))) :
    group.toList ++ arraysOf groups = arraysOf (group :: groups) := by
  cases group with
  | none => rfl
  | some ps => rfl

/-- The groups that are still to come are placed. -/
def RestPlaced (arrays : List (List CallPiece)) (groups : List (Option (List CallPiece))) : Prop :=
  match arrays with
  | [] => Placed groups
  | _ => ∀ ps ∈ arraysOf groups, ∀ p ∈ ps, p.index ≤ MAX_TRACKED_BLOCK_INDEX

theorem RestPlaced.head (h : RestPlaced arrays (group :: groups)) : GroupPlaced arrays group := by
  intro ps hps
  cases hps
  cases arrays with
  | nil => exact h.1
  | cons qs arrays => exact h ps List.mem_cons_self

theorem RestPlaced.tail (h : RestPlaced arrays (group :: groups)) :
    RestPlaced (arrays ++ group.toList) groups := by
  cases arrays with
  | nil =>
    cases group with
    | none => exact h
    | some ps => exact h.2
  | cons qs arrays =>
    intro ps hps
    apply h
    rw [← toList_append_arraysOf]
    exact List.mem_append_right _ hps

theorem mergeChunks_holds (h : HoldsAcc acc arrays)
    (hc : List.Forall₂ CarriesGroup chunks groups)
    (hcut : WellCut (arrays ++ arraysOf groups).flatten) (hplaced : RestPlaced arrays groups) :
    ∃ out, mergeChunks acc chunks = .ok out ∧ HoldsAcc out (arrays ++ arraysOf groups) := by
  induction hc generalizing acc arrays with
  | nil =>
    refine ⟨acc, rfl, ?_⟩
    change HoldsAcc acc (arrays ++ [])
    rwa [List.append_nil]
  | @cons chunk group chunks groups hg _ ih =>
    rw [← toList_append_arraysOf, ← List.append_assoc] at hcut ⊢
    have hhead : WellCut (arrays ++ group.toList).flatten := by
      rw [List.flatten_append] at hcut
      exact hcut.of_append
    obtain ⟨out, ho, hholds⟩ := mergeChunk_holds h hg hhead hplaced.head
    obtain ⟨out', ho', hholds'⟩ := ih hholds hcut hplaced.tail
    refine ⟨out', ?_, hholds'⟩
    rw [mergeChunks, List.foldlM_cons, ho]
    exact ho'

theorem HoldsAcc.reassembles (h : HoldsAcc acc arrays) (hcut : CutOf heads arrays.flatten) :
    Reassembles heads arrays.flatten acc := by
  intro k call hk
  obtain ⟨piece, pieces, hopens⟩ := hcut.opens k call hk
  obtain ⟨-, rfl⟩ | ⟨a, slot, rfl, ha, hslot⟩ := h
  · cases hopens
  · obtain ⟨m, hm, -, t, ht, harrays⟩ := hslot.message
    cases arrays with
    | nil => cases hopens
    | cons ps arrays =>
      obtain ⟨arr, rfl, hslots⟩ := harrays
      have harr : reassembledCalls (some a) = arr := by
        rw [reassembledCalls, slotsOf, Option.bind_some, ha]
        dsimp only [Option.bind_some, Value.asArray, Option.getD_some, List.head?_cons]
        rw [hm]
        dsimp only [Option.bind_some]
        rw [ht]
        rfl
      have hslotk := hslots k
      rw [hopens] at hslotk ⊢
      rw [harr]
      obtain ⟨v, hv, hcall⟩ := hslotk
      refine ⟨v, hv, ?_⟩
      cases piece with
      | none => exact hcall
      | some s => exact hcall

/-- Fragments are put together under their indices where the first array places them there. -/
theorem mergeChunks_reassembles (hcut : CutOf heads (piecesOf groups))
    (hc : List.Forall₂ CarriesGroup chunks groups) (hplaced : Placed groups) :
    ∃ acc, mergeChunks none chunks = .ok acc ∧ Reassembles heads (piecesOf groups) acc := by
  have hstart : HoldsAcc none [] := .inl ⟨rfl, rfl⟩
  obtain ⟨out, ho, hholds⟩ := mergeChunks_holds hstart hc hcut.wellCut hplaced
  exact ⟨out, ho, hholds.reassembles hcut⟩

def callEntry (k : Nat) (call : CallHead) : Value :=
  .object [("index", .number (.posInt (UInt64.ofNat k))), ("id", .string call.id),
    ("function", .object [("name", .string call.name)])]

def pieceEntry (k : Nat) (piece : String) : Value :=
  .object [("index", .number (.posInt (UInt64.ofNat k))),
    ("function", .object [("arguments", .string piece)])]

def callsChunk (vs : List Value) : Value :=
  .object [("choices", .array [.object [("delta", .object [("tool_calls", .array vs)])]])]

theorem carriesPiece_callEntry (call : CallHead) (h : k < 2 ^ 64) :
    CarriesPiece (callEntry k call) (.first k call none) :=
  ⟨⟨_, UInt64.toNat_ofNat_of_lt' h, rfl⟩, _, rfl, rfl, rfl, rfl⟩

theorem carriesPiece_pieceEntry (piece : String) (h : k < 2 ^ 64) :
    CarriesPiece (pieceEntry k piece) (.later k piece) :=
  ⟨⟨_, UInt64.toNat_ofNat_of_lt' h, rfl⟩, _, rfl, rfl, rfl⟩

theorem carriesGroup_callsChunk (h : List.Forall₂ CarriesPiece vs ps) :
    CarriesGroup (callsChunk vs) (some ps) := by
  refine ⟨_, _, rfl, ?_, rfl, vs, rfl, h⟩
  intro m hm
  cases hm
  exact List.nodup_singleton _

theorem mergeChunks_reassembles_one : ∃ acc,
    mergeChunks none [callsChunk [callEntry 0 ⟨"c", "f"⟩], callsChunk [pieceEntry 0 "x"]] =
        .ok acc ∧
      Reassembles [⟨"c", "f"⟩] [.first 0 ⟨"c", "f"⟩ none, .later 0 "x"] acc := by
  refine @mergeChunks_reassembles _ [some [.first 0 ⟨"c", "f"⟩ none], some [.later 0 "x"]] _
    ⟨by decide, ?_⟩ ?_ ⟨?_, by decide⟩
  · intro k call hk
    cases k with
    | zero =>
      cases hk
      exact ⟨none, ["x"], rfl⟩
    | succ k => cases hk
  · exact .cons (carriesGroup_callsChunk (.cons (carriesPiece_callEntry _ (by decide)) .nil))
      (.cons (carriesGroup_callsChunk (.cons (carriesPiece_pieceEntry _ (by decide)) .nil)) .nil)
  · intro i p hp
    cases i with
    | zero =>
      cases hp
      rfl
    | succ i => cases hp

/-- Chunks that carry these groups and do not put their calls together. -/
def Loses (groups : List (Option (List CallPiece))) : Prop :=
  ∃ heads chunks, CutOf heads (piecesOf groups) ∧ List.Forall₂ CarriesGroup chunks groups ∧
    ¬ ∃ acc, mergeChunks none chunks = .ok acc ∧ Reassembles heads (piecesOf groups) acc

def openings (n : Nat) : List CallPiece := (List.range n).map fun k => .first k ⟨"c", "f"⟩ none

theorem ofCall_openings (n k : Nat) :
    ofCall k (openings n) = if k < n then [.first k ⟨"c", "f"⟩ none] else [] := by
  have hoff := @ofCall_placed (openings n) 0 (by
    intro i p hp
    rw [openings, List.getElem?_map] at hp
    obtain ⟨j, hj, rfl⟩ := Option.map_eq_some_iff.1 hp
    rw [Nat.zero_add]
    obtain ⟨_, hget⟩ := List.getElem?_eq_some_iff.1 hj
    rw [List.getElem_range] at hget
    exact hget.symm) k
  rw [Nat.zero_add] at hoff
  rw [hoff, openings, List.getElem?_map]
  by_cases hk : k < n
  · rw [if_pos hk, List.getElem?_range hk]
    rfl
  · rw [if_neg hk, List.getElem?_eq_none (by simpa using hk)]
    rfl

/-- The second of two calls comes first; and a call above the cap is cut. -/
theorem mergeChunks_loses :
    Loses [some [.first 1 ⟨"b", "g"⟩ none], some [.first 0 ⟨"a", "f"⟩ none]] ∧
      Loses [some (openings 102), some [.later 101 "x"]] := by
  constructor
  · refine ⟨[⟨"a", "f"⟩, ⟨"b", "g"⟩],
      [callsChunk [callEntry 1 ⟨"b", "g"⟩], callsChunk [callEntry 0 ⟨"a", "f"⟩]], ?_, ?_, ?_⟩
    · refine ⟨by decide, ?_⟩
      intro k call hk
      cases k with
      | zero =>
        cases hk
        exact ⟨none, [], rfl⟩
      | succ k =>
        cases k with
        | zero =>
          cases hk
          exact ⟨none, [], rfl⟩
        | succ k => cases hk
    · exact .cons (carriesGroup_callsChunk (.cons (carriesPiece_callEntry _ (by decide)) .nil))
        (.cons (carriesGroup_callsChunk (.cons (carriesPiece_callEntry _ (by decide)) .nil)) .nil)
    · rintro ⟨acc, ha, hall⟩
      obtain ⟨v, hv, hcall⟩ := hall 0 ⟨"a", "f"⟩ rfl
      cases ha
      cases hv
      have hid := hcall.id
      revert hid
      decide
  · refine ⟨List.replicate 102 ⟨"c", "f"⟩,
      [callsChunk ((List.range 102).map fun k => callEntry k ⟨"c", "f"⟩),
        callsChunk [pieceEntry 101 "x"]], ?_, ?_, ?_⟩
    · constructor
      · intro p hp
        obtain hp | hp := List.mem_append.1 hp
        · obtain ⟨k, hk, rfl⟩ := List.mem_map.1 hp
          exact List.mem_range.1 hk
        · rw [List.mem_singleton.1 hp]
          decide
      · intro k call hk
        obtain ⟨hlt, rfl⟩ := List.getElem?_eq_some_iff.1 hk
        rw [List.length_replicate] at hlt
        have hopen : ofCall k (piecesOf [some (openings 102), some [.later 101 "x"]]) =
            .first k ⟨"c", "f"⟩ none :: ofCall k [.later 101 "x"] := by
          change ofCall k (openings 102 ++ [.later 101 "x"]) = _
          rw [ofCall_append, ofCall_openings, if_pos hlt]
          rfl
        rw [hopen, List.getElem_replicate]
        by_cases h101 : k = 101
        · subst h101
          exact ⟨none, ["x"], rfl⟩
        · refine ⟨none, [], ?_⟩
          simp [ofCall, CallPiece.index, Ne.symm h101]
    · refine .cons (carriesGroup_callsChunk ?_)
        (.cons (carriesGroup_callsChunk (.cons (carriesPiece_pieceEntry _ (by decide)) .nil)) .nil)
      rw [openings, List.forall₂_map_left_iff, List.forall₂_map_right_iff, List.forall₂_same]
      intro k hk
      apply carriesPiece_callEntry
      have hlt := List.mem_range.1 hk
      omega
    · rintro ⟨acc, ha, hall⟩
      obtain ⟨v, hv, hcall⟩ := hall 101 ⟨"c", "f"⟩ rfl
      cases ha
      have hentry : v = callEntry 101 ⟨"c", "f"⟩ := by
        change ((List.range 102).map fun k => callEntry k ⟨"c", "f"⟩)[101]? = some v at hv
        rw [List.getElem?_map, List.getElem?_range (by decide)] at hv
        exact (Option.some.inj hv).symm
      obtain ⟨func, hfunc, -, hargs⟩ := hcall.function
      rw [hentry] at hfunc
      cases hfunc
      have hpieces : (ofCall 101 (piecesOf [some (openings 102), some [.later 101 "x"]])).filterMap
          CallPiece.piece = ["x"] := by
        change (ofCall 101 (openings 102 ++ [.later 101 "x"])).filterMap CallPiece.piece = ["x"]
        rw [ofCall_append, ofCall_openings]
        rfl
      rw [hpieces] at hargs
      cases hargs

end LocalMind
