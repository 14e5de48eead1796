import LocalMind.Proxy.Overrides
import LocalMind.Json.Rewrite

namespace LocalMind
set_option autoImplicit true
open Json

/-! The rewritten body is the client's, but for the keys the proxy answers for. -/

def REWRITTEN_KEYS : List String := ["stream", "stream_options", "model", "temperature"]

/-- Every finite float is written as a literal that reads as a float. -/
def PrintsFinite (codec : FloatCodec) : Prop :=
  ∀ bits : UInt64, (bits >>> 52) &&& 0x7FF ≠ 0x7FF →
    lexNumber (codec.print bits).text = some (codec.print bits, []) ∧
      (codec.print bits).isInteger = false ∧
      (codec.read (codec.print bits).text).isSome = true

/-- The same value, or objects that agree on all other keys. -/
def AgreesBut (ks : List String) (v w : Value) : Prop :=
  v = w ∨ v.isObject = true ∧ w.isObject = true ∧ ∀ k ∉ ks, w.get k = v.get k

/-- What the rewriting of an outgoing body is to keep. -/
structure RewritesMinimally (codec : FloatCodec) (body : List UInt8) (backend : RoutedNode)
    (allowStream : Bool) (path : List Char) (out : List UInt8) (flag : Bool) : Prop where
  /-- a body that is no completion request is left alone -/
  verbatim : (∀ json, fromSlice codec body = some json →
    looksLikeCompletionRequest json (backend.effectivePath path) = false) →
    out = body ∧ flag = false
  rewritten : ∀ json, fromSlice codec body = some json →
    looksLikeCompletionRequest json (backend.effectivePath path) = true →
    ∃ v, fromSlice codec out = some v ∧ AgreesBut REWRITTEN_KEYS json v ∧
      v.get "stream" = some (.bool flag)

/-- A completion request is an object, and every value in it that is kept comes back from its
text. -/
def Rewritable (codec : FloatCodec) (body : List UInt8) (routedPath : List Char) : Prop :=
  ∀ json, fromSlice codec body = some json → looksLikeCompletionRequest json routedPath = true →
    ∃ m, json = .object m ∧
      ∀ k ∉ REWRITTEN_KEYS, ∀ x, Fields.get m k = some x → reread codec x = x

/-! What holds of every entry of a rewritten body. -/

theorem forall_insert {P : α → Prop} {m : List (String × α)} (hm : ∀ e ∈ m, P e.2) (hx : P x)
    (k : String) : ∀ e ∈ Fields.insert m k x, P e.2 := by
  intro e he
  obtain rfl | he := Fields.mem_insert he
  · exact hx
  · exact hm e he

theorem forall_remove {P : α → Prop} {m : List (String × α)} (hm : ∀ e ∈ m, P e.2)
    (k : String) : ∀ e ∈ Fields.remove m k, P e.2 := by
  intro e he
  cases hk : Fields.get m k with
  | none =>
    rw [Fields.remove_of_notMem (Fields.get_eq_none_iff.1 hk)] at he
    exact hm e he
  | some x => exact hm e ((Fields.cons_remove_perm hk).mem_iff.1 (List.mem_cons_of_mem _ he))

theorem forall_insertSome {P : α → Prop} {m : List (String × α)} (hm : ∀ e ∈ m, P e.2)
    (hx : ∀ y, x = some y → P y) (k : String) : ∀ e ∈ insertSome m k x, P e.2 := by
  cases x with
  | none => exact hm
  | some x => exact forall_insert hm (hx x rfl) k

theorem keys_nodup_insertSome {m : List (String × α)} (hm : (Fields.keys m).Nodup) (k : String)
    (x : Option α) : (Fields.keys (insertSome m k x)).Nodup := by
  cases x with
  | none => exact hm
  | some x => exact Fields.keys_nodup_insert hm k x

theorem get_insertSome_of_ne (h : k ≠ l) (m : List (String × α)) (x : Option α) :
    Fields.get (insertSome m k x) l = Fields.get m l := by
  cases x with
  | none => rfl
  | some x => exact Fields.get_insert_of_ne h m x

theorem fits_forced {codec : FloatCodec} (h : Fits codec (d + 1) (.object m)) :
    Fits codec (d + 1) (.object (forced m)) := by
  have hs : Fits codec (d + 1) (.object (Fields.insert m "stream" (.bool false))) :=
    fits_put h (x := .bool false) (by cases d <;> trivial) "stream"
  exact ⟨Fields.keys_nodup_remove hs.1 _, forall_remove hs.2 _⟩

theorem fits_streamed {codec : FloatCodec} (h : Fits codec (d + 2) (.object m)) :
    Fits codec (d + 2) (.object (streamed m)) := by
  have husage : Fits codec (d + 1) (.object [("include_usage", .bool true)]) := by
    refine ⟨List.nodup_singleton _, ?_⟩
    intro e he
    rw [List.mem_singleton.1 he]
    cases d <;> trivial
  rw [streamed]
  split
  · exact fits_put h husage "stream_options"
  · next opts hopts =>
    split
    · have hfit : Fits codec (d + 1) (.object opts) := h.2 _ (Fields.mem_of_get hopts)
      have hput : Fits codec (d + 1) (.object (Fields.insert opts "include_usage" (.bool true))) :=
        fits_put hfit (x := .bool true) (by cases d <;> trivial) "include_usage"
      exact fits_put h hput "stream_options"
    · exact h
  · exact h

theorem prints_valueOfF64 {codec : FloatCodec} (hcodec : PrintsFinite codec) (bits : UInt64)
    (d : Nat) : Prints codec d (valueOfF64 bits) := by
  rw [valueOfF64]
  split
  · exact .leaf .null d
  · next hfinite =>
    obtain ⟨hl, hi, hs⟩ := hcodec bits hfinite
    obtain ⟨b, hb⟩ := Option.isSome_iff_exists.1 hs
    have hnum : (valueHandlers codec).num (codec.print bits) =
        some (reread codec (.number (.float bits))) := by
      change (numberOf codec (codec.print bits)).map Value.number = _
      rw [numberOf, hi, reread, hb]
      rfl
    exact .leaf (.num (lexNumber_sound hl).2 hnum) d

/-- What is sent of entries that fit parses as their rereading. -/
theorem prints_overridden {codec : FloatCodec} (hcodec : PrintsFinite codec)
    (h : Fits codec (d + 1) (.object m)) (backend : BackendNode) :
    Prints codec (d + 1) (.object (overridden m backend)) := by
  have hm : ∀ e ∈ m, Prints codec d e.2 := fun e he => prints_of_fits (h.2 e he)
  apply Prints.object
  · exact keys_nodup_insertSome (keys_nodup_insertSome h.1 _ _) _ _
  · apply forall_insertSome
    · apply forall_insertSome hm
      intro y hy
      obtain ⟨model, -, rfl⟩ := Option.map_eq_some_iff.1 hy
      exact prints_of_fits (by cases d <;> trivial)
    · intro y hy
      obtain ⟨bits, -, rfl⟩ := Option.map_eq_some_iff.1 hy
      exact prints_valueOfF64 hcodec bits d

/-! What the rewrites leave. -/

theorem get_overridden (hk : k ∉ REWRITTEN_KEYS) (m : List (String × Value))
    (backend : BackendNode) : Fields.get (overridden m backend) k = Fields.get m k := by
  simp only [REWRITTEN_KEYS, List.mem_cons, List.not_mem_nil, or_false, not_or] at hk
  obtain ⟨-, -, hmodel, htemp⟩ := hk
  rw [overridden, get_insertSome_of_ne (Ne.symm htemp), get_insertSome_of_ne (Ne.symm hmodel)]

theorem get_forced {m : List (String × Value)} (hm : (Fields.keys m).Nodup)
    (hk : k ∉ REWRITTEN_KEYS) : Fields.get (forced m) k = Fields.get m k := by
  simp only [REWRITTEN_KEYS, List.mem_cons, List.not_mem_nil, or_false, not_or] at hk
  obtain ⟨hstream, hoptions, -, -⟩ := hk
  rw [forced, Fields.get_remove_of_ne (Fields.keys_nodup_insert hm _ _) (Ne.symm hoptions),
    Fields.get_insert_of_ne (Ne.symm hstream)]

theorem get_streamed (hk : k ≠ "stream_options") (m : List (String × Value)) :
    Fields.get (streamed m) k = Fields.get m k := by
  rw [streamed]
  split
  · exact Fields.get_insert_of_ne (Ne.symm hk) _ _
  · split
    · exact Fields.get_insert_of_ne (Ne.symm hk) _ _
    · rfl
  · rfl

/-- The stream flag of a rewritten body. -/
theorem get_stream {m : List (String × Value)} (hm : (Fields.keys m).Nodup)
    (backend : BackendNode) (allowStream : Bool) :
    Fields.get (overridden (if keepsStream (.object m) allowStream then streamed m else forced m)
      backend) "stream" = some (.bool (keepsStream (.object m) allowStream)) := by
  rw [overridden, get_insertSome_of_ne (by decide), get_insertSome_of_ne (by decide)]
  cases hkeep : keepsStream (.object m) allowStream with
  | true =>
    obtain ⟨-, hwants⟩ := Bool.and_eq_true_iff.1 hkeep
    rw [if_pos rfl, get_streamed (by decide)]
    rw [Value.get_object] at hwants
    cases hs : Fields.get m "stream" with
    | none =>
      rw [hs] at hwants
      cases hwants
    | some v =>
      rw [hs] at hwants
      cases v with
      | bool b =>
        rw [show b = true from hwants]
      | _ => cases hwants
  | false =>
    rw [if_neg Bool.false_ne_true, forced,
      Fields.get_remove_of_ne (Fields.keys_nodup_insert hm _ _) (by decide),
      Fields.get_insert_self]

/-- What is sent of an object request parses as the rewritten entries, reread. -/
theorem sent_object {codec : FloatCodec} (hcodec : PrintsFinite codec) {backend : RoutedNode}
    (h : fromSlice codec body = some (.object m))
    (hshape : looksLikeCompletionRequest (.object m) (backend.effectivePath path) = true)
    (allowStream : Bool) : ∃ out n,
      applyBackendOverridesBytes codec body backend allowStream path =
        .ok (out, keepsStream (.object m) allowStream) ∧
      fromSlice codec out = some (.object n) ∧
      Fields.get n "stream" = some (.bool (keepsStream (.object m) allowStream)) ∧
      ∀ k ∉ REWRITTEN_KEYS, Fields.get n k = (Fields.get m k).map (reread codec) := by
  have hfit : Fits codec MAX_DEPTH (.object m) := fits_of_fromSlice h
  have hmode : Fits codec MAX_DEPTH
      (.object (if keepsStream (.object m) allowStream then streamed m else forced m)) := by
    split
    · exact fits_streamed hfit
    · exact fits_forced hfit
  have hparse := (prints_overridden hcodec hmode backend.toBackendNode).fromSlice
  rw [reread, rereadEntries_eq] at hparse
  refine ⟨_, _, applyBackendOverridesBytes_object h hshape, hparse, ?_, ?_⟩
  · rw [show (rereadEntry codec) = fun e => (e.1, reread codec e.2) from rfl, Fields.get_map,
      get_stream hfit.1]
    rfl
  · intro k hk
    rw [show (rereadEntry codec) = fun e => (e.1, reread codec e.2) from rfl, Fields.get_map,
      get_overridden hk]
    split
    · rw [get_streamed]
      rintro rfl
      exact hk (by decide)
    · rw [get_forced hfit.1 hk]

/-- The rewriting is total and minimal on the bodies that are no completion requests and on
objects whose other values come back from their text. -/
theorem applyBackendOverridesBytes_minimal_iff {codec : FloatCodec} (hcodec : PrintsFinite codec)
    (body : List UInt8) (backend : RoutedNode) (allowStream : Bool) (path : List Char) :
    (∃ out flag, applyBackendOverridesBytes codec body backend allowStream path = .ok (out, flag) ∧
      RewritesMinimally codec body backend allowStream path out flag) ↔
      Rewritable codec body (backend.effectivePath path) := by
  constructor
  · rintro ⟨out, flag, happly, hmin⟩ json hj hshape
    obtain ⟨v, hv, hagree, hstream⟩ := hmin.rewritten json hj hshape
    have hobject : json.isObject = true := by
      rcases hagree with rfl | ⟨ho, -⟩
      · exact isObject_of_get hstream
      · exact ho
    obtain ⟨m, rfl⟩ := Value.isObject_iff.1 hobject
    obtain ⟨out', n, happly', hn, -, hkept⟩ := sent_object hcodec hj hshape allowStream
    rw [happly'] at happly
    cases happly
    rw [hn] at hv
    cases hv
    refine ⟨m, rfl, ?_⟩
    intro k hk x hx
    have hget : Fields.get n k = Fields.get m k := by
      rcases hagree with he | ⟨-, -, he⟩
      · cases he
        rfl
      · exact he k hk
    rw [hkept k hk, hx] at hget
    exact Option.some.inj hget
  · intro h
    by_cases hshaped : ∃ json, fromSlice codec body = some json ∧
        looksLikeCompletionRequest json (backend.effectivePath path) = true
    · obtain ⟨json, hj, hshape⟩ := hshaped
      obtain ⟨m, rfl, hback⟩ := h json hj hshape
      obtain ⟨out, n, happly, hn, hstream, hkept⟩ := sent_object hcodec hj hshape allowStream
      refine ⟨out, _, happly, ?_, ?_⟩
      · intro hno
        rw [hno _ hj] at hshape
        cases hshape
      · intro json' hj' _
        rw [hj] at hj'
        cases hj'
        refine ⟨.object n, hn, .inr ⟨rfl, rfl, ?_⟩, hstream⟩
        intro k hk
        rw [Value.get_object, Value.get_object, hkept k hk]
        cases hx : Fields.get m k with
        | none => rfl
        | some x => rw [Option.map_some, hback k hk x hx]
    · have hno : ∀ json, fromSlice codec body = some json →
          looksLikeCompletionRequest json (backend.effectivePath path) = false := by
        intro json hj
        rw [← Bool.not_eq_true]
        intro hshape
        exact hshaped ⟨json, hj, hshape⟩
      refine ⟨body, false, applyBackendOverridesBytes_left hno, fun _ => ⟨rfl, rfl⟩, ?_⟩
      intro json hj hshape
      rw [hno json hj] at hshape
      cases hshape

/-- A codec for the one float it writes. -/
def zeroFloat : FloatCodec where
  read := fun t => if t = "0.0".toList then some 0 else none
  print := fun _ => ⟨false, ['0'], ['.', '0'], []⟩
  readable := by
    intro t bits _
    decide

theorem zeroFloat_printsFinite : PrintsFinite zeroFloat := fun _ _ => ⟨rfl, rfl, rfl⟩

def plainNode : RoutedNode := ⟨⟨some "m", some 0⟩, none⟩

def streamBody : List UInt8 := Utf8.encode "\x7b\"stream\":true,\"messages\":[1]\x7d".toList

theorem applyBackendOverridesBytes_minimal_stream :
    (∃ out flag, applyBackendOverridesBytes zeroFloat streamBody plainNode true "/x".toList =
        .ok (out, flag) ∧
      RewritesMinimally zeroFloat streamBody plainNode true "/x".toList out flag) ↔
      Rewritable zeroFloat streamBody (plainNode.effectivePath "/x".toList) :=
  applyBackendOverridesBytes_minimal_iff zeroFloat_printsFinite streamBody plainNode true
    "/x".toList

/-- An array on a completion route. -/
theorem applyBackendOverridesBytes_panics :
    ¬ ∃ out flag, applyBackendOverridesBytes zeroFloat (Utf8.encode "[]".toList) plainNode false
        "/v1/chat/completions".toList = .ok (out, flag) ∧
      RewritesMinimally zeroFloat (Utf8.encode "[]".toList) plainNode false
        "/v1/chat/completions".toList out flag := by
  rintro ⟨out, flag, happly, -⟩
  have hpanic : (applyBackendOverridesBytes zeroFloat (Utf8.encode "[]".toList) plainNode false
      "/v1/chat/completions".toList).isOk = false := by
    rfl
  rw [happly] at hpanic
  cases hpanic

end LocalMind
