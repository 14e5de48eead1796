import LocalMind.Api.OpenaiRequest

namespace LocalMind.Openai
set_option autoImplicit true
open Json Json.Codec

/-! What the types of a request keep of its body. -/

/-- An object of these fields alone. -/
structure Named (names : List String) (v : Value) : Prop where
  object : v.isObject = true
  keys : ∀ k x, v.get k = some x → k ∈ names

/-- A field that is not null and, where it is present, whole. -/
structure Given (whole : Value → Prop) (x : Option Value) : Prop where
  notNull : x ≠ some .null
  whole : ∀ v, x = some v → whole v

/-- A field that is present, and whole unless it is null. -/
structure Present (whole : Value → Prop) (x : Option Value) : Prop where
  present : x.isSome = true
  whole : ∀ v, x = some v → v ≠ .null → whole v

def Items (whole : Value → Prop) (v : Value) : Prop :=
  ∀ vs, v = .array vs → ∀ x ∈ vs, whole x

structure ImageWhole (v : Value) : Prop where
  named : Named ["url", "detail"] v
  detail : (v.get "detail").isSome = true

structure PartWhole (v : Value) : Prop where
  named : Named ["type", "text", "image_url"] v
  text : (v.get "text").isSome = true
  imageUrl : Present ImageWhole (v.get "image_url")

structure FunctionCallWhole (v : Value) : Prop where
  named : Named ["name", "arguments"] v
  arguments : ∃ s, v.get "arguments" = some (.string s)

structure ToolCallWhole (v : Value) : Prop where
  named : Named ["id", "type", "index", "function"] v
  notNull : ∀ k ∈ ["id", "type", "index"], v.get k ≠ some .null
  function : ∀ x, v.get "function" = some x → FunctionCallWhole x

structure MessageWhole (v : Value) : Prop where
  named : Named ["role", "content", "name", "tool_calls", "tool_call_id"] v
  notNull : ∀ k ∈ ["name", "tool_call_id"], v.get k ≠ some .null
  content : Given (Items PartWhole) (v.get "content")
  toolCalls : Given (Items ToolCallWhole) (v.get "tool_calls")

structure FunctionDefWhole (v : Value) : Prop where
  named : Named ["name", "description", "parameters"] v
  description : (v.get "description").isSome = true

structure ToolWhole (v : Value) : Prop where
  named : Named ["type", "function"] v
  function : ∀ x, v.get "function" = some x → FunctionDefWhole x

structure ToolChoiceWhole (v : Value) : Prop where
  named : Named ["type", "function"] v
  function : Present (Named ["name"]) (v.get "function")

/-- A request of which nothing is lost: its messages, tools and tool choice name every field that
is always written and no other, no field that may be left out is null, and its numbers of single
precision are written as they were read. -/
structure RequestWhole (s : SingleCodec) (v : Value) : Prop where
  notNull : ∀ k ∈ ["max_tokens", "stream", "stop", "user", "reasoning_effort", "verbosity",
    "thinking_budget"], v.get k ≠ some .null
  singles : ∀ k ∈ ["temperature", "top_p", "frequency_penalty", "presence_penalty"],
    Given (fun x => ∀ n, x = .number n → s.write (s.round n) = some n) (v.get k)
  messages : ∀ x, v.get "messages" = some x → Items MessageWhole x
  tools : Given (Items ToolWhole) (v.get "tools")
  toolChoice : Given (fun x => x.isString = true ∨ ToolChoiceWhole x) (v.get "tool_choice")

theorem record_kept_iff (r : Record names α) :
    r.codec.Kept v ↔ Named names v ∧ r.Kept v.get := by
  constructor
  · rintro ⟨m, rfl, hkeys, hkept⟩
    exact ⟨⟨rfl, hkeys⟩, hkept⟩
  · rintro ⟨⟨hobject, hkeys⟩, hkept⟩
    obtain ⟨m, rfl⟩ := Value.isObject_iff.1 hobject
    exact ⟨m, rfl, hkeys, hkept⟩

theorem given_iff (name : String) (c : Codec α) (h : ∀ v, c.Kept v ↔ whole v) (x : Option Value) :
    (Field.skipped name c).Kept x ↔ Given whole x := by
  constructor
  · rintro ⟨hnull, hkept⟩
    exact ⟨hnull, fun v hv => (h v).1 (hkept v hv)⟩
  · rintro ⟨hnull, hwhole⟩
    exact ⟨hnull, fun v hv => (h v).2 (hwhole v hv)⟩

theorem present_iff (name : String) (c : Codec α) (h : ∀ v, c.Kept v ↔ whole v)
    (x : Option Value) :
    (Field.defaulted name c.nullable none).Kept x ↔ Present whole x := by
  constructor
  · rintro ⟨v, rfl, hkept⟩
    refine ⟨rfl, fun w hw hne => ?_⟩
    cases hw
    exact (h v).1 (hkept hne)
  · rintro ⟨hsome, hwhole⟩
    obtain ⟨v, rfl⟩ := Option.isSome_iff_exists.1 hsome
    exact ⟨v, rfl, fun hne => (h v).2 (hwhole v rfl hne)⟩

theorem items_iff (c : Codec α) (h : ∀ v, c.Kept v ↔ whole v) (v : Value) :
    c.list.Kept v ↔ Items whole v := by
  constructor
  · intro hk vs hvs x hx
    exact (h x).1 (hk vs hvs x hx)
  · intro hw vs hvs x hx
    exact (h x).2 (hw vs hvs x hx)

theorem isString_or_iff {whole : Value → Prop} (c : Codec α) (h : ∀ v, c.Kept v ↔ whole v)
    (v : Value) :
    (Codec.untagged .string c).Kept v ↔ v.isString = true ∨ whole v := by
  cases v with
  | string s => exact ⟨fun _ => Or.inl rfl, fun _ => trivial⟩
  | _ =>
    refine ⟨fun hk => Or.inr ((h _).1 hk), fun hw => (h _).2 ?_⟩
    obtain hs | hw := hw
    · cases hs
    · exact hw

theorem isSome_iff (name : String) (c : Codec α) (h : ∀ v, c.Kept v) (x : Option Value) :
    (Field.defaulted name c.nullable none).Kept x ↔ x.isSome = true := by
  have hall : ∀ v, c.Kept v ↔ True := fun v => ⟨fun _ => trivial, fun _ => h v⟩
  rw [present_iff name c hall]
  exact ⟨fun hp => hp.present, fun hs => ⟨hs, fun _ _ _ => trivial⟩⟩

theorem notNull_iff (name : String) (c : Codec α) (h : ∀ v, c.Kept v) (x : Option Value) :
    (Field.skipped name c).Kept x ↔ x ≠ some .null := by
  have hall : ∀ v, c.Kept v ↔ True := fun v => ⟨fun _ => trivial, fun _ => h v⟩
  rw [given_iff name c hall]
  exact ⟨fun hg => hg.notNull, fun hn => ⟨hn, fun _ _ => trivial⟩⟩

theorem imageWhole_iff (v : Value) : imageUrlCodec.Kept v ↔ ImageWhole v := by
  constructor
  · intro hk
    obtain ⟨hnamed, -, hdetail, -⟩ := (record_kept_iff _).1 hk
    exact ⟨hnamed, (isSome_iff "detail" .string (fun _ => trivial) _).1 hdetail⟩
  · intro hw
    refine (record_kept_iff _).2 ⟨hw.named, fun _ _ => trivial, ?_, trivial⟩
    exact (isSome_iff "detail" .string (fun _ => trivial) _).2 hw.detail

theorem partWhole_iff (v : Value) : contentPartCodec.Kept v ↔ PartWhole v := by
  constructor
  · intro hk
    obtain ⟨hnamed, -, htext, himage, -⟩ := (record_kept_iff _).1 hk
    exact ⟨hnamed, (isSome_iff "text" .string (fun _ => trivial) _).1 htext,
      (present_iff "image_url" imageUrlCodec imageWhole_iff _).1 himage⟩
  · intro hw
    refine (record_kept_iff _).2 ⟨hw.named, fun _ _ => trivial, ?_, ?_, trivial⟩
    · exact (isSome_iff "text" .string (fun _ => trivial) _).2 hw.text
    · exact (present_iff "image_url" imageUrlCodec imageWhole_iff _).2 hw.imageUrl

theorem contentWhole_iff (v : Value) : messageContentCodec.Kept v ↔ Items PartWhole v := by
  have h := isString_or_iff (.list contentPartCodec) (items_iff contentPartCodec partWhole_iff) v
  refine h.trans ⟨fun hw => ?_, Or.inr⟩
  obtain hs | hw := hw
  · rintro vs rfl
    cases hs
  · exact hw

theorem functionCallWhole_iff (codec : FloatCodec) (v : Value) :
    (functionCallCodec codec).Kept v ↔ FunctionCallWhole v := by
  constructor
  · intro hk
    obtain ⟨hnamed, -, ⟨x, hx, hstring⟩, -⟩ := (record_kept_iff _).1 hk
    refine ⟨hnamed, ?_⟩
    cases x with
    | string s => exact ⟨s, hx⟩
    | _ => cases hstring
  · intro hw
    obtain ⟨s, hs⟩ := hw.arguments
    exact (record_kept_iff _).2 ⟨hw.named, fun _ _ => trivial, ⟨_, hs, rfl⟩, trivial⟩

theorem toolCallWhole_iff (codec : FloatCodec) (v : Value) :
    (toolCallCodec codec).Kept v ↔ ToolCallWhole v := by
  constructor
  · intro hk
    obtain ⟨hnamed, hid, htype, hindex, hfunction, -⟩ := (record_kept_iff _).1 hk
    refine ⟨hnamed, fun k hmem => ?_, fun x hx => ?_⟩
    · simp only [List.mem_cons, List.not_mem_nil, or_false] at hmem
      obtain rfl | rfl | rfl := hmem
      · exact hid.1
      · exact htype.1
      · exact hindex.1
    · exact (functionCallWhole_iff codec x).1 (hfunction x hx)
  · intro hw
    refine (record_kept_iff _).2 ⟨hw.named, ⟨hw.notNull _ (by decide), fun _ _ => trivial⟩,
      ⟨hw.notNull _ (by decide), fun _ _ => trivial⟩,
      ⟨hw.notNull _ (by decide), fun _ _ => trivial⟩, fun x hx => ?_, trivial⟩
    exact (functionCallWhole_iff codec x).2 (hw.function x hx)

theorem messageWhole_iff (codec : FloatCodec) (v : Value) :
    (messageCodec codec).Kept v ↔ MessageWhole v := by
  have hcalls := items_iff (toolCallCodec codec) (toolCallWhole_iff codec)
  constructor
  · intro hk
    obtain ⟨hnamed, -, hcontent, hname, htools, hid, -⟩ := (record_kept_iff _).1 hk
    refine ⟨hnamed, fun k hmem => ?_, (given_iff _ _ contentWhole_iff _).1 hcontent,
      (given_iff _ _ hcalls _).1 htools⟩
    simp only [List.mem_cons, List.not_mem_nil, or_false] at hmem
    obtain rfl | rfl := hmem
    · exact hname.1
    · exact hid.1
  · intro hw
    exact (record_kept_iff _).2 ⟨hw.named, fun _ _ => trivial,
      (given_iff _ _ contentWhole_iff _).2 hw.content,
      ⟨hw.notNull _ (by decide), fun _ _ => trivial⟩, (given_iff _ _ hcalls _).2 hw.toolCalls,
      ⟨hw.notNull _ (by decide), fun _ _ => trivial⟩, trivial⟩

theorem functionDefWhole_iff (v : Value) : functionDefCodec.Kept v ↔ FunctionDefWhole v := by
  constructor
  · intro hk
    obtain ⟨hnamed, -, hdescription, -⟩ := (record_kept_iff _).1 hk
    exact ⟨hnamed, (isSome_iff "description" .string (fun _ => trivial) _).1 hdescription⟩
  · intro hw
    refine (record_kept_iff _).2 ⟨hw.named, fun _ _ => trivial, ?_, fun _ _ => trivial, trivial⟩
    exact (isSome_iff "description" .string (fun _ => trivial) _).2 hw.description

theorem toolWhole_iff (v : Value) : toolCodec.Kept v ↔ ToolWhole v := by
  constructor
  · intro hk
    obtain ⟨hnamed, -, hfunction, -⟩ := (record_kept_iff _).1 hk
    exact ⟨hnamed, fun x hx => (functionDefWhole_iff x).1 (hfunction x hx)⟩
  · intro hw
    exact (record_kept_iff _).2 ⟨hw.named, fun _ _ => trivial,
      fun x hx => (functionDefWhole_iff x).2 (hw.function x hx), trivial⟩

theorem functionRefWhole_iff (v : Value) : functionRefCodec.Kept v ↔ Named ["name"] v := by
  constructor
  · intro hk
    exact ((record_kept_iff _).1 hk).1
  · intro hw
    exact (record_kept_iff _).2 ⟨hw, fun _ _ => trivial, trivial⟩

theorem toolChoiceObjectWhole_iff (v : Value) :
    toolChoiceObjectCodec.Kept v ↔ ToolChoiceWhole v := by
  constructor
  · intro hk
    obtain ⟨hnamed, -, hfunction, -⟩ := (record_kept_iff _).1 hk
    exact ⟨hnamed, (present_iff "function" functionRefCodec functionRefWhole_iff _).1 hfunction⟩
  · intro hw
    refine (record_kept_iff _).2 ⟨hw.named, fun _ _ => trivial, ?_, trivial⟩
    exact (present_iff "function" functionRefCodec functionRefWhole_iff _).2 hw.function

theorem requestWhole_iff (codec : FloatCodec) (s : SingleCodec) (hobject : v.isObject = true) :
    (requestCodec codec s).Kept v ↔ RequestWhole s v := by
  obtain ⟨m, rfl⟩ := Value.isObject_iff.1 hobject
  have hmessages := items_iff (messageCodec codec) (messageWhole_iff codec)
  have htools := items_iff toolCodec toolWhole_iff
  have hchoice := isString_or_iff toolChoiceObjectCodec toolChoiceObjectWhole_iff
  constructor
  · intro hk
    obtain ⟨-, hmsgs, htemp, htop, hmax, hstream, htool, hch, hstop, hfreq, hpres, huser, heffort,
      hverb, hthink, -⟩ := hk m rfl
    refine ⟨fun k hmem => ?_, fun k hmem => ?_, fun x hx => (hmessages x).1 (hmsgs x hx),
      (given_iff _ _ htools _).1 htool, (given_iff "tool_choice" _ hchoice _).1 hch⟩
    · simp only [List.mem_cons, List.not_mem_nil, or_false] at hmem
      obtain rfl | rfl | rfl | rfl | rfl | rfl | rfl := hmem
      · exact hmax.1
      · exact hstream.1
      · exact hstop.1
      · exact huser.1
      · exact heffort.1
      · exact hverb.1
      · exact hthink.1
    · simp only [List.mem_cons, List.not_mem_nil, or_false] at hmem
      obtain rfl | rfl | rfl | rfl := hmem
      · exact ⟨htemp.1, htemp.2⟩
      · exact ⟨htop.1, htop.2⟩
      · exact ⟨hfreq.1, hfreq.2⟩
      · exact ⟨hpres.1, hpres.2⟩
  · intro hw n hn
    cases hn
    have hsingle : ∀ k ∈ ["temperature", "top_p", "frequency_penalty", "presence_penalty"],
        (Field.skipped k (.single s)).Kept ((Value.object m).get k) :=
      fun k hmem => ⟨(hw.singles k hmem).1, (hw.singles k hmem).2⟩
    have hplain : ∀ k ∈ ["max_tokens", "stream", "stop", "user", "reasoning_effort", "verbosity",
        "thinking_budget"], (Value.object m).get k ≠ some .null := hw.notNull
    refine ⟨fun _ _ => trivial, fun x hx => (hmessages x).2 (hw.messages x hx),
      hsingle _ (by decide), hsingle _ (by decide), ⟨hplain _ (by decide), fun _ _ => trivial⟩,
      ⟨hplain _ (by decide), fun _ _ => trivial⟩, (given_iff _ _ htools _).2 hw.tools,
      (given_iff "tool_choice" _ hchoice _).2 hw.toolChoice,
      ⟨hplain _ (by decide), fun _ _ _ _ _ _ => trivial⟩, hsingle _ (by decide),
      hsingle _ (by decide), ⟨hplain _ (by decide), fun _ _ => trivial⟩,
      ⟨hplain _ (by decide), fun _ _ => trivial⟩, ⟨hplain _ (by decide), fun _ _ => trivial⟩,
      ⟨hplain _ (by decide), fun _ _ => trivial⟩, trivial⟩

/-- What is written of a request is its body again exactly when the types lose nothing of it. -/
theorem request_kept_iff {codec : FloatCodec} {s : SingleCodec} {r : ChatCompletionRequest}
    (h : (requestCodec codec s).decode v = some r) :
    Same ((requestCodec codec s).encode r) v ↔ RequestWhole s v := by
  have hobject : v.isObject = true := by
    obtain ⟨p, hp, -⟩ := Option.map_eq_some_iff.1 h
    obtain ⟨m, hm, -⟩ := Option.bind_eq_some_iff.1 hp
    rw [Value.asObject_eq_some.1 hm]
    rfl
  exact ((requestCodec codec s).kept_iff v r h).trans (requestWhole_iff codec s hobject)

theorem request_kept_iff_top_k :
    Same ((requestCodec integersOnly zerosOnly).encode requestWithTopK) bodyWithTopK ↔
      RequestWhole zerosOnly bodyWithTopK :=
  request_kept_iff rfl

end LocalMind.Openai
