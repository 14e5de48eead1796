import LocalMind.Json.Record

namespace Json
set_option autoImplicit true

/-! What is read again from what was written. -/

/-- Of a value that was written, `f` of it is read. -/
def Codec.Rereads (c : Codec α) (f : α → α) : Prop := ∀ a, c.decode (c.encode a) = some (f a)

/-- No value is written as null. -/
def Codec.Solid (c : Codec α) : Prop := ∀ a, c.encode a ≠ .null

def Field.Rereads (g : Field name α) (f : α → α) : Prop :=
  ∀ a, g.decode (g.encode a) = some (f a)

/-- The fields are read again off any value that has them as they were written. -/
def Record.Rereads (r : Record names α) (f : α → α) : Prop :=
  ∀ a field, (∀ k ∈ names, field k = Fields.get (r.encode a) k) → r.decode field = some (f a)

namespace Codec

theorem Rereads.congr {c : Codec α} (h : c.Rereads f) (hf : ∀ a, f a = g a) : c.Rereads g := by
  intro a
  rw [h a, hf a]

theorem string_rereads : string.Rereads id := fun _ => rfl

theorem bool_rereads : bool.Rereads id := fun _ => rfl

theorem uint64_rereads : uint64.Rereads id := fun _ => rfl

theorem value_rereads : value.Rereads id := fun _ => rfl

theorem uint32_rereads : uint32.Rereads id := by
  intro n
  have hlt : n.toUInt64.toNat < 2 ^ 32 := by
    rw [UInt32.toNat_toUInt64]
    exact n.toNat_lt
  have hread : asU32 (u64 n.toUInt64) = if n.toUInt64.toNat < 2 ^ 32 then
      some (UInt32.ofNat n.toUInt64.toNat) else none := rfl
  have hn : UInt32.ofNat n.toUInt64.toNat = n := by
    rw [UInt32.toNat_toUInt64, UInt32.ofNat_toNat]
  rw [if_pos hlt, hn] at hread
  exact hread

theorem string_solid : string.Solid := by
  intro s h
  cases h

theorem bool_solid : bool.Solid := by
  intro b h
  cases h

theorem uint32_solid : uint32.Solid := by
  intro n h
  cases h

theorem uint64_solid : uint64.Solid := by
  intro n h
  cases h

theorem nullable_decode (c : Codec α) (h : v ≠ .null) :
    Json.nullable c.decode v = (c.decode v).map some := by
  cases v with
  | null => exact absurd rfl h
  | _ => rfl

theorem nullable_rereads {c : Codec α} (h : c.Rereads f) (hs : c.Solid) :
    c.nullable.Rereads (Option.map f) := by
  intro o
  cases o with
  | none => rfl
  | some a =>
    have hd := nullable_decode c (hs a)
    rw [h a] at hd
    exact hd

theorem mapM_encode {c : Codec α} (h : c.Rereads f) (as : List α) :
    (as.map c.encode).mapM c.decode = some (as.map f) := by
  induction as with
  | nil => rfl
  | cons a as ih =>
    rw [List.map_cons, List.mapM_cons, h a, ih]
    rfl

theorem list_rereads {c : Codec α} (h : c.Rereads f) : c.list.Rereads (List.map f) :=
  mapM_encode h

theorem list_solid (c : Codec α) : c.list.Solid := by
  intro as h
  cases h

theorem iso_rereads {c : Codec α} {g : α → β} {g' : β → α} {hg : ∀ a, g' (g a) = a}
    (h : c.Rereads f) : (c.iso g g' hg).Rereads fun b => g (f (g' b)) := by
  intro b
  have hb := h (g' b)
  exact congrArg (Option.map g) hb

theorem untagged_rereads {c : Codec α} {d : Codec β} (hc : c.Rereads f) (hd : d.Rereads g)
    (h : ∀ b, c.decode (d.encode b) = none) : (c.untagged d).Rereads (Sum.map f g) := by
  intro s
  cases s with
  | inl a =>
    have hs : (c.untagged d).decode (c.encode a) =
        ((c.decode (c.encode a)).map Sum.inl).or ((d.decode (c.encode a)).map Sum.inr) := rfl
    rw [hc a] at hs
    exact hs
  | inr b =>
    have hs : (c.untagged d).decode (d.encode b) =
        ((c.decode (d.encode b)).map Sum.inl).or ((d.decode (d.encode b)).map Sum.inr) := rfl
    rw [h b, hd b] at hs
    exact hs

theorem untagged_solid {c : Codec α} {d : Codec β} (hc : c.Solid) (hd : d.Solid) :
    (c.untagged d).Solid := by
  intro s
  cases s with
  | inl a => exact hc a
  | inr b => exact hd b

theorem iso_solid {c : Codec α} {g : α → β} {g' : β → α} {hg : ∀ a, g' (g a) = a}
    (h : c.Solid) : (c.iso g g' hg).Solid := fun b => h (g' b)

end Codec

namespace Field

theorem required_rereads {c : Codec α} (name : String) (h : c.Rereads f) :
    (required name c).Rereads f := h

theorem defaulted_rereads {c : Codec α} (name : String) (d : α) (h : c.Rereads f) :
    (defaulted name c d).Rereads f := h

theorem skipped_rereads {c : Codec α} (name : String) (h : c.Rereads f) (hs : c.Solid) :
    (skipped name c).Rereads (Option.map f) := by
  intro o
  cases o with
  | none => rfl
  | some a =>
    have hd := Codec.nullable_decode c (hs a)
    rw [h a] at hd
    exact hd

end Field

namespace Record

theorem nil_rereads : nil.Rereads id := fun _ _ _ => rfl

theorem get_cons_encode {g : Field name α} {r : Record names β} (hname : name ∉ names)
    (p : α × β) : Fields.get ((cons g r hname).encode p) name = g.encode p.1 ∧
      ∀ k ∈ names, Fields.get ((cons g r hname).encode p) k = Fields.get (r.encode p.2) k := by
  have hget : ∀ k, Fields.get ((cons g r hname).encode p) k =
      (if name = k then g.encode p.1 else none).or (Fields.get (r.encode p.2) k) := by
    intro k
    have h := Fields.get_append (written name (g.encode p.1)) (r.encode p.2) k
    rw [get_written] at h
    exact h
  constructor
  · rw [hget, if_pos rfl, r.get_encode_of_notMem p.2 hname, Option.or_none]
  · intro k hk
    rw [hget, if_neg, Option.none_or]
    rintro rfl
    exact hname hk

theorem cons_rereads {g : Field name α} {r : Record names β} {hname : name ∉ names}
    (hg : g.Rereads f) (hr : r.Rereads f') : (cons g r hname).Rereads (Prod.map f f') := by
  intro p field h
  obtain ⟨hfirst, hrest⟩ := get_cons_encode (g := g) (r := r) hname p
  have ha : g.decode (field name) = some (f p.1) := by
    rw [h name List.mem_cons_self, hfirst]
    exact hg p.1
  have hb : r.decode field = some (f' p.2) := by
    apply hr
    intro k hk
    rw [h k (List.mem_cons_of_mem name hk), hrest k hk]
  have hd : (cons g r hname).decode field = (g.decode (field name)).bind fun a =>
      (r.decode field).bind fun b => some (a, b) := rfl
  rw [ha, hb] at hd
  exact hd

theorem cons_decode_iff {g : Field name α} {r : Record names β} {hname : name ∉ names}
    {p : α × β} : (cons g r hname).decode field = some p ↔
      g.decode (field name) = some p.1 ∧ r.decode field = some p.2 := by
  have hd : (cons g r hname).decode field = (g.decode (field name)).bind fun a =>
      (r.decode field).bind fun b => some (a, b) := rfl
  rw [hd]
  constructor
  · intro h
    obtain ⟨a, ha, h⟩ := Option.bind_eq_some_iff.1 h
    obtain ⟨b, hb, h⟩ := Option.bind_eq_some_iff.1 h
    cases h
    exact ⟨ha, hb⟩
  · rintro ⟨ha, hb⟩
    rw [ha, hb]
    rfl

theorem codec_rereads {r : Record names α} (h : r.Rereads f) : r.codec.Rereads f := by
  intro a
  exact h a _ fun _ _ => rfl

theorem atLeast_rereads {r : Record names α} (n : Nat) (h : r.Rereads f) :
    (r.codec.atLeast n).Rereads f := codec_rereads h

theorem codec_solid (r : Record names α) : r.codec.Solid := by
  intro a h
  cases h

/-- What is beside the fields has no name of one. -/
def Beside (names : List String) (extra : List (String × Value)) : Prop :=
  ∀ k ∈ Fields.keys extra, k ∉ names

/-- The fields and what is beside them are read apart. -/
theorem flattened_apart {r : Record names α} {p : α × List (String × Value)}
    (hp : Beside names p.2) :
    (∀ k ∈ names, Fields.get (r.encode p.1 ++ p.2) k = Fields.get (r.encode p.1) k) ∧
      (r.encode p.1 ++ p.2).filter (fun e => !names.contains e.1) = p.2 := by
  constructor
  · intro k hk
    rw [Fields.get_append, Fields.get_eq_none_iff.2 fun hmem => hp k hmem hk, Option.or_none]
  · have hin : (r.encode p.1).filter (fun e => !names.contains e.1) = [] := by
      rw [List.filter_eq_nil_iff]
      intro e he
      simpa using r.keys_in p.1 e.1 (List.mem_map_of_mem he)
    have hout : p.2.filter (fun e => !names.contains e.1) = p.2 := by
      rw [List.filter_eq_self]
      intro e he
      simpa using hp e.1 (List.mem_map_of_mem he)
    rw [List.filter_append, hin, hout, List.nil_append]

theorem flattened_decode {r : Record names α} (h : r.decode (Fields.get m) = some a) :
    r.flattened.decode (.object m) = some (a, m.filter fun e => !names.contains e.1) := by
  have hd : r.flattened.decode (.object m) = (r.decode (Fields.get m)).bind fun a =>
      some (a, m.filter fun e => !names.contains e.1) := rfl
  rw [hd, h]
  rfl

theorem flattened_rereads {r : Record names α} (h : r.Rereads f) (p : α × List (String × Value))
    (hp : Beside names p.2) :
    r.flattened.decode (r.flattened.encode p) = some (f p.1, p.2) := by
  obtain ⟨hfields, hfilter⟩ := flattened_apart (r := r) hp
  have hd := flattened_decode (h p.1 (Fields.get (r.encode p.1 ++ p.2)) hfields)
  rw [hfilter] at hd
  exact hd

theorem flattened_extra {r : Record names α} (h : r.flattened.decode v = some p) :
    Beside names p.2 := by
  obtain ⟨m, -, h⟩ := Option.bind_eq_some_iff.1 h
  obtain ⟨a, -, h⟩ := Option.bind_eq_some_iff.1 h
  cases h
  intro k hk
  obtain ⟨e, he, rfl⟩ := List.mem_map.1 hk
  simpa using (List.mem_filter.1 he).2

end Record

/-- The codec that writes a number widened. -/
def SingleCodec.widened (s : SingleCodec) : SingleCodec where
  round := s.round
  write := s.widen
  widen := s.widen
  round_widen := s.round_widen
  finite _ := rfl

/-- A number that is not finite is lost. -/
def SingleCodec.settle (s : SingleCodec) (o : Option UInt32) : Option UInt32 :=
  o.filter fun b => (s.widen b).isSome

theorem Field.single_rereads (s : SingleCodec) (name : String) :
    (skipped name (.single s.widened)).Rereads s.settle := by
  intro o
  cases o with
  | none => rfl
  | some b =>
    have hd : (skipped name (.single s.widened)).decode (some (orNull .number (s.widen b))) =
        Json.nullable (Codec.single s.widened).decode (orNull .number (s.widen b)) := rfl
    have hs : s.settle (some b) = if (s.widen b).isSome then some b else none := rfl
    rw [hs]
    cases hw : s.widen b with
    | none =>
      rw [hw] at hd
      have he : (skipped name (.single s.widened)).encode (some b) =
          some (orNull .number (s.widen b)) := rfl
      rw [he, hw]
      exact hd
    | some n =>
      rw [hw] at hd
      have he : (skipped name (.single s.widened)).encode (some b) =
          some (orNull .number (s.widen b)) := rfl
      have hr : Json.nullable (Codec.single s.widened).decode (orNull .number (some n)) =
          some (some (s.round n)) := rfl
      rw [he, hw, hd, hr, s.round_widen b n hw]
      rfl

end Json
