import LocalMind.Proxy.FramingInvariance

namespace LocalMind
set_option autoImplicit true

/-- The bytes of a release that came from the stream: a forced flush ends in a blank line of the
framer's own. -/
def Framed.content : Framed → Bytes
  | .events out _ => out
  | .forceFlush out => out.take (out.length - 2)
  | .nothing => []

def contents (fs : List Framed) : Bytes := (fs.map Framed.content).flatten

theorem contents_append (fs gs : List Framed) :
    contents (fs ++ gs) = contents fs ++ contents gs := by
  simp only [contents, List.map_append, List.flatten_append]

theorem contents_cons (f : Framed) (fs : List Framed) :
    contents (f :: fs) = f.content ++ contents fs := rfl

/-- The normalization of the bytes after a held or settled line ending. -/
def resolve (held : Bool) (s : Bytes) : Bytes := (crRun held s).2 ++ heldBreak (crRun held s).1

theorem resolve_append (held : Bool) (s t : Bytes) :
    resolve held (s ++ t) = (crRun held s).2 ++ resolve (crRun held s).1 t := by
  rw [resolve, crRun_append, resolve, List.append_assoc]

/-- A held CR that is resolved too early costs one line break when an LF follows. -/
theorem heldBreak_resolve (held : Bool) (t : Bytes) :
    heldBreak held ++ resolve false t =
      (if held = true ∧ t.head? = some LF then [LF] else []) ++ resolve held t := by
  cases held with
  | false => simp [heldBreak]
  | true =>
    cases t with
    | nil => rfl
    | cons b t =>
      have hr := crRun_held (b :: t) (List.cons_ne_nil b t)
      by_cases hb : b = LF
      · subst hb
        rfl
      · have hh : (b :: t).head? ≠ some LF := fun h => hb (Option.some.inj h)
        rw [if_neg hh] at hr
        rw [if_neg fun h => hh h.2, resolve, resolve, hr]
        rfl

theorem crRun_held_iff_getLast (held : Bool) {c : Bytes} (hc : c ≠ []) :
    (crRun held c).1 = true ↔ c.getLast? = some CR := by
  obtain ⟨t, b, rfl⟩ := (List.eq_nil_or_concat c).resolve_left hc
  rw [List.concat_eq_append, crRun_append, List.getLast?_concat, crRun_cons]
  change (crStep _ b).1 = true ↔ _
  rw [crStep]
  split
  · next hb => simp [hb]
  · next hb =>
    have hne : some b ≠ some CR := fun h => hb (Option.some.inj h)
    split <;> simp [hne]

namespace FramingState

/-- A push of `c` ends in a forced flush that parts a CRLF. -/
def CutsCrlf (s : FramingState) (c rest : Bytes) : Prop :=
  (s.push c).unterminated.length > PENDING_HIGH_WATER ∧ c.getLast? = some CR ∧
    rest.head? = some LF

instance : Decidable (CutsCrlf s c rest) := by
  unfold CutsCrlf
  infer_instance

/-- No forced flush of the run parts a CRLF. -/
def FlushesWhole (s : FramingState) : List Bytes → Prop
  | [] => True
  | c :: cs => ¬ s.CutsCrlf c cs.flatten ∧ FlushesWhole (s.feed c).2 cs

/-- The number of CRLFs that forced flushes part. -/
def cutCrlfs (s : FramingState) : List Bytes → Nat
  | [] => 0
  | c :: cs => (if s.CutsCrlf c cs.flatten then 1 else 0) + cutCrlfs (s.feed c).2 cs

theorem cutCrlfs_eq_zero_iff (s : FramingState) (cs : List Bytes) :
    s.cutCrlfs cs = 0 ↔ s.FlushesWhole cs := by
  induction cs generalizing s with
  | nil => simp only [cutCrlfs, FlushesWhole]
  | cons c cs ih =>
    rw [cutCrlfs, FlushesWhole, Nat.add_eq_zero_iff, ih]
    split <;> simp [*]

theorem contents_released (s : FramingState) :
    contents s.released ++ s.unterminated = s.pending := by
  have hc : (Mealy.blocks LF s.pending).2.flatten ++ (Mealy.blocks LF s.pending).1 =
      [] ++ s.pending := Mealy.run_blockStep_conserves [] s.pending
  rw [released]
  split
  · next h =>
    rw [h] at hc
    exact hc
  · rw [contents_cons]
    change ((Mealy.blocks LF s.pending).2.flatten ++ []) ++ _ = _
    rw [List.append_nil]
    exact hc

/-- A drain releases what is pending, a held CR resolved by a flush. -/
theorem contents_drain {t : FramingState} (h : Frontier t) :
    contents t.drain.1 ++ t.drain.2.pending =
        t.pending ++ (if t.unterminated.length > PENDING_HIGH_WATER then heldBreak t.crHeld
          else []) ∧
      t.drain.2.crHeld =
        if t.unterminated.length > PENDING_HIGH_WATER then false else t.crHeld := by
  have hr := contents_released t
  rw [drain_eq t h, settle, contents_append, ← hr]
  split
  · have hf : contents [.forceFlush (t.unterminated ++ heldBreak t.crHeld ++ [LF, LF])] =
        t.unterminated ++ heldBreak t.crHeld := by
      rw [contents_cons]
      change List.take _ _ ++ [] = _
      rw [List.append_nil, List.length_append]
      exact List.take_left
    rw [hf]
    exact ⟨by simp [new], rfl⟩
  · exact ⟨by simp [contents], rfl⟩

/-- One feed releases what was pending and what the chunk adds, a held CR resolved by a flush. -/
theorem contents_feed {s : FramingState} (hs : Drained s) {c : Bytes} (hc : c ≠ []) :
    contents (s.feed c).1 ++ (s.feed c).2.pending =
        s.pending ++ (crRun s.crHeld c).2 ++
          (if (s.push c).unterminated.length > PENDING_HIGH_WATER then
            heldBreak (crRun s.crHeld c).1 else []) ∧
      (s.feed c).2.crHeld =
        if (s.push c).unterminated.length > PENDING_HIGH_WATER then false
        else (crRun s.crHeld c).1 := by
  have hp : (s.push c).pending = s.pending ++ (crRun s.crHeld c).2 := by rw [push_eq s hc]
  have hh : (s.push c).crHeld = (crRun s.crHeld c).1 := by rw [push_eq s hc]
  have hd := contents_drain (frontier_push hs hc)
  rw [hp, hh] at hd
  exact hd

theorem feed_resolve {s : FramingState} (hs : Drained s) {c : Bytes} (hc : c ≠ []) (rest : Bytes) :
    contents (s.feed c).1 ++ ((s.feed c).2.pending ++ resolve (s.feed c).2.crHeld rest) =
      s.pending ++ (crRun s.crHeld c).2 ++
        ((if s.CutsCrlf c rest then [LF] else []) ++ resolve (crRun s.crHeld c).1 rest) := by
  obtain ⟨h₁, h₂⟩ := contents_feed hs hc
  rw [← List.append_assoc, h₁, h₂, List.append_assoc]
  by_cases hw : (s.push c).unterminated.length > PENDING_HIGH_WATER
  · rw [if_pos hw, if_pos hw, heldBreak_resolve]
    have hi : s.CutsCrlf c rest ↔ (crRun s.crHeld c).1 = true ∧ rest.head? = some LF := by
      rw [CutsCrlf, crRun_held_iff_getLast _ hc]
      exact ⟨fun h => h.2, fun h => ⟨hw, h⟩⟩
    simp only [hi]
  · rw [if_neg hw, if_neg hw, if_neg fun h => hw h.1]

/-- All a run of the framer releases and holds, without the blank lines of its own. -/
def settled (r : List Framed × FramingState) : Bytes :=
  contents r.1 ++ (r.2.pending ++ heldBreak r.2.crHeld)

theorem settled_feedAll_cons (s : FramingState) (c : Bytes) (cs : List Bytes) :
    settled (s.feedAll (c :: cs)) =
      contents (s.feed c).1 ++ settled ((s.feed c).2.feedAll cs) := by
  rw [settled, settled, feedAll, contents_append, List.append_assoc]

theorem resolve_nil (held : Bool) : resolve held [] = heldBreak held := rfl

/-- Whole flushes conserve the stream. -/
theorem settled_feedAll {s : FramingState} (hs : Drained s) {cs : List Bytes}
    (hc : ∀ c ∈ cs, c ≠ []) (hw : s.FlushesWhole cs) :
    settled (s.feedAll cs) = s.pending ++ resolve s.crHeld cs.flatten := by
  induction cs generalizing s with
  | nil => rfl
  | cons c cs ih =>
    have hc₁ := hc c (by simp)
    have hd := ih (drained_feed hs hc₁) (fun d hd => hc d (by simp [hd])) hw.2
    rw [settled_feedAll_cons, hd, feed_resolve hs hc₁, if_neg hw.1, List.flatten_cons,
      resolve_append, List.nil_append, List.append_assoc]

/-- Every parted CRLF adds one line break. -/
theorem length_settled_feedAll {s : FramingState} (hs : Drained s) {cs : List Bytes}
    (hc : ∀ c ∈ cs, c ≠ []) :
    (settled (s.feedAll cs)).length =
      (s.pending ++ resolve s.crHeld cs.flatten).length + s.cutCrlfs cs := by
  induction cs generalizing s with
  | nil => rfl
  | cons c cs ih =>
    have hc₁ := hc c (by simp)
    have hd := ih (drained_feed hs hc₁) (fun d hd => hc d (by simp [hd]))
    have hf := congrArg List.length (feed_resolve hs hc₁ cs.flatten)
    rw [settled_feedAll_cons, List.length_append, hd, cutCrlfs, List.flatten_cons,
      resolve_append]
    simp only [List.length_append] at hf ⊢
    split at hf
    · next h => rw [if_pos h]; simp only [List.length_singleton] at hf; omega
    · next h => rw [if_neg h]; simp only [List.length_nil] at hf; omega

end FramingState

/-- A whole stream is conserved exactly when no forced flush parts a CRLF. -/
theorem settled_framed_iff {cs : List Bytes} (hc : ∀ c ∈ cs, c ≠ []) :
    FramingState.settled (FramingState.new.feedAll cs) = normalize cs.flatten ↔
      FramingState.new.FlushesWhole cs := by
  have hn : normalize cs.flatten =
      FramingState.new.pending ++ resolve FramingState.new.crHeld cs.flatten := normalize_eq _
  rw [hn]
  constructor
  · intro h
    have hl := FramingState.length_settled_feedAll .new hc
    rw [h] at hl
    exact (FramingState.cutCrlfs_eq_zero_iff _ _).1 (by omega)
  · exact FramingState.settled_feedAll .new hc

end LocalMind
