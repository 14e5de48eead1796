import LocalMind.Proxy.FramingSoundness

namespace LocalMind
set_option autoImplicit true

/-- The state after a whole stream, and what it released on the way. -/
def framed (cs : List Bytes) : List Framed := (FramingState.new.feedAll cs).1

def afterStream (cs : List Bytes) : FramingState := (FramingState.new.feedAll cs).2

/-- All bytes a stream delivers: the blocks and the tail of `finish`. -/
def delivered (cs : List Bytes) : Bytes :=
  emitted (framed cs) ++ (afterStream cs).finish.1.getD []

/-- A chunking of a stream whose pushes never breach the high-water mark. -/
structure Splits (s : Bytes) (cs : List Bytes) : Prop where
  nonempty : ∀ c ∈ cs, c ≠ []
  flatten : cs.flatten = s
  quiet : FramingState.new.Quiet cs

/-- The stream up to a CR that ends it. -/
def dropFinalCR (s : Bytes) : Bytes := if s.getLast? = some CR then s.dropLast else s

theorem crRun_held_iff (s : Bytes) : (crRun false s).1 = true ↔ s.getLast? = some CR := by
  rcases List.eq_nil_or_concat s with rfl | ⟨t, b, rfl⟩
  · simp [crRun]
  · rw [List.concat_eq_append, crRun_append, List.getLast?_concat, crRun_cons]
    by_cases hb : b = CR
    · simp [crStep, hb, crRun]
    · have hne : LF ≠ CR := by decide
      by_cases hl : b = LF <;> simp [crStep, hb, hl, hne, crRun]

theorem normalize_dropFinalCR (s : Bytes) : (crRun false s).2 = normalize (dropFinalCR s) := by
  rw [dropFinalCR]
  by_cases hs : s.getLast? = some CR
  · obtain ⟨t, rfl⟩ := List.getLast?_eq_some_iff.1 hs
    rw [if_pos hs, List.dropLast_concat, crRun_append, normalize_eq, crRun_cons]
    simp [crStep, heldBreak, crRun]
  · have hh : (crRun false s).1 = false := by
      rw [← Bool.not_eq_true, crRun_held_iff]
      exact hs
    rw [if_neg hs, normalize_eq, hh]
    exact (List.append_nil _).symm

theorem finish_getD (s : FramingState) :
    s.finish.1.getD [] = s.pending ++ heldBreak s.crHeld := by
  obtain ⟨p, n, held⟩ := s
  cases held with
  | false => cases p <;> simp [FramingState.finish, heldBreak]
  | true => simp [FramingState.finish, heldBreak]

theorem crRun_length (held : Bool) (s : Bytes) :
    (crRun held s).2.length + (heldBreak (crRun held s).1).length ≤
      (heldBreak held).length + s.length := by
  induction s generalizing held with
  | nil => exact Nat.le_of_eq (Nat.zero_add _)
  | cons b s ih =>
    have hstep : (crStep held b).2.length + (heldBreak (crStep held b).1).length ≤
        (heldBreak held).length + 1 := by
      rw [crStep]
      split
      · cases held <;> simp [heldBreak]
      · split <;> cases held <;> simp [heldBreak]
    have := ih (crStep held b).1
    rw [crRun_cons]
    simp only [List.length_append, List.length_cons]
    omega

/-- A stream within the high-water mark is quiet however it is cut. -/
theorem FramingState.quiet_of_length {s : FramingState} (hs : Drained s) {cs : List Bytes}
    (hc : ∀ c ∈ cs, c ≠ [])
    (hl : s.pending.length + (heldBreak s.crHeld).length + cs.flatten.length ≤
      PENDING_HIGH_WATER) : s.Quiet cs := by
  induction cs generalizing s with
  | nil => trivial
  | cons c cs ih =>
    have hc₁ := hc c (by simp)
    have hr := crRun_length s.crHeld c
    have hb : (Mealy.run (Mealy.blockStep LF) s.pending (crRun s.crHeld c).2).2.flatten ++
        (Mealy.run (Mealy.blockStep LF) s.pending (crRun s.crHeld c).2).1 =
          s.pending ++ (crRun s.crHeld c).2 := Mealy.run_blockStep_conserves _ _
    have hu : (s.push c).unterminated =
        (Mealy.run (Mealy.blockStep LF) s.pending (crRun s.crHeld c).2).1 := by
      rw [unterminated, push_unterminated hs hc₁]
    have hlen := congrArg List.length hb
    rw [← hu, List.length_append, List.length_append] at hlen
    rw [List.flatten_cons, List.length_append] at hl
    have hq : (s.push c).unterminated.length ≤ PENDING_HIGH_WATER := by omega
    have hf := feed_quiet hs hc₁ hq
    refine ⟨hq, ih (drained_feed hs hc₁) (fun d hd => hc d (by simp [hd])) ?_⟩
    have hh : (s.push c).crHeld = (crRun s.crHeld c).1 := by rw [push_eq s hc₁]
    rw [hf]
    dsimp only
    rw [hh]
    omega

theorem Splits.of_length (hc : ∀ c ∈ cs, c ≠ []) (hs : cs.flatten = s)
    (hl : s.length ≤ PENDING_HIGH_WATER) : Splits s cs := by
  refine ⟨hc, hs, FramingState.quiet_of_length .new hc ?_⟩
  simpa [FramingState.new, heldBreak, hs] using hl

/-- Every quiet chunking delivers the normalized stream. -/
theorem Splits.delivered_eq (h : Splits s cs) : delivered cs = normalize s := by
  obtain ⟨h₁, -, h₃, h₄⟩ := FramingState.feedAll_quiet .new h.nonempty h.quiet
  have hc : (Mealy.run (Mealy.blockStep LF) [] (crRun false s).2).2.flatten ++
      (Mealy.run (Mealy.blockStep LF) [] (crRun false s).2).1 = [] ++ (crRun false s).2 :=
    Mealy.run_blockStep_conserves _ _
  rw [h.flatten] at h₁ h₃ h₄
  rw [delivered, framed, afterStream, finish_getD, h₁, h₃, h₄, normalize_eq, ← List.append_assoc]
  exact congrArg (· ++ _) hc

/-- Every quiet chunking counts the terminators that are complete before the stream ends. -/
theorem Splits.eventTotal_eq (h : Splits s cs) :
    eventTotal (framed cs) = Mealy.countPairs LF (normalize (dropFinalCR s)) := by
  obtain ⟨-, h₂, -, -⟩ := FramingState.feedAll_quiet .new h.nonempty h.quiet
  rw [h.flatten] at h₂
  rw [framed, h₂, ← normalize_dropFinalCR]
  exact Mealy.length_blocks _

/-- The framer does not see how its stream was cut. -/
theorem framing_chunk_invariant (hc : Splits s cs) (hd : Splits s ds) :
    delivered cs = delivered ds ∧ delivered cs = normalize s ∧
      eventTotal (framed cs) = eventTotal (framed ds) ∧
      eventTotal (framed cs) = Mealy.countPairs LF (normalize (dropFinalCR s)) ∧
      (∀ out n, .events out n ∈ framed cs → ∃ x, out = x ++ [LF, LF]) ∧
      ∀ pre, pre <+: cs → findDoubleNewline (afterStream pre).pending = none := by
  refine ⟨?_, hc.delivered_eq, ?_, hc.eventTotal_eq, ?_, ?_⟩
  · rw [hc.delivered_eq, hd.delivered_eq]
  · rw [hc.eventTotal_eq, hd.eventTotal_eq]
  · intro out n h
    exact FramingState.feedAll_ends .new hc.nonempty h
  · intro pre hp
    have hpre : ∀ c ∈ pre, c ≠ [] := fun c h => hc.nonempty c (hp.subset h)
    exact (FramingState.drained_feedAll .new hpre).noTerminator

/-- A CRLF pair cut in two against the same bytes in one chunk. -/
theorem framing_chunk_invariant_crlf :
    delivered [[0x61, CR], [LF, CR], [LF, 0x62]] = delivered [[0x61, CR, LF, CR, LF, 0x62]] ∧
      eventTotal (framed [[0x61, CR], [LF, CR], [LF, 0x62]]) = 1 := by
  have hc : Splits [0x61, CR, LF, CR, LF, 0x62] [[0x61, CR], [LF, CR], [LF, 0x62]] :=
    .of_length (by decide) rfl (by decide)
  have hd : Splits [0x61, CR, LF, CR, LF, 0x62] [[0x61, CR, LF, CR, LF, 0x62]] :=
    .of_length (by decide) rfl (by decide)
  obtain ⟨h₁, -, -, h₄, -, -⟩ := framing_chunk_invariant hc hd
  exact ⟨h₁, h₄.trans (by decide)⟩

/-- A CR that ends the stream is resolved by `finish`, whose tail is not counted. -/
theorem final_cr_event_uncounted :
    Splits [LF, CR] [[LF, CR]] ∧ eventTotal (framed [[LF, CR]]) = 0 ∧
      Mealy.countPairs LF (normalize [LF, CR]) = 1 := by
  have h : Splits [LF, CR] [[LF, CR]] := .of_length (by decide) rfl (by decide)
  exact ⟨h, h.eventTotal_eq.trans (by decide), by decide⟩

end LocalMind
