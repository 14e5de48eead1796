import LocalMind.Proxy.PassThroughOrder

namespace LocalMind
set_option autoImplicit true

/-! Runs of the framer with forced flushes, and with chunks of no bytes. -/

namespace FramingState

/-- A push parts a CRLF: by a forced flush, or because it brings nothing after a held CR. -/
def PartsCrlf (s : FramingState) (c rest : Bytes) : Prop :=
  (c = [] ∧ s.crHeld = true ∧ rest.head? = some LF) ∨ s.CutsCrlf c rest

instance : Decidable (PartsCrlf s c rest) := by
  unfold PartsCrlf
  infer_instance

/-- No push of the run parts a CRLF. -/
def KeepsCrlfs (s : FramingState) : List Bytes → Prop
  | [] => True
  | c :: cs => ¬ s.PartsCrlf c cs.flatten ∧ KeepsCrlfs (s.feed c).2 cs

/-- The number of CRLFs that a run parts. -/
def partedCrlfs (s : FramingState) : List Bytes → Nat
  | [] => 0
  | c :: cs => (if s.PartsCrlf c cs.flatten then 1 else 0) + partedCrlfs (s.feed c).2 cs

theorem partedCrlfs_eq_zero_iff (s : FramingState) (cs : List Bytes) :
    s.partedCrlfs cs = 0 ↔ s.KeepsCrlfs cs := by
  induction cs generalizing s with
  | nil => simp only [partedCrlfs, KeepsCrlfs]
  | cons c cs ih =>
    rw [partedCrlfs, KeepsCrlfs, Nat.add_eq_zero_iff, ih]
    split <;> simp [*]

theorem KeepsCrlfs.flushesWhole {s : FramingState} {cs : List Bytes} (h : s.KeepsCrlfs cs) :
    s.FlushesWhole cs := by
  induction cs generalizing s with
  | nil => trivial
  | cons c cs ih => exact ⟨fun hc => h.1 (.inr hc), ih h.2⟩

theorem partsCrlf_of_ne (s : FramingState) {c : Bytes} (hc : c ≠ []) (rest : Bytes) :
    s.PartsCrlf c rest ↔ s.CutsCrlf c rest :=
  ⟨fun h => h.resolve_left fun hn => hc hn.1, .inr⟩

theorem partsCrlf_nil (s : FramingState) (rest : Bytes) :
    s.PartsCrlf [] rest ↔ s.crHeld = true ∧ rest.head? = some LF := by
  constructor
  · intro h
    obtain ⟨-, h⟩ | ⟨-, h, -⟩ := h
    · exact h
    · cases h
  · exact fun h => .inl ⟨rfl, h⟩

/-- A push of nothing settles a held CR. -/
theorem push_nil (s : FramingState) :
    s.push [] = ⟨s.pending ++ heldBreak s.crHeld, s.scanFrom, false⟩ := by
  obtain ⟨pending, scanFrom, held⟩ := s
  cases held <;> simp [push, normalizeChunk, heldBreak]

theorem frontier_push_all {s : FramingState} (hs : Drained s) (c : Bytes) :
    Frontier (s.push c) := by
  by_cases hc : c = []
  · rw [hc, push_nil]
    exact hs.frontier_append _ _
  · exact frontier_push hs hc

theorem drained_feed_all {s : FramingState} (hs : Drained s) (c : Bytes) :
    Drained (s.feed c).2 := by
  rw [feed, drain_eq _ (frontier_push_all hs c)]
  exact drained_settle _

/-- What a feed releases and holds is what came in, with a line break for a CRLF it parts. -/
theorem feed_parts {s : FramingState} (hs : Drained s) (c rest : Bytes) :
    ∃ x y, contents (s.feed c).1 ++ ((s.feed c).2.pending ++ resolve (s.feed c).2.crHeld rest) =
        x ++ (if s.PartsCrlf c rest then [LF] else []) ++ y ∧
      s.pending ++ resolve s.crHeld (c ++ rest) = x ++ y := by
  by_cases hc : c = []
  · subst hc
    obtain ⟨h₁, h₂⟩ := contents_drain (frontier_push_all hs [])
    rw [push_nil] at h₁ h₂
    have hfalse : (s.feed []).2.crHeld = false := by
      rw [feed, push_nil, h₂]
      exact ite_self _
    have hbytes : contents (s.feed []).1 ++ (s.feed []).2.pending =
        s.pending ++ heldBreak s.crHeld := by
      have hnone : heldBreak false = [] := rfl
      rw [feed, push_nil, h₁]
      dsimp only
      rw [hnone, ite_self, List.append_nil]
    refine ⟨s.pending, resolve s.crHeld rest, ?_, rfl⟩
    rw [← List.append_assoc, hbytes, hfalse, List.append_assoc, heldBreak_resolve,
      ← List.append_assoc]
    simp only [partsCrlf_nil]
  · refine ⟨s.pending ++ (crRun s.crHeld c).2, resolve (crRun s.crHeld c).1 rest, ?_, ?_⟩
    · rw [feed_resolve hs hc, ← List.append_assoc]
      simp only [partsCrlf_of_ne s hc]
    · rw [resolve_append, List.append_assoc]

theorem settled_run {s : FramingState} (hs : Drained s) {cs : List Bytes}
    (hw : s.KeepsCrlfs cs) :
    settled (s.feedAll cs) = s.pending ++ resolve s.crHeld cs.flatten := by
  induction cs generalizing s with
  | nil => rfl
  | cons c cs ih =>
    obtain ⟨x, y, hfeed, hstream⟩ := feed_parts hs c cs.flatten
    rw [if_neg hw.1, List.append_nil] at hfeed
    rw [settled_feedAll_cons, ih (drained_feed_all hs c) hw.2, hfeed, List.flatten_cons, hstream]

theorem length_settled_run {s : FramingState} (hs : Drained s) (cs : List Bytes) :
    (settled (s.feedAll cs)).length =
      (s.pending ++ resolve s.crHeld cs.flatten).length + s.partedCrlfs cs := by
  induction cs generalizing s with
  | nil => rfl
  | cons c cs ih =>
    obtain ⟨x, y, hfeed, hstream⟩ := feed_parts hs c cs.flatten
    have hlen := congrArg List.length hfeed
    have hrest := ih (drained_feed_all hs c)
    rw [settled_feedAll_cons, List.length_append, hrest, List.flatten_cons, hstream, partedCrlfs]
    rw [List.length_append] at hlen
    by_cases hp : s.PartsCrlf c cs.flatten
    · rw [if_pos hp] at hlen ⊢
      simp only [List.length_append, List.length_singleton] at hlen ⊢
      omega
    · rw [if_neg hp] at hlen ⊢
      simp only [List.length_append, List.length_nil] at hlen ⊢
      omega

/-! What one drain leaves and inserts. -/

theorem length_pending_drain {t : FramingState} (h : Frontier t) :
    t.drain.2.pending.length ≤ PENDING_HIGH_WATER := by
  rw [drain_eq t h, settle]
  split
  · exact Nat.zero_le _
  · next hw => exact Nat.le_of_not_lt hw

theorem forceFlush_ends {t : FramingState} (h : Frontier t) (hf : .forceFlush out ∈ t.drain.1) :
    ∃ body, out = body ++ [LF, LF] := by
  rw [drain_eq t h, released, settle] at hf
  obtain hf | hf := List.mem_append.1 hf
  · split at hf
    · cases hf
    · cases List.mem_singleton.1 hf
  · split at hf
    · cases List.mem_singleton.1 hf
      exact ⟨_, rfl⟩
    · cases hf

theorem length_pending_feedAll {s : FramingState} (hs : Drained s)
    (hle : s.pending.length ≤ PENDING_HIGH_WATER) (cs : List Bytes) :
    (s.feedAll cs).2.pending.length ≤ PENDING_HIGH_WATER := by
  induction cs generalizing s with
  | nil => exact hle
  | cons c cs ih =>
    exact ih (drained_feed_all hs c) (length_pending_drain (frontier_push_all hs c))

theorem forceFlush_feedAll_ends {s : FramingState} (hs : Drained s) {cs : List Bytes}
    (hf : .forceFlush out ∈ (s.feedAll cs).1) : ∃ body, out = body ++ [LF, LF] := by
  induction cs generalizing s with
  | nil => cases hf
  | cons c cs ih =>
    obtain hf | hf := List.mem_append.1 hf
    · exact forceFlush_ends (frontier_push_all hs c) hf
    · exact ih (drained_feed_all hs c) hf

end FramingState

/-- A run releases its stream, each line end as one LF, and one blank line more for each forced
flush; no drain leaves more than the high-water mark. -/
structure Conserves (cs : List Bytes) : Prop where
  bytes : contents (framed cs) ++ ((afterStream cs).finish.1).getD [] = normalize cs.flatten
  flushes : ∀ out, .forceFlush out ∈ framed cs → ∃ body, out = body ++ [LF, LF]
  bounded : ∀ ds, ds <+: cs → (afterStream ds).pending.length ≤ PENDING_HIGH_WATER

theorem settled_iff_keepsCrlfs (cs : List Bytes) :
    FramingState.settled (FramingState.new.feedAll cs) = normalize cs.flatten ↔
      FramingState.new.KeepsCrlfs cs := by
  have hn : normalize cs.flatten =
      FramingState.new.pending ++ resolve FramingState.new.crHeld cs.flatten := normalize_eq _
  rw [hn]
  constructor
  · intro h
    have hl := FramingState.length_settled_run .new cs
    rw [h] at hl
    exact (FramingState.partedCrlfs_eq_zero_iff _ _).1 (by omega)
  · exact FramingState.settled_run .new

/-- Forced flushes conserve the stream exactly when no push parts a CRLF. -/
theorem conserves_iff (cs : List Bytes) :
    Conserves cs ↔ FramingState.new.KeepsCrlfs cs := by
  rw [← settled_iff_keepsCrlfs]
  constructor
  · intro h
    rw [FramingState.settled, ← finish_getD]
    exact h.bytes
  · intro h
    refine ⟨?_, ?_, ?_⟩
    · rw [finish_getD]
      exact h
    · intro out hf
      exact FramingState.forceFlush_feedAll_ends .new hf
    · intro ds _
      exact FramingState.length_pending_feedAll .new (Nat.zero_le _) ds

theorem not_conserves_partedCrlf {n : Nat} (hn : n > PENDING_HIGH_WATER) :
    ¬ Conserves (partedCrlf n) := by
  intro h
  have hkeeps := (settled_iff_keepsCrlfs (partedCrlf n)).1 (by
    rw [FramingState.settled, ← finish_getD]
    exact h.bytes)
  have hwhole := hkeeps.flushesWhole
  rw [← framedChunks_partedCrlf] at hwhole
  exact partedCrlf_cut hn hwhole

/-- A flush between a CR and its LF releases a line break too many. -/
theorem conserves_fails : ¬ Conserves (partedCrlf (PENDING_HIGH_WATER + 1)) :=
  not_conserves_partedCrlf (Nat.lt_succ_self PENDING_HIGH_WATER)

end LocalMind
