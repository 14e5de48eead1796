import LocalMind.Proxy.Framing

namespace LocalMind
set_option autoImplicit true

/-- Line endings as the client gets them: each CRLF and each lone CR is one LF. -/
def normalize : Bytes → Bytes
  | [] => []
  | [b] => if b = CR then [LF] else [b]
  | b :: c :: rest =>
    if b = CR then
      if c = LF then LF :: normalize rest else LF :: normalize (c :: rest)
    else b :: normalize (c :: rest)

/-- One byte of the normalization; the state says whether the byte before was a CR. -/
def crStep (held : Bool) (b : UInt8) : Bool × Bytes :=
  if b = CR then (true, if held then [LF] else [])
  else if b = LF then (false, [LF])
  else (false, if held then [LF, b] else [b])

/-- The line break a held CR stands for. -/
def heldBreak (held : Bool) : Bytes := if held then [LF] else []

def crRun (held : Bool) (s : Bytes) : Bool × Bytes := Mealy.run crStep held s

theorem crRun_append (held : Bool) (s t : Bytes) :
    crRun held (s ++ t) =
      ((crRun (crRun held s).1 t).1, (crRun held s).2 ++ (crRun (crRun held s).1 t).2) :=
  Mealy.run_append crStep held s t

theorem crRun_cons (held : Bool) (b : UInt8) (s : Bytes) :
    crRun held (b :: s) =
      ((crRun (crStep held b).1 s).1, (crStep held b).2 ++ (crRun (crStep held b).1 s).2) := rfl

/-- A held CR is one line break whatever comes next, and swallows an LF. -/
theorem crRun_held (s : Bytes) (hs : s ≠ []) :
    crRun true s =
      ((crRun false (if s.head? = some LF then s.tail else s)).1,
        LF :: (crRun false (if s.head? = some LF then s.tail else s)).2) := by
  cases s with
  | nil => exact absurd rfl hs
  | cons b s =>
    by_cases hl : b = LF
    · subst hl
      rfl
    · have hh : (b :: s).head? ≠ some LF := fun h => hl (Option.some.inj h)
      rw [if_neg hh, crRun_cons, crRun_cons]
      by_cases hb : b = CR
      · subst hb
        rfl
      · simp only [crStep, if_neg hb, if_neg hl]
        rfl

theorem crStep_of_ne (hb : b ≠ CR) : crStep false b = (false, [b]) := by
  by_cases hl : b = LF
  · rw [hl]
    rfl
  · simp [crStep, hb, hl]

theorem crRun_cr_lf (s : Bytes) :
    crRun false (CR :: LF :: s) = ((crRun false s).1, LF :: (crRun false s).2) := rfl

theorem crRun_cr (hc : c ≠ LF) (s : Bytes) :
    crRun false (CR :: c :: s) =
      ((crRun false (c :: s)).1, LF :: (crRun false (c :: s)).2) := by
  have hh : (c :: s).head? ≠ some LF := fun h => hc (Option.some.inj h)
  have hr := crRun_held (c :: s) (by simp)
  rw [if_neg hh] at hr
  exact hr

theorem crRun_of_ne (hb : b ≠ CR) (s : Bytes) :
    crRun false (b :: s) = ((crRun false s).1, b :: (crRun false s).2) := by
  rw [crRun_cons, crStep_of_ne hb]
  rfl

theorem FramingState.normalizeChunk_eq (s : Bytes) :
    FramingState.normalizeChunk s = ((crRun false s).2, (crRun false s).1) := by
  induction s using FramingState.normalizeChunk.induct with
  | case1 => rfl
  | case2 => rfl
  | case3 b hb => rw [normalizeChunk, if_neg hb, crRun_of_ne hb]; rfl
  | case4 c rest ih₁ ih₂ =>
    rw [normalizeChunk, if_pos rfl]
    by_cases hc : c = LF
    · rw [if_pos hc, ih₁, hc, crRun_cr_lf]
    · rw [if_neg hc, ih₂, crRun_cr hc]
  | case5 b c rest hb ih => rw [normalizeChunk, if_neg hb, ih, crRun_of_ne hb]

theorem normalize_eq (s : Bytes) :
    normalize s = (crRun false s).2 ++ heldBreak (crRun false s).1 := by
  induction s using normalize.induct with
  | case1 => rfl
  | case2 => rfl
  | case3 b hb => rw [normalize, if_neg hb, crRun_of_ne hb]; rfl
  | case4 rest ih =>
    rw [normalize, if_pos rfl, if_pos rfl, ih, crRun_cr_lf]
    rfl
  | case5 c rest hc ih =>
    rw [normalize, if_pos rfl, if_neg hc, ih, crRun_cr hc]
    rfl
  | case6 b c rest hb ih =>
    rw [normalize, if_neg hb, ih, crRun_of_ne hb]
    rfl

namespace FramingState

/-- One push of a nonempty chunk continues the normalization. -/
theorem push_eq (s : FramingState) {c : Bytes} (hc : c ≠ []) :
    s.push c =
      ⟨s.pending ++ (crRun s.crHeld c).2, s.scanFrom, (crRun s.crHeld c).1⟩ := by
  obtain ⟨p, n, held⟩ := s
  cases held with
  | false => simp [push, normalizeChunk_eq]
  | true =>
    rw [crRun_held c hc]
    simp [push, normalizeChunk_eq]

/-- What `takeFramed` asserts before it scans: the frontier skips no terminator. -/
structure Frontier (s : FramingState) : Prop where
  within : s.scanFrom ≤ s.pending.length - 1
  skipsNone : findDoubleNewline (s.pending.take (s.scanFrom + 1)) = none

/-- The state between a drain and the next push. -/
structure Drained (s : FramingState) : Prop where
  noTerminator : findDoubleNewline s.pending = none
  frontier : s.scanFrom = s.pending.length - 1

theorem Drained.new : Drained new := ⟨rfl, rfl⟩

theorem Drained.toFrontier {s : FramingState} (h : Drained s) : Frontier s := by
  refine ⟨Nat.le_of_eq h.frontier, ?_⟩
  rw [List.take_of_length_le (by rw [h.frontier]; omega)]
  exact h.noTerminator

theorem scanTerminators_eq (pending : Bytes) (cursor : Nat) (last : Option Nat) (n : Nat) :
    ((Mealy.blocks LF (pending.drop cursor)).2 = [] →
      scanTerminators pending cursor last n = (last, n)) ∧
    ((Mealy.blocks LF (pending.drop cursor)).2 ≠ [] →
      ∃ p, scanTerminators pending cursor last n =
          (some p, n + (Mealy.blocks LF (pending.drop cursor)).2.length) ∧
        pending.drop (p + 2) = (Mealy.blocks LF (pending.drop cursor)).1) := by
  induction cursor, last, n using scanTerminators.induct pending with
  | case1 cursor last n rel hrel ih =>
    obtain ⟨a, t, hs, hl, hn⟩ := Mealy.findPair_eq_some hrel
    have hb := Mealy.run_blockStep_of_findPair_some a t hn
    rw [← hs] at hb
    have hlen := congrArg List.length hs
    simp only [List.length_drop, List.length_append, List.length_cons] at hlen
    have hmin : min (cursor + rel + 2) pending.length = cursor + rel + 2 := by omega
    have ht : pending.drop (cursor + rel + 2) = t := by
      rw [Nat.add_assoc, ← List.drop_drop, hs, ← hl, ← List.drop_drop, List.drop_left]
      rfl
    rw [hmin, ht] at ih
    have hscan : scanTerminators pending cursor last n =
        scanTerminators pending (cursor + rel + 2) (some (cursor + rel)) (n + 1) := by
      rw [scanTerminators]
      split
      · next r hr =>
        have he : r = rel := by rw [hrel] at hr; exact (Option.some.inj hr).symm
        rw [he, hmin]
      · next hr => rw [hrel] at hr; cases hr
    constructor
    · intro h
      rw [Mealy.blocks, hb] at h
      cases h
    · intro _
      rw [hscan, Mealy.blocks, hb]
      by_cases hbt : (Mealy.blocks LF t).2 = []
      · refine ⟨cursor + rel, ?_, ?_⟩
        · rw [ih.1 hbt, hbt]
          rfl
        · have hc : (Mealy.blocks LF t).2.flatten ++ (Mealy.blocks LF t).1 = [] ++ t :=
            Mealy.run_blockStep_conserves [] t
          rw [hbt] at hc
          rw [ht]
          exact hc.symm
      · obtain ⟨p, hp, hd⟩ := ih.2 hbt
        refine ⟨p, ?_, hd⟩
        rw [hp]
        simp only [List.length_cons, Prod.mk.injEq, true_and]
        omega
  | case2 cursor last n hnone =>
    have hb : Mealy.blocks LF (pending.drop cursor) = (pending.drop cursor, []) :=
      Mealy.run_blockStep_of_findPair_none hnone
    constructor
    · intro _
      rw [scanTerminators]
      split
      · next r hr => rw [hnone] at hr; cases hr
      · rfl
    · intro h
      rw [hb] at h
      exact absurd rfl h

/-- The events of the pending bytes are released together; without one, the pending bytes are
held, or flushed by force past the high-water mark. -/
theorem takeFramed_eq (s : FramingState) (h : Frontier s) :
    s.takeFramed =
      if (Mealy.blocks LF s.pending).2 = [] then
        if s.pending.length > PENDING_HIGH_WATER then
          (.forceFlush (s.pending ++ heldBreak s.crHeld ++ [LF, LF]), new)
        else (.nothing, { s with scanFrom := s.pending.length - 1 })
      else
        (.events (Mealy.blocks LF s.pending).2.flatten (Mealy.blocks LF s.pending).2.length,
          { s with
            pending := (Mealy.blocks LF s.pending).1
            scanFrom := (Mealy.blocks LF s.pending).1.length - 1 }) := by
  obtain ⟨pending, scanFrom, held⟩ := s
  obtain ⟨hw, hn⟩ := h
  dsimp only at hw hn ⊢
  by_cases hp : pending = []
  · subst hp
    have hz : scanFrom = 0 := Nat.le_zero.1 hw
    subst hz
    rfl
  · have hlen : 0 < pending.length := List.length_pos_iff.2 hp
    have hlt : scanFrom < pending.length := by omega
    obtain ⟨hcount, hrest⟩ := Mealy.blocks_drop hlt hn
    have hscan := scanTerminators_eq pending scanFrom none 0
    have hstart : min scanFrom (pending.length - 1) = scanFrom := Nat.min_eq_left hw
    rw [takeFramed, if_neg (by simpa using hp)]
    dsimp only
    rw [hstart]
    by_cases hb : (Mealy.blocks LF pending).2 = []
    · have hd : (Mealy.blocks LF (pending.drop scanFrom)).2 = [] := by
        rw [← List.length_eq_zero_iff, hcount, hb]
        rfl
      rw [if_pos hb, hscan.1 hd]
      cases held <;> simp [heldBreak, new]
    · have hd : (Mealy.blocks LF (pending.drop scanFrom)).2 ≠ [] := by
        rw [← List.length_pos_iff, hcount, List.length_pos_iff]
        exact hb
      obtain ⟨p, hs, hdrop⟩ := hscan.2 hd
      have hconserve : (Mealy.blocks LF pending).2.flatten ++ (Mealy.blocks LF pending).1 =
          [] ++ pending := Mealy.run_blockStep_conserves [] pending
      have htake : pending.take (p + 2) = (Mealy.blocks LF pending).2.flatten := by
        have he := List.take_append_drop (p + 2) pending
        rw [hdrop, hrest hb] at he
        exact List.append_cancel_right (he.trans hconserve.symm)
      rw [if_neg hb, hs]
      dsimp only
      rw [hdrop, hrest hb, htake, hcount, Nat.zero_add]

theorem drain_of_nothing {s t : FramingState} (h : s.takeFramed = (.nothing, t)) :
    s.drain = ([], t) := by
  rw [drain]
  split
  · next he =>
    rw [h] at he
    cases he
    rfl
  · next he => rw [h] at he; cases he
  · next he => rw [h] at he; cases he

theorem drain_of_ne {s t : FramingState} {f : Framed} (h : s.takeFramed = (f, t))
    (hf : f ≠ .nothing) : s.drain = (f :: t.drain.1, t.drain.2) := by
  rw [drain]
  split
  · next he => rw [h] at he; cases he; exact absurd rfl hf
  · next he => rw [h] at he; cases he; rfl
  · next he => rw [h] at he; cases he; rfl

theorem drain_new : drain new = ([], new) := drain_of_nothing rfl

/-- The bytes that stay pending after the events of a state are released. -/
def unterminated (s : FramingState) : Bytes := (Mealy.blocks LF s.pending).1

theorem noTerminator_unterminated (s : FramingState) :
    findDoubleNewline s.unterminated = none :=
  Mealy.findPair_run_blockStep rfl

theorem blocks_of_noTerminator {p : Bytes} (h : findDoubleNewline p = none) :
    Mealy.blocks LF p = (p, []) :=
  Mealy.run_blockStep_of_findPair_none h

/-- What is left of a drain once its events are out. -/
def settle (s : FramingState) : List Framed × FramingState :=
  if s.unterminated.length > PENDING_HIGH_WATER then
    ([.forceFlush (s.unterminated ++ heldBreak s.crHeld ++ [LF, LF])], new)
  else ([], ⟨s.unterminated, s.unterminated.length - 1, s.crHeld⟩)

/-- The events of a state, as `takeFramed` releases them. -/
def released (s : FramingState) : List Framed :=
  if (Mealy.blocks LF s.pending).2 = [] then []
  else [.events (Mealy.blocks LF s.pending).2.flatten (Mealy.blocks LF s.pending).2.length]

theorem drain_of_no_events (s : FramingState) (h : Frontier s)
    (hb : (Mealy.blocks LF s.pending).2 = []) : s.drain = s.settle := by
  have hc : (Mealy.blocks LF s.pending).2.flatten ++ (Mealy.blocks LF s.pending).1 =
      [] ++ s.pending := Mealy.run_blockStep_conserves [] s.pending
  have hu : s.unterminated = s.pending := by rwa [hb] at hc
  have ht := takeFramed_eq s h
  rw [if_pos hb] at ht
  rw [settle, hu]
  split at ht
  · next hw => rw [if_pos hw, drain_of_ne ht Framed.noConfusion, drain_new]
  · next hw => rw [if_neg hw, drain_of_nothing ht]

theorem drain_eq (s : FramingState) (h : Frontier s) :
    s.drain = (s.released ++ s.settle.1, s.settle.2) := by
  by_cases hb : (Mealy.blocks LF s.pending).2 = []
  · rw [drain_of_no_events s h hb, released, if_pos hb]
    rfl
  · have ht := takeFramed_eq s h
    rw [if_neg hb] at ht
    have hn := noTerminator_unterminated s
    have hb' := blocks_of_noTerminator hn
    let t : FramingState := ⟨s.unterminated, s.unterminated.length - 1, s.crHeld⟩
    have hf : Frontier t := Drained.toFrontier ⟨hn, rfl⟩
    have hu : t.unterminated = s.unterminated := by
      change (Mealy.blocks LF s.unterminated).1 = s.unterminated
      rw [hb']
    have hs : t.settle = s.settle := by rw [settle, settle, hu]
    have hd : t.drain = s.settle := hs ▸ drain_of_no_events t hf (congrArg Prod.snd hb')
    rw [drain_of_ne ht Framed.noConfusion, released, if_neg hb]
    exact congrArg (fun r => (_ :: r.1, r.2)) hd

theorem push_unterminated {s : FramingState} (hs : Drained s) {c : Bytes} (hc : c ≠ []) :
    Mealy.blocks LF (s.push c).pending =
      Mealy.run (Mealy.blockStep LF) s.pending (crRun s.crHeld c).2 := by
  have hb : Mealy.run (Mealy.blockStep LF) [] s.pending = (s.pending, []) :=
    blocks_of_noTerminator hs.noTerminator
  rw [push_eq s hc, Mealy.blocks, Mealy.run_append, hb]
  rfl

theorem Drained.frontier_append {s : FramingState} (hs : Drained s) (out : Bytes) (held : Bool) :
    Frontier ⟨s.pending ++ out, s.scanFrom, held⟩ := by
  constructor
  · simp only [hs.frontier, List.length_append]
    omega
  · dsimp only
    rw [hs.frontier]
    by_cases hp : s.pending = []
    · rw [hp, List.nil_append]
      cases out <;> rfl
    · have hl : s.pending.length - 1 + 1 = s.pending.length := by
        have := List.length_pos_iff.2 hp
        omega
      rw [hl, List.take_left]
      exact hs.noTerminator

theorem frontier_push {s : FramingState} (hs : Drained s) {c : Bytes} (hc : c ≠ []) :
    Frontier (s.push c) := by
  rw [push_eq s hc]
  exact hs.frontier_append _ _

theorem feed_eq {s : FramingState} (hs : Drained s) {c : Bytes} (hc : c ≠ []) :
    s.feed c = ((s.push c).released ++ (s.push c).settle.1, (s.push c).settle.2) :=
  drain_eq _ (frontier_push hs hc)

theorem drained_settle (s : FramingState) : Drained s.settle.2 := by
  rw [settle]
  split
  · exact .new
  · exact ⟨noTerminator_unterminated s, rfl⟩

theorem drained_feed {s : FramingState} (hs : Drained s) {c : Bytes} (hc : c ≠ []) :
    Drained (s.feed c).2 := by
  rw [feed_eq hs hc]
  exact drained_settle _

theorem drained_feedAll {s : FramingState} (hs : Drained s) {cs : List Bytes}
    (hc : ∀ c ∈ cs, c ≠ []) : Drained (s.feedAll cs).2 := by
  induction cs generalizing s with
  | nil => exact hs
  | cons c cs ih =>
    exact ih (drained_feed hs (hc c (by simp))) fun d hd => hc d (by simp [hd])

end FramingState

/-- The bytes of a run of the framer, and the events it counted. -/
def emitted (fs : List Framed) : Bytes := (fs.map Framed.bytes).flatten

def eventTotal (fs : List Framed) : Nat := (fs.map Framed.count).sum

theorem emitted_append (fs gs : List Framed) : emitted (fs ++ gs) = emitted fs ++ emitted gs := by
  simp only [emitted, List.map_append, List.flatten_append]

theorem eventTotal_append (fs gs : List Framed) :
    eventTotal (fs ++ gs) = eventTotal fs + eventTotal gs := by
  simp only [eventTotal, List.map_append, List.sum_append]

namespace FramingState

theorem emitted_released (s : FramingState) :
    emitted s.released = (Mealy.blocks LF s.pending).2.flatten := by
  rw [released]
  split
  · next h => rw [h]; rfl
  · exact List.append_nil _

theorem eventTotal_released (s : FramingState) :
    eventTotal s.released = (Mealy.blocks LF s.pending).2.length := by
  rw [released]
  split
  · next h => rw [h]; rfl
  · exact Nat.add_zero _

theorem released_ends (s : FramingState) (h : .events out n ∈ s.released) :
    ∃ x, out = x ++ [LF, LF] := by
  rw [released] at h
  split at h
  · cases h
  · next hb =>
    rw [List.mem_singleton] at h
    cases h
    obtain ⟨bs, b, hbs⟩ := List.eq_nil_or_concat _ |>.resolve_left hb
    have hm : b ∈ (Mealy.run (Mealy.blockStep LF) [] s.pending).2 := by
      change b ∈ (Mealy.blocks LF s.pending).2
      rw [hbs]
      simp
    obtain ⟨x, hx⟩ := Mealy.run_blockStep_ends hm
    exact ⟨bs.flatten ++ x, by rw [hbs, hx]; simp⟩

theorem settle_events (s : FramingState) : .events out n ∉ s.settle.1 := by
  rw [settle]
  split
  · simp
  · simp

theorem feedAll_ends {s : FramingState} (hs : Drained s) {cs : List Bytes}
    (hc : ∀ c ∈ cs, c ≠ []) (h : .events out n ∈ (s.feedAll cs).1) :
    ∃ x, out = x ++ [LF, LF] := by
  induction cs generalizing s with
  | nil => cases h
  | cons c cs ih =>
    have hc₁ := hc c (by simp)
    rcases List.mem_append.1 h with h | h
    · rw [feed_eq hs hc₁] at h
      rcases List.mem_append.1 h with h | h
      · exact released_ends _ h
      · exact absurd h (settle_events _)
    · exact ih (drained_feed hs hc₁) (fun d hd => hc d (by simp [hd])) h

/-- No push of the run leaves more than the high-water mark of unterminated bytes. -/
def Quiet (s : FramingState) : List Bytes → Prop
  | [] => True
  | c :: cs => (s.push c).unterminated.length ≤ PENDING_HIGH_WATER ∧ Quiet (s.feed c).2 cs

theorem feed_quiet {s : FramingState} (hs : Drained s) {c : Bytes} (hc : c ≠ [])
    (hq : (s.push c).unterminated.length ≤ PENDING_HIGH_WATER) :
    s.feed c = ((s.push c).released,
      ⟨(s.push c).unterminated, (s.push c).unterminated.length - 1, (s.push c).crHeld⟩) := by
  rw [feed_eq hs hc, settle, if_neg (Nat.not_lt.2 hq)]
  simp only [List.append_nil]

/-- A quiet run frames what one pass over the whole stream would. -/
theorem feedAll_quiet {s : FramingState} (hs : Drained s) {cs : List Bytes}
    (hc : ∀ c ∈ cs, c ≠ []) (hq : Quiet s cs) :
    let r := Mealy.run (Mealy.blockStep LF) s.pending (crRun s.crHeld cs.flatten).2
    emitted (s.feedAll cs).1 = r.2.flatten ∧ eventTotal (s.feedAll cs).1 = r.2.length ∧
      (s.feedAll cs).2.pending = r.1 ∧
      (s.feedAll cs).2.crHeld = (crRun s.crHeld cs.flatten).1 := by
  induction cs generalizing s with
  | nil => exact ⟨rfl, rfl, rfl, rfl⟩
  | cons c cs ih =>
    have hc₁ := hc c (by simp)
    have hf := feed_quiet hs hc₁ hq.1
    have hb := push_unterminated hs hc₁
    have hheld : (s.push c).crHeld = (crRun s.crHeld c).1 := by rw [push_eq s hc₁]
    obtain ⟨h₁, h₂, h₃, h₄⟩ :=
      ih (drained_feed hs hc₁) (fun d hd => hc d (by simp [hd])) hq.2
    have hu : (s.feed c).2.pending =
        (Mealy.run (Mealy.blockStep LF) s.pending (crRun s.crHeld c).2).1 := by
      rw [hf, ← hb]
      rfl
    have hh : (s.feed c).2.crHeld = (crRun s.crHeld c).1 := by rw [hf, ← hheld]
    rw [hu, hh] at h₁ h₂ h₃
    rw [hh] at h₄
    simp only [feedAll, List.flatten_cons, crRun_append, Mealy.run_append, List.flatten_append,
      List.length_append, emitted_append, eventTotal_append]
    refine ⟨?_, ?_, h₃, h₄⟩
    · rw [h₁, hf, emitted_released, hb]
    · rw [h₂, hf, eventTotal_released, hb]

end FramingState

end LocalMind
