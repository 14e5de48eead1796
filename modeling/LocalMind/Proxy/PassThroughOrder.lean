import LocalMind.Proxy.FramingConservation
import LocalMind.Proxy.PassThroughDelivery

namespace LocalMind
set_option autoImplicit true

/-- The chunks the framer sees: an empty one is forwarded as it is. -/
def framedChunks (received : List Bytes) : List Bytes := received.filter fun c => !c.isEmpty

theorem mem_framedChunks {received : List Bytes} (h : c ∈ framedChunks received) : c ≠ [] := by
  obtain ⟨-, hc⟩ := List.mem_filter.1 h
  rintro rfl
  cases hc

theorem flatten_framedChunks (received : List Bytes) :
    (framedChunks received).flatten = received.flatten := by
  induction received with
  | nil => rfl
  | cons c cs ih =>
    cases c with
    | nil => exact ih
    | cons b c => exact congrArg ((b :: c) ++ ·) ih

/-- A stream as a client starts to read it. -/
def StreamPassState.start (received : List Bytes) (failure : Option String)
    (accumulated : Option Bytes) : StreamPassState where
  underlying := ⟨streamItems received failure, false⟩
  framing := .new
  accumulated := accumulated
  completionTx := .new
  pendingError := none
  completionSignaled := false
  eventsTotal := 0

/-- The bytes a client receives. -/
def clientBytes (items : List Item) : Bytes := (items.filterMap Except.toOption).flatten

/-- What the client and the observer of a stream are promised. -/
structure DeliversInOrder (received : List Bytes) (failure : Option String) (items : List Item)
    (sent : List StreamEnd) : Prop where
  /-- the blocks of the framer and its tail, in order -/
  blocks : clientBytes items = emitted (framed (framedChunks received)) ++
    (afterStream (framedChunks received)).finish.1.getD []
  /-- less the blank line of each forced flush, they are the bytes received -/
  conserves : contents (framed (framedChunks received)) ++
    (afterStream (framedChunks received)).finish.1.getD [] = normalize received.flatten
  errorLast : ∀ pre e post, items = pre ++ .error e :: post → post = [] ∧ failure = some e
  errorIff : (∃ e, .error e ∈ items) ↔
    failure.isSome = true ∧ ∀ b, .ok b ∈ items → containsCompletion b = false
  sentOnce : sent.length ≤ 1
  completedIff : .completed ∈ sent ↔ ∃ b, .ok b ∈ items ∧ containsCompletion b = true
  prefilter : ∀ b, .ok b ∈ items → containsCompletion b = true → mentionsBridgeEvent b = true

theorem DeliversInOrder.flushesWhole {received : List Bytes} {failure : Option String}
    {items : List Item} {sent : List StreamEnd}
    (h : DeliversInOrder received failure items sent) :
    FramingState.new.FlushesWhole (framedChunks received) := by
  have hc := h.conserves
  rw [finish_getD, ← flatten_framedChunks] at hc
  exact (settled_framed_iff fun c => mem_framedChunks).1 hc

theorem crRun_replicate (n : Nat) (t : Bytes) :
    crRun false (List.replicate n 0x61 ++ t) =
      ((crRun false t).1, List.replicate n 0x61 ++ (crRun false t).2) := by
  induction n with
  | zero => rfl
  | succ n ih =>
    rw [List.replicate_succ, List.cons_append, crRun_of_ne (by decide), ih]
    rfl

theorem noTerminator_replicate (n : Nat) : findDoubleNewline (List.replicate n 0x61) = none := by
  induction n with
  | zero => rfl
  | succ n ih =>
    cases n with
    | zero => rfl
    | succ n =>
      rw [findDoubleNewline, List.replicate_succ, List.replicate_succ, Mealy.findPair,
        if_neg (by decide), ← List.replicate_succ]
      rw [findDoubleNewline] at ih
      rw [ih]
      rfl

/-- A block without a line end, a CR that ends its chunk, and the LF in the next. -/
def partedCrlf (n : Nat) : List Bytes := [List.replicate n 0x61 ++ [CR], [LF]]

theorem framedChunks_partedCrlf (n : Nat) : framedChunks (partedCrlf n) = partedCrlf n := by
  cases n <;> rfl

theorem partedCrlf_cut {n : Nat} (hn : n > PENDING_HIGH_WATER) :
    ¬ FramingState.new.FlushesWhole (framedChunks (partedCrlf n)) := by
  have hne : List.replicate n 0x61 ++ [CR] ≠ [] := List.concat_ne_nil CR (List.replicate n 0x61)
  have hp := FramingState.push_eq FramingState.new hne
  have hr : (crRun FramingState.new.crHeld (List.replicate n 0x61 ++ [CR])).2 =
      List.replicate n 0x61 := by
    change (crRun false _).2 = _
    rw [crRun_replicate]
    exact List.append_nil _
  have hu : (FramingState.new.push (List.replicate n 0x61 ++ [CR])).unterminated =
      List.replicate n 0x61 := by
    rw [FramingState.unterminated, hp, hr]
    exact congrArg Prod.fst (FramingState.blocks_of_noTerminator (noTerminator_replicate n))
  rw [framedChunks_partedCrlf]
  intro h
  refine h.1 ⟨?_, List.getLast?_concat, rfl⟩
  rw [hu, List.length_replicate]
  exact hn

end LocalMind
