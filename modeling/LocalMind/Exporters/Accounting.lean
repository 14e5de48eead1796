import LocalMind.Exporters.Writer
import Mathlib.Data.List.Forall2

namespace LocalMind
open Concurrent
set_option autoImplicit true

namespace Worker

/-- The failed attempts at the sample at hand. -/
def tried : Worker α → List (α × Attempt)
  | write _ sample n => List.replicate n (sample, .failed)
  | _ => []

/-- The worker has left its main loop. -/
def leaving : Worker α → Bool
  | poll .exit => true
  | write .exit _ _ => true
  | finalAck => true
  | done => true
  | _ => false

/-- The worker has drained the queue for the last time. -/
def drained : Worker α → Bool
  | finalAck => true
  | done => true
  | _ => false

end Worker

namespace WriterQueue

/-! What a run did, read off its steps. -/

abbrev Step (α : Type) := WriterQueue α × WriterEvent α

/-- An `enqueue` call with what it returned. -/
def outcome : Step α → Option (α × SendOutcome)
  | (s, .enqueue sample) => some (sample, (s.enqueue sample).1)
  | _ => none

/-- The sample the worker takes off the queue. -/
def taken : Step α → Option α
  | (s, .work _) =>
    match s.worker with
    | .poll _ => s.samples.head?
    | _ => none
  | _ => none

/-- A write attempt with its end. -/
def attempted : Step α → Option (α × Attempt)
  | (s, .work attempt) =>
    match s.worker with
    | .write _ sample _ => some (sample, attempt)
    | _ => none
  | _ => none

/-- `shutdown` and `drop` take the sender of samples. -/
def closes : Step α → Bool
  | (_, .shutdown) => true
  | (_, .drop) => true
  | _ => false

/-- The samples whose calls returned this. -/
def returning (o : SendOutcome) (past : List (Step α)) : List α :=
  ((past.filterMap outcome).filter (·.2 = o)).map Prod.fst

/-- The attempts by which a sample comes to its end: failed ones and one that goes through, four
failed ones, or none where no point could be built. -/
inductive Chain : Fate → List Attempt → Prop
  | written (n : Nat) (h : n ≤ 3) : Chain .written (List.replicate n .failed ++ [.ok])
  | exhausted : Chain .dropped (List.replicate 4 .failed)
  | rejected : Chain .dropped [.rejected]

/-- The attempts of the settled samples, one after the other. -/
def chained (settled : List (α × Fate)) (chains : List (List Attempt)) : List (α × Attempt) :=
  (List.zipWith (fun p chain => chain.map (p.1, ·)) settled chains).flatten

/-- The attempts that another follows. -/
def retried : List (List Attempt) → Nat
  | [] => 0
  | chain :: chains => (chain.length - 1) + retried chains

/-- Everything a run did is accounted for. -/
structure Accounted (past : List (Step α)) (s : WriterQueue α) : Prop where
  /-- queued samples are taken in their order, each once -/
  fifo : returning .queued past = past.filterMap taken ++ s.samples
  /-- and settled in that order -/
  settled : past.filterMap taken = s.settled.map Prod.fst ++ s.worker.inHand
  /-- each by a chain of attempts of its own, of which all but the last are retried -/
  attempts : ∃ chains, List.Forall₂ Chain (s.settled.map Prod.snd) chains ∧
    past.filterMap attempted = chained s.settled chains ++ s.worker.tried ∧
    s.retries = retried chains + s.worker.tried.length ∧ s.worker.tried.length ≤ 3
  /-- refused samples and samples given up count once each -/
  dropped : s.dropped = (returning .dropped past).length + s.settled.countP (·.2 = Fate.dropped)
  /-- nothing is accepted once the sender is taken -/
  closed : past.Pairwise fun p q => closes p = true → ∀ o ∈ outcome q, o.2 = .shutDown
  /-- after the worker's exit every call but the refused ones shows up -/
  conserved : s.worker = .done →
    (past.filterMap outcome).countP (·.2 ≠ .shutDown) =
      s.settled.countP (·.2 = Fate.written) + s.dropped

/-! The books: what came in, what was taken and what became of it. -/

structure Books (past : List (Step α)) (s : WriterQueue α) : Prop where
  fifo : returning .queued past = past.filterMap taken ++ s.samples
  settled : past.filterMap taken = s.settled.map Prod.fst ++ s.worker.inHand
  attempts : ∃ chains, List.Forall₂ Chain (s.settled.map Prod.snd) chains ∧
    past.filterMap attempted = chained s.settled chains ++ s.worker.tried ∧
    s.retries = retried chains + s.worker.tried.length ∧ s.worker.tried.length ≤ 3
  dropped : s.dropped = (returning .dropped past).length + s.settled.countP (·.2 = Fate.dropped)

theorem returning_concat_none (o : SendOutcome) (past : List (Step α))
    (h : outcome p = none) : returning o (past ++ [p]) = returning o past := by
  rw [returning, filterMap_concat past h, Option.toList_none, List.append_nil]
  rfl

theorem returning_concat (o : SendOutcome) (past : List (Step α))
    (h : outcome p = some (sample, o')) :
    returning o (past ++ [p]) = returning o past ++ if o' = o then [sample] else [] := by
  rw [returning, filterMap_concat past h, Option.toList_some, List.filter_append,
    List.map_append]
  congr 1
  by_cases ho : o' = o
  · simp [ho]
  · simp [ho]

/-- A step that takes, writes and refuses nothing. -/
theorem Books.quiet {past : List (Step α)} (h : Books past s) (houtcome : outcome p = none)
    (htaken : taken p = none) (hattempted : attempted p = none)
    (hsamples : s'.samples = s.samples) (hsettled : s'.settled = s.settled)
    (hretries : s'.retries = s.retries) (hdropped : s'.dropped = s.dropped)
    (hhand : s'.worker.inHand = s.worker.inHand) (htried : s'.worker.tried = s.worker.tried) :
    Books (past ++ [p]) s' := by
  constructor
  · rw [returning_concat_none _ _ houtcome, filterMap_concat past htaken, Option.toList_none,
      List.append_nil, hsamples]
    exact h.fifo
  · rw [filterMap_concat past htaken, Option.toList_none, List.append_nil, hsettled, hhand]
    exact h.settled
  · rw [filterMap_concat past hattempted, Option.toList_none, List.append_nil, hsettled, hretries,
      htried]
    exact h.attempts
  · rw [returning_concat_none _ _ houtcome, hsettled, hdropped]
    exact h.dropped

theorem enqueue_cases (s : WriterQueue α) (sample : α) :
    s.enqueue sample = (.shutDown, s) ∨
    (s.samplesOpen = true ∧ s.worker ≠ .done ∧ (s.enqueue sample =
        (.queued, { s with samples := s.samples ++ [sample], accepted := s.accepted ++ [sample] }) ∨
      s.enqueue sample = (.dropped, { s with dropped := s.dropped + 1 }))) := by
  rw [enqueue]
  split
  · exact .inl rfl
  · next hopen =>
    split
    · exact .inl rfl
    · next hdone =>
      refine .inr ⟨by simpa using hopen, hdone, ?_⟩
      split
      · exact .inl rfl
      · exact .inr rfl

theorem enqueue_books {past : List (Step α)} (h : Books past s) (sample : α) :
    Books (past ++ [(s, .enqueue sample)]) (s.enqueue sample).2 := by
  generalize hp : (s, WriterEvent.enqueue sample) = p
  have htaken : (past ++ [p]).filterMap taken = past.filterMap taken := by
    subst hp
    exact (filterMap_concat past rfl).trans (List.append_nil _)
  have hattempted : (past ++ [p]).filterMap attempted = past.filterMap attempted := by
    subst hp
    exact (filterMap_concat past rfl).trans (List.append_nil _)
  have hreturning : ∀ o, returning o (past ++ [p]) = returning o past ++
      if (s.enqueue sample).1 = o then [sample] else [] := by
    intro o
    subst hp
    exact returning_concat o past rfl
  obtain hcase | ⟨-, -, hcase | hcase⟩ := enqueue_cases s sample
  all_goals rw [hcase] at hreturning ⊢
  · constructor
    · rw [hreturning, htaken, if_neg SendOutcome.noConfusion, List.append_nil]
      exact h.fifo
    · rw [htaken]
      exact h.settled
    · rw [hattempted]
      exact h.attempts
    · rw [hreturning, if_neg SendOutcome.noConfusion, List.append_nil]
      exact h.dropped
  · constructor
    · rw [hreturning, htaken, if_pos rfl, h.fifo, List.append_assoc]
    · rw [htaken]
      exact h.settled
    · rw [hattempted]
      exact h.attempts
    · rw [hreturning, if_neg SendOutcome.noConfusion, List.append_nil]
      exact h.dropped
  · constructor
    · rw [hreturning, htaken, if_neg SendOutcome.noConfusion, List.append_nil]
      exact h.fifo
    · rw [htaken]
      exact h.settled
    · rw [hattempted]
      exact h.attempts
    · rw [hreturning, if_pos rfl, List.length_append, List.length_singleton]
      have hdropped := h.dropped
      dsimp only
      omega

theorem chained_concat (settled : List (α × Fate)) (hlen : settled.length = chains.length)
    (p : α × Fate) (chain : List Attempt) :
    chained (settled ++ [p]) (chains ++ [chain]) =
      chained settled chains ++ chain.map (p.1, ·) := by
  rw [chained, List.zipWith_append hlen, List.flatten_append, List.zipWith_cons_cons,
    List.zipWith_nil_left, List.flatten_singleton]
  rfl

theorem retried_concat (chains : List (List Attempt)) (chain : List Attempt) :
    retried (chains ++ [chain]) = retried chains + (chain.length - 1) := by
  induction chains with
  | nil => rw [List.nil_append, retried, retried, retried, Nat.add_comm]
  | cons first chains ih => rw [List.cons_append, retried, retried, ih, Nat.add_assoc]

/-- The worker settles the sample at hand with the attempt that ends its chain. -/
theorem settle_books {past : List (Step α)} (h : Books past s)
    (hw : s.worker = .write drain sample n)
    (hchain : Chain fate (List.replicate n .failed ++ [attempt])) :
    Books (past ++ [(s, .work attempt)]) (s.settle drain sample fate) := by
  have hafter : (Worker.afterWrite drain : Worker α).inHand = [] := by cases drain <;> rfl
  have htried : (Worker.afterWrite drain : Worker α).tried = [] := by cases drain <;> rfl
  have htaken : taken (s, .work attempt) = none := by rw [taken, hw]
  have hattempted : attempted (s, .work attempt) = some (sample, attempt) := by
    rw [attempted, hw]
  obtain ⟨chains, hchains, hpast, hretries, hle⟩ := h.attempts
  rw [hw] at hpast hretries
  constructor
  · rw [returning_concat_none _ _ rfl, filterMap_concat past htaken, Option.toList_none,
      List.append_nil]
    exact h.fifo
  · rw [filterMap_concat past htaken, Option.toList_none, List.append_nil, h.settled, hw, settle]
    dsimp only
    rw [hafter, List.map_append, List.append_nil]
    rfl
  · refine ⟨chains ++ [List.replicate n .failed ++ [attempt]], ?_, ?_, ?_, ?_⟩
    · rw [settle, List.map_append]
      exact List.rel_append hchains (.cons hchain .nil)
    · have hlen : s.settled.length = chains.length := by
        rw [← hchains.length_eq, List.length_map]
      rw [filterMap_concat past hattempted, hpast, settle]
      dsimp only
      rw [chained_concat _ hlen, htried, List.append_nil, Worker.tried, List.append_assoc,
        List.map_append, List.map_replicate]
      rfl
    · rw [settle]
      dsimp only
      rw [hretries, retried_concat, htried, Worker.tried, List.length_append, List.length_replicate,
        List.length_replicate, List.length_singleton, List.length_nil]
      omega
    · rw [settle]
      dsimp only
      rw [htried]
      exact Nat.zero_le 3
  · have hdropped := h.dropped
    rw [returning_concat_none _ _ rfl, settle]
    dsimp only
    rw [List.countP_append, List.countP_singleton]
    cases fate with
    | written => exact hdropped
    | dropped => exact congrArg Nat.succ hdropped

theorem work_books {past : List (Step α)} (h : Books past s) (hs : s.work attempt = some s') :
    Books (past ++ [(s, .work attempt)]) s' := by
  rw [work] at hs
  cases hw : s.worker with
  | receive =>
    have htaken : taken (s, .work attempt) = none := by rw [taken, hw]
    have hattempted : attempted (s, .work attempt) = none := by rw [attempted, hw]
    rw [hw] at hs
    dsimp only at hs
    split at hs
    · cases hs
      exact h.quiet rfl htaken hattempted rfl rfl rfl rfl (by rw [hw]; rfl) (by rw [hw]; rfl)
    · split at hs
      · cases hs
        exact h.quiet rfl htaken hattempted rfl rfl rfl rfl (by rw [hw]; rfl) (by rw [hw]; rfl)
      · cases hs
        exact h.quiet rfl htaken hattempted rfl rfl rfl rfl (by rw [hw]; rfl) (by rw [hw]; rfl)
  | poll drain =>
    have hattempted : attempted (s, .work attempt) = none := by rw [attempted, hw]
    rw [hw] at hs
    cases hq : s.samples with
    | nil =>
      have htaken : taken (s, .work attempt) = none := by rw [taken, hw, hq]; rfl
      rw [hq] at hs
      cases hs
      refine h.quiet rfl htaken hattempted hq.symm rfl rfl rfl ?_ ?_
      · rw [hw]
        cases drain <;> dsimp only <;> split <;> rfl
      · rw [hw]
        cases drain <;> dsimp only <;> split <;> rfl
    | cons sample rest =>
      have htaken : taken (s, .work attempt) = some sample := by rw [taken, hw, hq]; rfl
      rw [hq] at hs
      cases hs
      constructor
      · rw [returning_concat_none _ _ rfl, filterMap_concat past htaken, h.fifo, hq,
          List.append_assoc]
        rfl
      · have hsettled := h.settled
        rw [hw] at hsettled
        rw [filterMap_concat past htaken, hsettled]
        exact congrArg (· ++ [sample]) (List.append_nil _)
      · obtain ⟨chains, hchains, hpast, hretries, -⟩ := h.attempts
        rw [hw] at hpast hretries
        refine ⟨chains, hchains, ?_, hretries, Nat.zero_le 3⟩
        rw [filterMap_concat past hattempted, hpast]
        exact List.append_nil _
      · rw [returning_concat_none _ _ rfl]
        exact h.dropped
  | write drain sample n =>
    rw [hw] at hs
    obtain ⟨chains, hchains, hpast, hretries, hle⟩ := h.attempts
    rw [hw, Worker.tried, List.length_replicate] at hle
    cases attempt with
    | rejected =>
      dsimp only at hs
      split at hs
      · next hn =>
        cases hs
        apply settle_books h hw
        rw [hn]
        exact .rejected
      · cases hs
    | ok =>
      cases hs
      exact settle_books h hw (.written n hle)
    | failed =>
      dsimp only at hs
      split at hs
      · next hn =>
        have htaken : taken (s, .work Attempt.failed) = none := by rw [taken, hw]
        have hattempted : attempted (s, .work Attempt.failed) = some (sample, .failed) := by
          rw [attempted, hw]
        cases hs
        rw [hw] at hpast hretries
        constructor
        · rw [returning_concat_none _ _ rfl, filterMap_concat past htaken, Option.toList_none,
            List.append_nil]
          exact h.fifo
        · rw [filterMap_concat past htaken, Option.toList_none, List.append_nil, h.settled, hw]
          rfl
        · refine ⟨chains, hchains, ?_, ?_, ?_⟩
          · rw [filterMap_concat past hattempted, hpast, List.append_assoc, Worker.tried, Worker.tried,
              List.replicate_succ']
            rfl
          · dsimp only
            rw [hretries, Worker.tried, Worker.tried, List.length_replicate, List.length_replicate]
            rfl
          · rw [Worker.tried, List.length_replicate]
            exact hn
        · rw [returning_concat_none _ _ rfl]
          exact h.dropped
      · next hn =>
        cases hs
        apply settle_books h hw
        have hthree : n = 3 := Nat.le_antisymm hle (Nat.le_of_not_lt hn)
        rw [hthree]
        exact .exhausted
  | ack drain =>
    rw [hw] at hs
    cases hs
    refine h.quiet rfl (by rw [taken, hw]) (by rw [attempted, hw]) rfl rfl rfl rfl ?_ ?_
    · rw [hw]
      cases drain <;> rfl
    · rw [hw]
      cases drain <;> rfl
  | sleep =>
    rw [hw] at hs
    cases hs
    exact h.quiet rfl (by rw [taken, hw]) (by rw [attempted, hw]) rfl rfl rfl rfl
      (by rw [hw]; rfl) (by rw [hw]; rfl)
  | finalAck =>
    rw [hw] at hs
    cases hs
    exact h.quiet rfl (by rw [taken, hw]) (by rw [attempted, hw]) rfl rfl rfl rfl
      (by rw [hw]; rfl) (by rw [hw]; rfl)
  | done =>
    rw [hw] at hs
    cases hs

/-- A step of a `flush` call touches neither samples nor senders nor the worker. -/
theorem flushStep_frame {s : WriterQueue α} (hs : s.flushStep i f = some s') :
    s'.samplesOpen = s.samplesOpen ∧ s'.drainsOpen = s.drainsOpen ∧ s'.worker = s.worker ∧
      s'.samples = s.samples ∧ s'.settled = s.settled ∧ s'.retries = s.retries ∧
      s'.dropped = s.dropped := by
  rw [flushStep] at hs
  cases hstate : f.state with
  | register =>
    rw [hstate] at hs
    cases hs
    exact ⟨rfl, rfl, rfl, rfl, rfl, rfl, rfl⟩
  | ping =>
    rw [hstate] at hs
    dsimp only at hs
    split at hs
    · cases hs
      exact ⟨rfl, rfl, rfl, rfl, rfl, rfl, rfl⟩
    · cases hs
      exact ⟨rfl, rfl, rfl, rfl, rfl, rfl, rfl⟩
  | wait =>
    rw [hstate] at hs
    dsimp only at hs
    split at hs
    · cases hs
      exact ⟨rfl, rfl, rfl, rfl, rfl, rfl, rfl⟩
    · cases hs
  | unregister =>
    rw [hstate] at hs
    cases hs
    exact ⟨rfl, rfl, rfl, rfl, rfl, rfl, rfl⟩
  | acked =>
    rw [hstate] at hs
    cases hs
  | unacked =>
    rw [hstate] at hs
    cases hs

theorem Books.step {past : List (Step α)} (h : Books past s) (hs : s.step e = some s') :
    Books (past ++ [(s, e)]) s' := by
  cases e with
  | enqueue sample =>
    cases hs
    exact enqueue_books h sample
  | startFlush =>
    cases hs
    exact h.quiet rfl rfl rfl rfl rfl rfl rfl rfl rfl
  | flush i =>
    obtain ⟨f, -, hs⟩ := Option.bind_eq_some_iff.1 hs
    obtain ⟨-, -, hworker, hsamples, hsettled, hretries, hdropped⟩ := flushStep_frame hs
    exact h.quiet rfl rfl rfl hsamples hsettled hretries hdropped (by rw [hworker])
      (by rw [hworker])
  | timeout i =>
    obtain ⟨f, -, hs⟩ := Option.bind_eq_some_iff.1 hs
    rw [flushTimeout] at hs
    split at hs
    · cases hs
      exact h.quiet rfl rfl rfl rfl rfl rfl rfl rfl rfl
    · cases hs
  | work attempt => exact work_books h hs
  | shutdown =>
    cases hs
    exact h.quiet rfl rfl rfl rfl rfl rfl rfl rfl rfl
  | drop =>
    cases hs
    exact h.quiet rfl rfl rfl rfl rfl rfl rfl rfl rfl

/-! Closing the queue, and the worker's way out. -/

/-- The worker leaves only a closed queue, and only empty. -/
structure Exit (s : WriterQueue α) : Prop where
  drains : s.drainsOpen = false → s.samplesOpen = false
  leaving : s.worker.leaving = true → s.samplesOpen = false
  drained : s.worker.drained = true → s.samples = []
  swept : s.worker ≠ .ack .exit

/-- Calls and counters do not matter to it. -/
theorem Exit.frame (h : Exit s) (hopen : s'.samplesOpen = s.samplesOpen)
    (hdrains : s'.drainsOpen = s.drainsOpen) (hworker : s'.worker = s.worker)
    (hsamples : s'.samples = s.samples) : Exit s' := by
  constructor
  · rw [hopen, hdrains]
    exact h.drains
  · rw [hopen, hworker]
    exact h.leaving
  · rw [hsamples, hworker]
    exact h.drained
  · rw [hworker]
    exact h.swept

theorem drained_leaving {w : Worker α} (h : w.drained = true) : w.leaving = true := by
  cases w <;> cases h <;> rfl

theorem enqueue_exit {s : WriterQueue α} (h : Exit s) (sample : α) :
    Exit (s.enqueue sample).2 := by
  obtain hcase | ⟨hopen, -, hcase | hcase⟩ := enqueue_cases s sample
  · rw [hcase]
    exact h
  · rw [hcase]
    have hstays : s.worker.leaving = false := by
      rw [Bool.eq_false_iff]
      intro hleaving
      rw [h.leaving hleaving] at hopen
      cases hopen
    constructor
    · exact h.drains
    · exact h.leaving
    · intro hd
      rw [drained_leaving hd] at hstays
      cases hstays
    · exact h.swept
  · rw [hcase]
    exact h.frame rfl rfl rfl rfl

/-- The worker goes on to a state inside its loop, or inside its exit drain. -/
theorem Exit.move {s : WriterQueue α} (h : Exit s) (samples : List α) (pings retries dropped : Nat)
    (settled : List (α × Fate)) (worker : Worker α)
    (hleaving : worker.leaving = true → s.samplesOpen = false)
    (hdrained : worker.drained = false) (hswept : worker ≠ .ack .exit) :
    Exit { s with samples, pings, retries, dropped, settled, worker } := by
  constructor
  · exact h.drains
  · exact hleaving
  · intro hd
    rw [hdrained] at hd
    cases hd
  · exact hswept

theorem settle_exit {s : WriterQueue α} (h : Exit s) (hw : s.worker = .write drain sample n)
    (fate : Fate) : Exit (s.settle drain sample fate) := by
  have hleaving := h.leaving
  rw [hw] at hleaving
  cases drain with
  | idle => exact h.move _ _ _ _ _ _ (fun hl => by cases hl) rfl (fun he => by cases he)
  | ping => exact h.move _ _ _ _ _ _ (fun hl => by cases hl) rfl (fun he => by cases he)
  | exit => exact h.move _ _ _ _ _ _ hleaving rfl (fun he => by cases he)

theorem work_exit {s : WriterQueue α} (h : Exit s) (hs : s.work attempt = some s') : Exit s' := by
  have hleaving := h.leaving
  rw [work] at hs
  cases hw : s.worker with
  | receive =>
    rw [hw] at hs
    dsimp only at hs
    split at hs
    · cases hs
      exact h.move _ _ _ _ _ _ (fun hl => by cases hl) rfl (fun he => by cases he)
    · split at hs
      · cases hs
        exact h.move _ _ _ _ _ _ (fun hl => by cases hl) rfl (fun he => by cases he)
      · next hd =>
        cases hs
        exact h.move _ _ _ _ _ _ (fun _ => h.drains (by simpa using hd)) rfl
          (fun he => by cases he)
  | poll drain =>
    rw [hw] at hs hleaving
    cases hq : s.samples with
    | nil =>
      rw [hq] at hs
      cases hs
      by_cases hopen : s.samplesOpen = true
      · rw [if_pos hopen]
        apply h.move
        · intro hl
          cases drain with
          | idle => cases hl
          | ping => cases hl
          | exit => cases hl
        · cases drain <;> rfl
        · intro he
          cases he
          rw [hleaving rfl] at hopen
          cases hopen
      · rw [if_neg hopen]
        have hclosed : s.samplesOpen = false := by simpa using hopen
        constructor
        · exact h.drains
        · exact fun _ => hclosed
        · exact fun _ => rfl
        · cases drain <;> exact fun he => by cases he
    | cons sample rest =>
      rw [hq] at hs
      cases hs
      apply h.move
      · intro hl
        cases drain with
        | idle => cases hl
        | ping => cases hl
        | exit => exact hleaving rfl
      · rfl
      · intro he
        cases he
  | write drain sample n =>
    rw [hw] at hs hleaving
    cases attempt with
    | rejected =>
      dsimp only at hs
      split at hs
      · cases hs
        exact settle_exit h hw _
      · cases hs
    | ok =>
      cases hs
      exact settle_exit h hw _
    | failed =>
      dsimp only at hs
      split at hs
      · cases hs
        apply h.move
        · intro hl
          cases drain with
          | idle => cases hl
          | ping => cases hl
          | exit => exact hleaving rfl
        · rfl
        · intro he
          cases he
      · cases hs
        exact settle_exit h hw _
  | ack drain =>
    have hswept := h.swept
    rw [hw] at hs hswept
    cases hs
    cases drain with
    | idle =>
      constructor
      · exact h.drains
      · exact fun hl => by cases hl
      · exact fun hd => by cases hd
      · exact fun he => by cases he
    | ping =>
      constructor
      · exact h.drains
      · exact fun hl => by cases hl
      · exact fun hd => by cases hd
      · exact fun he => by cases he
    | exit => exact absurd rfl hswept
  | sleep =>
    rw [hw] at hs
    cases hs
    exact h.move _ _ _ _ _ _ (fun hl => by cases hl) rfl (fun he => by cases he)
  | finalAck =>
    rw [hw] at hs hleaving
    cases hs
    have hdrained := h.drained
    rw [hw] at hdrained
    constructor
    · exact h.drains
    · exact fun _ => hleaving rfl
    · exact fun _ => hdrained rfl
    · exact fun he => by cases he
  | done =>
    rw [hw] at hs
    cases hs

theorem Exit.step {s : WriterQueue α} (h : Exit s) (hs : s.step e = some s') : Exit s' := by
  cases e with
  | enqueue sample =>
    cases hs
    exact enqueue_exit h sample
  | startFlush =>
    cases hs
    exact h.frame rfl rfl rfl rfl
  | flush i =>
    obtain ⟨f, -, hs⟩ := Option.bind_eq_some_iff.1 hs
    obtain ⟨hopen, hdrains, hworker, hsamples, -⟩ := flushStep_frame hs
    exact h.frame hopen hdrains hworker hsamples
  | timeout i =>
    obtain ⟨f, -, hs⟩ := Option.bind_eq_some_iff.1 hs
    rw [flushTimeout] at hs
    split at hs
    · cases hs
      exact h.frame rfl rfl rfl rfl
    · cases hs
  | work attempt => exact work_exit h hs
  | shutdown =>
    cases hs
    exact ⟨fun _ => rfl, fun _ => rfl, h.drained, h.swept⟩
  | drop =>
    cases hs
    exact ⟨fun _ => rfl, fun _ => rfl, h.drained, h.swept⟩

theorem spawn_books : Books [] (spawn : WriterQueue α) :=
  ⟨rfl, rfl, ⟨[], .nil, rfl, rfl, Nat.zero_le 3⟩, rfl⟩

theorem spawn_exit : Exit (spawn : WriterQueue α) := by
  constructor
  · exact fun h => by cases h
  · exact fun h => by cases h
  · exact fun _ => rfl
  · exact fun h => by cases h

/-! Nothing is accepted once the sender is taken. -/

structure Gate (past : List (Step α)) (s : WriterQueue α) : Prop where
  closed : past.Pairwise fun p q => closes p = true → ∀ o ∈ outcome q, o.2 = .shutDown
  shut : ∀ p ∈ past, closes p = true → s.samplesOpen = false

theorem enqueue_shutDown {s : WriterQueue α} (h : s.samplesOpen = false) (sample : α) :
    s.enqueue sample = (.shutDown, s) := by
  rw [enqueue, if_pos h]

theorem outcome_closed (h : s.samplesOpen = false) (e : WriterEvent α) :
    ∀ o ∈ outcome (s, e), o.2 = .shutDown := by
  cases e with
  | enqueue sample =>
    intro o ho
    cases ho
    rw [enqueue_shutDown h]
  | startFlush | flush | timeout | work | shutdown | drop =>
    intro o ho
    cases ho

theorem work_samplesOpen {s : WriterQueue α} (hs : s.work attempt = some s') :
    s'.samplesOpen = s.samplesOpen := by
  rw [work] at hs
  cases hw : s.worker with
  | receive =>
    rw [hw] at hs
    dsimp only at hs
    split at hs
    · cases hs
      rfl
    · split at hs <;> cases hs <;> rfl
  | poll drain =>
    rw [hw] at hs
    dsimp only at hs
    split at hs <;> cases hs <;> rfl
  | write drain sample n =>
    rw [hw] at hs
    dsimp only at hs
    split at hs
    · split at hs <;> cases hs
      rfl
    · cases hs
      rfl
    · split at hs <;> cases hs <;> rfl
  | ack | sleep | finalAck =>
    rw [hw] at hs
    cases hs
    rfl
  | done =>
    rw [hw] at hs
    cases hs

/-- A closed queue stays closed, and closing it closes it. -/
theorem closed_step {s : WriterQueue α} (hs : s.step e = some s')
    (h : s.samplesOpen = false ∨ closes (s, e) = true) : s'.samplesOpen = false := by
  cases e with
  | enqueue sample =>
    obtain h | h := h
    · cases hs
      rw [enqueue_shutDown h]
      exact h
    · cases h
  | startFlush =>
    cases hs
    obtain h | h := h
    · exact h
    · cases h
  | flush i =>
    obtain ⟨f, -, hs⟩ := Option.bind_eq_some_iff.1 hs
    rw [(flushStep_frame hs).1]
    obtain h | h := h
    · exact h
    · cases h
  | timeout i =>
    obtain ⟨f, -, hs⟩ := Option.bind_eq_some_iff.1 hs
    rw [flushTimeout] at hs
    split at hs
    · cases hs
      obtain h | h := h
      · exact h
      · cases h
    · cases hs
  | work attempt =>
    rw [work_samplesOpen hs]
    obtain h | h := h
    · exact h
    · cases h
  | shutdown =>
    cases hs
    rfl
  | drop =>
    cases hs
    rfl

theorem Gate.step {past : List (Step α)} (h : Gate past s) (hs : s.step e = some s') :
    Gate (past ++ [(s, e)]) s' := by
  constructor
  · apply List.pairwise_append.2
    refine ⟨h.closed, List.pairwise_singleton _ _, ?_⟩
    intro p hp q hq hcloses
    rw [List.mem_singleton.1 hq]
    exact outcome_closed (h.shut p hp hcloses) e
  · intro p hp hcloses
    apply closed_step hs
    obtain hp | hp := List.mem_append.1 hp
    · exact .inl (h.shut p hp hcloses)
    · rw [List.mem_singleton.1 hp] at hcloses
      exact .inr hcloses

/-! The whole run. -/

theorem countP_accepted (past : List (Step α)) :
    (past.filterMap outcome).countP (·.2 ≠ .shutDown) =
      (returning .queued past).length + (returning .dropped past).length := by
  rw [returning, returning, List.length_map, List.length_map, ← List.countP_eq_length_filter,
    ← List.countP_eq_length_filter]
  induction past.filterMap outcome with
  | nil => rfl
  | cons p ps ih =>
    obtain ⟨sample, o⟩ := p
    rw [List.countP_cons, List.countP_cons, List.countP_cons, ih]
    cases o <;> simp <;> omega

theorem countP_fates (settled : List (α × Fate)) :
    settled.length = settled.countP (·.2 = Fate.written) + settled.countP (·.2 = Fate.dropped) := by
  induction settled with
  | nil => rfl
  | cons p ps ih =>
    obtain ⟨sample, fate⟩ := p
    rw [List.length_cons, List.countP_cons, List.countP_cons, ih]
    cases fate <;> simp <;> omega

/-- Every sample that was queued or dropped in a run is accounted for at its end. -/
theorem run_accounted (hrun : run step (spawn : WriterQueue α) es = some s) :
    Accounted (steps step spawn es) s := by
  have hall : Books (steps step spawn es) s ∧ Exit s ∧ Gate (steps step spawn es) s := by
    apply run_records (P := fun past s => Books past s ∧ Exit s ∧ Gate past s) _ hrun
    · intro past u e u' hkept hs
      obtain ⟨hbooks, hexit, hgate⟩ := hkept
      exact ⟨hbooks.step hs, hexit.step hs, hgate.step hs⟩
    · exact ⟨spawn_books, spawn_exit, .nil, List.forall_mem_nil _⟩
  obtain ⟨hbooks, hexit, hgate⟩ := hall
  refine ⟨hbooks.fifo, hbooks.settled, hbooks.attempts, hbooks.dropped, hgate.closed, ?_⟩
  intro hdone
  have hfifo := hbooks.fifo
  have hsettled := hbooks.settled
  have hempty := hexit.drained
  rw [hdone] at hsettled hempty
  rw [hempty rfl, hsettled, List.append_nil] at hfifo
  have hlen : (returning .queued (steps step spawn es)).length = s.settled.length := by
    simpa [Worker.inHand] using congrArg List.length hfifo
  have hfates := countP_fates s.settled
  have hdropped := hbooks.dropped
  rw [countP_accepted]
  omega

/-- A sample that is written at the second attempt, and the worker's exit after a shutdown. -/
def retriedOnce : List (WriterEvent Unit) :=
  [.enqueue (), .shutdown, .work .ok, .work .ok, .work .failed, .work .ok, .enqueue (),
    .work .ok, .work .ok, .work .ok, .work .ok]

theorem run_accounted_retriedOnce :
    Accounted (steps step spawn retriedOnce) ((run step spawn retriedOnce).get (by decide)) :=
  run_accounted (Option.some_get _).symm

end WriterQueue
end LocalMind
