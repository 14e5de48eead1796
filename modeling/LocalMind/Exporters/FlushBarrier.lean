import LocalMind.Exporters.Writer

namespace LocalMind
namespace WriterQueue
open Concurrent
set_option autoImplicit true

/-- The first `k` accepted samples have been written or counted as dropped. -/
def Settled (s : WriterQueue α) (k : Nat) : Prop :=
  s.accepted.take k <+: s.settled.map Prod.fst ∧
    s.settled.countP (·.2 = Fate.dropped) ≤ s.dropped

/-- A flush that was acknowledged finds every sample settled that was accepted before it began. -/
def FlushHonest (s : WriterQueue α) : Prop :=
  ∀ f ∈ s.flushes, f.state = .acked → s.Settled f.before

/-- No ticket is registered between the worker's look at the queue and its sweep of the tickets
while a sample accepted before that flush began still waits. -/
def Clear (s : WriterQueue α) : WriterEvent α → Prop
  | .flush i => ∀ f ∈ s.flushes[i]?, f.state = .register → s.worker.sweeping = true →
      f.before ≤ s.settled.length
  | _ => True

instance [DecidableEq α] (s : WriterQueue α) : Decidable s.FlushHonest :=
  inferInstanceAs (Decidable (∀ f ∈ s.flushes, f.state = .acked →
    s.accepted.take f.before <+: s.settled.map Prod.fst ∧
      s.settled.countP (·.2 = Fate.dropped) ≤ s.dropped))

instance (s : WriterQueue α) (e : WriterEvent α) : Decidable (s.Clear e) :=
  match e with
  | .flush i => inferInstanceAs (Decidable (∀ f ∈ s.flushes[i]?, f.state = .register →
      s.worker.sweeping = true → f.before ≤ s.settled.length))
  | .enqueue _ | .startFlush | .timeout _ | .work _ | .shutdown | .drop =>
    inferInstanceAs (Decidable True)

/-- What holds in every state of a run whose registrations are clear. -/
structure Barrier (s : WriterQueue α) : Prop where
  fifo : s.accepted = s.settled.map Prod.fst ++ s.worker.inHand ++ s.samples
  counted : s.settled.countP (·.2 = Fate.dropped) ≤ s.dropped
  begun : ∀ (i : Nat), ∀ f ∈ s.flushes[i]?, f.before ≤ s.accepted.length
  answered : ∀ (i : Nat), ∀ f ∈ s.flushes[i]?, 0 < f.acks ∨ f.state = .acked →
    f.before ≤ s.settled.length
  known : ∀ i ∈ s.waiters, i < s.flushes.length
  waiting : s.worker.sweeping = true → ∀ i ∈ s.waiters, ∀ f ∈ s.flushes[i]?,
    f.before ≤ s.settled.length

theorem Barrier.flushHonest {s : WriterQueue α} (h : s.Barrier) : s.FlushHonest := by
  intro f hf hacked
  obtain ⟨i, hi⟩ := List.getElem?_of_mem hf
  have hle := h.answered i f hi (.inr hacked)
  constructor
  · rw [h.fifo, List.append_assoc, List.take_append_of_le_length (by rwa [List.length_map])]
    exact List.take_prefix _ _
  · exact h.counted

theorem Barrier.length {s : WriterQueue α} (h : s.Barrier) :
    s.accepted.length = s.settled.length + s.worker.inHand.length + s.samples.length := by
  rw [h.fifo, List.length_append, List.length_append, List.length_map]

theorem spawn_barrier : (spawn : WriterQueue α).Barrier := by
  constructor
  · rfl
  · exact Nat.le_refl 0
  · intro i f hf
    cases hf
  · intro i f hf
    cases hf
  · exact fun i hi => absurd hi List.not_mem_nil
  · intro h
    cases h

theorem enqueue_barrier {s : WriterQueue α} (h : s.Barrier) (sample : α) :
    (s.enqueue sample).2.Barrier := by
  rw [enqueue]
  split
  · exact h
  · split
    · exact h
    · split
      · constructor
        · dsimp only
          rw [h.fifo]
          simp only [List.append_assoc]
        · exact h.counted
        · intro i f hf
          have := h.begun i f hf
          rw [List.length_append]
          omega
        · exact h.answered
        · exact h.known
        · exact h.waiting
      · exact ⟨h.fifo, Nat.le_succ_of_le h.counted, h.begun, h.answered, h.known, h.waiting⟩

/-- A step of the worker that leaves the calls and what is settled as they were. -/
theorem Barrier.move {s : WriterQueue α} (h : s.Barrier) (samples : List α) (pings retries : Nat)
    (worker : Worker α) (hfifo : worker.inHand ++ samples = s.worker.inHand ++ s.samples)
    (hsweep : worker.sweeping = true → s.settled.length = s.accepted.length) :
    Barrier { s with samples, pings, retries, worker } := by
  constructor
  · dsimp only
    rw [h.fifo, List.append_assoc, List.append_assoc, hfifo]
  · exact h.counted
  · exact h.begun
  · exact h.answered
  · exact h.known
  · intro hw i _ f hf
    rw [hsweep hw]
    exact h.begun i f hf

theorem settle_barrier {s : WriterQueue α} (h : s.Barrier)
    (hw : s.worker = .write drain sample n) (fate : Fate) :
    (s.settle drain sample fate).Barrier := by
  have hafter : (Worker.afterWrite drain : Worker α).inHand = [] := by cases drain <;> rfl
  constructor
  · rw [settle]
    dsimp only
    rw [h.fifo, hafter, hw, List.map_append]
    simp only [Worker.inHand, List.map_cons, List.map_nil, List.append_nil]
  · rw [settle]
    dsimp only
    have := h.counted
    rw [List.countP_append]
    cases fate with
    | written => exact this
    | dropped => exact Nat.succ_le_succ this
  · exact h.begun
  · intro i f hf hans
    have := h.answered i f hf hans
    rw [settle, List.length_append]
    omega
  · exact h.known
  · intro hsweep
    cases drain <;> cases hsweep

/-- The sweep answers only tickets whose samples are settled. -/
theorem ackWaiters_barrier {s : WriterQueue α} (h : s.Barrier) (hw : s.worker.sweeping = true)
    (hhand : s.worker.inHand = []) (worker : Worker α) (hhand' : worker.inHand = []) :
    (s.ackWaiters worker).Barrier := by
  have hflush : ∀ (i : Nat), ∀ f' ∈ (s.ackWaiters worker).flushes[i]?, ∃ f ∈ s.flushes[i]?,
      f' = f ∨ i ∈ s.waiters ∧ f' = { f with acks := f.acks + 1 } := by
    intro i f' hf'
    rw [ackWaiters, List.getElem?_mapIdx] at hf'
    obtain ⟨f, hf, rfl⟩ := Option.map_eq_some_iff.1 hf'
    refine ⟨f, hf, ?_⟩
    by_cases hc : i ∈ s.waiters ∧ f.returned = false
    · rw [if_pos hc]
      exact .inr ⟨hc.1, rfl⟩
    · rw [if_neg hc]
      exact .inl rfl
  constructor
  · rw [ackWaiters]
    dsimp only
    rw [h.fifo, hhand, hhand']
  · exact h.counted
  · intro i f' hf'
    obtain ⟨f, hf, rfl | ⟨-, rfl⟩⟩ := hflush i f' hf'
    · exact h.begun i f' hf
    · exact h.begun i f hf
  · intro i f' hf' hans
    obtain ⟨f, hf, rfl | ⟨hi, rfl⟩⟩ := hflush i f' hf'
    · exact h.answered i f' hf hans
    · exact h.waiting hw i hi f hf
  · intro i hi
    rw [ackWaiters, List.length_mapIdx]
    exact h.known i (List.mem_filter.1 hi).1
  · intro _ i hi f' hf'
    have hmem : i ∈ s.waiters := (List.mem_filter.1 hi).1
    obtain ⟨f, hf, rfl | ⟨-, rfl⟩⟩ := hflush i f' hf'
    · exact h.waiting hw i hmem f' hf
    · exact h.waiting hw i hmem f hf

theorem work_barrier {s : WriterQueue α} (h : s.Barrier) (hs : s.work attempt = some s') :
    s'.Barrier := by
  rw [work] at hs
  cases hw : s.worker with
  | receive =>
    rw [hw] at hs
    dsimp only at hs
    split at hs
    · cases hs
      exact h.move _ _ _ _ (by rw [hw]; rfl) fun hsweep => by cases hsweep
    · split at hs <;> cases hs
      · exact h.move _ _ _ _ (by rw [hw]; rfl) fun hsweep => by cases hsweep
      · exact h.move _ _ _ _ (by rw [hw]; rfl) fun hsweep => by cases hsweep
  | poll drain =>
    rw [hw] at hs
    dsimp only at hs
    cases hq : s.samples with
    | nil =>
      rw [hq] at hs
      cases hs
      have hlen := h.length
      rw [hw, hq] at hlen
      apply h.move _ _ _ _ _ fun _ => hlen.symm
      rw [hw, hq]
      split
      · rfl
      · cases drain <;> rfl
    | cons sample rest =>
      rw [hq] at hs
      cases hs
      exact h.move _ _ _ _ (by rw [hw, hq]; rfl) fun hsweep => by cases hsweep
  | write drain sample n =>
    rw [hw] at hs
    cases attempt with
    | rejected =>
      dsimp only at hs
      split at hs
      · cases hs
        exact settle_barrier h hw _
      · cases hs
    | ok =>
      cases hs
      exact settle_barrier h hw _
    | failed =>
      dsimp only at hs
      split at hs
      · cases hs
        exact h.move _ _ _ _ (by rw [hw]; rfl) fun hsweep => by cases hsweep
      · cases hs
        exact settle_barrier h hw _
  | ack drain =>
    rw [hw] at hs
    cases hs
    apply ackWaiters_barrier h
    · rw [hw]; rfl
    · rw [hw]; rfl
    · cases drain <;> rfl
  | sleep =>
    rw [hw] at hs
    cases hs
    exact h.move _ _ _ _ (by rw [hw]; rfl) fun hsweep => by cases hsweep
  | finalAck =>
    rw [hw] at hs
    cases hs
    apply ackWaiters_barrier h
    · rw [hw]; rfl
    · rw [hw]; rfl
    · rfl
  | done =>
    rw [hw] at hs
    cases hs

theorem mem_setFlush {s : WriterQueue α} {f' g : Flush} {j : Nat}
    (hg : g ∈ (s.setFlush i f').flushes[j]?) :
    (j = i ∧ g = f') ∨ (j ≠ i ∧ g ∈ s.flushes[j]?) := by
  change (s.flushes.set i f')[j]? = some g at hg
  by_cases hj : i = j
  · subst hj
    obtain ⟨hlt, heq⟩ := List.getElem?_eq_some_iff.1 hg
    rw [List.getElem_set_self] at heq
    exact .inl ⟨rfl, heq.symm⟩
  · rw [List.getElem?_set_ne hj] at hg
    exact .inr ⟨Ne.symm hj, hg⟩

/-- A step of a call that gives it no answer and registers only settled tickets. -/
theorem Barrier.call {s : WriterQueue α} (h : s.Barrier) (hf : s.flushes[i]? = some f)
    (f' : Flush) (pings : Nat) (waiters : List Nat) (hbefore : f'.before = f.before)
    (hans : 0 < f'.acks ∨ f'.state = .acked → 0 < f.acks ∨ f.state = .acked)
    (hwaiters : ∀ j ∈ waiters, j ∈ s.waiters ∨
      j = i ∧ (s.worker.sweeping = true → f.before ≤ s.settled.length)) :
    Barrier { s.setFlush i f' with pings, waiters } := by
  constructor
  · exact h.fifo
  · exact h.counted
  · intro j g hg
    obtain ⟨rfl, rfl⟩ | ⟨-, hg⟩ := mem_setFlush hg
    · rw [hbefore]
      exact h.begun j f hf
    · exact h.begun j g hg
  · intro j g hg hans'
    obtain ⟨rfl, rfl⟩ | ⟨-, hg⟩ := mem_setFlush hg
    · rw [hbefore]
      exact h.answered j f hf (hans hans')
    · exact h.answered j g hg hans'
  · intro j hj
    change j < (s.flushes.set i f').length
    rw [List.length_set]
    obtain hmem | ⟨rfl, -⟩ := hwaiters j hj
    · exact h.known j hmem
    · exact (List.getElem?_eq_some_iff.1 hf).1
  · intro hw j hj g hg
    obtain ⟨rfl, rfl⟩ | ⟨hne, hg⟩ := mem_setFlush hg
    · rw [hbefore]
      obtain hmem | ⟨-, hle⟩ := hwaiters j hj
      · exact h.waiting hw j hmem f hf
      · exact hle hw
    · obtain hmem | ⟨heq, -⟩ := hwaiters j hj
      · exact h.waiting hw j hmem g hg
      · exact absurd heq hne

theorem flushStep_barrier {s : WriterQueue α} (h : s.Barrier) (hf : s.flushes[i]? = some f)
    (hclear : s.Clear (.flush i)) (hs : s.flushStep i f = some s') : s'.Barrier := by
  rw [flushStep] at hs
  cases hstate : f.state with
  | register =>
    rw [hstate] at hs
    cases hs
    apply h.call hf { f with state := .ping } s.pings _ rfl
    · intro hans
      exact hans.imp_right fun h => by cases h
    · intro j hj
      obtain hj | hj := List.mem_append.1 hj
      · exact .inl hj
      · exact .inr ⟨List.mem_singleton.1 hj, hclear f hf hstate⟩
  | ping =>
    rw [hstate] at hs
    dsimp only at hs
    split at hs <;> cases hs
    · apply h.call hf { f with state := .wait } _ s.waiters rfl
      · intro hans
        exact hans.imp_right fun h => by cases h
      · exact fun j hj => .inl hj
    · apply h.call hf { f with state := .unacked } s.pings s.waiters rfl
      · intro hans
        exact hans.imp_right fun h => by cases h
      · exact fun j hj => .inl hj
  | wait =>
    rw [hstate] at hs
    dsimp only at hs
    split at hs
    · next hacks =>
      cases hs
      exact h.call hf { f with state := .acked, acks := f.acks - 1 } s.pings s.waiters rfl
        (fun _ => .inl hacks) fun j hj => .inl hj
    · cases hs
  | unregister =>
    rw [hstate] at hs
    cases hs
    apply h.call hf { f with state := .unacked } s.pings _ rfl
    · intro hans
      exact hans.imp_right fun h => by cases h
    · exact fun j hj => .inl (List.mem_of_mem_erase hj)
  | acked =>
    rw [hstate] at hs
    cases hs
  | unacked =>
    rw [hstate] at hs
    cases hs

theorem flushTimeout_barrier {s : WriterQueue α} (h : s.Barrier) (hf : s.flushes[i]? = some f)
    (hs : s.flushTimeout i f = some s') : s'.Barrier := by
  rw [flushTimeout] at hs
  split at hs
  · cases hs
    apply h.call hf { f with state := .unregister } s.pings s.waiters rfl
    · intro hans
      exact hans.imp_right fun h => by cases h
    · exact fun j hj => .inl hj
  · cases hs

theorem startFlush_barrier {s : WriterQueue α} (h : s.Barrier) :
    Barrier { s with flushes := s.flushes ++ [⟨s.accepted.length, .register, 0⟩] } := by
  have hmem : ∀ (j : Nat), ∀ g ∈ (s.flushes ++ [⟨s.accepted.length, .register, 0⟩])[j]?,
      g ∈ s.flushes[j]? ∨ g = ⟨s.accepted.length, .register, 0⟩ ∧ s.flushes.length ≤ j := by
    intro j g hg
    by_cases hj : j < s.flushes.length
    · rw [List.getElem?_append_left hj] at hg
      exact .inl hg
    · rw [List.getElem?_append_right (Nat.le_of_not_lt hj)] at hg
      exact .inr ⟨List.mem_singleton.1 (List.mem_of_getElem? hg), Nat.le_of_not_lt hj⟩
  constructor
  · exact h.fifo
  · exact h.counted
  · intro j g hg
    obtain hg | ⟨rfl, -⟩ := hmem j g hg
    · exact h.begun j g hg
    · exact Nat.le_refl _
  · intro j g hg hans
    obtain hg | ⟨rfl, -⟩ := hmem j g hg
    · exact h.answered j g hg hans
    · obtain hans | hans := hans <;> cases hans
  · intro j hj
    rw [List.length_append]
    exact Nat.lt_add_right _ (h.known j hj)
  · intro hw j hj g hg
    obtain hg | ⟨-, hle⟩ := hmem j g hg
    · exact h.waiting hw j hj g hg
    · exact absurd (h.known j hj) (Nat.not_lt.2 hle)

theorem Barrier.step {s : WriterQueue α} (h : s.Barrier) (hclear : s.Clear e)
    (hs : s.step e = some s') : s'.Barrier := by
  cases e with
  | enqueue sample =>
    cases hs
    exact enqueue_barrier h sample
  | startFlush =>
    cases hs
    exact startFlush_barrier h
  | flush i =>
    obtain ⟨f, hf, hs⟩ := Option.bind_eq_some_iff.1 hs
    exact flushStep_barrier h hf hclear hs
  | timeout i =>
    obtain ⟨f, hf, hs⟩ := Option.bind_eq_some_iff.1 hs
    exact flushTimeout_barrier h hf hs
  | work attempt => exact work_barrier h hs
  | shutdown =>
    cases hs
    exact ⟨h.fifo, h.counted, h.begun, h.answered, h.known, h.waiting⟩
  | drop =>
    cases hs
    exact ⟨h.fifo, h.counted, h.begun, h.answered, h.known, h.waiting⟩

/-- In a run whose registrations are clear no flush is acknowledged early. -/
theorem flush_barrier (hrun : run step (spawn : WriterQueue α) es = some s)
    (hclear : ∀ u e, (u, e) ∈ steps step spawn es → Clear u e) : s.FlushHonest := by
  apply Barrier.flushHonest
  exact run_keeps spawn_barrier hrun fun u e u' hmem h hs => h.step (hclear u e hmem) hs

/-- A sample, then a flush that waits for its ping to drain the queue. -/
def drained : List (WriterEvent Unit) :=
  [.enqueue (), .startFlush, .flush 0, .flush 0] ++ List.replicate 5 (.work .ok) ++ [.flush 0]

theorem flush_barrier_drained : ((run step spawn drained).get (by decide)).FlushHonest := by
  apply flush_barrier (Option.some_get _).symm
  have hclear : ∀ p ∈ steps step spawn drained, Clear p.1 p.2 := by decide
  exact fun u e hmem => hclear (u, e) hmem

/-- The worker finds the queue empty; a sample and a ticket arrive; the sweep answers the ticket. -/
def swept : List (WriterEvent Unit) :=
  [.work .ok, .work .ok, .enqueue (), .startFlush, .flush 0, .flush 0, .work .ok, .flush 0]

theorem flush_acknowledged_early : ¬ ((run step spawn swept).get (by decide)).FlushHonest := by
  decide

end WriterQueue
end LocalMind
