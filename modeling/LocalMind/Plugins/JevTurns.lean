import LocalMind.Concurrent.Run

namespace LocalMind
set_option autoImplicit true

/-! The turns that the `ask_jev` requests of one server wait for: a chain of promises. -/

namespace Jev

/-- Where one `sendQueued` call stands. -/
inductive Phase
  /-- neither the promise before it nor its signal has settled its wait -/
  | waiting
  | acquired
  | sending
  | released
  /-- the signal was first: the `catch` is still to run -/
  | rejected
  /-- the caller has its answer, `prev.then(release)` is registered -/
  | handing
  | handed
deriving DecidableEq

/-- A call with its promise, the one before it, and whether its signal, if any, has aborted. -/
structure Call where
  mine : Nat
  prev : Nat
  signal : Option Bool
  phase : Phase

/-- A server's queue. A promise is its place in `promises`, which says whether it is resolved. -/
structure Server where
  promises : List Bool
  queue : Nat
  calls : List Call

inductive CallEvent
  | abort
  /-- the reaction of a waiting call to the promise before it -/
  | turn
  /-- what follows the wait: the request, or the `catch` -/
  | resume
  /-- the request ends -/
  | complete
  /-- the reaction `prev.then(release)` -/
  | hand
deriving DecidableEq

inductive TurnEvent
  | enter (signal : Option Bool)
  | call (i : Nat) (e : CallEvent)
deriving DecidableEq

/-- A call's next stage, and whether it calls its `release`. -/
def Call.step (c : Call) (prevResolved : Bool) : CallEvent → Option (Call × Bool)
  | .abort =>
    if c.signal = some false then
      let phase := if c.phase = .waiting then Phase.rejected else c.phase
      some ({ c with signal := some true, phase := phase }, false)
    else none
  | .turn =>
    if c.phase = .waiting ∧ prevResolved then some ({ c with phase := .acquired }, false) else none
  | .resume =>
    match c.phase with
    | .acquired => some ({ c with phase := .sending }, false)
    | .rejected => some ({ c with phase := .handing }, false)
    | _ => none
  | .complete =>
    if c.phase = .sending then some ({ c with phase := .released }, true) else none
  | .hand =>
    if c.phase = .handing ∧ prevResolved then some ({ c with phase := .handed }, true) else none

/-- What an event does to a call. -/
theorem Call.step_moves {c : Call} (h : c.step b e = some (c', r)) :
    (c'.prev = c.prev ∧ c'.mine = c.mine) ∧
      ((e = .abort ∧ r = false ∧ c.phase = .waiting ∧ c'.phase = .rejected) ∨
        (e = .abort ∧ r = false ∧ c.phase ≠ .waiting ∧ c'.phase = c.phase) ∨
        (e = .turn ∧ r = false ∧ b = true ∧ c.phase = .waiting ∧ c'.phase = .acquired) ∨
        (e = .resume ∧ r = false ∧ c.phase = .acquired ∧ c'.phase = .sending) ∨
        (e = .resume ∧ r = false ∧ c.phase = .rejected ∧ c'.phase = .handing) ∨
        (e = .complete ∧ r = true ∧ c.phase = .sending ∧ c'.phase = .released) ∨
        (e = .hand ∧ r = true ∧ b = true ∧ c.phase = .handing ∧ c'.phase = .handed)) := by
  cases e with
  | abort =>
    rw [Call.step] at h
    split at h
    · cases h
      by_cases hw : c.phase = .waiting
      · simp [hw]
      · simp [hw]
    · cases h
  | turn =>
    rw [Call.step] at h
    split at h
    · next hc =>
      cases h
      simp [hc]
    · cases h
  | resume =>
    rw [Call.step] at h
    split at h
    · next hc =>
      cases h
      simp [hc]
    · next hc =>
      cases h
      simp [hc]
    · cases h
  | complete =>
    rw [Call.step] at h
    split at h
    · next hc =>
      cases h
      simp [hc]
    · cases h
  | hand =>
    rw [Call.step] at h
    split at h
    · next hc =>
      cases h
      simp [hc]
    · cases h

namespace Server

/-- A server that no request has been sent to: its queue is a resolved promise. -/
def new : Server := ⟨[true], 0, []⟩

def resolved (s : Server) (p : Nat) : Bool := s.promises[p]?.getD false

/-- A request joins the queue. One whose signal has aborted fails at once. -/
def toolTurn (s : Server) (signal : Option Bool) : Server :=
  let mine := s.promises.length
  let phase := if signal = some true then Phase.rejected else .waiting
  ⟨s.promises ++ [false], mine, s.calls ++ [⟨mine, s.queue, signal, phase⟩]⟩

def put (s : Server) (i : Nat) (c : Call) (release : Bool) : Server :=
  ⟨if release then s.promises.set c.mine true else s.promises, s.queue, s.calls.set i c⟩

def step (s : Server) : TurnEvent → Option Server
  | .enter signal => some (s.toolTurn signal)
  | .call i e => do
    let c ← s.calls[i]?
    let (c', release) ← c.step (s.resolved c.prev) e
    some (s.put i c' release)

end Server

/-! What is asked of the queue. -/

namespace Phase

def holding (p : Phase) : Bool := p == acquired || p == sending

/-- The turn was granted. -/
def hadTurn (p : Phase) : Bool := p.holding || p == released

def gaveUp (p : Phase) : Bool := p == rejected || p == handing || p == handed

/-- The call's promise is resolved. -/
def ended (p : Phase) : Bool := p == released || p == handed

/-- The call has completed or has been aborted. -/
def past (p : Phase) : Bool := p == released || p.gaveUp

end Phase

namespace Server

/-- The call is there, in such a phase. -/
def Stands (s : Server) (i : Nat) (p : Phase → Bool) : Prop :=
  ∃ c, s.calls[i]? = some c ∧ p c.phase = true

/-- The call whose turn an event grants. -/
def granted : TurnEvent → Option Nat
  | .call i .turn => some i
  | _ => none

/-- A reaction or a continuation of a call up to this one. -/
def isTask (i : Nat) : TurnEvent → Bool
  | .enter _ => false
  | .call j e => decide (j ≤ i) && (e == .turn || e == .resume || e == .hand)

/-- The turns of a server after some events. -/
structure InTurn (es : List TurnEvent) (s : Server) : Prop where
  alone : ∀ i j, s.Stands i Phase.holding → s.Stands j Phase.holding → i = j
  ordered : (es.filterMap granted).Pairwise (· < ·)
  /-- who has had a turn comes after nobody who still waits for one or holds one -/
  ahead : ∀ i j, i < j → s.Stands j Phase.hadTurn → s.Stands i Phase.ended
  /-- a call that gave up never acquires a turn and never sends -/
  gone : ∀ i, s.Stands i Phase.gaveUp → ∀ fs t, Concurrent.run step s fs = some t →
    t.Stands i Phase.gaveUp ∧ i ∉ fs.filterMap granted
  /-- behind calls that are past, a few tasks grant the next turn, and one of them is ready -/
  served : ∀ i, s.Stands i (· == .waiting) → (∀ j < i, s.Stands j Phase.past) →
    ∀ fs t, Concurrent.run step s fs = some t → .call i .abort ∉ fs →
      t.Stands i Phase.hadTurn ∨
        (fs.countP (isTask i) ≤ 2 * i ∧ ∃ e, isTask i e = true ∧ (t.step e).isSome = true)

/-! The chain of promises. -/

/-- Each call's promise is the next one's to wait for, and is resolved once the call is over. -/
structure Linked (s : Server) : Prop where
  length : s.promises.length = s.calls.length + 1
  queue : s.queue = s.calls.length
  first : s.resolved 0 = true
  places : ∀ i c, s.calls[i]? = some c → c.prev = i ∧ c.mine = i + 1
  resolves : ∀ i c, s.calls[i]? = some c → s.resolved (i + 1) = c.phase.ended
  turns : ∀ i c, s.calls[i]? = some c → c.phase.hadTurn = true ∨ c.phase = .handed →
    s.resolved i = true

theorem linked_new : Linked new where
  length := rfl
  queue := rfl
  first := rfl
  places := by
    intro i c h
    cases h
  resolves := by
    intro i c h
    cases h
  turns := by
    intro i c h
    cases h

theorem resolved_append (s : Server) (p : Nat) (q : Nat) (cs : List Call) :
    (⟨s.promises ++ [false], q, cs⟩ : Server).resolved p = s.resolved p := by
  rw [resolved, resolved]
  dsimp only
  by_cases hp : p < s.promises.length
  · rw [List.getElem?_append_left hp]
  · rw [List.getElem?_append_right (Nat.le_of_not_lt hp),
      List.getElem?_eq_none (Nat.le_of_not_lt hp)]
    cases p - s.promises.length <;> rfl

theorem resolved_put (s : Server) (i : Nat) {c : Call} (hc : c.mine < s.promises.length)
    (r : Bool) (p : Nat) : (s.put i c r).resolved p = (s.resolved p || (r && p == c.mine)) := by
  cases r with
  | false => exact (Bool.or_false _).symm
  | true =>
    rw [resolved, resolved, put, if_pos rfl, List.getElem?_set, Bool.true_and]
    by_cases hp : c.mine = p
    · rw [if_pos hp, if_pos hc, ← hp]
      simp
    · have hne : (p == c.mine) = false := beq_false_of_ne fun h => hp h.symm
      rw [if_neg hp, hne, Bool.or_false]

theorem calls_put {s : Server} (hi : s.calls[i]? = some c) (c' : Call) (r : Bool) (j : Nat) :
    (s.put i c' r).calls[j]? = if i = j then some c' else s.calls[j]? := by
  obtain ⟨hlt, -⟩ := List.getElem?_eq_some_iff.1 hi
  rw [put, List.getElem?_set]
  by_cases hij : i = j
  · rw [if_pos hij, if_pos hlt, if_pos hij]
  · rw [if_neg hij, if_neg hij]

theorem calls_toolTurn {s : Server} (h : (s.toolTurn signal).calls[i]? = some c) :
    s.calls[i]? = some c ∨ i = s.calls.length ∧ c = ⟨s.promises.length, s.queue, signal,
      if signal = some true then .rejected else .waiting⟩ := by
  rw [toolTurn, List.getElem?_append] at h
  split at h
  · exact .inl h
  · next hi =>
    obtain ⟨hlt, hget⟩ := List.getElem?_eq_some_iff.1 h
    rw [List.length_singleton] at hlt
    right
    refine ⟨by omega, ?_⟩
    simpa using hget.symm

/-- What an event does to a server. -/
theorem step_cases (h : step s e = some s') :
    (∃ signal, e = .enter signal ∧ s' = s.toolTurn signal) ∨
      ∃ i x c c' r, e = .call i x ∧ s.calls[i]? = some c ∧
        c.step (s.resolved c.prev) x = some (c', r) ∧ s' = s.put i c' r := by
  cases e with
  | enter signal =>
    cases h
    exact .inl ⟨signal, rfl, rfl⟩
  | call i x =>
    obtain ⟨c, hc, h⟩ := Option.bind_eq_some_iff.1 h
    obtain ⟨⟨c', r⟩, hstep, h⟩ := Option.bind_eq_some_iff.1 h
    cases h
    exact .inr ⟨i, x, c, c', r, rfl, hc, hstep, rfl⟩

theorem Linked.toolTurn (h : Linked s) (signal : Option Bool) : Linked (s.toolTurn signal) where
  length := by
    rw [Server.toolTurn, List.length_append, List.length_append, h.length]
    rfl
  queue := by
    rw [Server.toolTurn, List.length_append, h.length]
    rfl
  first := by
    rw [Server.toolTurn, resolved_append]
    exact h.first
  places := by
    intro i c hc
    obtain hc | ⟨rfl, rfl⟩ := calls_toolTurn hc
    · exact h.places i c hc
    · exact ⟨h.queue, h.length⟩
  resolves := by
    intro i c hc
    rw [Server.toolTurn, resolved_append]
    obtain hc | ⟨rfl, rfl⟩ := calls_toolTurn hc
    · exact h.resolves i c hc
    · rw [resolved, List.getElem?_eq_none (Nat.le_of_eq h.length)]
      dsimp only
      split <;> rfl
  turns := by
    intro i c hc hturn
    rw [Server.toolTurn, resolved_append]
    obtain hc | ⟨rfl, rfl⟩ := calls_toolTurn hc
    · exact h.turns i c hc hturn
    · dsimp only at hturn
      split at hturn
      · obtain hturn | hturn := hturn <;> cases hturn
      · obtain hturn | hturn := hturn <;> cases hturn

theorem Linked.put (h : Linked s) (hc : s.calls[i]? = some c)
    (hstep : c.step (s.resolved c.prev) x = some (c', r)) : Linked (s.put i c' r) := by
  obtain ⟨⟨hprev, hmine⟩, hmoves⟩ := Call.step_moves hstep
  obtain ⟨hp, hm⟩ := h.places i c hc
  obtain ⟨hlt, -⟩ := List.getElem?_eq_some_iff.1 hc
  rw [hp] at hmoves
  have hbound : c'.mine < s.promises.length := by
    rw [hmine, hm, h.length]
    exact Nat.succ_lt_succ hlt
  have hover : c'.phase.ended = (c.phase.ended || r) := by
    obtain ⟨-, rfl, h₁, h₂⟩ | ⟨-, rfl, -, h₂⟩ | ⟨-, rfl, -, h₁, h₂⟩ | ⟨-, rfl, h₁, h₂⟩ |
      ⟨-, rfl, h₁, h₂⟩ | ⟨-, rfl, h₁, h₂⟩ | ⟨-, rfl, -, h₁, h₂⟩ := hmoves
    · rw [h₁, h₂]
      rfl
    · rw [h₂, Bool.or_false]
    · rw [h₁, h₂]
      rfl
    · rw [h₁, h₂]
      rfl
    · rw [h₁, h₂]
      rfl
    · rw [h₁, h₂]
      rfl
    · rw [h₁, h₂]
      rfl
  have hturns : c'.phase.hadTurn = true ∨ c'.phase = .handed →
      c.phase.hadTurn = true ∨ c.phase = .handed ∨ s.resolved i = true := by
    obtain ⟨-, -, -, h₂⟩ | ⟨-, -, -, h₂⟩ | ⟨-, -, hb, -, -⟩ | ⟨-, -, h₁, h₂⟩ | ⟨-, -, -, h₂⟩ |
      ⟨-, -, h₁, h₂⟩ | ⟨-, -, hb, -, -⟩ := hmoves
    · rw [h₂]
      rintro (h | h) <;> cases h
    · rw [h₂]
      exact fun h => h.imp_right .inl
    · exact fun _ => .inr (.inr hb)
    · exact fun _ => .inl (by rw [h₁]; rfl)
    · rw [h₂]
      rintro (h | h) <;> cases h
    · exact fun _ => .inl (by rw [h₁]; rfl)
    · exact fun _ => .inr (.inr hb)
  have hkeeps : ∀ p, s.resolved p = true → (s.put i c' r).resolved p = true := by
    intro p hp
    rw [resolved_put s i hbound, hp, Bool.true_or]
  refine ⟨?_, ?_, hkeeps 0 h.first, ?_, ?_, ?_⟩
  · rw [Server.put, List.length_set, ← h.length]
    cases r with
    | false => rfl
    | true => exact List.length_set
  · rw [Server.put, List.length_set]
    exact h.queue
  · intro j d hd
    rw [calls_put hc] at hd
    split at hd
    · next hij =>
      cases hd
      rw [hprev, hmine, ← hij]
      exact ⟨hp, hm⟩
    · exact h.places j d hd
  · intro j d hd
    rw [calls_put hc] at hd
    rw [resolved_put s i hbound, hmine, hm]
    split at hd
    · next hij =>
      cases hd
      rw [← hij, h.resolves i c hc, hover, beq_self_eq_true, Bool.and_true]
    · next hij =>
      have hne : (j + 1 == i + 1) = false := beq_false_of_ne (by omega)
      rw [hne, Bool.and_false, Bool.or_false]
      exact h.resolves j d hd
  · intro j d hd hturn
    apply hkeeps
    rw [calls_put hc] at hd
    split at hd
    · next hij =>
      cases hd
      rw [← hij]
      obtain hturn | hturn | hres := hturns hturn
      · exact h.turns i c hc (.inl hturn)
      · exact h.turns i c hc (.inr hturn)
      · exact hres
    · exact h.turns j d hd hturn

theorem Linked.step (h : Linked s) (hstep : Server.step s e = some s') : Linked s' := by
  obtain ⟨signal, -, rfl⟩ | ⟨i, x, c, c', r, -, hc, hmove, rfl⟩ := step_cases hstep
  · exact h.toolTurn signal
  · exact h.put hc hmove

theorem linked_run (h : Concurrent.run step new es = some s) : Linked s :=
  Concurrent.run_keeps linked_new h fun _ _ _ _ hl hstep => hl.step hstep

/-! Stages that are never left. -/

/-- No event takes a call out of such a phase. -/
def Lasting (p : Phase → Bool) : Prop :=
  ∀ (c : Call) b e c' r, c.step b e = some (c', r) → p c.phase = true → p c'.phase = true

theorem lasting_hadTurn : Lasting Phase.hadTurn := by
  intro c b e c' r h hp
  obtain ⟨-, ⟨-, -, h₁, -⟩ | ⟨-, -, -, h₂⟩ | ⟨-, -, -, -, h₂⟩ | ⟨-, -, -, h₂⟩ | ⟨-, -, h₁, -⟩ |
    ⟨-, -, -, h₂⟩ | ⟨-, -, -, h₁, -⟩⟩ := Call.step_moves h
  · rw [h₁] at hp
    cases hp
  · rw [h₂]
    exact hp
  · rw [h₂]
    rfl
  · rw [h₂]
    rfl
  · rw [h₁] at hp
    cases hp
  · rw [h₂]
    rfl
  · rw [h₁] at hp
    cases hp

theorem lasting_gaveUp : Lasting Phase.gaveUp := by
  intro c b e c' r h hp
  obtain ⟨-, ⟨-, -, -, h₂⟩ | ⟨-, -, -, h₂⟩ | ⟨-, -, -, h₁, -⟩ | ⟨-, -, h₁, -⟩ | ⟨-, -, -, h₂⟩ |
    ⟨-, -, h₁, -⟩ | ⟨-, -, -, -, h₂⟩⟩ := Call.step_moves h
  · rw [h₂]
    rfl
  · rw [h₂]
    exact hp
  · rw [h₁] at hp
    cases hp
  · rw [h₁] at hp
    cases hp
  · rw [h₂]
    rfl
  · rw [h₁] at hp
    cases hp
  · rw [h₂]
    rfl

theorem Stands.toolTurn {s : Server} (h : s.Stands i p) (signal : Option Bool) :
    (s.toolTurn signal).Stands i p := by
  obtain ⟨c, hc, hp⟩ := h
  obtain ⟨hlt, -⟩ := List.getElem?_eq_some_iff.1 hc
  refine ⟨c, ?_, hp⟩
  rw [Server.toolTurn, List.getElem?_append_left hlt, hc]

theorem Stands.step {s : Server} (h : s.Stands i p) (hp : Lasting p)
    (hstep : Server.step s e = some s') : s'.Stands i p := by
  obtain ⟨signal, -, rfl⟩ | ⟨j, x, c, c', r, -, hc, hmove, rfl⟩ := step_cases hstep
  · exact h.toolTurn signal
  · obtain ⟨d, hd, hpd⟩ := h
    by_cases hij : j = i
    · rw [← hij, hc] at hd
      cases hd
      exact ⟨c', by rw [calls_put hc, if_pos hij], hp c _ x c' r hmove hpd⟩
    · exact ⟨d, by rw [calls_put hc, if_neg hij, hd], hpd⟩

/-- Before a call whose promise was passed on, every call is over. -/
theorem Linked.before_ended (h : Linked s) (hres : s.resolved j = true)
    (hlen : j ≤ s.calls.length) (hij : i < j) : s.Stands i Phase.ended := by
  induction j with
  | zero => cases hij
  | succ j ih =>
    have hget : s.calls[j]? = some s.calls[j] := List.getElem?_eq_getElem hlen
    have hover : s.calls[j].phase.ended = true := by rw [← h.resolves j _ hget, hres]
    obtain rfl | hlt := Nat.eq_or_lt_of_le (Nat.le_of_lt_succ hij)
    · exact ⟨_, hget, hover⟩
    · apply ih _ (Nat.le_of_succ_le hlen) hlt
      apply h.turns j _ hget
      cases hp : s.calls[j].phase with
      | released => exact .inl rfl
      | handed => exact .inr rfl
      | _ =>
        rw [hp] at hover
        cases hover

theorem Linked.ahead (h : Linked s) (hij : i < j) (hj : s.Stands j Phase.hadTurn) :
    s.Stands i Phase.ended := by
  obtain ⟨c, hc, hturn⟩ := hj
  obtain ⟨hlt, -⟩ := List.getElem?_eq_some_iff.1 hc
  exact h.before_ended (h.turns j c hc (.inl hturn)) (Nat.le_of_lt hlt) hij

/-- A call does not stand in two kinds of phase that exclude each other. -/
theorem Stands.absurd {s : Server} (h : s.Stands i p) (hq : s.Stands i q)
    (hpq : ∀ x, p x = true → q x = true → False) : False := by
  obtain ⟨c, hc, hp⟩ := h
  obtain ⟨d, hd, hq⟩ := hq
  rw [hc] at hd
  cases hd
  exact hpq c.phase hp hq

theorem Stands.mono {s : Server} (h : s.Stands i p) (hpq : ∀ x, p x = true → q x = true) :
    s.Stands i q := by
  obtain ⟨c, hc, hp⟩ := h
  exact ⟨c, hc, hpq _ hp⟩

theorem holding_not_ended (x : Phase) (h : x.holding = true) (ho : x.ended = true) : False := by
  cases x with
  | acquired => cases ho
  | sending => cases ho
  | _ => cases h

theorem Linked.alone (h : Linked s) (hi : s.Stands i Phase.holding)
    (hj : s.Stands j Phase.holding) : i = j := by
  have hturn : ∀ x : Phase, x.holding = true → x.hadTurn = true := by
    intro x hx
    rw [Phase.hadTurn, hx, Bool.true_or]
  obtain hlt | heq | hlt := Nat.lt_trichotomy i j
  · exact (hi.absurd (h.ahead hlt (hj.mono hturn)) holding_not_ended).elim
  · exact heq
  · exact (hj.absurd (h.ahead hlt (hi.mono hturn)) holding_not_ended).elim

/-- What an event that grants a turn says. -/
theorem step_granted (h : step s e = some s') (hg : granted e = some i) :
    s.Stands i (· == .waiting) ∧ s'.Stands i Phase.hadTurn := by
  obtain ⟨signal, rfl, -⟩ | ⟨j, x, c, c', r, rfl, hc, hmove, rfl⟩ := step_cases h
  · cases hg
  · obtain rfl : x = .turn := by
      cases x with
      | turn => rfl
      | _ => cases hg
    cases hg
    obtain ⟨-, ⟨hx, -⟩ | ⟨hx, -⟩ | ⟨-, -, -, h₁, h₂⟩ | ⟨hx, -⟩ | ⟨hx, -⟩ | ⟨hx, -⟩ | ⟨hx, -⟩⟩ :=
      Call.step_moves hmove
    · cases hx
    · cases hx
    · refine ⟨⟨c, hc, by rw [h₁]; rfl⟩, c', ?_, by rw [h₂]; rfl⟩
      rw [calls_put hc, if_pos rfl]
    · cases hx
    · cases hx
    · cases hx
    · cases hx

/-- Turns are granted upwards, above every call that has had one. -/
theorem Linked.ordered (h : Linked s) (hrun : Concurrent.run Server.step s es = some t) :
    (es.filterMap granted).Pairwise (· < ·) ∧
      ∀ i ∈ es.filterMap granted, ∀ j, s.Stands j Phase.hadTurn → j < i := by
  induction es generalizing s with
  | nil =>
    refine ⟨List.Pairwise.nil, ?_⟩
    intro i hi
    cases hi
  | cons e es ih =>
    obtain ⟨s', hstep, hrun⟩ := Option.bind_eq_some_iff.1 hrun
    obtain ⟨hpairs, habove⟩ := ih (h.step hstep) hrun
    have hkeep : ∀ j, s.Stands j Phase.hadTurn → s'.Stands j Phase.hadTurn :=
      fun j hj => hj.step lasting_hadTurn hstep
    rw [List.filterMap_cons]
    cases hg : granted e with
    | none => exact ⟨hpairs, fun i hi j hj => habove i hi j (hkeep j hj)⟩
    | some k =>
      obtain ⟨hwait, hturn⟩ := step_granted hstep hg
      refine ⟨List.pairwise_cons.2 ⟨fun i hi => habove i hi k hturn, hpairs⟩, ?_⟩
      intro i hi j hj
      obtain rfl | hi := List.mem_cons.1 hi
      · have hexcl : ∀ x : Phase, (x == .waiting) = true → x.hadTurn = true → False := by
          intro x hx
          rw [beq_iff_eq.1 hx]
          intro hx
          cases hx
        have hexcl' : ∀ x : Phase, (x == .waiting) = true → x.ended = true → False := by
          intro x hx
          rw [beq_iff_eq.1 hx]
          intro hx
          cases hx
        obtain hlt | rfl | hlt := Nat.lt_trichotomy j i
        · exact hlt
        · exact (hwait.absurd hj hexcl).elim
        · exact (hwait.absurd (h.ahead hlt hj) hexcl').elim
      · exact habove i hi j (hkeep j hj)

/-- A call that gave up stays so. -/
theorem Stands.gone {s : Server} (h : s.Stands i Phase.gaveUp)
    (hrun : Concurrent.run Server.step s es = some t) :
    t.Stands i Phase.gaveUp ∧ i ∉ es.filterMap granted := by
  induction es generalizing s with
  | nil =>
    cases hrun
    exact ⟨h, List.not_mem_nil⟩
  | cons e es ih =>
    obtain ⟨s', hstep, hrun⟩ := Option.bind_eq_some_iff.1 hrun
    obtain ⟨hgone, hnot⟩ := ih (h.step lasting_gaveUp hstep) hrun
    refine ⟨hgone, ?_⟩
    rw [List.filterMap_cons]
    cases hg : granted e with
    | none => exact hnot
    | some k =>
      intro hmem
      obtain rfl | hmem := List.mem_cons.1 hmem
      · apply (step_granted hstep hg).1.absurd h
        intro x hx
        rw [beq_iff_eq.1 hx]
        intro hx
        cases hx
      · exact hnot hmem

/-! The turn that comes next. -/

/-- The tasks a call that gave up still has to run. -/
def tasksLeft : Phase → Nat
  | .rejected => 2
  | .handing => 1
  | _ => 0

/-- The tasks of the calls before this one. -/
def left (s : Server) : Nat → Nat
  | 0 => 0
  | i + 1 => s.left i + ((s.calls[i]?).map fun c => tasksLeft c.phase).getD 0

/-- A call waits behind calls that are past. -/
structure Waits (s : Server) (i : Nat) : Prop where
  linked : Linked s
  waiting : s.Stands i (· == .waiting)
  past : ∀ j < i, s.Stands j Phase.past

theorem left_le (s : Server) (i : Nat) : s.left i ≤ 2 * i := by
  induction i with
  | zero => exact Nat.le_refl 0
  | succ i ih =>
    have hone : ((s.calls[i]?).map fun c => tasksLeft c.phase).getD 0 ≤ 2 := by
      cases s.calls[i]? with
      | none => exact Nat.zero_le 2
      | some c =>
        change tasksLeft c.phase ≤ 2
        cases c.phase <;> decide
    rw [left]
    omega

theorem left_congr {s t : Server} (h : ∀ j < i, s.calls[j]? = t.calls[j]?) :
    s.left i = t.left i := by
  induction i with
  | zero => rfl
  | succ i ih =>
    rw [left, left, h i (Nat.lt_succ_self i), ih fun j hj => h j (Nat.lt_succ_of_lt hj)]

/-- What a step of one of the calls before it leaves. -/
theorem left_put {s : Server} (hc : s.calls[j]? = some c) (c' : Call) (r : Bool) (hj : j < i) :
    (s.put j c' r).left i + tasksLeft c.phase = s.left i + tasksLeft c'.phase := by
  induction i with
  | zero => cases hj
  | succ i ih =>
    rw [left, left, calls_put hc]
    obtain rfl | hlt := Nat.eq_or_lt_of_le (Nat.le_of_lt_succ hj)
    · have hsame : (s.put j c' r).left j = s.left j := by
        apply left_congr
        intro k hk
        rw [calls_put hc, if_neg (Nat.ne_of_gt hk)]
      rw [if_pos rfl, hc, hsame]
      simp only [Option.map_some, Option.getD_some]
      omega
    · have hrest := ih hlt
      rw [if_neg (Nat.ne_of_lt hlt)]
      omega

/-- A waiting call moves by its turn or by its signal. -/
theorem step_waiting {c : Call} (h : c.step b x = some (c', r)) (hw : c.phase = .waiting)
    (hx : x ≠ .abort) : x = .turn ∧ c'.phase = .acquired := by
  obtain ⟨-, ⟨h₀, -⟩ | ⟨h₀, -⟩ | ⟨h₀, -, -, -, h₂⟩ | ⟨-, -, h₁, -⟩ | ⟨-, -, h₁, -⟩ |
    ⟨-, -, h₁, -⟩ | ⟨-, -, -, h₁, -⟩⟩ := Call.step_moves h
  · exact absurd h₀ hx
  · exact absurd h₀ hx
  · exact ⟨h₀, h₂⟩
  all_goals
    rw [hw] at h₁
    cases h₁

/-- A call that is past has one task less after each. -/
theorem step_past {c : Call} (h : c.step b x = some (c', r)) (hp : c.phase.past = true)
    (i j : Nat) : c'.phase.past = true ∧
      tasksLeft c'.phase + (if isTask i (.call j x) then 1 else 0) ≤ tasksLeft c.phase := by
  have hone : (if isTask i (.call j x) then 1 else 0) ≤ 1 := by split <;> decide
  obtain ⟨-, ⟨-, -, h₁, -⟩ | ⟨rfl, -, -, h₂⟩ | ⟨-, -, -, h₁, -⟩ | ⟨-, -, h₁, -⟩ | ⟨-, -, h₁, h₂⟩ |
    ⟨-, -, h₁, -⟩ | ⟨-, -, -, h₁, h₂⟩⟩ := Call.step_moves h
  · rw [h₁] at hp
    cases hp
  · rw [h₂]
    refine ⟨hp, ?_⟩
    rw [isTask, show (CallEvent.abort == .turn || CallEvent.abort == .resume ||
      CallEvent.abort == .hand) = false from rfl, Bool.and_false]
    exact Nat.le_refl _
  · rw [h₁] at hp
    cases hp
  · rw [h₁] at hp
    cases hp
  · rw [h₁, h₂]
    exact ⟨rfl, Nat.add_le_add_left hone 1⟩
  · rw [h₁] at hp
    cases hp
  · rw [h₁, h₂]
    refine ⟨rfl, ?_⟩
    have hhanded : tasksLeft .handed = 0 := rfl
    have hhanding : tasksLeft .handing = 1 := rfl
    omega

theorem Waits.step {s : Server} (h : Waits s i) (hstep : Server.step s e = some s')
    (he : e ≠ .call i .abort) : s'.Stands i Phase.hadTurn ∨
      (Waits s' i ∧ s'.left i + (if isTask i e then 1 else 0) ≤ s.left i) := by
  have hlinked := h.linked.step hstep
  obtain ⟨w, hw, hwait⟩ := h.waiting
  obtain ⟨hlt, -⟩ := List.getElem?_eq_some_iff.1 hw
  obtain ⟨signal, rfl, rfl⟩ | ⟨j, x, c, c', r, rfl, hc, hmove, rfl⟩ := step_cases hstep
  · right
    refine ⟨⟨hlinked, h.waiting.toolTurn signal, fun j hj => (h.past j hj).toolTurn signal⟩, ?_⟩
    apply Nat.le_of_eq
    apply left_congr
    intro j hj
    rw [Server.toolTurn, List.getElem?_append_left (Nat.lt_trans hj hlt)]
  · obtain hji | rfl | hij := Nat.lt_trichotomy j i
    · obtain ⟨d, hd, hpast⟩ := h.past j hji
      rw [hc] at hd
      cases hd
      obtain ⟨hpast', htask⟩ := step_past hmove hpast i j
      have hleft := left_put hc c' r hji
      right
      refine ⟨⟨hlinked, ⟨w, by rw [calls_put hc, if_neg (Nat.ne_of_lt hji), hw], hwait⟩, ?_⟩,
        by omega⟩
      intro k hk
      by_cases hjk : j = k
      · exact ⟨c', by rw [calls_put hc, if_pos hjk], hpast'⟩
      · obtain ⟨d, hd, hp⟩ := h.past k hk
        exact ⟨d, by rw [calls_put hc, if_neg hjk, hd], hp⟩
    · rw [hc] at hw
      cases hw
      have hx : x ≠ .abort := by
        rintro rfl
        exact he rfl
      obtain ⟨rfl, hphase⟩ := step_waiting hmove (beq_iff_eq.1 hwait) hx
      exact .inl ⟨c', by rw [calls_put hc, if_pos rfl], by rw [hphase]; rfl⟩
    · have hnot : isTask i (.call j x) = false := by
        rw [isTask, decide_eq_false (Nat.not_le_of_lt hij), Bool.false_and]
      have hsame : ∀ k ≤ i, (s.put j c' r).calls[k]? = s.calls[k]? := by
        intro k hk
        rw [calls_put hc, if_neg (by omega)]
      right
      refine ⟨⟨hlinked, ⟨w, by rw [hsame i (Nat.le_refl i), hw], hwait⟩, ?_⟩, ?_⟩
      · intro k hk
        obtain ⟨d, hd, hp⟩ := h.past k hk
        exact ⟨d, by rw [hsame k (Nat.le_of_lt hk), hd], hp⟩
      · rw [hnot]
        exact Nat.le_of_eq (left_congr fun k hk => hsame k (Nat.le_of_lt hk))

theorem Linked.resolved_of_ended (h : Linked s) (hover : ∀ j < i, s.Stands j Phase.ended) :
    s.resolved i = true := by
  cases i with
  | zero => exact h.first
  | succ i =>
    obtain ⟨c, hc, ho⟩ := hover i (Nat.lt_succ_self i)
    rw [h.resolves i c hc, ho]

/-- The first of the calls up to this one that is not over has a task ready. -/
theorem Waits.ready {s : Server} (h : Waits s i) :
    ∃ e, isTask i e = true ∧ (s.step e).isSome = true := by
  have htask : ∀ {j x c c' r}, j ≤ i → (x == .turn || x == .resume || x == .hand) = true →
      s.calls[j]? = some c → c.step (s.resolved c.prev) x = some (c', r) →
      ∃ e, isTask i e = true ∧ (s.step e).isSome = true := by
    intro j x c c' r hj hx hc hstep
    refine ⟨.call j x, ?_, ?_⟩
    · rw [isTask, decide_eq_true hj, hx]
      rfl
    · simp [Server.step, hc, hstep]
  have hfirst : ∀ k ≤ i, (∀ j < k, s.Stands j Phase.ended) ∨
      ∃ e, isTask i e = true ∧ (s.step e).isSome = true := by
    intro k hk
    induction k with
    | zero =>
      left
      intro j hj
      cases hj
    | succ k ih =>
      obtain hover | hready := ih (Nat.le_of_succ_le hk)
      · have hres := h.linked.resolved_of_ended hover
        obtain ⟨c, hc, hpast⟩ := h.past k hk
        rw [← (h.linked.places k c hc).1] at hres
        have hkeep : c.phase.ended = true → ∀ j < k + 1, s.Stands j Phase.ended := by
          intro ho j hj
          obtain rfl | hlt := Nat.eq_or_lt_of_le (Nat.le_of_lt_succ hj)
          · exact ⟨c, hc, ho⟩
          · exact hover j hlt
        cases hp : c.phase with
        | released => exact .inl (hkeep (by rw [hp]; rfl))
        | handed => exact .inl (hkeep (by rw [hp]; rfl))
        | rejected =>
          right
          apply htask (Nat.le_of_succ_le hk) (x := .resume) rfl hc
          rw [Call.step, hp]
        | handing =>
          right
          apply htask (Nat.le_of_succ_le hk) (x := .hand) rfl hc
          rw [Call.step, if_pos ⟨hp, hres⟩]
        | _ =>
          rw [hp] at hpast
          cases hpast
      · exact .inr hready
  obtain hover | hready := hfirst i (Nat.le_refl i)
  · obtain ⟨c, hc, hwait⟩ := h.waiting
    have hres := h.linked.resolved_of_ended hover
    rw [← (h.linked.places i c hc).1] at hres
    apply htask (Nat.le_refl i) (x := .turn) rfl hc
    rw [Call.step, if_pos ⟨beq_iff_eq.1 hwait, hres⟩]
  · exact hready

theorem Waits.run {s : Server} (h : Waits s i) (hrun : Concurrent.run Server.step s es = some t)
    (hes : .call i .abort ∉ es) : t.Stands i Phase.hadTurn ∨
      (Waits t i ∧ t.left i + es.countP (isTask i) ≤ s.left i) := by
  induction es generalizing s with
  | nil =>
    cases hrun
    exact .inr ⟨h, Nat.le_refl _⟩
  | cons e es ih =>
    obtain ⟨s', hstep, hrun⟩ := Option.bind_eq_some_iff.1 hrun
    have he : e ≠ .call i .abort := by
      rintro rfl
      exact hes List.mem_cons_self
    obtain hturn | ⟨hwaits, hleft⟩ := h.step hstep he
    · left
      apply Concurrent.run_keeps (P := fun u => u.Stands i Phase.hadTurn) hturn hrun
      intro u f u' _ hp hstep
      exact hp.step lasting_hadTurn hstep
    · obtain hturn | ⟨hwaits', hleft'⟩ :=
        ih hwaits hrun fun hmem => hes (List.mem_cons_of_mem e hmem)
      · exact .inl hturn
      · right
        refine ⟨hwaits', ?_⟩
        rw [List.countP_cons]
        omega

theorem run_inTurn (h : Concurrent.run step new es = some s) : InTurn es s where
  alone := by
    intro i j hi hj
    exact (linked_run h).alone hi hj
  ordered := (linked_new.ordered h).1
  ahead := by
    intro i j hij hj
    exact (linked_run h).ahead hij hj
  gone := by
    intro i hi fs t hrun
    exact hi.gone hrun
  served := by
    intro i hwait hpast fs t hrun hfs
    have hwaits : Waits s i := ⟨linked_run h, hwait, hpast⟩
    obtain hturn | ⟨ht, hleft⟩ := hwaits.run hrun hfs
    · exact .inl hturn
    · right
      have hbound := left_le s i
      exact ⟨by omega, ht.ready⟩

/-- Three requests: the second's signal aborts while it waits, before the first ends. -/
def abortedWaiter : List TurnEvent :=
  [.enter none, .call 0 .turn, .enter (some false), .enter (some false), .call 0 .resume,
    .call 1 .abort, .call 1 .resume, .call 0 .complete, .call 1 .hand]

theorem run_inTurn_abortedWaiter : ∃ s, Concurrent.run step new abortedWaiter = some s ∧
    InTurn abortedWaiter s :=
  ⟨_, rfl, run_inTurn rfl⟩

end Server

end Jev

end LocalMind
