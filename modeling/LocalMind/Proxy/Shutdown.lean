import LocalMind.Concurrent.Run

namespace LocalMind.Shutdown
open Concurrent
set_option autoImplicit true

/-! The server from its start to its exit: connections, their drain and the exporters' end. -/

inductive ConnStage where
  | live
  /-- its task has returned and waits to be joined -/
  | ended
  | joined
  /-- its task is dropped at its next await -/
  | aborted
  | killed
  deriving DecidableEq

structure Conn where
  stage : ConnStage
  /-- its requests in flight -/
  busy : Nat
  /-- it knows of the drain and takes no further request -/
  noticed : Bool
  deriving DecidableEq

def Conn.fresh : Conn := ⟨.live, 0, false⟩

def Conn.alive (conn : Conn) : Bool := conn.stage == .live || conn.stage == .aborted

/-- It is no longer in the set of tasks. -/
def Conn.gone (conn : Conn) : Bool :=
  match conn.stage with
  | .live | .ended => false
  | .joined | .aborted | .killed => true

inductive Phase where
  | serving
  | draining (deadline : Nat)
  /-- so many exporters are shut down -/
  | closing (done : Nat)
  | closed
  deriving DecidableEq

structure Config where
  grace : Nat
  exporters : Nat

/-- In nanoseconds. -/
def GRACEFUL_SHUTDOWN_GRACE : Nat := 5000000000

structure State where
  now : Nat
  phase : Phase
  conns : List Conn
  /-- detached tasks that collect the stats of a stream -/
  observers : Nat

def State.boot : State := ⟨0, .serving, [], 0⟩

inductive Event where
  | tick (elapsed : Nat)
  | accept
  | request (c : Nat)
  /-- the response is streamed, with an observer beside it -/
  | observe (c : Nat)
  /-- a handler hands its sample to the exporters -/
  | sample (c : Nat)
  | respond (c : Nat)
  | notice (c : Nat)
  | finish (c : Nat)
  | join (c : Nat)
  /-- the signal to stop -/
  | stop
  | expire
  | close
  /-- an observer ends, with or without a sample for the exporters -/
  | observed
  deriving DecidableEq

/-- The connection that an event is of. -/
def Event.conn : Event → Option Nat
  | .request c | .observe c | .sample c | .respond c | .notice c | .finish c | .join c => some c
  | .tick _ | .accept | .stop | .expire | .close | .observed => none

namespace State

def put (s : State) (c : Nat) (conn : Conn) : State := { s with conns := s.conns.set c conn }

/-- The drain is over as soon as no task is left. -/
def settle (s : State) : State :=
  match s.phase with
  | .draining _ => if s.conns.all Conn.gone then { s with phase := .closing 0 } else s
  | _ => s

def abort (s : State) : State :=
  { s with
    phase := .closing 0
    conns := s.conns.map fun conn => if conn.gone then conn else { conn with stage := .aborted } }

def advance (s : State) (c : Nat) (conn : Conn) : Event → Option State
  | .request _ =>
    if conn.alive && !conn.noticed then some (s.put c { conn with busy := conn.busy + 1 }) else none
  | .observe _ =>
    if conn.alive && 0 < conn.busy then some { s with observers := s.observers + 1 } else none
  | .sample _ => if conn.alive && 0 < conn.busy then some s else none
  | .respond _ =>
    if conn.alive && 0 < conn.busy then some (s.put c { conn with busy := conn.busy - 1 }) else none
  | .notice _ =>
    if conn.stage = .live ∧ s.phase ≠ .serving then some (s.put c { conn with noticed := true })
    else none
  | .finish _ =>
    match conn.stage with
    | .live => some (s.put c { conn with stage := .ended, busy := 0 })
    | .aborted => some (s.put c { conn with stage := .killed, busy := 0 })
    | _ => none
  | .join _ =>
    if conn.stage = .ended then some (s.put c { conn with stage := .joined }).settle else none
  | _ => none

def step (cfg : Config) (s : State) : Event → Option State
  | .tick elapsed => some { s with now := s.now + elapsed }
  | .accept =>
    if s.phase = .serving then some { s with conns := s.conns ++ [Conn.fresh] } else none
  | .stop =>
    if s.phase = .serving then some { s with phase := .draining (s.now + cfg.grace) }.settle
    else none
  | .expire =>
    match s.phase with
    | .draining deadline =>
      -- a task that has returned is joined first
      if deadline ≤ s.now ∧ ∀ conn ∈ s.conns, conn.stage ≠ .ended then some s.abort else none
    | _ => none
  | .close =>
    match s.phase with
    | .closing done =>
      some { s with phase := if done < cfg.exporters then .closing (done + 1) else .closed }
    | _ => none
  | .observed =>
    if 0 < s.observers then some { s with observers := s.observers - 1 } else none
  | e => e.conn.bind fun c => s.conns[c]?.bind fun conn => s.advance c conn e

/-- The loop of the server has returned. -/
def finished (s : State) : Bool :=
  match s.phase with
  | .serving | .draining _ => false
  | .closing _ | .closed => true

end State

/-! What one step does. -/

inductive Moved (s : State) (c : Nat) (conn : Conn) : Event → State → Prop where
  | request : conn.alive = true → conn.noticed = false →
    Moved s c conn (.request c) (s.put c { conn with busy := conn.busy + 1 })
  | observe : conn.alive = true →
    Moved s c conn (.observe c) { s with observers := s.observers + 1 }
  | sample : conn.alive = true → Moved s c conn (.sample c) s
  | respond : conn.alive = true →
    Moved s c conn (.respond c) (s.put c { conn with busy := conn.busy - 1 })
  | notice : conn.stage = .live → Moved s c conn (.notice c) (s.put c { conn with noticed := true })
  | finish : conn.stage = .live →
    Moved s c conn (.finish c) (s.put c { conn with stage := .ended, busy := 0 })
  | drop : conn.stage = .aborted →
    Moved s c conn (.finish c) (s.put c { conn with stage := .killed, busy := 0 })
  | join : conn.stage = .ended →
    Moved s c conn (.join c) (s.put c { conn with stage := .joined }).settle

inductive Stepped (cfg : Config) (s : State) : Event → State → Prop where
  | tick : Stepped cfg s (.tick elapsed) { s with now := s.now + elapsed }
  | accept : s.phase = .serving → Stepped cfg s .accept { s with conns := s.conns ++ [Conn.fresh] }
  | stop : s.phase = .serving →
    Stepped cfg s .stop { s with phase := .draining (s.now + cfg.grace) }.settle
  | expire : s.phase = .draining deadline → deadline ≤ s.now →
    (∀ conn ∈ s.conns, conn.stage ≠ .ended) → Stepped cfg s .expire s.abort
  | close : s.phase = .closing done → Stepped cfg s .close
      { s with phase := if done < cfg.exporters then .closing (done + 1) else .closed }
  | observed : Stepped cfg s .observed { s with observers := s.observers - 1 }
  | move : e.conn = some c → s.conns[c]? = some conn → Moved s c conn e s' → Stepped cfg s e s'

theorem advance_moved {s s' : State} {conn : Conn} (he : e.conn = some c)
    (h : s.advance c conn e = some s') : Moved s c conn e s' := by
  cases e with
  | request d =>
    cases he
    obtain ⟨hg, h⟩ := Option.ite_none_right_eq_some.1 h
    cases h
    obtain ⟨halive, hno⟩ := Bool.and_eq_true_iff.1 hg
    exact .request halive (by simpa using hno)
  | observe d =>
    cases he
    obtain ⟨hg, h⟩ := Option.ite_none_right_eq_some.1 h
    cases h
    exact .observe (Bool.and_eq_true_iff.1 hg).1
  | sample d =>
    cases he
    obtain ⟨hg, h⟩ := Option.ite_none_right_eq_some.1 h
    cases h
    exact .sample (Bool.and_eq_true_iff.1 hg).1
  | respond d =>
    cases he
    obtain ⟨hg, h⟩ := Option.ite_none_right_eq_some.1 h
    cases h
    exact .respond (Bool.and_eq_true_iff.1 hg).1
  | notice d =>
    cases he
    obtain ⟨hg, h⟩ := Option.ite_none_right_eq_some.1 h
    cases h
    exact .notice hg.1
  | finish d =>
    cases he
    rw [State.advance] at h
    split at h
    · cases h
      exact .finish (by assumption)
    · cases h
      exact .drop (by assumption)
    · cases h
  | join d =>
    cases he
    obtain ⟨hg, h⟩ := Option.ite_none_right_eq_some.1 h
    cases h
    exact .join hg
  | _ => cases he

theorem step_stepped {s s' : State} (h : s.step cfg e = some s') : Stepped cfg s e s' := by
  have hmove : (e.conn.bind fun c => s.conns[c]?.bind fun conn => s.advance c conn e) = some s' →
      Stepped cfg s e s' := by
    intro h
    obtain ⟨c, hc, h⟩ := Option.bind_eq_some_iff.1 h
    obtain ⟨conn, hconn, h⟩ := Option.bind_eq_some_iff.1 h
    exact .move hc hconn (advance_moved hc h)
  cases e with
  | tick elapsed =>
    cases h
    exact .tick
  | accept =>
    obtain ⟨hphase, h⟩ := Option.ite_none_right_eq_some.1 h
    cases h
    exact .accept hphase
  | stop =>
    obtain ⟨hphase, h⟩ := Option.ite_none_right_eq_some.1 h
    cases h
    exact .stop hphase
  | expire =>
    rw [State.step] at h
    split at h
    · rename_i deadline hphase
      obtain ⟨⟨hdue, hended⟩, h⟩ := Option.ite_none_right_eq_some.1 h
      cases h
      exact .expire hphase hdue hended
    · cases h
  | close =>
    rw [State.step] at h
    split at h
    · rename_i done hphase
      cases h
      exact .close hphase
    · cases h
  | observed =>
    obtain ⟨-, h⟩ := Option.ite_none_right_eq_some.1 h
    cases h
    exact .observed
  | _ => exact hmove h

/-! Which connections outlive the loop. -/

/-- The connection was live when the grace after the signal was over. -/
def Forced (cfg : Config) (past : List (State × Event)) (c : Nat) : Prop :=
  ∃ w x, ∃ conn : Conn, (w, .stop) ∈ past ∧ (x, .expire) ∈ past ∧ w.now + cfg.grace ≤ x.now ∧
    x.conns[c]? = some conn ∧ conn.stage = .live

/-- What is known of a state by what has happened. -/
structure Recorded (cfg : Config) (past : List (State × Event)) (s : State) : Prop where
  deadline : ∀ d, s.phase = .draining d → ∃ w : State, (w, .stop) ∈ past ∧ d = w.now + cfg.grace
  gone : s.finished = true → ∀ conn ∈ s.conns, conn.gone = true
  forced : ∀ c (conn : Conn), s.conns[c]? = some conn → conn.gone = true → conn.stage ≠ .joined →
    Forced cfg past c

theorem Forced.concat (h : Forced cfg past c) : Forced cfg (past ++ [p]) c := by
  obtain ⟨w, x, conn, hstop, hexpire, hdue, hconn, hlive⟩ := h
  exact ⟨w, x, conn, List.mem_append_left _ hstop, List.mem_append_left _ hexpire, hdue, hconn,
    hlive⟩

theorem settle_conns (s : State) : s.settle.conns = s.conns := by
  rw [State.settle]
  split
  · split <;> rfl
  · rfl

theorem settle_draining {s : State} (h : s.settle.phase = .draining d) : s.phase = .draining d := by
  rw [State.settle] at h
  split at h
  · split at h
    · cases h
    · exact h
  · exact h

theorem settle_finished {s : State} (h : s.settle.finished = true) :
    s.finished = true ∨ ∀ conn ∈ s.conns, conn.gone = true := by
  rw [State.settle] at h
  split at h
  · split at h
    · next hall => exact Or.inr (List.all_eq_true.1 hall)
    · exact Or.inl h
  · exact Or.inl h

/-- A step of one connection that leaves the phase as it is. -/
theorem Recorded.put {s s' : State} {conn conn' : Conn} (h : Recorded cfg past s)
    (hconn : s.conns[c]? = some conn) (hphase : s'.phase = s.phase)
    (hconns : s'.conns = s.conns.set c conn') (hgone : conn'.gone = conn.gone)
    (hjoined : conn'.stage = .joined ↔ conn.stage = .joined) :
    Recorded cfg (past ++ [p]) s' := by
  have hfinished : s'.finished = s.finished := by rw [State.finished, State.finished, hphase]
  constructor
  · intro d hd
    rw [hphase] at hd
    obtain ⟨w, hw, rfl⟩ := h.deadline d hd
    exact ⟨w, List.mem_append_left _ hw, rfl⟩
  · intro hs other hmem
    rw [hfinished] at hs
    rw [hconns] at hmem
    obtain hmem | rfl := List.mem_or_eq_of_mem_set hmem
    · exact h.gone hs other hmem
    · rw [hgone]
      exact h.gone hs conn (List.mem_of_getElem? hconn)
  · intro d other hother hg hne
    rw [hconns] at hother
    by_cases hcd : c = d
    · subst hcd
      obtain ⟨-, rfl⟩ : c < s.conns.length ∧ conn' = other := by
        simpa [List.getElem?_set] using hother
      rw [hgone] at hg
      exact (h.forced c conn hconn hg fun hj => hne (hjoined.2 hj)).concat
    · rw [List.getElem?_set_ne hcd] at hother
      exact (h.forced d other hother hg hne).concat

/-- A step that leaves the phase and the connections as they are. -/
theorem Recorded.same {s s' : State} (h : Recorded cfg past s) (hphase : s'.phase = s.phase)
    (hconns : s'.conns = s.conns) : Recorded cfg (past ++ [p]) s' := by
  have hfinished : s'.finished = s.finished := by rw [State.finished, State.finished, hphase]
  constructor
  · intro d hd
    rw [hphase] at hd
    obtain ⟨w, hw, rfl⟩ := h.deadline d hd
    exact ⟨w, List.mem_append_left _ hw, rfl⟩
  · intro hs
    rw [hfinished] at hs
    rw [hconns]
    exact h.gone hs
  · intro c conn hconn hg hne
    rw [hconns] at hconn
    exact (h.forced c conn hconn hg hne).concat

theorem Recorded.joined {s : State} {conn : Conn} (h : Recorded cfg past s)
    (hconn : s.conns[c]? = some conn) (hended : conn.stage = .ended) :
    Recorded cfg (past ++ [p]) (s.put c { conn with stage := .joined }).settle := by
  have hnot : s.finished = true → False := by
    intro hs
    have hg := h.gone hs conn (List.mem_of_getElem? hconn)
    simp [Conn.gone, hended] at hg
  constructor
  · intro d hd
    have hdraining := settle_draining hd
    obtain ⟨w, hw, rfl⟩ := h.deadline d hdraining
    exact ⟨w, List.mem_append_left _ hw, rfl⟩
  · intro hs
    rw [settle_conns]
    obtain hs | hall := settle_finished hs
    · exact (hnot hs).elim
    · exact hall
  · intro d other hother hg hne
    rw [settle_conns] at hother
    by_cases hcd : c = d
    · subst hcd
      obtain ⟨-, rfl⟩ : c < s.conns.length ∧ { conn with stage := .joined } = other := by
        simpa [State.put, List.getElem?_set] using hother
      exact absurd rfl hne
    · rw [State.put, List.getElem?_set_ne hcd] at hother
      exact (h.forced d other hother hg hne).concat

theorem Recorded.move {s s' : State} {conn : Conn} (h : Recorded cfg past s)
    (hconn : s.conns[c]? = some conn) (hmove : Moved s c conn e s') :
    Recorded cfg (past ++ [(s, e)]) s' := by
  cases hmove with
  | request => exact h.put hconn rfl rfl rfl Iff.rfl
  | observe => exact h.same rfl rfl
  | sample => exact h.same rfl rfl
  | respond => exact h.put hconn rfl rfl rfl Iff.rfl
  | notice => exact h.put hconn rfl rfl rfl Iff.rfl
  | finish hlive =>
    refine h.put hconn rfl rfl ?_ ?_
    · simp [Conn.gone, hlive]
    · simp [hlive]
  | drop haborted =>
    refine h.put hconn rfl rfl ?_ ?_
    · simp [Conn.gone, haborted]
    · simp [haborted]
  | join hended => exact h.joined hconn hended

theorem Recorded.stop {s : State} (h : Recorded cfg past s) :
    Recorded cfg (past ++ [(s, .stop)])
      { s with phase := .draining (s.now + cfg.grace) }.settle := by
  constructor
  · intro d hd
    cases settle_draining hd
    exact ⟨s, List.mem_append_right _ List.mem_cons_self, rfl⟩
  · intro hs
    rw [settle_conns]
    obtain hs | hall := settle_finished hs
    · cases hs
    · exact hall
  · intro c conn hconn hg hne
    rw [settle_conns] at hconn
    exact (h.forced c conn hconn hg hne).concat

theorem Recorded.expire {s : State} (h : Recorded cfg past s)
    (hphase : s.phase = .draining d) (hdue : d ≤ s.now)
    (hended : ∀ conn ∈ s.conns, conn.stage ≠ .ended) :
    Recorded cfg (past ++ [(s, .expire)]) s.abort := by
  constructor
  · intro d hd
    cases hd
  · intro _ conn hmem
    obtain ⟨old, -, rfl⟩ := List.mem_map.1 hmem
    split
    · assumption
    · rfl
  · intro c conn hconn hg hne
    rw [State.abort, List.getElem?_map] at hconn
    obtain ⟨old, hold, rfl⟩ := Option.map_eq_some_iff.1 hconn
    by_cases hgone : old.gone = true
    · rw [if_pos hgone] at hne
      exact (h.forced c old hold hgone hne).concat
    · obtain ⟨w, hw, rfl⟩ := h.deadline d hphase
      refine ⟨w, s, old, List.mem_append_left _ hw, List.mem_append_right _ List.mem_cons_self,
        hdue, hold, ?_⟩
      have hnot := hended old (List.mem_of_getElem? hold)
      cases hstage : old.stage with
      | live => rfl
      | ended => exact absurd hstage hnot
      | _ => simp [Conn.gone, hstage] at hgone

theorem Recorded.accept {s : State} (h : Recorded cfg past s) (hphase : s.phase = .serving) :
    Recorded cfg (past ++ [p]) { s with conns := s.conns ++ [Conn.fresh] } := by
  constructor
  · intro d hd
    obtain ⟨w, hw, rfl⟩ := h.deadline d hd
    exact ⟨w, List.mem_append_left _ hw, rfl⟩
  · intro hs
    rw [State.finished, hphase] at hs
    cases hs
  · intro c conn hconn hg hne
    obtain hc | hc := Nat.lt_or_ge c s.conns.length
    · rw [List.getElem?_append_left hc] at hconn
      exact (h.forced c conn hconn hg hne).concat
    · rw [List.getElem?_append_right hc] at hconn
      rw [List.mem_singleton.1 (List.mem_of_getElem? hconn)] at hg
      cases hg

theorem Recorded.close {s : State} (h : Recorded cfg past s) (hphase : s.phase = .closing done) :
    Recorded cfg (past ++ [p])
      { s with phase := if done < cfg.exporters then .closing (done + 1) else .closed } := by
  constructor
  · intro d hd
    split at hd <;> cases hd
  · intro _
    apply h.gone
    rw [State.finished, hphase]
  · intro c conn hconn hg hne
    exact (h.forced c conn hconn hg hne).concat

theorem Recorded.step {s s' : State} (h : Recorded cfg past s) (hs : s.step cfg e = some s') :
    Recorded cfg (past ++ [(s, e)]) s' := by
  cases step_stepped hs with
  | tick => exact h.same rfl rfl
  | accept hphase => exact h.accept hphase
  | stop => exact h.stop
  | expire hphase hdue hended => exact h.expire hphase hdue hended
  | close hphase => exact h.close hphase
  | observed => exact h.same rfl rfl
  | move _ hconn hmove => exact h.move hconn hmove

/-- What is handed to the exporters after the drain comes from a connection that was forced. -/
def LateForced (cfg : Config) (past : List (State × Event)) : Prop :=
  ∀ u c, (u, .sample c) ∈ past → u.finished = true → Forced cfg past c

theorem LateForced.step {s s' : State} (h : LateForced cfg past) (hrecorded : Recorded cfg past s)
    (hs : s.step cfg e = some s') : LateForced cfg (past ++ [(s, e)]) := by
  intro u c hmem hfinished
  obtain hmem | hmem := List.mem_append.1 hmem
  · exact (h u c hmem hfinished).concat
  · cases List.mem_singleton.1 hmem
    cases step_stepped hs with
    | move he hconn hmove =>
      cases he
      cases hmove with
      | sample halive =>
        have hgone := hrecorded.gone hfinished _ (List.mem_of_getElem? hconn)
        refine (hrecorded.forced c _ hconn hgone ?_).concat
        intro hjoined
        simp [Conn.alive, hjoined] at halive

end LocalMind.Shutdown
