import LocalMind.Plugins.StopJobs

namespace LocalMind
open Json
set_option autoImplicit true

namespace StopJobs

/-! What a run of the command does, and what it may say at the end. -/

abbrev Past := List (Command × Event)

variable {invoking : Option String} {id : String} {s s' : Command} {past : Past}

namespace Command

/-- The command is about to read the candidates and look for a next pass. -/
def looks (s : Command) : Bool :=
  match s.phase with
  | .start => true
  | .pass [] => s.busy
  | _ => false

/-- The sessions that are still to be interrupted. -/
def rest (s : Command) : List Candidate :=
  match s.phase with
  | .pass todo => todo
  | _ => []

end Command

open Command

/-- The pass that a step starts. -/
def opens (invoking : Option String) : Command × Event → Option (List Candidate)
  | (s, .tick) =>
    if s.looks && (s.passes < PASSES && !(s.reread invoking).todo.isEmpty) then
      some (byParent (s.reread invoking).todo)
    else none
  | _ => none

/-- The session that a step sends an interrupt to. -/
def interrupts : Command × Event → Option String
  | (_, .env _) => none
  | (s, .tick) => s.rest.head?.map Candidate.id
  | (s, .throw _) => s.rest.head?.map Candidate.id

def Wakes (id : String) : Command × Event → Prop
  | (s, .env w) => s.world.running id = false ∧ w.running id = true
  | _ => False

/-- The last interrupt sent to the session answered that it was not running, and it has not been
woken since. -/
def Quiet (past : Past) (id : String) : Prop :=
  ∃ before s after, past = before ++ (s, .tick) :: after ∧
    interrupts (s, .tick) = some id ∧ s.world.running id = false ∧
    ∀ p ∈ after, interrupts p ≠ some id ∧ ¬ Wakes id p

/-- The steps of the last pass. -/
def lastPass (invoking : Option String) (past : Past) : Past :=
  past.foldl (fun steps p => if (opens invoking p).isSome then [p] else steps ++ [p]) []

/-- The same sessions are marked and running. -/
def World.Same (w v : World) : Prop :=
  (∀ id, w.db.Marked id ↔ v.db.Marked id) ∧ w.running = v.running

/-- No session changed its state during the last pass. -/
def Still (invoking : Option String) (past : Past) (s : Command) : Prop :=
  ∀ p ∈ lastPass invoking past, p.1.world.Same s.world

/-- A pass starts with all that is marked, subagents first. -/
def Whole (invoking : Option String) (db : Db) (todo : List Candidate) : Prop :=
  (∀ id, Marked invoking db id → id ∈ todo.map Candidate.id) ∧
    todo.Pairwise fun c d => db.Subagent d.id → db.Subagent c.id

/-- The command leaves no running session behind unreported. -/
structure Reported (invoking : Option String) (past : Past) (s : Command) : Prop where
  passes : (past.filterMap (opens invoking)).length ≤ PASSES
  whole : ∀ p ∈ past, ∀ todo, opens invoking p = some todo → Whole invoking p.1.world.db todo
  /-- the sessions of each pass are interrupted, one after another -/
  sent : past.filterMap interrupts ++ s.rest.map Candidate.id =
    (past.filterMap (opens invoking)).flatten.map Candidate.id
  stopped : s.phase = .done → s.passes < PASSES → Still invoking past s →
    ∀ id, Marked invoking s.world.db id → s.world.running id = false
  stale : s.phase = .done → ∀ c ∈ s.stale, Quiet past c.id

/-- What one step must leave alone: a session that was not running is not woken later, nor marked
when a later pass starts. -/
def CalmStep (invoking : Option String) : Command × Event → Prop
  | (s, .env w) => ∀ id ∈ Fields.keys s.notHere, ¬ Wakes id (s, .env w)
  | (s, .tick) => (opens invoking (s, .tick)).isSome = true →
      (∀ id, Marked invoking s.world.db id → id ∉ Fields.keys s.notHere) ∧
      ((read invoking s.world.db).map Prod.snd).Pairwise fun c d =>
        truthy c.parent = false → truthy d.parent = false → d.viaJob = true → c.viaJob = true
  | (_, .throw _) => False

/-- Each step is calm, and so is the whole of a last pass that stops nothing. -/
structure Calm (invoking : Option String) (past : Past) : Prop where
  steps : ∀ p ∈ past, CalmStep invoking p
  last : ∀ before s, past = before ++ [(s, .tick)] → s.phase = .pass [] → s.busy = false →
    ∀ id, Marked invoking s.world.db id →
      id ∈ Fields.keys s.current ∧ ∀ p ∈ lastPass invoking before, ¬ Wakes id p

/-! The past, one step longer. -/

theorem lastPass_concat (invoking : Option String) (past : Past) (p : Command × Event) :
    lastPass invoking (past ++ [p]) =
      if (opens invoking p).isSome then [p] else lastPass invoking past ++ [p] := by
  rw [lastPass, List.foldl_append]
  rfl

theorem Quiet.concat (h : Quiet past id) (hi : interrupts p ≠ some id) (hw : ¬ Wakes id p) :
    Quiet (past ++ [p]) id := by
  obtain ⟨before, u, after, rfl, hu, hrun, hafter⟩ := h
  refine ⟨before, u, after ++ [p], by rw [List.append_assoc, List.cons_append], hu, hrun, ?_⟩
  intro q hq
  obtain hq | hq := List.mem_append.1 hq
  · exact hafter q hq
  · rw [List.mem_singleton.1 hq]
    exact ⟨hi, hw⟩

theorem quiet_concat_self (past : Past) (hi : interrupts (s, .tick) = some id)
    (hrun : s.world.running id = false) : Quiet (past ++ [(s, .tick)]) id := by
  refine ⟨past, s, [], rfl, hi, hrun, ?_⟩
  intro q hq
  cases hq

theorem Quiet.of_concat (h : Quiet (past ++ [p]) id) :
    (Quiet past id ∧ interrupts p ≠ some id ∧ ¬ Wakes id p) ∨
      ∃ s, p = (s, .tick) ∧ interrupts (s, .tick) = some id ∧ s.world.running id = false := by
  obtain ⟨before, u, after, heq, hu, hrun, hafter⟩ := h
  obtain rfl | ⟨after, q, rfl⟩ := List.eq_nil_or_concat after
  · obtain ⟨-, hp⟩ := List.append_inj' heq rfl
    exact .inr ⟨u, List.head_eq_of_cons_eq hp, hu, hrun⟩
  · rw [List.concat_eq_append, ← List.cons_append, ← List.append_assoc] at heq
    rw [List.concat_eq_append] at hafter
    obtain ⟨hpast, hp⟩ := List.append_inj' heq rfl
    obtain rfl := List.head_eq_of_cons_eq hp
    left
    refine ⟨⟨before, u, after, hpast, hu, hrun, ?_⟩, ?_⟩
    · intro r hr
      exact hafter r (List.mem_append_left _ hr)
    · exact hafter p (List.mem_append_right _ List.mem_cons_self)

/-! Steps. -/

theorem openPass_cases (s : Command) :
    (s.passes < PASSES ∧ s.todo ≠ [] ∧
      s.openPass =
        { s with passes := s.passes + 1, busy := false, phase := .pass (byParent s.todo) }) ∨
    ((PASSES ≤ s.passes ∨ s.todo = []) ∧ s.openPass = { s with phase := .done }) := by
  rw [openPass]
  split
  · next h =>
    rw [Bool.and_eq_true, decide_eq_true_eq, Bool.not_eq_true', List.isEmpty_eq_false_iff] at h
    exact .inl ⟨h.1, h.2, rfl⟩
  · next h =>
    rw [Bool.and_eq_true, decide_eq_true_eq, Bool.not_eq_true', List.isEmpty_eq_false_iff] at h
    right
    refine ⟨?_, rfl⟩
    by_cases hp : s.passes < PASSES
    · right
      by_contra hne
      exact h ⟨hp, hne⟩
    · exact .inl (Nat.le_of_not_lt hp)

theorem opens_of_looks (hl : s.looks = true) (hp : s.passes < PASSES)
    (ht : (s.reread invoking).todo ≠ []) :
    opens invoking (s, .tick) = some (byParent (s.reread invoking).todo) := by
  rw [opens, if_pos]
  rw [hl, decide_eq_true hp, List.isEmpty_eq_false_iff.2 ht]
  rfl

theorem opens_none (h : s.looks = true → PASSES ≤ s.passes ∨ (s.reread invoking).todo = []) :
    opens invoking (s, .tick) = none := by
  rw [opens, if_neg]
  rw [Bool.and_eq_true, Bool.and_eq_true, decide_eq_true_eq, Bool.not_eq_true']
  intro hc
  obtain hp | ht := h hc.1
  · exact absurd hc.2.1 (Nat.not_lt_of_le hp)
  · rw [ht] at hc
    exact absurd hc.2.2 (by decide)

/-- What a step starts, sends and ends. -/
inductive Step (invoking : Option String) (s : Command) : Event → Command → Prop
  | env (w : World) (h : s.phase ≠ .done) : Step invoking s (.env w) { s with world := w }
  | opened (hr : s.rest = []) (hp : s.passes < PASSES)
      (ho : opens invoking (s, .tick) = some (byParent (s.reread invoking).todo)) :
      Step invoking s .tick
        { s.reread invoking with
          passes := s.passes + 1
          busy := false
          phase := .pass (byParent (s.reread invoking).todo) }
  | ended (hr : s.rest = []) (ho : opens invoking (s, .tick) = none)
      (h : (s.looks = true ∧ (PASSES ≤ s.passes ∨ (s.reread invoking).todo = [])) ∨
        (s.phase = .pass [] ∧ s.busy = false)) :
      Step invoking s .tick { s.reread invoking with phase := .done }
  | stopped (h : s.phase = .pass (c :: cs)) (hrun : s.world.running c.id = true) :
      Step invoking s .tick
        { s with
          world := s.world.stop c.id
          stopped := Fields.insert s.stopped c.id c
          busy := true
          phase := .pass cs }
  | refused (h : s.phase = .pass (c :: cs)) (hrun : s.world.running c.id = false) :
      Step invoking s .tick (s.refuse c cs)
  | thrown (h : s.phase = .pass (c :: cs)) (hrun : s.world.running c.id = false)
      (message : String) :
      Step invoking s (.throw message)
        { s.refuse c cs with errors := s.errors ++ [c.title ++ ": " ++ message] }

theorem step_look (hl : s.looks = true) (hr : s.rest = []) :
    Step invoking s .tick (s.reread invoking).openPass := by
  obtain ⟨hp, ht, h⟩ | ⟨hend, h⟩ := openPass_cases (s.reread invoking)
  · rw [h]
    exact .opened hr hp (opens_of_looks hl hp ht)
  · rw [h]
    exact .ended hr (opens_none fun _ => hend) (.inl ⟨hl, hend⟩)

theorem step_cases (h : step invoking s e = some s') : Step invoking s e s' := by
  cases e with
  | env w =>
    rw [step] at h
    split at h
    · cases h
    · next hd =>
      cases h
      exact .env w hd
  | tick =>
    rw [step] at h
    split at h
    · next hp =>
      cases h
      exact step_look (by rw [looks, hp]) (by rw [Command.rest, hp])
    · next c cs hp =>
      cases h
      rw [interrupt]
      split
      · next hrun => exact .stopped hp hrun
      · next hrun => exact .refused hp (Bool.eq_false_of_not_eq_true hrun)
    · next hp =>
      split at h
      · next hb =>
        cases h
        exact step_look (by rw [looks, hp, hb]) (by rw [Command.rest, hp])
      · next hb =>
        cases h
        have hb := Bool.eq_false_of_not_eq_true hb
        refine .ended (by rw [Command.rest, hp]) (opens_none fun hl => ?_) (.inr ⟨hp, hb⟩)
        rw [looks, hp, hb] at hl
        cases hl
    · cases h
  | throw message =>
    rw [step] at h
    split at h
    · next c cs hp =>
      split at h
      · cases h
      · next hrun =>
        cases h
        exact .thrown hp (Bool.eq_false_of_not_eq_true hrun) message
    · cases h

/-- Until it is done, the command has a next step. -/
theorem step_tick_isSome (h : s.phase ≠ .done) : (step invoking s .tick).isSome = true := by
  rw [step]
  split
  · rfl
  · rfl
  · split <;> rfl
  · next hd => exact absurd hd h

/-! A pass. -/

theorem mem_byParent {cs : List Candidate} : c ∈ byParent cs ↔ c ∈ cs := by
  rw [byParent, List.mem_append, List.mem_filter, List.mem_filter, ← and_or_left, and_iff_left]
  cases truthy c.parent with
  | false => exact .inr rfl
  | true => exact .inl rfl

theorem byParent_perm (cs : List Candidate) : (byParent cs).Perm cs :=
  List.filter_append_perm _ cs

theorem mem_todo : c ∈ s.todo ↔ c ∈ s.current.map Prod.snd ∧ c.id ∉ Fields.keys s.notHere := by
  rw [todo, List.mem_filter, Bool.not_eq_true', ← Bool.not_eq_true, Fields.get_isSome_iff]

theorem mem_values_read : c ∈ (read invoking db).map Prod.snd ↔ (c.id, c) ∈ read invoking db := by
  rw [List.mem_map]
  constructor
  · intro h
    obtain ⟨⟨id, c⟩, he, rfl⟩ := h
    rwa [(get_read he).1]
  · intro h
    exact ⟨_, h, rfl⟩

theorem ids_read (invoking : Option String) (db : Db) :
    ((read invoking db).map Prod.snd).map Candidate.id = Fields.keys (read invoking db) := by
  rw [List.map_map, Fields.keys]
  apply List.map_congr_left
  intro e he
  exact (get_read he).1

theorem whole_of_calm (h : CalmStep invoking (s, .tick))
    (ho : opens invoking (s, .tick) = some (byParent (s.reread invoking).todo)) :
    Whole invoking s.world.db (byParent (s.reread invoking).todo) := by
  obtain ⟨hmarked, hjobs⟩ := h (by rw [ho]; rfl)
  constructor
  · intro id hid
    have hkey := mem_read.2 hid
    rw [← ids_read] at hkey
    obtain ⟨c, hc, rfl⟩ := List.mem_map.1 hkey
    apply List.mem_map_of_mem
    exact mem_byParent.2 (mem_todo.2 ⟨hc, hmarked c.id hid⟩)
  · have hsub : ∀ c ∈ (s.reread invoking).todo, c.subagent = true ↔ s.world.db.Subagent c.id := by
      intro c hc
      exact (get_read (mem_values_read.1 (mem_todo.1 hc).1)).2
    have hparent : ∀ c ∈ (s.reread invoking).todo, truthy c.parent = true →
        s.world.db.Subagent c.id := by
      intro c hc hp
      rw [← hsub c hc, Candidate.subagent, hp]
      rfl
    rw [byParent, List.pairwise_append]
    refine ⟨?_, ?_, ?_⟩
    · apply List.pairwise_of_forall_mem_list
      intro c hc d _ _
      rw [List.mem_filter] at hc
      exact hparent c hc.1 hc.2
    · rw [List.pairwise_filter]
      apply (hjobs.sublist List.filter_sublist).imp_of_mem
      intro c d hc hd hjob hpc hpd hs
      rw [Bool.not_eq_true'] at hpc hpd
      rw [← hsub d hd, Candidate.subagent, hpd, Bool.false_or] at hs
      rw [← hsub c hc, Candidate.subagent, hjob hpc hpd hs, Bool.or_true]
    · intro c hc d _ _
      rw [List.mem_filter] at hc
      exact hparent c hc.1 hc.2

theorem opens_of_rest (invoking : Option String) (h : s.rest ≠ []) :
    opens invoking (s, .tick) = none := by
  apply opens_none
  intro hl
  rw [looks] at hl
  rw [Command.rest] at h
  split at hl
  · next hp =>
    rw [hp] at h
    exact absurd rfl h
  · next hp =>
    rw [hp] at h
    exact absurd rfl h
  · cases hl

theorem rest_of_phase (h : s.phase = .pass cs) : s.rest = cs := by
  rw [Command.rest, h]

theorem rest_ne_nil (h : s.phase = .pass (c :: cs)) : s.rest ≠ [] := by
  rw [rest_of_phase h]
  exact List.cons_ne_nil c cs

theorem interrupts_none (e : Event) (h : s.rest = []) : interrupts (s, e) = none := by
  cases e with
  | env w => rfl
  | tick => rw [interrupts, h]; rfl
  | throw message => rw [interrupts, h]; rfl

theorem interrupts_tick (h : s.phase = .pass (c :: cs)) : interrupts (s, .tick) = some c.id := by
  rw [interrupts, rest_of_phase h]
  rfl

theorem interrupts_throw (h : s.phase = .pass (c :: cs)) (message : String) :
    interrupts (s, .throw message) = some c.id := by
  rw [interrupts, rest_of_phase h]
  rfl

theorem mem_keys_refuse (h : id ∈ Fields.keys (s.refuse c cs).notHere) :
    id = c.id ∨ id ∈ Fields.keys s.notHere := by
  rw [refuse] at h
  split at h
  · exact .inr h
  · exact Fields.mem_keys_insert.1 h

/-! Whether anything changed during the last pass. -/

theorem World.Same.symm (h : World.Same w v) : World.Same v w :=
  ⟨fun id => (h.1 id).symm, h.2.symm⟩

theorem World.Same.trans (h : World.Same w v) (k : World.Same v u) : World.Same w u :=
  ⟨fun id => (h.1 id).trans (k.1 id), h.2.trans k.2⟩

theorem lastPass_of_none (h : opens invoking p = none) :
    lastPass invoking (past ++ [p]) = lastPass invoking past ++ [p] := by
  rw [lastPass_concat, h]
  rfl

theorem mem_lastPass_self (invoking : Option String) (past : Past) (p : Command × Event) :
    p ∈ lastPass invoking (past ++ [p]) := by
  rw [lastPass_concat]
  split
  · exact List.mem_cons_self
  · exact List.mem_append_right _ List.mem_cons_self

theorem mem_lastPass_concat (h : opens invoking p = none) (hq : q ∈ lastPass invoking past) :
    q ∈ lastPass invoking (past ++ [p]) := by
  rw [lastPass_of_none h]
  exact List.mem_append_left _ hq

theorem Still.of_concat (h : Still invoking (past ++ [(s, e)]) s')
    (ho : opens invoking (s, e) = none) : Still invoking past s ∧ s.world.Same s'.world := by
  have hs := h _ (mem_lastPass_self invoking past (s, e))
  refine ⟨?_, hs⟩
  intro q hq
  exact (h q (mem_lastPass_concat ho hq)).trans hs.symm

/-! What a run keeps. -/

/-- A session was not running at some step of the last pass. -/
def Idle (invoking : Option String) (past : Past) (id : String) : Prop :=
  ∃ p ∈ lastPass invoking past, p.1.world.running id = false

theorem Idle.concat (h : Idle invoking past id) (ho : opens invoking p = none) :
    Idle invoking (past ++ [p]) id := by
  obtain ⟨q, hq, hrun⟩ := h
  exact ⟨q, mem_lastPass_concat ho hq, hrun⟩

/-- The passes so far, what they sent, and whom they have still to reach. -/
structure Sent (invoking : Option String) (past : Past) (s : Command) : Prop where
  passes : (past.filterMap (opens invoking)).length = s.passes
  bound : s.passes ≤ PASSES
  sent : past.filterMap interrupts ++ s.rest.map Candidate.id =
    (past.filterMap (opens invoking)).flatten.map Candidate.id
  fresh : s.phase = .start → s.notHere = [] ∧ s.passes = 0
  nodup : (s.rest.map Candidate.id).Nodup
  apart : ∀ c ∈ s.rest, c.id ∉ Fields.keys s.notHere

theorem sent_new (invoking : Option String) (w : World) : Sent invoking [] (new w) where
  passes := rfl
  bound := Nat.zero_le _
  sent := rfl
  fresh _ := ⟨rfl, rfl⟩
  nodup := List.nodup_nil
  apart _ h := by cases h

theorem Sent.next (h : Sent invoking past s) (hphase : s.phase = .pass (c :: cs))
    (ho : opens invoking (s, e) = none) (hi : interrupts (s, e) = some c.id)
    (hp : s'.phase = .pass cs) (hpasses : s'.passes = s.passes)
    (hkeys : ∀ id ∈ Fields.keys s'.notHere, id = c.id ∨ id ∈ Fields.keys s.notHere) :
    Sent invoking (past ++ [(s, e)]) s' := by
  have hrest := rest_of_phase hphase
  have hnodup := h.nodup
  have hsent := h.sent
  rw [hrest, List.map_cons] at hnodup hsent
  obtain ⟨hc, hnodup⟩ := List.nodup_cons.1 hnodup
  constructor
  · rw [Concurrent.filterMap_concat past ho, hpasses, ← h.passes]
    exact congrArg List.length (List.append_nil _)
  · rw [hpasses]
    exact h.bound
  · rw [Concurrent.filterMap_concat past ho, Concurrent.filterMap_concat past hi,
      rest_of_phase hp, List.append_assoc, Option.toList_none, List.append_nil]
    exact hsent
  · intro hs
    rw [hp] at hs
    cases hs
  · rw [rest_of_phase hp]
    exact hnodup
  · rw [rest_of_phase hp]
    intro d hd hk
    obtain hd' | hk := hkeys d.id hk
    · rw [← hd'] at hc
      exact hc (List.mem_map_of_mem hd)
    · apply h.apart d _ hk
      rw [hrest]
      exact List.mem_cons_of_mem c hd

theorem Sent.step (h : Sent invoking past s) (hstep : Step invoking s e s') :
    Sent invoking (past ++ [(s, e)]) s' := by
  cases hstep with
  | env w hd =>
    constructor
    · rw [Concurrent.filterMap_concat past (o := none) rfl, ← h.passes]
      exact congrArg List.length (List.append_nil _)
    · exact h.bound
    · rw [Concurrent.filterMap_concat past (f := interrupts) (o := none) rfl,
        Concurrent.filterMap_concat past (f := opens invoking) (o := none) rfl,
        Option.toList_none, Option.toList_none, List.append_nil, List.append_nil]
      exact h.sent
    · exact h.fresh
    · exact h.nodup
    · exact h.apart
  | opened hr hp ho =>
    have hsent := h.sent
    rw [hr, List.map_nil, List.append_nil] at hsent
    constructor
    · rw [Concurrent.filterMap_concat past ho, List.length_append, h.passes]
      rfl
    · exact hp
    · rw [Concurrent.filterMap_concat past ho,
        Concurrent.filterMap_concat past (interrupts_none _ hr), List.flatten_append,
        List.map_append, ← hsent, Option.toList_none, List.append_nil]
      exact congrArg _ (congrArg _ (List.append_nil _).symm)
    · intro hs
      cases hs
    · change ((byParent (s.reread invoking).todo).map Candidate.id).Nodup
      rw [((byParent_perm _).map Candidate.id).nodup_iff]
      apply (List.filter_sublist.map Candidate.id).nodup
      change (((read invoking s.world.db).map Prod.snd).map Candidate.id).Nodup
      rw [ids_read]
      exact nodup_read invoking s.world.db
    · intro c hc
      exact (mem_todo.1 (mem_byParent.1 hc)).2
  | ended hr ho _ =>
    have hsent := h.sent
    rw [hr] at hsent
    constructor
    · rw [Concurrent.filterMap_concat past ho]
      exact (congrArg List.length (List.append_nil _)).trans h.passes
    · exact h.bound
    · rw [Concurrent.filterMap_concat past ho,
        Concurrent.filterMap_concat past (interrupts_none _ hr), Option.toList_none,
        Option.toList_none, List.append_nil, List.append_nil]
      exact hsent
    · intro hs
      cases hs
    · exact List.nodup_nil
    · intro c hc
      cases hc
  | stopped hphase hrun =>
    have ho := opens_of_rest invoking (rest_ne_nil hphase)
    exact h.next hphase ho (interrupts_tick hphase) rfl rfl fun id hid => .inr hid
  | refused hphase hrun =>
    have ho := opens_of_rest invoking (rest_ne_nil hphase)
    exact h.next hphase ho (interrupts_tick hphase) rfl rfl fun id hid => mem_keys_refuse hid
  | @thrown c cs hphase hrun message =>
    exact h.next hphase rfl (interrupts_throw hphase message) rfl rfl
      fun id (hid : id ∈ Fields.keys (s.refuse c cs).notHere) => mem_keys_refuse hid

/-- Where no pass starts, nothing was marked. -/
theorem Sent.start_none (h : Sent invoking past s) (hphase : s.phase = .start)
    (hend : PASSES ≤ s.passes ∨ (s.reread invoking).todo = []) :
    ¬ Marked invoking s.world.db id := by
  intro hid
  obtain ⟨hnot, hzero⟩ := h.fresh hphase
  obtain hle | htodo := hend
  · rw [hzero] at hle
    cases hle
  · have hkey := mem_read.2 hid
    rw [← ids_read] at hkey
    obtain ⟨c, hc, -⟩ := List.mem_map.1 hkey
    have hin : c ∈ (s.reread invoking).todo := by
      refine mem_todo.2 ⟨hc, ?_⟩
      change c.id ∉ Fields.keys s.notHere
      rw [hnot]
      exact List.not_mem_nil
    rw [htodo] at hin
    cases hin

/-- A last pass that stops nothing has found each of its sessions idle. -/
structure Watched (invoking : Option String) (past : Past) (s : Command) : Prop where
  busy : s.busy = true → ¬ Still invoking past s
  idle : ∀ todo, s.phase = .pass todo → s.busy = false → ∃ p ∈ lastPass invoking past,
    ∀ id, Marked invoking p.1.world.db id →
      id ∈ todo.map Candidate.id ∨ Idle invoking past id
  stopped : s.phase = .done → s.passes < PASSES → Still invoking past s →
    ∀ id, Marked invoking s.world.db id → s.world.running id = false

theorem watched_new (invoking : Option String) (w : World) : Watched invoking [] (new w) where
  busy h := by cases h
  idle _ h := by cases h
  stopped h := by cases h

theorem Watched.refuse (h : Watched invoking past s) (hphase : s.phase = .pass (c :: cs))
    (ho : opens invoking (s, e) = none) (hrun : s.world.running c.id = false)
    (hp : s'.phase = .pass cs) (hb : s'.busy = s.busy) :
    Watched invoking (past ++ [(s, e)]) s' := by
  constructor
  · intro hbusy hstill
    rw [hb] at hbusy
    obtain ⟨hstill, -⟩ := hstill.of_concat ho
    exact h.busy hbusy hstill
  · intro todo htodo hbusy
    rw [hp] at htodo
    cases htodo
    rw [hb] at hbusy
    obtain ⟨p, hmem, hreach⟩ := h.idle _ hphase hbusy
    refine ⟨p, mem_lastPass_concat ho hmem, ?_⟩
    intro id hid
    obtain hin | hidle := hreach id hid
    · obtain rfl | hin := List.mem_cons.1 hin
      · exact .inr ⟨_, mem_lastPass_self invoking past _, hrun⟩
      · exact .inl hin
    · exact .inr (hidle.concat ho)
  · intro hd
    rw [hp] at hd
    cases hd

theorem Watched.step (h : Watched invoking past s) (hs : Sent invoking past s)
    (hcalm : CalmStep invoking (s, e)) (hstep : Step invoking s e s') :
    Watched invoking (past ++ [(s, e)]) s' := by
  cases hstep with
  | env w hd =>
    constructor
    · intro hbusy hstill
      obtain ⟨hstill, hsame⟩ := hstill.of_concat rfl
      exact h.busy hbusy hstill
    · intro todo htodo hbusy
      obtain ⟨p, hmem, hreach⟩ := h.idle todo htodo hbusy
      refine ⟨p, mem_lastPass_concat rfl hmem, ?_⟩
      intro id hid
      exact (hreach id hid).imp_right fun hidle => hidle.concat rfl
    · intro hdone
      exact absurd hdone hd
  | opened hr hp ho =>
    constructor
    · intro hbusy
      cases hbusy
    · intro todo htodo _
      cases htodo
      refine ⟨_, mem_lastPass_self invoking past _, ?_⟩
      intro id hid
      exact .inl ((whole_of_calm hcalm ho).1 id hid)
    · intro hd
      cases hd
  | ended hr ho hend =>
    constructor
    · intro hbusy hstill
      obtain ⟨hstill, -⟩ := hstill.of_concat ho
      exact h.busy hbusy hstill
    · intro todo htodo
      cases htodo
    · intro _ hlt hstill id hid
      obtain ⟨hstill, -⟩ := hstill.of_concat ho
      obtain ⟨hlooks, hle | htodo⟩ | ⟨hphase, hbusy⟩ := hend
      · exact absurd hlt (Nat.not_lt_of_le hle)
      · -- a pass that stopped something is followed by a read only
        cases hphase : s.phase with
        | start => exact absurd hid (hs.start_none hphase (.inr htodo))
        | pass todo =>
          rw [looks, hphase] at hlooks
          cases todo with
          | nil => exact absurd hstill (h.busy hlooks)
          | cons c cs => cases hlooks
        | done =>
          rw [looks, hphase] at hlooks
          cases hlooks
      · obtain ⟨p, hmem, hreach⟩ := h.idle [] hphase hbusy
        have hsame := hstill p hmem
        have hmarked : Marked invoking p.1.world.db id := ⟨hid.1, (hsame.1 id).2 hid.2⟩
        obtain hin | ⟨q, hq, hrun⟩ := hreach id hmarked
        · cases hin
        · rw [(hstill q hq).2] at hrun
          exact hrun
  | @stopped c cs hphase hrun =>
    have ho := opens_of_rest invoking (rest_ne_nil hphase)
    constructor
    · intro _ hstill
      obtain ⟨-, hsame⟩ := hstill.of_concat ho
      rw [hsame.2] at hrun
      change Function.update s.world.running c.id false c.id = true at hrun
      rw [Function.update_self] at hrun
      cases hrun
    · intro _ _ hbusy
      cases hbusy
    · intro hd
      cases hd
  | refused hphase hrun =>
    exact h.refuse hphase (opens_of_rest invoking (rest_ne_nil hphase)) hrun rfl rfl
  | thrown hphase hrun message => exact h.refuse hphase rfl hrun rfl rfl

/-- A session that will not be interrupted again is quiet, unless it was woken in a pass that has
stopped nothing so far. -/
structure Settled (invoking : Option String) (past : Past) (s : Command) : Prop where
  quiet : ∀ id ∈ Fields.keys s.notHere, Quiet past id
  reached : ∀ todo, s.phase = .pass todo → s.busy = false → ∀ id ∈ Fields.keys s.current,
    id ∈ todo.map Candidate.id ∨ Quiet past id ∨ ∃ p ∈ lastPass invoking past, Wakes id p
  stale : s.phase = .done → Calm invoking past → ∀ c ∈ s.stale, Quiet past c.id

theorem settled_new (invoking : Option String) (w : World) : Settled invoking [] (new w) where
  quiet _ h := by cases h
  reached _ h := by cases h
  stale h := by cases h

theorem Settled.step (h : Settled invoking past s) (hs : Sent invoking past s)
    (hcalm : CalmStep invoking (s, e)) (hstep : Step invoking s e s') :
    Settled invoking (past ++ [(s, e)]) s' := by
  have hwakes : ∀ id, e = .tick → ¬ Wakes id (s, e) := by
    intro id he hw
    rw [he] at hw
    exact hw
  cases hstep with
  | env w hd =>
    constructor
    · intro id hid
      exact (h.quiet id hid).concat (Option.some_ne_none id).symm (hcalm id hid)
    · intro todo htodo hbusy id hid
      obtain hin | hquiet | ⟨p, hp, hw⟩ := h.reached todo htodo hbusy id hid
      · exact .inl hin
      · by_cases hw : Wakes id (s, .env w)
        · exact .inr (.inr ⟨_, mem_lastPass_self invoking past _, hw⟩)
        · exact .inr (.inl (hquiet.concat (Option.some_ne_none id).symm hw))
      · exact .inr (.inr ⟨p, mem_lastPass_concat rfl hp, hw⟩)
    · intro hdone
      exact absurd hdone hd
  | opened hr hp ho =>
    constructor
    · intro id hid
      refine (h.quiet id hid).concat ?_ (hwakes id rfl)
      rw [interrupts_none _ hr]
      exact (Option.some_ne_none id).symm
    · intro todo htodo _ id hid
      cases htodo
      exact .inl ((whole_of_calm hcalm ho).1 id (mem_read.1 hid))
    · intro hd
      cases hd
  | ended hr ho hend =>
    have hnone : ∀ id, interrupts (s, .tick) ≠ some id := by
      intro id
      rw [interrupts_none _ hr]
      exact (Option.some_ne_none id).symm
    have hquiet : ∀ id ∈ Fields.keys s.notHere, Quiet (past ++ [(s, .tick)]) id :=
      fun id hid => (h.quiet id hid).concat (hnone id) (hwakes id rfl)
    refine ⟨hquiet, ?_, ?_⟩
    · intro todo htodo
      cases htodo
    · intro _ hc c hmem
      change c ∈ if s.busy then _ else _ at hmem
      split at hmem
      · rw [List.mem_filter, Fields.get_isSome_iff] at hmem
        exact hquiet c.id hmem.2
      · next hb =>
        have hmarked : Marked invoking s.world.db c.id :=
          mem_read.1 (List.mem_map_of_mem (mem_values_read.1 hmem))
        obtain ⟨hlooks, hend⟩ | ⟨hphase, hbusy⟩ := hend
        · cases hphase : s.phase with
          | start => exact absurd hmarked (hs.start_none hphase hend)
          | pass todo =>
            rw [looks, hphase] at hlooks
            cases todo with
            | nil => exact absurd hlooks hb
            | cons c cs => cases hlooks
          | done =>
            rw [looks, hphase] at hlooks
            cases hlooks
        · obtain ⟨hin, hno⟩ := hc.last past s rfl hphase hbusy c.id hmarked
          obtain hin | hq | ⟨p, hp, hw⟩ := h.reached [] hphase hbusy c.id hin
          · cases hin
          · exact hq.concat (hnone c.id) (hwakes c.id rfl)
          · exact absurd hw (hno p hp)
  | @stopped c cs hphase hrun =>
    constructor
    · intro id hid
      refine (h.quiet id hid).concat ?_ (hwakes id rfl)
      rw [interrupts_tick hphase]
      rintro ⟨rfl⟩
      exact hs.apart c (by rw [rest_of_phase hphase]; exact List.mem_cons_self) hid
    · intro _ _ hbusy
      cases hbusy
    · intro hd
      cases hd
  | @refused c cs hphase hrun =>
    have hself := quiet_concat_self past (interrupts_tick hphase) hrun
    have hkeep : ∀ id, Quiet past id → Quiet (past ++ [(s, .tick)]) id := by
      intro id hq
      by_cases hid : id = c.id
      · rw [hid]
        exact hself
      · refine hq.concat ?_ (hwakes id rfl)
        rw [interrupts_tick hphase]
        exact fun hc => hid (Option.some.inj hc).symm
    constructor
    · intro id hid
      obtain rfl | hid := mem_keys_refuse hid
      · exact hself
      · exact hkeep id (h.quiet id hid)
    · intro todo htodo hbusy id hid
      cases htodo
      obtain hin | hq | ⟨p, hp, hw⟩ := h.reached _ hphase hbusy id hid
      · obtain rfl | hin := List.mem_cons.1 hin
        · exact .inr (.inl hself)
        · exact .inl hin
      · exact .inr (.inl (hkeep id hq))
      · have ho := opens_of_rest invoking (rest_ne_nil hphase)
        exact .inr (.inr ⟨p, mem_lastPass_concat ho hp, hw⟩)
    · intro hd
      cases hd
  | thrown hphase hrun message => exact hcalm.elim

/-! Runs. -/

structure Kept (invoking : Option String) (past : Past) (s : Command) : Prop where
  sent : Sent invoking past s
  watched : Watched invoking past s
  settled : Settled invoking past s

theorem kept_run (hrun : Concurrent.run (step invoking) (new w) es = some s)
    (hcalm : ∀ p ∈ Concurrent.steps (step invoking) (new w) es, CalmStep invoking p) :
    Kept invoking (Concurrent.steps (step invoking) (new w) es) s := by
  have hkept := Concurrent.run_records
    (P := fun past s => (∀ p ∈ past, CalmStep invoking p) → Kept invoking past s)
    (fun _ => ⟨sent_new invoking w, watched_new invoking w, settled_new invoking w⟩) hrun ?_
  · exact hkept hcalm
  · intro past u e u' h hstep hcalm
    have hk := h fun p hp => hcalm p (List.mem_append_left _ hp)
    have hc := hcalm (u, e) (List.mem_append_right _ List.mem_cons_self)
    have hs := step_cases hstep
    exact ⟨hk.sent.step hs, hk.watched.step hk.sent hc hs, hk.settled.step hk.sent hc hs⟩

theorem whole_of_opens {p : Command × Event} {cs : List Candidate} (h : CalmStep invoking p)
    (ho : opens invoking p = some cs) : Whole invoking p.1.world.db cs := by
  obtain ⟨s, e⟩ := p
  cases e with
  | tick =>
    have htodo := ho
    change (if _ then some _ else none) = some cs at htodo
    split at htodo
    · cases htodo
      exact whole_of_calm h ho
    · cases htodo
  | env w => cases ho
  | throw message => cases ho

/-- A quiet session does not run. -/
theorem not_running_of_quiet (hrun : Concurrent.run (step invoking) (new w) es = some s)
    (hq : Quiet (Concurrent.steps (step invoking) (new w) es) id) :
    s.world.running id = false := by
  have hquiet := Concurrent.run_records
    (P := fun past s => Quiet past id → s.world.running id = false) ?_ hrun ?_
  · exact hquiet hq
  · intro h
    obtain ⟨before, u, after, heq, -⟩ := h
    cases before <;> cases heq
  · intro past u e u' h hstep hq
    have hstays : u.world.running id = false → ¬ Wakes id (u, e) →
        u'.world.running id = false := by
      intro hidle hw
      cases step_cases hstep with
      | env w hd => exact Bool.eq_false_of_not_eq_true fun hr => hw ⟨hidle, hr⟩
      | opened hr hp ho => exact hidle
      | ended hr ho hend => exact hidle
      | @stopped c cs hphase hrun =>
        change Function.update u.world.running c.id false id = false
        rw [Function.update_apply]
        split
        · rfl
        · exact hidle
      | refused hphase hrun => exact hidle
      | thrown hphase hrun message => exact hidle
    obtain ⟨hq, -, hw⟩ | ⟨v, he, -, hidle⟩ := hq.of_concat
    · exact hstays (h hq) hw
    · cases he
      exact hstays hidle fun hw => hw

/-- In a calm run the command stops, or reports, every marked session that is running. -/
theorem stopAll_reported
    (hrun : Concurrent.run (Command.step invoking) (Command.new w) es = some s)
    (hcalm : Calm invoking (Concurrent.steps (Command.step invoking) (Command.new w) es)) :
    Reported invoking (Concurrent.steps (Command.step invoking) (Command.new w) es) s := by
  have hkept := kept_run hrun hcalm.steps
  constructor
  · rw [hkept.sent.passes]
    exact hkept.sent.bound
  · intro p hp todo ho
    exact whole_of_opens (hcalm.steps p hp) ho
  · exact hkept.sent.sent
  · exact hkept.watched.stopped
  · intro hd
    exact hkept.settled.stale hd hcalm

/-- A session and its subagent, whose job runs. -/
def family (parentSuspended childSuspended : Bool) (status : String) : Db :=
  ⟨[⟨"p", none, some "Scan", some "/", parentSuspended⟩,
    ⟨"c", some "p", some "Scan part 1", some "/", childSuspended⟩],
    [⟨some "p", some "c", status⟩]⟩

def subagentRuns : World := ⟨family false true "running", fun id => id = "c"⟩

def nothingRuns : World := ⟨family false false "completed", fun _ => false⟩

/-- The subagent is stopped, its parent is not running, and both are unmarked in the gap. -/
def stoppedFamily : List Event := [.tick, .tick, .tick, .env nothingRuns, .tick]

theorem calm_stoppedFamily :
    Calm none (Concurrent.steps (step none) (new subagentRuns) stoppedFamily) := by
  constructor
  · have hopened : CalmStep none (new subagentRuns, .tick) := by
      intro _
      constructor
      · intro id _ hid
        cases hid
      · decide
    apply List.forall_mem_cons.2 ⟨hopened, List.forall_mem_cons.2 ⟨_, List.forall_mem_cons.2 ⟨_,
      List.forall_mem_cons.2 ⟨_, List.forall_mem_singleton.2 _⟩⟩⟩⟩
    · intro ho
      cases ho
    · intro ho
      cases ho
    · intro id _ hw
      cases hw.2
    · intro ho
      cases ho
  · intro before s heq hphase hbusy
    have hlast := congrArg (fun past => past.getLast?.map fun p => p.1.busy) heq
    change some true = _ at hlast
    simp only [List.getLast?_concat, Option.map_some, hbusy] at hlast
    cases hlast

theorem stopAll_reported_stoppedFamily : ∃ s,
    Concurrent.run (step none) (new subagentRuns) stoppedFamily = some s ∧ s.phase = .done ∧
    Reported none (Concurrent.steps (step none) (new subagentRuns) stoppedFamily) s :=
  ⟨_, rfl, rfl, stopAll_reported rfl calm_stoppedFamily⟩

def parentRuns : World := ⟨family true false "completed", fun id => id = "p"⟩

/-- The parent is not running, and wakes in the gap after the pass. -/
def wokenParent : List Event := [.tick, .tick, .tick, .env parentRuns, .tick]

/-- The parent runs, and is reported as a stale flag. -/
theorem stopAll_misreports : ∃ s,
    Concurrent.run (step none) (new subagentRuns) wokenParent = some s ∧ s.phase = .done ∧
    s.stale.map Candidate.id = ["p"] ∧ s.world.running "p" = true ∧
    ¬ Reported none (Concurrent.steps (step none) (new subagentRuns) wokenParent) s := by
  refine ⟨_, rfl, rfl, rfl, rfl, ?_⟩
  intro h
  have hquiet := h.stale rfl _ List.mem_cons_self
  have hidle := not_running_of_quiet rfl hquiet
  cases hidle

end StopJobs

end LocalMind
