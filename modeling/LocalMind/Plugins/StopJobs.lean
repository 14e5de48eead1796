import LocalMind.Json.Value
import LocalMind.Concurrent.Run

namespace LocalMind
open Json
set_option autoImplicit true

/-! The `/stop-all-jobs` command. -/

namespace StopJobs

/-- A row of the session table. -/
structure Session where
  id : String
  parent : Option String
  title : Option String
  directory : Option String
  suspended : Bool

/-- A row of the job table. -/
structure Job where
  session : Option String
  child : Option String
  status : String

structure Db where
  sessions : List Session
  jobs : List Job

structure Candidate where
  id : String
  parent : Option String
  title : String
  directory : String
  viaJob : Bool

def Job.running (j : Job) : Bool := j.status = "running"

/-- A string that is neither null nor empty. -/
def truthy : Option String → Bool
  | none => false
  | some s => s ≠ ""

def add (info : List (String × Session)) (found : List (String × Candidate))
    (id : Option String) (viaJob : Bool) : List (String × Candidate) :=
  match id with
  | none => found
  | some id =>
    if id = "" then found
    else
      let r := Fields.get info id
      let prev := Fields.get found id
      Fields.insert found id
        ⟨id, r.bind Session.parent, (r.bind Session.title).getD "(unknown session)",
          (r.bind Session.directory).getD "", viaJob || (prev.map Candidate.viaJob).getD false⟩

def Db.info (db : Db) : List (String × Session) :=
  Fields.insertAll [] (db.sessions.map fun r => (r.id, r))

/-- Everything that would resume at the next start, or is running now. -/
def readCandidates (db : Db) : List (String × Candidate) :=
  let suspended := (db.sessions.filter Session.suspended).foldl
    (fun found r => add db.info found (some r.id) false) []
  (db.jobs.filter Job.running).foldl
    (fun found r => add db.info (add db.info found r.child true) r.session false) suspended

/-- The candidates, without the session that the command was typed in. -/
def read (invoking : Option String) (db : Db) : List (String × Candidate) :=
  if truthy invoking then (readCandidates db).filter fun e => some e.1 ≠ invoking
  else readCandidates db

/-! The report. -/

def SHOW_TITLES : Nat := 12

def names (cs : List Candidate) : String :=
  ", ".intercalate ((cs.take SHOW_TITLES).map fun c => "\"" ++ c.title ++ "\"") ++
    if SHOW_TITLES < cs.length then ", … (+" ++ toString (cs.length - SHOW_TITLES) ++ ")" else ""

def plural (n : Nat) : String := if n = 1 then "" else "s"

def Candidate.subagent (c : Candidate) : Bool := truthy c.parent || c.viaJob

def describe (cs : List Candidate) : String :=
  let subs := (cs.filter Candidate.subagent).length
  toString cs.length ++ " session" ++ plural cs.length ++ " (" ++ toString subs ++ " subagent" ++
    plural subs ++ ")"

/-- The stable sort of the candidates by whether they have a parent. -/
def byParent (cs : List Candidate) : List Candidate :=
  (cs.filter fun c => truthy c.parent) ++ cs.filter fun c => !truthy c.parent

def listingLine (c : Candidate) : String :=
  "- " ++ (if c.subagent then "subagent" else "session ") ++ "  " ++ c.title ++ "  (" ++ c.id ++
    (if c.directory = "" then "" else ", " ++ c.directory) ++ ")"

/-- What the dry run answers. -/
def listing (invoking : Option String) (db : Db) : String :=
  let first := (read invoking db).map Prod.snd
  if first.isEmpty then "/stop-all-jobs list: nothing is running or waiting to resume."
  else
    "\n".intercalate (("/stop-all-jobs list: would stop " ++ describe first ++ ":") ::
      (byParent first).map listingLine)

/-! The run. -/

/-- The database and the sessions that this process is running. -/
structure World where
  db : Db
  running : String → Bool

def World.stop (w : World) (id : String) : World :=
  { w with running := Function.update w.running id false }

/-- Before the first read; in a pass, with the sessions it has still to interrupt (in the gap
after it once there are none); or at the end. -/
inductive Phase
  | start
  | pass (todo : List Candidate)
  | done

structure Command where
  world : World
  phase : Phase
  stopped : List (String × Candidate)
  notHere : List (String × Candidate)
  errors : List String
  passes : Nat
  busy : Bool
  current : List (String × Candidate)

inductive Event
  /-- sessions start, end, are marked or unmarked -/
  | env (w : World)
  /-- the command takes its next step -/
  | tick
  /-- an interrupt is rejected -/
  | throw (message : String)

def PASSES : Nat := 5

namespace Command

def new (w : World) : Command := ⟨w, .start, [], [], [], 0, false, []⟩

def todo (s : Command) : List Candidate :=
  (s.current.map Prod.snd).filter fun c => !(Fields.get s.notHere c.id).isSome

/-- The head of the loop. -/
def openPass (s : Command) : Command :=
  if s.passes < PASSES && !s.todo.isEmpty then
    { s with passes := s.passes + 1, busy := false, phase := .pass (byParent s.todo) }
  else { s with phase := .done }

def reread (invoking : Option String) (s : Command) : Command :=
  { s with current := read invoking s.world.db }

def refuse (s : Command) (c : Candidate) (rest : List Candidate) : Command :=
  { s with
    notHere := if (Fields.get s.stopped c.id).isSome then s.notHere
      else Fields.insert s.notHere c.id c
    phase := .pass rest }

def interrupt (s : Command) (c : Candidate) (rest : List Candidate) : Command :=
  if s.world.running c.id then
    { s with
      world := s.world.stop c.id
      stopped := Fields.insert s.stopped c.id c
      busy := true
      phase := .pass rest }
  else s.refuse c rest

def step (invoking : Option String) (s : Command) : Event → Option Command
  | .env w =>
    match s.phase with
    | .done => none
    | _ => some { s with world := w }
  | .tick =>
    match s.phase with
    | .start => some (s.reread invoking).openPass
    | .pass (c :: rest) => some (s.interrupt c rest)
    | .pass [] =>
      if s.busy then some (s.reread invoking).openPass
      else some { s.reread invoking with phase := .done }
    | .done => none
  | .throw message =>
    match s.phase with
    | .pass (c :: rest) =>
      -- a session that runs is stopped by its interrupt
      if s.world.running c.id then none
      else some { s.refuse c rest with errors := s.errors ++ [c.title ++ ": " ++ message] }
    | _ => none

/-- What is still marked. -/
def stillMarked (s : Command) : List Candidate := s.current.map Prod.snd

def stale (s : Command) : List Candidate :=
  if s.busy then s.stillMarked.filter fun c => (Fields.get s.notHere c.id).isSome
  else s.stillMarked

def leftover (s : Command) : List Candidate :=
  if s.busy then s.stillMarked.filter fun c => !(Fields.get s.notHere c.id).isSome else []

def report (s : Command) : String :=
  let stopped := s.stopped.map Prod.snd
  "\n".intercalate <|
    (if stopped.isEmpty && s.stale.isEmpty then ["/stop-all-jobs: nothing was running."] else []) ++
    (if stopped.isEmpty then []
      else ["/stop-all-jobs: stopped " ++ describe stopped ++ " in " ++ toString s.passes ++
        " pass" ++ (if s.passes = 1 then "" else "es") ++ ": " ++ names stopped]) ++
    (if s.stale.isEmpty then []
      else ["Still marked but not running in this OpenCode process (" ++
        toString s.stale.length ++ "): " ++ names s.stale ++ ". These are stale flags " ++
        "(e.g. left by a crash) and would resume at the next start: stop the opencode container " ++
        "and clear them (plugins/README.md, /stop-all-jobs section)."]) ++
    (if s.leftover.isEmpty then []
      else ["Still running after " ++ toString s.passes ++ " passes (" ++
        toString s.leftover.length ++ "): " ++ names s.leftover ++
        ". Run /stop-all-jobs again."]) ++
    if s.errors.isEmpty then [] else ["Errors: " ++ "; ".intercalate (s.errors.take 5)]

end Command

/-! What a read finds. -/

/-- The session is suspended, or has a part in a running job. -/
def Db.Marked (db : Db) (id : String) : Prop :=
  id ≠ "" ∧ ((∃ r ∈ db.sessions, r.suspended = true ∧ r.id = id) ∨
    ∃ j ∈ db.jobs, j.running = true ∧ (j.child = some id ∨ j.session = some id))

/-- The session was started by another, or it is the child of a running job. -/
def Db.Subagent (db : Db) (id : String) : Prop :=
  truthy ((Fields.get db.info id).bind Session.parent) = true ∨
    ∃ j ∈ db.jobs, j.running = true ∧ j.child = some id

/-- The arguments of the calls of `add`. -/
def Db.adds (db : Db) : List (Option String × Bool) :=
  (db.sessions.filter Session.suspended).map (fun r => (some r.id, false)) ++
    (db.jobs.filter Job.running).flatMap fun j => [(j.child, true), (j.session, false)]

def addAll (info : List (String × Session)) (found : List (String × Candidate))
    (adds : List (Option String × Bool)) : List (String × Candidate) :=
  adds.foldl (fun found p => add info found p.1 p.2) found

theorem readCandidates_eq (db : Db) : readCandidates db = addAll db.info [] db.adds := by
  rw [readCandidates, addAll, Db.adds, List.foldl_append, List.foldl_map, List.foldl_flatMap]
  rfl

def viaJobIn (found : List (String × Candidate)) (id : String) : Bool :=
  ((Fields.get found id).map Candidate.viaJob).getD false

variable {id : String}

theorem mem_keys_add (info : List (String × Session)) (found : List (String × Candidate))
    (k : Option String) (v : Bool) :
    id ∈ Fields.keys (add info found k v) ↔ id ∈ Fields.keys found ∨ id ≠ "" ∧ k = some id := by
  cases k with
  | none => simp [add]
  | some l =>
    rw [add]
    by_cases hl : l = ""
    · rw [if_pos hl, hl]
      simp only [Option.some.injEq, iff_self_or, and_imp]
      intro hne heq
      exact absurd heq.symm hne
    · rw [if_neg hl, Fields.mem_keys_insert, Option.some.injEq, or_comm]
      constructor
      · intro h
        obtain h | rfl := h
        · exact .inl h
        · exact .inr ⟨hl, rfl⟩
      · intro h
        obtain h | ⟨-, rfl⟩ := h
        · exact .inl h
        · exact .inr rfl

theorem nodup_add (info : List (String × Session)) {found : List (String × Candidate)}
    (h : (Fields.keys found).Nodup) (k : Option String) (v : Bool) :
    (Fields.keys (add info found k v)).Nodup := by
  cases k with
  | none => exact h
  | some l =>
    rw [add]
    split
    · exact h
    · exact Fields.keys_nodup_insert h _ _

theorem viaJobIn_add (info : List (String × Session)) (found : List (String × Candidate))
    (k : Option String) (v : Bool) (hid : id ≠ "") :
    viaJobIn (add info found k v) id = true ↔
      viaJobIn found id = true ∨ k = some id ∧ v = true := by
  cases k with
  | none => simp [add]
  | some l =>
    rw [add]
    by_cases hl : l = ""
    · rw [if_pos hl, hl]
      simp [Ne.symm hid]
    · rw [if_neg hl, viaJobIn, Fields.get_insert]
      by_cases hlid : l = id
      · subst hlid
        rw [if_pos rfl]
        simp [viaJobIn, or_comm]
      · rw [if_neg hlid]
        simp [viaJobIn, hlid]

/-- An entry is about the session under its key. -/
def Describes (info : List (String × Session)) (found : List (String × Candidate)) : Prop :=
  ∀ id c, Fields.get found id = some c →
    c.id = id ∧ c.parent = (Fields.get info id).bind Session.parent

theorem Describes.add (h : Describes info found) (k : Option String) (v : Bool) :
    Describes info (StopJobs.add info found k v) := by
  cases k with
  | none => exact h
  | some l =>
    rw [StopJobs.add]
    split
    · exact h
    · intro id c hc
      rw [Fields.get_insert] at hc
      split at hc
      · next hl =>
        cases hc
        exact ⟨hl, by rw [hl]⟩
      · exact h id c hc

theorem mem_keys_addAll (info : List (String × Session)) (found : List (String × Candidate))
    (adds : List (Option String × Bool)) : id ∈ Fields.keys (addAll info found adds) ↔
      id ∈ Fields.keys found ∨ id ≠ "" ∧ some id ∈ adds.map Prod.fst := by
  induction adds generalizing found with
  | nil => simp [addAll]
  | cons p adds ih =>
    change id ∈ Fields.keys (addAll info (add info found p.1 p.2) adds) ↔ _
    rw [ih, mem_keys_add, List.map_cons, List.mem_cons, or_assoc, ← and_or_left, eq_comm]

theorem nodup_addAll (info : List (String × Session)) (adds : List (Option String × Bool))
    (h : (Fields.keys found).Nodup) : (Fields.keys (addAll info found adds)).Nodup := by
  induction adds generalizing found with
  | nil => exact h
  | cons p adds ih => exact ih (nodup_add info h p.1 p.2)

theorem viaJobIn_addAll (info : List (String × Session)) (found : List (String × Candidate))
    (adds : List (Option String × Bool)) (hid : id ≠ "") :
    viaJobIn (addAll info found adds) id = true ↔
      viaJobIn found id = true ∨ (some id, true) ∈ adds := by
  induction adds generalizing found with
  | nil => simp [addAll]
  | cons p adds ih =>
    change viaJobIn (addAll info (add info found p.1 p.2) adds) id = true ↔ _
    rw [ih, viaJobIn_add info found p.1 p.2 hid, List.mem_cons, or_assoc, Prod.ext_iff,
      eq_comm (a := some id), eq_comm (a := true)]

theorem Describes.addAll (h : Describes info found) (adds : List (Option String × Bool)) :
    Describes info (StopJobs.addAll info found adds) := by
  induction adds generalizing found with
  | nil => exact h
  | cons p adds ih => exact ih (h.add p.1 p.2)

theorem mem_adds (db : Db) : some id ∈ db.adds.map Prod.fst ↔
    (∃ r ∈ db.sessions, r.suspended = true ∧ r.id = id) ∨
      ∃ j ∈ db.jobs, j.running = true ∧ (j.child = some id ∨ j.session = some id) := by
  simp only [Db.adds, List.map_append, List.map_map, List.map_flatMap, List.mem_append,
    List.mem_map, List.mem_flatMap, List.mem_filter, Function.comp_apply, Option.some.injEq,
    List.map_cons, List.map_nil, List.mem_cons, List.not_mem_nil, or_false, and_assoc]
  simp only [eq_comm (a := some id)]

theorem viaJob_adds (db : Db) : (some id, true) ∈ db.adds ↔
    ∃ j ∈ db.jobs, j.running = true ∧ j.child = some id := by
  simp only [Db.adds, List.mem_append, List.mem_map, List.mem_flatMap, List.mem_filter,
    Prod.mk.injEq, List.mem_cons, List.not_mem_nil, or_false, and_assoc]
  constructor
  · intro h
    obtain ⟨r, -, -, -, hv⟩ | ⟨j, hj, hr, h⟩ := h
    · cases hv
    · obtain ⟨hc, -⟩ | ⟨-, hv⟩ := h
      · exact ⟨j, hj, hr, hc.symm⟩
      · cases hv
  · intro h
    obtain ⟨j, hj, hr, hc⟩ := h
    exact .inr ⟨j, hj, hr, .inl ⟨hc.symm, trivial⟩⟩

/-- Marked, and not the session that the command was typed in. -/
def Marked (invoking : Option String) (db : Db) (id : String) : Prop :=
  some id ≠ invoking ∧ db.Marked id

theorem nodup_read (invoking : Option String) (db : Db) :
    (Fields.keys (read invoking db)).Nodup := by
  have h : (Fields.keys (readCandidates db)).Nodup := by
    rw [readCandidates_eq]
    exact nodup_addAll _ _ List.nodup_nil
  rw [read]
  split
  · exact (List.filter_sublist.map Prod.fst).nodup h
  · exact h

theorem mem_read : id ∈ Fields.keys (read invoking db) ↔ Marked invoking db id := by
  have h : id ∈ Fields.keys (readCandidates db) ↔ db.Marked id := by
    rw [readCandidates_eq, mem_keys_addAll, mem_adds, Db.Marked]
    simp [Fields.keys]
  rw [Marked, ← h, read]
  split
  · simp only [Fields.keys, List.mem_map, List.mem_filter, decide_eq_true_eq]
    constructor
    · intro h
      obtain ⟨e, ⟨he, hne⟩, rfl⟩ := h
      exact ⟨hne, e, he, rfl⟩
    · intro h
      obtain ⟨hne, e, he, rfl⟩ := h
      exact ⟨e, ⟨he, hne⟩, rfl⟩
  · next ht =>
    rw [iff_and_self]
    intro hm hi
    rw [← hi] at ht
    exact ht (decide_eq_true (h.1 hm).1)

theorem get_read (h : (id, c) ∈ read invoking db) : c.id = id ∧
    (c.subagent = true ↔ db.Subagent id) := by
  have hmem : (id, c) ∈ readCandidates db := by
    rw [read] at h
    split at h
    · exact (List.mem_filter.1 h).1
    · exact h
  have hkey := mem_read.1 (List.mem_map.2 ⟨_, h, rfl⟩)
  have hnodup : (Fields.keys (readCandidates db)).Nodup := by
    rw [readCandidates_eq]
    exact nodup_addAll _ _ List.nodup_nil
  have hget := Fields.get_of_mem hnodup hmem
  have hvia := viaJobIn_addAll db.info [] db.adds hkey.2.1
  rw [← readCandidates_eq, viaJobIn, hget, viaJob_adds] at hvia
  have hdesc : Describes db.info [] := by
    intro id c hc
    cases hc
  rw [readCandidates_eq] at hget
  obtain ⟨hid, hparent⟩ := hdesc.addAll db.adds id c hget
  refine ⟨hid, ?_⟩
  rw [Candidate.subagent, Bool.or_eq_true, Db.Subagent, hparent]
  simpa [viaJobIn] using or_congr_right hvia

end StopJobs

end LocalMind
