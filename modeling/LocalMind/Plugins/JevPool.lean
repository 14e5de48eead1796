import LocalMind.Concurrent.Run
import LocalMind.Json.Value

namespace LocalMind
open Json
set_option autoImplicit true

/-! The worker pool that sends the chunks of one `ask_jev` call. -/

namespace Jev

inductive Mode
  | share
  | split

structure Routes where
  hooks : List String
  tools : List String
  toolWorkers : Nat

def preferring (first : String) (all : List String) : List String :=
  if first = "" then all else first :: all.filter (· ≠ first)

/-- The first text if it is set, else the other. -/
def orElse (s t : String) : String := if s = "" then t else s

def routes (urls : List String) (mode : Mode) (hookUrl toolUrl : String) : Routes :=
  match mode with
  | .share => ⟨preferring hookUrl urls, preferring toolUrl urls, urls.length⟩
  | .split => ⟨preferring (orElse hookUrl (urls.getLast?.getD "")) urls,
      preferring (orElse toolUrl (urls.head?.getD "")) urls, 1⟩

/-- The lines of a chunk, `from` and `to`, and the length of its text. -/
structure Chunk where
  start : Nat
  stop : Nat
  chars : Nat
deriving DecidableEq

structure AskTask where
  file : Nat
  chunk : Chunk
  tries : Nat

structure Part (α : Type) where
  probabilities : α
  chunk : Chunk

structure Answer (α : Type) where
  probabilities : α
  ms : Nat
  inputTokens : Option Nat

/-- A worker waits for the answer to a task, or it has returned: after a failure, or because no
task was pending. -/
inductive Worker
  | asking (t : Nat)
  | failed
  | idle
deriving DecidableEq

/-- The state that the workers share. A task is its place in `tasks`; the `k`-th worker to be
launched serves the `k`-th server of the order. -/
structure Pool (α : Type) where
  tasks : List AskTask
  pending : List Nat
  workers : List Worker
  parts : Nat → List (Part α)
  perServer : List (String × Nat)
  msPer : List Nat
  tokens : Nat
  chars : Nat
  lastError : Option String
  unfinished : Nat

inductive PoolEvent (α : Type)
  | answer (k : Nat) (a : Answer α)
  | failure (k : Nat) (error : Option String)
  /-- a standby server takes over -/
  | standby

namespace Pool

def new (chunks : List (Nat × Chunk)) : Pool α :=
  ⟨chunks.map fun c => ⟨c.1, c.2, 0⟩, List.range chunks.length, [], fun _ => [], [], [], 0, 0,
    none, 0⟩

/-- What a worker that looks for a task finds. -/
def next (s : Pool α) : Worker :=
  match s.pending with
  | [] => .idle
  | t :: _ => .asking t

def launch (s : Pool α) : Pool α :=
  { s with pending := s.pending.tail, workers := s.workers ++ [s.next] }

def launchAll : Nat → Pool α → Pool α
  | 0, s => s
  | n + 1, s => launchAll n s.launch

def start (r : Routes) (chunks : List (Nat × Chunk)) : Pool α :=
  launchAll (min r.toolWorkers r.tools.length) (new chunks)

def record (s : Pool α) (url : String) (t : AskTask) (a : Answer α) : Pool α :=
  { s with
    perServer := Fields.insert s.perServer url ((Fields.get s.perServer url).getD 0 + 1)
    msPer := s.msPer ++ [a.ms]
    tokens := s.tokens + a.inputTokens.getD 0
    chars := s.chars + t.chunk.chars
    parts := Function.update s.parts t.file (s.parts t.file ++ [⟨a.probabilities, t.chunk⟩]) }

def resume (s : Pool α) (k : Nat) : Pool α :=
  { s with pending := s.pending.tail, workers := s.workers.set k s.next }

/-- A worker that failed puts its chunk back once and stops. -/
def giveBack (s : Pool α) (k i : Nat) (t : AskTask) (error : String) : Pool α :=
  { s with
    lastError := some error
    tasks := s.tasks.set i { t with tries := t.tries + 1 }
    pending := if t.tries < 1 then i :: s.pending else s.pending
    unfinished := if t.tries < 1 then s.unfinished else s.unfinished + 1
    workers := s.workers.set k .failed }

def errorText (error : Option String) (url : String) (shown : Nat → String) (t : AskTask) :
    String :=
  error.getD "no answer" ++ " (" ++ url ++ ", at " ++ shown t.file ++ ", lines " ++
    toString t.chunk.start ++ "-" ++ toString t.chunk.stop ++ ")"

/-- Some worker still waits for an answer. -/
def running (s : Pool α) : Bool := s.workers.any fun w => w ≠ .failed && w ≠ .idle

def step (order : List String) (shown : Nat → String) (s : Pool α) :
    PoolEvent α → Option (Pool α)
  | .answer k a =>
    match s.workers[k]? with
    | some (.asking i) =>
      (s.tasks[i]?).map fun t => (s.record (order.getD k "") t a).resume k
    | _ => none
  | .failure k error =>
    match s.workers[k]? with
    | some (.asking i) =>
      (s.tasks[i]?).map fun t => s.giveBack k i t (errorText error (order.getD k "") shown t)
    | _ => none
  | .standby =>
    if !s.running && !s.pending.isEmpty && decide (s.workers.length < order.length) then
      some s.launch
    else none

/-- The pool's loop has ended. -/
def Finished (order : List String) (s : Pool α) : Prop :=
  s.running = false ∧ (s.pending = [] ∨ order.length ≤ s.workers.length)

def totalUnfinished (s : Pool α) : Nat := s.unfinished + s.pending.length

def stopped (s : Pool α) : Option String := if s.totalUnfinished = 0 then none else s.lastError

/-! What a run sends, and what comes of it. -/

/-- A request that a step sends: the worker and the task. -/
def sentAt : Pool α × PoolEvent α → Option (Nat × Nat)
  | (s, .answer k _) => s.pending.head?.map (k, ·)
  | (_, .failure _ _) => none
  | (s, .standby) => s.pending.head?.map (s.workers.length, ·)

/-- The task that a worker waits for. -/
def inHand (s : Pool α) (k : Nat) : Option Nat :=
  match s.workers[k]? with
  | some (.asking i) => some i
  | _ => none

def failedAt : Pool α × PoolEvent α → Option (Nat × Nat)
  | (s, .failure k _) => (s.inHand k).map (k, ·)
  | _ => none

def answeredAt : Pool α × PoolEvent α → Option Nat
  | (s, .answer k _) => s.inHand k
  | _ => none

/-- The task that a failure does not put back. -/
def lostAt : Pool α × PoolEvent α → Option Nat
  | (s, .failure k _) =>
    (s.inHand k).filter fun i => decide (1 ≤ ((s.tasks[i]?).map AskTask.tries).getD 0)
  | _ => none

/-- The requests of workers that wait. -/
def asked (s : Pool α) : List (Nat × Nat) :=
  s.workers.zipIdx.filterMap fun w =>
    match w.1 with
    | .asking i => some (w.2, i)
    | _ => none

def sends (first : Pool α) (past : List (Pool α × PoolEvent α)) : List (Nat × Nat) :=
  first.asked ++ past.filterMap sentAt

/-- The server and the task of each failed request. -/
def failures (order : List String) (past : List (Pool α × PoolEvent α)) : List (String × Nat) :=
  (past.filterMap failedAt).map fun p => (order.getD p.1 "", p.2)

/-- The chunks of one file among these tasks. -/
def chunksOf (chunks : List (Nat × Chunk)) (f : Nat) (is : List Nat) : List Chunk :=
  ((is.filterMap fun i => chunks[i]?).filter fun c => c.1 = f).map Prod.snd

/-- Why a task may be left: two servers failed it, or every server failed a request. -/
def Excused (order : List String) (past : List (Pool α × PoolEvent α)) (i : Nat) : Prop :=
  (∃ u v, u ≠ v ∧ (u, i) ∈ failures order past ∧ (v, i) ∈ failures order past) ∨
    ∀ u ∈ order, ∃ j, (u, j) ∈ failures order past

/-- A pool that has ended gave up on its chunks for cause only. -/
structure ForCause (order : List String) (chunks : List (Nat × Chunk)) (first : Pool α)
    (past : List (Pool α × PoolEvent α)) (s : Pool α) : Prop where
  /-- each task is recorded in its file's parts or left unfinished, once -/
  once : ∃ done left, (done ++ left).Perm (List.range chunks.length) ∧
    (∀ f, ((s.parts f).map Part.chunk).Perm (chunksOf chunks f done)) ∧
    left.length = s.totalUnfinished ∧ ∀ i ∈ left, Excused order past i
  twice : ∀ i, (sends first past).countP (·.2 = i) ≤ 2
  apart : ((sends first past).map fun p => (order.getD p.1 "", p.2)).Nodup
  stopped : s.stopped.isSome = true ↔ 0 < s.totalUnfinished

/-- The last worker that waits fails and leaves a chunk, with no server on standby, and another
worker has returned because it found no task. -/
def Strands (order : List String) : Pool α × PoolEvent α → Prop
  | (s, .failure k _) => ∃ i t, s.workers[k]? = some (.asking i) ∧ s.tasks[i]? = some t ∧
      (∀ j i', s.workers[j]? = some (.asking i') → j = k) ∧ order.length ≤ s.workers.length ∧
      (s.pending ≠ [] ∨ t.tries = 0) ∧ ∃ j : Nat, s.workers[j]? = some .idle
  | _ => False

/-! Steps. -/

theorem step_cases {s : Pool α} (h : s.step order shown e = some s') :
    (∃ k a i t, e = .answer k a ∧ s.workers[k]? = some (.asking i) ∧ s.tasks[i]? = some t ∧
      s' = (s.record (order.getD k "") t a).resume k) ∨
    (∃ k error i t, e = .failure k error ∧ s.workers[k]? = some (.asking i) ∧
      s.tasks[i]? = some t ∧
      s' = s.giveBack k i t (errorText error (order.getD k "") shown t)) ∨
    (e = .standby ∧ s.running = false ∧ s.pending ≠ [] ∧
      s.workers.length < order.length ∧ s' = s.launch) := by
  cases e with
  | answer k a =>
    rw [step] at h
    split at h
    · next i hk =>
      obtain ⟨t, ht, rfl⟩ := Option.map_eq_some_iff.1 h
      exact .inl ⟨k, a, i, t, rfl, hk, ht, rfl⟩
    · cases h
  | failure k error =>
    rw [step] at h
    split at h
    · next i hk =>
      obtain ⟨t, ht, rfl⟩ := Option.map_eq_some_iff.1 h
      exact .inr (.inl ⟨k, error, i, t, rfl, hk, ht, rfl⟩)
    · cases h
  | standby =>
    rw [step] at h
    split at h
    · next hc =>
      cases h
      simp only [Bool.and_eq_true, Bool.not_eq_true', List.isEmpty_eq_false_iff,
        decide_eq_true_eq] at hc
      exact .inr (.inr ⟨rfl, hc.1.1, hc.1.2, hc.2, rfl⟩)
    · cases h

theorem inHand_eq {s : Pool α} (h : s.workers[k]? = some (.asking i)) : s.inHand k = some i := by
  rw [inHand, h]

/-- The next task is taken from the pending ones. -/
theorem count_next (s : Pool α) (i : Nat) :
    (if s.next = .asking i then 1 else 0) + s.pending.tail.count i = s.pending.count i := by
  rw [next]
  cases s.pending with
  | nil => rfl
  | cons t rest =>
    rw [List.tail_cons, List.count_cons, Nat.add_comm]
    by_cases h : t = i
    · rw [h, if_pos rfl, if_pos (beq_self_eq_true i)]
    · rw [if_neg (fun hc => h (Worker.asking.inj hc)), if_neg (by simpa using h)]

/-- A worker's place, changed. -/
theorem count_set {ws : List Worker} (h : ws[k]? = some (.asking i)) (w : Worker) (j : Nat) :
    (ws.set k w).count (.asking j) + (if i = j then 1 else 0) =
      ws.count (.asking j) + (if w = .asking j then 1 else 0) := by
  obtain ⟨hk, hget⟩ := List.getElem?_eq_some_iff.1 h
  have hmem : i = j → 0 < ws.count (.asking j) := by
    rintro rfl
    exact List.count_pos_iff.2 (hget ▸ List.getElem_mem hk)
  rw [List.count_set hk, hget]
  simp only [beq_iff_eq, Worker.asking.injEq]
  by_cases hij : i = j
  · have hpos := hmem hij
    rw [if_pos hij]
    omega
  · rw [if_neg hij]
    omega

/-! Where each task is. -/

/-- Each task is pending, waited for, answered or lost; failures are counted on it. -/
structure Placed (chunks : List (Nat × Chunk)) (past : List (Pool α × PoolEvent α))
    (s : Pool α) : Prop where
  tasks : ∀ i : Nat, (s.tasks[i]?).map (fun t => (t.file, t.chunk)) = chunks[i]?
  once : ∀ i, (past.filterMap answeredAt).count i + (past.filterMap lostAt).count i +
    s.workers.count (.asking i) + s.pending.count i = if i < chunks.length then 1 else 0
  tries : ∀ i t, s.tasks[i]? = some t → t.tries = (past.filterMap failedAt).countP (·.2 = i)
  spent : ∀ i t, s.tasks[i]? = some t → t.tries ≤ 1 ∨ t.tries = 2 ∧ i ∈ past.filterMap lostAt
  stops : ∀ p ∈ past.filterMap failedAt, s.workers[p.1]? = some .failed
  lost : ∀ i ∈ past.filterMap lostAt, ∃ j k, j ≠ k ∧ (j, i) ∈ past.filterMap failedAt ∧
    (k, i) ∈ past.filterMap failedAt
  unfinished : s.unfinished = (past.filterMap lostAt).length
  parts : ∀ f, (s.parts f).map Part.chunk = chunksOf chunks f (past.filterMap answeredAt)
  error : s.lastError.isSome = true ↔ past.filterMap failedAt ≠ []

theorem filterMap_none {f : β → Option γ} (past : List β) (h : f p = none) :
    (past ++ [p]).filterMap f = past.filterMap f :=
  (Concurrent.filterMap_concat past h).trans (List.append_nil _)

theorem count_asking_append (ws : List Worker) (w : Worker) (i : Nat) :
    (ws ++ [w]).count (.asking i) = ws.count (.asking i) + if w = .asking i then 1 else 0 := by
  rw [List.count_append, List.count_singleton]
  by_cases h : w = .asking i
  · rw [if_pos h, if_pos (by simpa using h)]
  · rw [if_neg h, if_neg (by simpa using h)]

theorem Placed.launch {s : Pool α} (h : Placed chunks past s) : Placed chunks past s.launch where
  tasks := h.tasks
  once := by
    intro i
    have hn := count_next s i
    have ho := h.once i
    rw [Pool.launch]
    dsimp only
    rw [count_asking_append]
    omega
  tries := h.tries
  spent := h.spent
  stops := by
    intro p hp
    have hw := h.stops p hp
    obtain ⟨hlt, -⟩ := List.getElem?_eq_some_iff.1 hw
    rw [Pool.launch]
    dsimp only
    rw [List.getElem?_append_left hlt, hw]
  lost := h.lost
  unfinished := h.unfinished
  parts := h.parts
  error := h.error

theorem Placed.standby {s : Pool α} (h : Placed chunks past s) :
    Placed chunks (past ++ [(s, PoolEvent.standby)]) s.launch := by
  have hl := h.launch
  have h₁ : (past ++ [(s, PoolEvent.standby)]).filterMap answeredAt = past.filterMap answeredAt :=
    filterMap_none past rfl
  have h₂ : (past ++ [(s, PoolEvent.standby)]).filterMap lostAt = past.filterMap lostAt :=
    filterMap_none past rfl
  have h₃ : (past ++ [(s, PoolEvent.standby)]).filterMap failedAt = past.filterMap failedAt :=
    filterMap_none past rfl
  refine ⟨hl.tasks, ?_, ?_, ?_, ?_, ?_, ?_, ?_, ?_⟩
  · rw [h₁, h₂]
    exact hl.once
  · rw [h₃]
    exact hl.tries
  · rw [h₂]
    exact hl.spent
  · rw [h₃]
    exact hl.stops
  · rw [h₂, h₃]
    exact hl.lost
  · rw [h₂]
    exact hl.unfinished
  · rw [h₁]
    exact hl.parts
  · rw [h₃]
    exact hl.error

/-- A worker that waits has not failed before. -/
theorem Placed.not_failed {s : Pool α} {k : Nat} (h : Placed chunks past s)
    (hk : s.workers[k]? = some (.asking i)) (p : Nat × Nat)
    (hp : p ∈ past.filterMap failedAt) : p.1 ≠ k := by
  rintro rfl
  have hw := h.stops p hp
  rw [hk] at hw
  cases hw

/-- A task that is waited for is one of the pool's, and nowhere else. -/
theorem Placed.waited {s : Pool α} {k : Nat} (h : Placed chunks past s)
    (hk : s.workers[k]? = some (.asking i)) : i < chunks.length ∧
      i ∉ past.filterMap answeredAt ∧ i ∉ past.filterMap lostAt ∧ i ∉ s.pending := by
  have hpos : 0 < s.workers.count (.asking i) := List.count_pos_iff.2 (List.mem_of_getElem? hk)
  have ho := h.once i
  split at ho
  · next hi =>
    refine ⟨hi, ?_, ?_, ?_⟩
    · intro hm
      have := List.count_pos_iff.2 hm
      omega
    · intro hm
      have := List.count_pos_iff.2 hm
      omega
    · intro hm
      have := List.count_pos_iff.2 hm
      omega
  · omega

theorem chunksOf_append (chunks : List (Nat × Chunk)) (f : Nat) (is : List Nat) (i : Nat) :
    chunksOf chunks f (is ++ [i]) = chunksOf chunks f is ++
      (((chunks[i]?).filter fun c => decide (c.1 = f)).map Prod.snd).toList := by
  rw [chunksOf, chunksOf, List.filterMap_append, List.filter_append, List.map_append,
    List.filterMap_cons, List.filterMap_nil]
  cases chunks[i]? with
  | none => rfl
  | some c =>
    by_cases hf : c.1 = f
    · simp [hf, Option.filter]
    · simp [hf, Option.filter]

theorem Placed.answer {s : Pool α} (h : Placed chunks past s)
    (hk : s.workers[k]? = some (.asking i)) (ht : s.tasks[i]? = some t) (url : String)
    (a : Answer α) :
    Placed chunks (past ++ [(s, PoolEvent.answer k a)]) ((s.record url t a).resume k) := by
  have h₁ : (past ++ [(s, PoolEvent.answer k a)]).filterMap answeredAt =
      past.filterMap answeredAt ++ [i] :=
    Concurrent.filterMap_concat (o := some i) past (inHand_eq hk)
  have h₂ : (past ++ [(s, PoolEvent.answer k a)]).filterMap lostAt = past.filterMap lostAt :=
    filterMap_none past rfl
  have h₃ : (past ++ [(s, PoolEvent.answer k a)]).filterMap failedAt = past.filterMap failedAt :=
    filterMap_none past rfl
  refine ⟨h.tasks, ?_, ?_, ?_, ?_, ?_, ?_, ?_, ?_⟩
  · intro j
    have hn := count_next s j
    have ho := h.once j
    have hs := count_set hk s.next j
    change _ + _ + (s.workers.set k s.next).count (.asking j) + s.pending.tail.count j = _
    rw [h₁, h₂, List.count_append, List.count_singleton]
    by_cases hij : i = j
    · rw [if_pos hij] at hs
      rw [if_pos (by simpa using hij)]
      omega
    · rw [if_neg hij] at hs
      rw [if_neg (by simpa using hij)]
      omega
  · rw [h₃]
    exact h.tries
  · rw [h₂]
    exact h.spent
  · intro p hp
    rw [h₃] at hp
    change (s.workers.set k s.next)[p.1]? = _
    rw [List.getElem?_set_ne (h.not_failed hk p hp).symm]
    exact h.stops p hp
  · rw [h₂, h₃]
    exact h.lost
  · rw [h₂]
    exact h.unfinished
  · intro f
    have hchunk : chunks[i]? = some (t.file, t.chunk) := by rw [← h.tasks i, ht]; rfl
    rw [h₁, chunksOf_append, hchunk, ← h.parts f]
    change (Function.update s.parts t.file _ f).map Part.chunk = _
    by_cases hf : t.file = f
    · subst hf
      rw [Function.update_self]
      simp [Option.filter]
    · rw [Function.update_of_ne (Ne.symm hf)]
      simp [hf, Option.filter]
  · rw [h₃]
    exact h.error

theorem lost_failure {s : Pool α} {k : Nat} (past : List (Pool α × PoolEvent α))
    (hk : s.workers[k]? = some (.asking i)) (ht : s.tasks[i]? = some t)
    (error : Option String) : (past ++ [(s, PoolEvent.failure k error)]).filterMap lostAt =
      past.filterMap lostAt ++ if t.tries < 1 then [] else [i] := by
  have htask : (s.tasks[i]?).map AskTask.tries = some t.tries := by rw [ht]; rfl
  rw [Concurrent.filterMap_concat past rfl, lostAt, inHand_eq hk, Option.filter, htask,
    Option.getD_some]
  by_cases hone : t.tries < 1
  · rw [if_pos hone, if_neg (by simpa using hone)]
    rfl
  · rw [if_neg hone, if_pos (decide_eq_true (Nat.le_of_not_lt hone))]
    rfl

theorem failed_failure {s : Pool α} {k : Nat} (past : List (Pool α × PoolEvent α))
    (hk : s.workers[k]? = some (.asking i)) (error : Option String) :
    (past ++ [(s, PoolEvent.failure k error)]).filterMap failedAt =
      past.filterMap failedAt ++ [(k, i)] := by
  rw [Concurrent.filterMap_concat past rfl, failedAt, inHand_eq hk]
  rfl

theorem tasks_giveBack {s : Pool α} (ht : s.tasks[i]? = some t) (k : Nat) (text : String)
    (j : Nat) : (s.giveBack k i t text).tasks[j]? =
      if i = j then some { t with tries := t.tries + 1 } else s.tasks[j]? := by
  obtain ⟨hlt, -⟩ := List.getElem?_eq_some_iff.1 ht
  rw [giveBack, List.getElem?_set]
  by_cases hij : i = j
  · rw [if_pos hij, if_pos hlt, if_pos hij]
  · rw [if_neg hij, if_neg hij]

theorem count_giveBack (s : Pool α) (k i : Nat) (t : AskTask) (text : String) (j : Nat) :
    (if t.tries < 1 then [] else [i]).count j + (s.giveBack k i t text).pending.count j =
      s.pending.count j + if i = j then 1 else 0 := by
  rw [giveBack]
  dsimp only
  by_cases hone : t.tries < 1
  · rw [if_pos hone, if_pos hone, List.count_nil, List.count_cons]
    simp only [beq_iff_eq]
    omega
  · rw [if_neg hone, if_neg hone, List.count_singleton]
    simp only [beq_iff_eq]
    omega

theorem Placed.failure {s : Pool α} {k : Nat} (h : Placed chunks past s)
    (hk : s.workers[k]? = some (.asking i)) (ht : s.tasks[i]? = some t)
    (error : Option String) (text : String) :
    Placed chunks (past ++ [(s, .failure k error)]) (s.giveBack k i t text) := by
  have h₁ : (past ++ [(s, PoolEvent.failure k error)]).filterMap answeredAt =
      past.filterMap answeredAt := filterMap_none past rfl
  have h₂ := lost_failure past hk ht error
  have h₃ := failed_failure past hk error
  obtain ⟨hi, -, hnotLost, hnotPending⟩ := h.waited hk
  have hget := tasks_giveBack ht k text
  have hspent : t.tries ≤ 1 := by
    obtain hle | ⟨-, hmem⟩ := h.spent i t ht
    · exact hle
    · exact absurd hmem hnotLost
  refine ⟨?_, ?_, ?_, ?_, ?_, ?_, ?_, ?_, ?_⟩
  · intro j
    rw [hget]
    by_cases hij : i = j
    · rw [if_pos hij, ← h.tasks j, ← hij, ht]
      rfl
    · rw [if_neg hij, h.tasks j]
  · intro j
    have ho := h.once j
    have hs := count_set hk .failed j
    have hne : ¬ Worker.failed = .asking j := by
      intro hc
      cases hc
    rw [if_neg hne] at hs
    have hg := count_giveBack s k i t text j
    change _ + _ + (s.workers.set k .failed).count (.asking j) + _ = _
    rw [h₁, h₂, List.count_append]
    omega
  · intro j u hu
    rw [hget] at hu
    rw [h₃, List.countP_append, List.countP_singleton]
    by_cases hij : i = j
    · rw [if_pos hij] at hu
      cases hu
      rw [if_pos (by simpa using hij), ← hij, h.tries i t ht]
    · rw [if_neg hij] at hu
      rw [if_neg (by simpa using hij), h.tries j u hu, Nat.add_zero]
  · intro j u hu
    rw [hget] at hu
    rw [h₂]
    by_cases hij : i = j
    · rw [if_pos hij] at hu
      cases hu
      by_cases hone : t.tries < 1
      · left
        change t.tries + 1 ≤ 1
        omega
      · right
        rw [if_neg hone, ← hij]
        exact ⟨by change t.tries + 1 = 2; omega, List.mem_append_right _ List.mem_cons_self⟩
    · rw [if_neg hij] at hu
      obtain hle | ⟨htwo, hmem⟩ := h.spent j u hu
      · exact .inl hle
      · exact .inr ⟨htwo, List.mem_append_left _ hmem⟩
  · intro p hp
    rw [h₃] at hp
    change (s.workers.set k .failed)[p.1]? = _
    obtain ⟨hlt, -⟩ := List.getElem?_eq_some_iff.1 hk
    obtain hp | hp := List.mem_append.1 hp
    · rw [List.getElem?_set_ne (h.not_failed hk p hp).symm]
      exact h.stops p hp
    · rw [List.mem_singleton.1 hp, List.getElem?_set_self hlt]
  · intro j hj
    rw [h₂] at hj
    rw [h₃]
    obtain hj | hj := List.mem_append.1 hj
    · obtain ⟨a, b, hab, ha, hb⟩ := h.lost j hj
      exact ⟨a, b, hab, List.mem_append_left _ ha, List.mem_append_left _ hb⟩
    · split at hj
      · cases hj
      · next hone =>
        obtain rfl := List.mem_singleton.1 hj
        have hpos : 0 < (past.filterMap failedAt).countP (·.2 = j) := by
          rw [← h.tries j t ht]
          omega
        obtain ⟨⟨a, b⟩, ha, hb⟩ := List.countP_pos_iff.1 hpos
        obtain rfl : b = j := by simpa using hb
        exact ⟨a, k, h.not_failed hk _ ha, List.mem_append_left _ ha,
          List.mem_append_right _ List.mem_cons_self⟩
  · rw [h₂, List.length_append, ← h.unfinished, giveBack]
    dsimp only
    by_cases hone : t.tries < 1
    · rw [if_pos hone, if_pos hone]
      rfl
    · rw [if_neg hone, if_neg hone]
      rfl
  · rw [h₁]
    exact h.parts
  · rw [h₃]
    exact ⟨fun _ => List.concat_ne_nil _ _, fun _ => rfl⟩

theorem Placed.step {s : Pool α} (h : Placed chunks past s)
    (hstep : Pool.step order shown s e = some s') : Placed chunks (past ++ [(s, e)]) s' := by
  obtain ⟨k, a, i, t, rfl, hk, ht, rfl⟩ | ⟨k, error, i, t, rfl, hk, ht, rfl⟩ |
    ⟨rfl, -, -, -, rfl⟩ := step_cases hstep
  · exact h.answer hk ht _ a
  · exact h.failure hk ht error _
  · exact h.standby

theorem placed_new (chunks : List (Nat × Chunk)) :
    Placed (α := α) chunks [] (Pool.new chunks) where
  tasks := by
    intro i
    rw [Pool.new, List.getElem?_map, Option.map_map]
    cases chunks[i]? <;> rfl
  once := by
    intro i
    change 0 + 0 + 0 + (List.range chunks.length).count i = _
    rw [List.count_range, Nat.zero_add]
  tries := by
    intro i t ht
    rw [Pool.new, List.getElem?_map] at ht
    obtain ⟨c, -, rfl⟩ := Option.map_eq_some_iff.1 ht
    rfl
  spent := by
    intro i t ht
    rw [Pool.new, List.getElem?_map] at ht
    obtain ⟨c, -, rfl⟩ := Option.map_eq_some_iff.1 ht
    exact .inl (Nat.zero_le 1)
  stops := by
    intro p hp
    cases hp
  lost := by
    intro i hi
    cases hi
  unfinished := rfl
  parts := fun _ => rfl
  error := by
    constructor
    · intro h
      cases h
    · exact fun h => absurd rfl h

/-! The requests. -/

/-- A task is sent once more than it has failed, unless it waits to be sent or is lost. -/
structure Sent (chunks : List (Nat × Chunk)) (sent : List (Nat × Nat))
    (past : List (Pool α × PoolEvent α)) (s : Pool α) : Prop where
  nodup : sent.Nodup
  bounds : ∀ p ∈ sent, p.1 < s.workers.length ∧ p.2 < chunks.length
  known : ∀ p ∈ sent, p ∈ past.filterMap failedAt ∨ p.2 ∈ past.filterMap answeredAt ∨
    s.workers[p.1]? = some (.asking p.2)
  count : ∀ i t, s.tasks[i]? = some t →
    sent.countP (·.2 = i) + (past.filterMap lostAt).count i + s.pending.count i = t.tries + 1

theorem next_eq_asking {s : Pool α} : s.next = .asking i ↔ s.pending.head? = some i := by
  rw [next]
  cases s.pending with
  | nil => simp
  | cons t rest => simp

/-- A pending task goes to a worker that has not failed. -/
theorem Sent.take {s s' : Pool α} (h : Sent chunks sent past s) (hp : Placed chunks past s)
    (hworkers : ∀ j ≠ k, ∀ i, s.workers[j]? = some (.asking i) → s'.workers[j]? = some (.asking i))
    (hhand : ∀ i, s.workers[k]? = some (.asking i) → i ∈ past'.filterMap answeredAt)
    (hk : s'.workers[k]? = some s.next) (hfailed : ∀ p ∈ past.filterMap failedAt, p.1 ≠ k)
    (hlength : s.workers.length ≤ s'.workers.length)
    (htasks : s'.tasks = s.tasks) (hpending : s'.pending = s.pending.tail)
    (hfails : past'.filterMap failedAt = past.filterMap failedAt)
    (hlost : past'.filterMap lostAt = past.filterMap lostAt)
    (hanswered : ∀ i ∈ past.filterMap answeredAt, i ∈ past'.filterMap answeredAt) :
    Sent chunks (sent ++ (s.pending.head?.map (k, ·)).toList) past' s' := by
  have hold : ∀ p ∈ sent, p ∈ past'.filterMap failedAt ∨ p.2 ∈ past'.filterMap answeredAt ∨
      s'.workers[p.1]? = some (.asking p.2) := by
    intro p hmem
    rw [hfails]
    obtain hf | ha | hw := h.known p hmem
    · exact .inl hf
    · exact .inr (.inl (hanswered _ ha))
    · by_cases hpk : p.1 = k
      · rw [hpk] at hw
        exact .inr (.inl (hhand _ hw))
      · exact .inr (.inr (hworkers _ hpk _ hw))
  have hbounds : ∀ p ∈ sent, p.1 < s'.workers.length ∧ p.2 < chunks.length :=
    fun p hmem => ⟨Nat.lt_of_lt_of_le (h.bounds p hmem).1 hlength, (h.bounds p hmem).2⟩
  cases hhead : s.pending with
  | nil =>
    refine ⟨by simpa using h.nodup, by simpa using hbounds, by simpa using hold, ?_⟩
    intro i t ht
    rw [htasks] at ht
    have hc := h.count i t ht
    rw [hlost, hpending, hhead]
    rw [hhead] at hc
    simpa using hc
  | cons i rest =>
    have hnext : s.next = .asking i := next_eq_asking.2 (by rw [hhead]; rfl)
    have hone := hp.once i
    have hcount : 0 < s.pending.count i := List.count_pos_iff.2 (by rw [hhead]; simp)
    have hnew : (k, i) ∉ sent := by
      intro hmem
      obtain hf | ha | hw := h.known _ hmem
      · exact hfailed _ hf rfl
      · have hpos : 0 < (past.filterMap answeredAt).count i := List.count_pos_iff.2 ha
        split at hone <;> omega
      · have hpos : 0 < s.workers.count (.asking i) :=
          List.count_pos_iff.2 (List.mem_of_getElem? hw)
        split at hone <;> omega
    refine ⟨?_, ?_, ?_, ?_⟩
    · change (sent ++ [(k, i)]).Nodup
      rw [List.nodup_append]
      refine ⟨h.nodup, List.nodup_singleton _, ?_⟩
      rintro a ha b hb rfl
      exact hnew (List.mem_singleton.1 hb ▸ ha)
    · intro p hmem
      obtain hmem | hmem := List.mem_append.1 hmem
      · exact hbounds p hmem
      · obtain rfl : p = (k, i) := List.mem_singleton.1 hmem
        refine ⟨(List.getElem?_eq_some_iff.1 hk).1, ?_⟩
        split at hone
        · assumption
        · omega
    · intro p hmem
      obtain hmem | hmem := List.mem_append.1 hmem
      · exact hold p hmem
      · obtain rfl : p = (k, i) := List.mem_singleton.1 hmem
        exact .inr (.inr (by rw [hk, hnext]))
    · intro j t ht
      rw [htasks] at ht
      have hc := h.count j t ht
      rw [hlost, hpending, hhead, List.tail_cons]
      rw [hhead, List.count_cons] at hc
      change (sent ++ [(k, i)]).countP _ + _ + _ = _
      rw [List.countP_append, List.countP_singleton]
      simp only [beq_iff_eq, decide_eq_true_eq] at hc ⊢
      omega

theorem Sent.failure {s : Pool α} {k : Nat} (h : Sent chunks sent past s)
    (hk : s.workers[k]? = some (.asking i)) (ht : s.tasks[i]? = some t)
    (error : Option String) (text : String) :
    Sent chunks sent (past ++ [(s, .failure k error)]) (s.giveBack k i t text) := by
  have hlt := (List.getElem?_eq_some_iff.1 hk).1
  have h₁ : (past ++ [(s, PoolEvent.failure k error)]).filterMap answeredAt =
      past.filterMap answeredAt := filterMap_none past rfl
  have h₂ := lost_failure past hk ht error
  have h₃ := failed_failure past hk error
  refine ⟨h.nodup, ?_, ?_, ?_⟩
  · intro p hmem
    change p.1 < (s.workers.set k .failed).length ∧ _
    rw [List.length_set]
    exact h.bounds p hmem
  · intro p hmem
    rw [h₁, h₃]
    obtain hf | ha | hw := h.known p hmem
    · exact .inl (List.mem_append_left _ hf)
    · exact .inr (.inl ha)
    · by_cases hpk : p.1 = k
      · left
        rw [hpk, hk] at hw
        cases hw
        apply List.mem_append_right
        rw [← hpk]
        exact List.mem_cons_self
      · right
        right
        change (s.workers.set k .failed)[p.1]? = _
        rwa [List.getElem?_set_ne (Ne.symm hpk)]
  · intro j u hu
    have hg := count_giveBack s k i t text j
    rw [tasks_giveBack ht] at hu
    rw [h₂, List.count_append]
    by_cases hij : i = j
    · rw [if_pos hij] at hu hg
      cases hu
      have hc := h.count j t (by rw [← hij, ht])
      change _ = t.tries + 1 + 1
      omega
    · rw [if_neg hij] at hu hg
      have hc := h.count j u hu
      omega

theorem Sent.answer {s : Pool α} {k : Nat} (h : Sent chunks sent past s)
    (hp : Placed chunks past s) (hk : s.workers[k]? = some (.asking i)) (url : String)
    (t : AskTask) (a : Answer α) :
    Sent chunks (sent ++ (s.pending.head?.map (k, ·)).toList) (past ++ [(s, .answer k a)])
      ((s.record url t a).resume k) := by
  have h₁ : (past ++ [(s, PoolEvent.answer k a)]).filterMap answeredAt =
      past.filterMap answeredAt ++ [i] :=
    Concurrent.filterMap_concat (o := some i) past (inHand_eq hk)
  apply h.take hp
  · intro j hj i' hw
    change (s.workers.set k s.next)[j]? = _
    rwa [List.getElem?_set_ne (Ne.symm hj)]
  · intro i' hw
    rw [hk] at hw
    cases hw
    rw [h₁]
    exact List.mem_append_right _ List.mem_cons_self
  · exact List.getElem?_set_self (List.getElem?_eq_some_iff.1 hk).1
  · exact fun p hp' => hp.not_failed hk p hp'
  · exact Nat.le_of_eq List.length_set.symm
  · rfl
  · rfl
  · exact filterMap_none past rfl
  · exact filterMap_none past rfl
  · intro i' hm
    rw [h₁]
    exact List.mem_append_left _ hm

theorem Sent.launch {s : Pool α} (h : Sent chunks sent past s) (hp : Placed chunks past s)
    (hfails : past'.filterMap failedAt = past.filterMap failedAt)
    (hlost : past'.filterMap lostAt = past.filterMap lostAt)
    (hanswered : past'.filterMap answeredAt = past.filterMap answeredAt) :
    Sent chunks (sent ++ (s.pending.head?.map (s.workers.length, ·)).toList) past' s.launch := by
  apply h.take hp
  · intro j hj i hw
    have hlt := (List.getElem?_eq_some_iff.1 hw).1
    change (s.workers ++ [s.next])[j]? = _
    rwa [List.getElem?_append_left hlt]
  · intro i hw
    rw [List.getElem?_eq_none (Nat.le_refl _)] at hw
    cases hw
  · exact List.getElem?_concat_length
  · intro p hp'
    exact Nat.ne_of_lt (List.getElem?_eq_some_iff.1 (hp.stops p hp')).1
  · rw [Pool.launch, List.length_append]
    exact Nat.le_add_right _ _
  · rfl
  · rfl
  · exact hfails
  · exact hlost
  · intro i hm
    rwa [hanswered]

theorem Sent.step {s : Pool α} (h : Sent chunks sent past s) (hp : Placed chunks past s)
    (hstep : Pool.step order shown s e = some s') :
    Sent chunks (sent ++ (sentAt (s, e)).toList) (past ++ [(s, e)]) s' := by
  obtain ⟨k, a, i, t, rfl, hk, ht, rfl⟩ | ⟨k, error, i, t, rfl, hk, ht, rfl⟩ |
    ⟨rfl, -, -, -, rfl⟩ := step_cases hstep
  · exact h.answer hp hk _ t a
  · rw [sentAt, Option.toList_none, List.append_nil]
    exact h.failure hk ht error _
  · exact h.launch hp (filterMap_none past rfl) (filterMap_none past rfl)
      (filterMap_none past rfl)

theorem asked_launch (s : Pool α) : s.launch.asked =
    s.asked ++ (s.pending.head?.map (s.workers.length, ·)).toList := by
  rw [asked, asked, launch]
  dsimp only
  rw [List.zipIdx_append, List.filterMap_append, next]
  cases s.pending <;> simp

/-- What holds of a pool that is launched from a new one. -/
structure Launched (chunks : List (Nat × Chunk)) (s : Pool α) : Prop where
  placed : Placed chunks [] s
  sent : Sent chunks s.asked [] s
  /-- a worker finds no task only when none is left -/
  idle : (∃ k : Nat, s.workers[k]? = some .idle) → s.pending = []

theorem launched_launch {s : Pool α} (h : Launched chunks s) : Launched chunks s.launch where
  placed := h.placed.launch
  sent := by
    rw [asked_launch]
    exact h.sent.launch h.placed rfl rfl rfl
  idle := by
    rintro ⟨k, hk⟩
    change s.pending.tail = []
    change (s.workers ++ [s.next])[k]? = _ at hk
    cases hp : s.pending with
    | nil => rfl
    | cons t rest =>
      rw [next, hp, List.getElem?_append] at hk
      split at hk
      · rw [h.idle ⟨k, hk⟩] at hp
        cases hp
      · obtain ⟨hlt, hget⟩ := List.getElem?_eq_some_iff.1 hk
        simp at hget

theorem launched_launchAll (n : Nat) {s : Pool α} (h : Launched chunks s) :
    Launched chunks (launchAll n s) := by
  induction n generalizing s with
  | zero => exact h
  | succ n ih => exact ih (launched_launch h)

theorem launched_new (chunks : List (Nat × Chunk)) :
    Launched (α := α) chunks (Pool.new chunks) where
  placed := placed_new chunks
  sent := by
    refine ⟨List.nodup_nil, ?_, ?_, ?_⟩
    · intro p hp
      cases hp
    · intro p hp
      cases hp
    · intro i t ht
      have ho := (placed_new (α := α) chunks).once i
      have hi : i < chunks.length := by
        have hlt := (List.getElem?_eq_some_iff.1 ht).1
        rwa [Pool.new, List.length_map] at hlt
      rw [if_pos hi] at ho
      rw [Pool.new, List.getElem?_map] at ht
      obtain ⟨c, -, rfl⟩ := Option.map_eq_some_iff.1 ht
      change 0 + 0 + _ = 0 + 1
      change 0 + 0 + 0 + _ = 1 at ho
      omega
  idle := by
    rintro ⟨k, hk⟩
    cases hk

theorem length_launchAll (n : Nat) (s : Pool α) :
    (launchAll n s).workers.length = s.workers.length + n := by
  induction n generalizing s with
  | zero => rfl
  | succ n ih =>
    rw [launchAll, ih, launch, List.length_append, List.length_singleton]
    omega

theorem failed_launchAll (n : Nat) {s : Pool α} (h : .failed ∉ s.workers) :
    .failed ∉ (launchAll n s).workers := by
  induction n generalizing s with
  | zero => exact h
  | succ n ih =>
    apply ih
    intro hm
    obtain hm | hm := List.mem_append.1 hm
    · exact h hm
    · have hne := List.mem_singleton.1 hm
      rw [next] at hne
      cases hp : s.pending with
      | nil =>
        rw [hp] at hne
        cases hne
      | cons t rest =>
        rw [hp] at hne
        cases hne

/-! Chunks that are left. -/

theorem running_iff {s : Pool α} :
    s.running = true ↔ ∃ (k : Nat) (i : Nat), s.workers[k]? = some (.asking i) := by
  rw [running, List.any_eq_true]
  constructor
  · rintro ⟨w, hw, hne⟩
    obtain ⟨k, hk⟩ := List.mem_iff_getElem?.1 hw
    cases w with
    | asking i => exact ⟨k, i, hk⟩
    | _ => simp at hne
  · rintro ⟨k, i, hk⟩
    exact ⟨_, List.mem_of_getElem? hk, by simp⟩

/-- A server that has failed nothing is idle; once chunks are left to idle servers alone, the
pool is stuck. -/
structure Left (order : List String) (past : List (Pool α × PoolEvent α)) (s : Pool α) :
    Prop where
  bound : s.workers.length ≤ order.length
  failed : ∀ k : Nat, s.workers[k]? = some .failed → ∃ i, (k, i) ∈ past.filterMap failedAt
  found : past.filterMap failedAt = [] → (∃ k : Nat, s.workers[k]? = some .idle) →
    s.pending = []
  stuck : (∃ k : Nat, s.workers[k]? = some .idle) → s.pending ≠ [] →
    s.running = true ∨ s.workers.length < order.length ∨ ∃ p ∈ past, Strands order p
  ended : (∃ p ∈ past, Strands order p) → s.running = false ∧
    order.length ≤ s.workers.length ∧ s.pending ≠ [] ∧ ∃ k : Nat, s.workers[k]? = some .idle

theorem left_start (r : Routes) (chunks : List (Nat × Chunk)) :
    Left (α := α) r.tools [] (start r chunks) where
  bound := by
    rw [start, length_launchAll]
    exact Nat.le_trans (Nat.le_of_eq (Nat.zero_add _)) (Nat.min_le_right _ _)
  failed := by
    intro k hk
    exact absurd (List.mem_of_getElem? hk)
      (failed_launchAll _ (s := Pool.new chunks) List.not_mem_nil)
  found := fun _ => (launched_launchAll _ (launched_new chunks)).idle
  stuck := fun hidle hne => absurd ((launched_launchAll _ (launched_new chunks)).idle hidle) hne
  ended := by
    rintro ⟨p, hp, -⟩
    cases hp

theorem Left.no_event {s : Pool α} (h : Left order past s)
    (hstep : Pool.step order shown s e = some s') : ∀ p ∈ past, ¬ Strands order p := by
  intro p hp hs
  obtain ⟨hrun, hlen, -, -⟩ := h.ended ⟨p, hp, hs⟩
  obtain ⟨k, a, i, t, -, hk, -⟩ | ⟨k, error, i, t, -, hk, -⟩ | ⟨-, -, -, hlt, -⟩ :=
    step_cases hstep
  · rw [running_iff.2 ⟨k, i, hk⟩] at hrun
    cases hrun
  · rw [running_iff.2 ⟨k, i, hk⟩] at hrun
    cases hrun
  · omega

theorem Left.answer {s : Pool α} {k : Nat} (h : Left order past s)
    (hno : ∀ p ∈ past, ¬ Strands order p) (hk : s.workers[k]? = some (.asking i)) (url : String)
    (t : AskTask) (a : Answer α) :
    Left order (past ++ [(s, .answer k a)]) ((s.record url t a).resume k) := by
  have hlt := (List.getElem?_eq_some_iff.1 hk).1
  have hfails : (past ++ [(s, PoolEvent.answer k a)]).filterMap failedAt =
      past.filterMap failedAt := filterMap_none past rfl
  have hidle : s.pending ≠ [] → (∃ j : Nat, (s.workers.set k s.next)[j]? = some .idle) →
      ∃ j : Nat, s.workers[j]? = some .idle := by
    rintro hne ⟨j, hj⟩
    rw [List.getElem?_set] at hj
    split at hj
    · rw [next] at hj
      cases hp : s.pending with
      | nil => exact absurd hp hne
      | cons t rest =>
        rw [hp] at hj
        cases hj
    · exact ⟨j, hj⟩
  refine ⟨?_, ?_, ?_, ?_, ?_⟩
  · exact Nat.le_trans (Nat.le_of_eq List.length_set) h.bound
  · intro j hj
    rw [hfails]
    change (s.workers.set k s.next)[j]? = _ at hj
    rw [List.getElem?_set] at hj
    split at hj
    · rw [next] at hj
      cases hp : s.pending with
      | nil =>
        rw [hp] at hj
        cases hj
      | cons t rest =>
        rw [hp] at hj
        cases hj
    · exact h.failed j hj
  · intro hnone hex
    rw [hfails] at hnone
    change s.pending.tail = []
    by_cases hne : s.pending = []
    · rw [hne]
      rfl
    · rw [h.found hnone (hidle hne hex)]
      rfl
  · intro _ hne
    left
    cases hp : s.pending with
    | nil =>
      change s.pending.tail ≠ [] at hne
      rw [hp] at hne
      exact absurd rfl hne
    | cons j rest =>
      apply running_iff.2
      refine ⟨k, j, ?_⟩
      change (s.workers.set k s.next)[k]? = _
      rw [List.getElem?_set_self hlt, next, hp]
  · rintro ⟨p, hp, hs⟩
    obtain hp | hp := List.mem_append.1 hp
    · exact absurd hs (hno p hp)
    · rw [List.mem_singleton.1 hp] at hs
      exact hs.elim

theorem Left.failure {s : Pool α} {k : Nat} (h : Left order past s)
    (hno : ∀ p ∈ past, ¬ Strands order p) (hk : s.workers[k]? = some (.asking i))
    (ht : s.tasks[i]? = some t) (error : Option String) (text : String) :
    Left order (past ++ [(s, .failure k error)]) (s.giveBack k i t text) := by
  have hlt := (List.getElem?_eq_some_iff.1 hk).1
  have hfails := failed_failure past hk error
  have hworkers : ∀ j, (s.giveBack k i t text).workers[j]? =
      if k = j then some .failed else s.workers[j]? := by
    intro j
    rw [giveBack, List.getElem?_set]
    by_cases hkj : k = j
    · rw [if_pos hkj, if_pos hlt, if_pos hkj]
    · rw [if_neg hkj, if_neg hkj]
  have hidle : ∀ j : Nat, (s.giveBack k i t text).workers[j]? = some .idle ↔
      s.workers[j]? = some .idle := by
    intro j
    rw [hworkers]
    by_cases hkj : k = j
    · rw [if_pos hkj, ← hkj, hk]
      simp
    · rw [if_neg hkj]
  have hpending : (s.giveBack k i t text).pending ≠ [] ↔ s.pending ≠ [] ∨ t.tries = 0 := by
    rw [giveBack]
    dsimp only
    by_cases hone : t.tries < 1
    · rw [if_pos hone]
      exact ⟨fun _ => .inr (Nat.lt_one_iff.1 hone), fun _ => List.cons_ne_nil _ _⟩
    · rw [if_neg hone]
      exact ⟨.inl, fun hp => hp.resolve_right fun hz => hone (by omega)⟩
  have hlength : (s.giveBack k i t text).workers.length = s.workers.length := List.length_set
  have hfailed : past.filterMap failedAt ++ [(k, i)] ≠ [] := List.concat_ne_nil _ _
  refine ⟨?_, ?_, ?_, ?_, ?_⟩
  · rw [hlength]
    exact h.bound
  · intro j hj
    rw [hfails]
    rw [hworkers] at hj
    by_cases hkj : k = j
    · rw [← hkj]
      exact ⟨i, List.mem_append_right _ List.mem_cons_self⟩
    · rw [if_neg hkj] at hj
      obtain ⟨i', hi'⟩ := h.failed j hj
      exact ⟨i', List.mem_append_left _ hi'⟩
  · intro hnone
    rw [hfails] at hnone
    exact absurd hnone hfailed
  · rintro ⟨m, hm⟩ hne
    by_cases hother : ∃ (j i' : Nat), j ≠ k ∧ s.workers[j]? = some (.asking i')
    · obtain ⟨j, i', hjk, hj⟩ := hother
      left
      apply running_iff.2
      exact ⟨j, i', by rw [hworkers, if_neg (Ne.symm hjk), hj]⟩
    · by_cases hroom : s.workers.length < order.length
      · rw [hlength]
        exact .inr (.inl hroom)
      · right
        right
        refine ⟨(s, .failure k error), List.mem_append_right _ List.mem_cons_self,
          i, t, hk, ht, ?_, Nat.le_of_not_lt hroom, hpending.1 hne, m, (hidle m).1 hm⟩
        intro j i' hj
        by_contra hjk
        exact hother ⟨j, i', hjk, hj⟩
  · rintro ⟨p, hp, hs⟩
    obtain hp | hp := List.mem_append.1 hp
    · exact absurd hs (hno p hp)
    · rw [List.mem_singleton.1 hp] at hs
      obtain ⟨i', t', hk', ht', honly, hlen, hleft, m, hm⟩ := hs
      rw [hk] at hk'
      cases hk'
      rw [ht] at ht'
      cases ht'
      refine ⟨?_, by rwa [hlength], hpending.2 hleft, m, (hidle m).2 hm⟩
      rw [Bool.eq_false_iff]
      intro hrun
      obtain ⟨j, i', hj⟩ := running_iff.1 hrun
      rw [hworkers] at hj
      by_cases hkj : k = j
      · rw [if_pos hkj] at hj
        cases hj
      · rw [if_neg hkj] at hj
        exact hkj (honly j i' hj).symm

theorem Left.standby {s : Pool α} (h : Left order past s)
    (hno : ∀ p ∈ past, ¬ Strands order p) (hne : s.pending ≠ [])
    (hlt : s.workers.length < order.length) :
    Left order (past ++ [(s, .standby)]) s.launch := by
  have hfails : (past ++ [(s, PoolEvent.standby)]).filterMap failedAt =
      past.filterMap failedAt := filterMap_none past rfl
  obtain ⟨i, rest, hp⟩ := List.exists_cons_of_ne_nil hne
  have hnext : s.next = .asking i := by rw [next, hp]
  have hold : ∀ (j : Nat) w, (s.workers ++ [s.next])[j]? = some w → w ≠ .asking i →
      s.workers[j]? = some w := by
    intro j w hj hw
    rw [List.getElem?_append] at hj
    split at hj
    · exact hj
    · obtain ⟨hl, hget⟩ := List.getElem?_eq_some_iff.1 hj
      rw [hnext] at hget
      simp only [List.getElem_singleton] at hget
      exact absurd hget.symm hw
  refine ⟨?_, ?_, ?_, ?_, ?_⟩
  · rw [launch, List.length_append]
    exact hlt
  · intro j hj
    rw [hfails]
    exact h.failed j (hold j _ hj (by intro hc; cases hc))
  · intro hnone
    rintro ⟨j, hj⟩
    rw [hfails] at hnone
    exact absurd (h.found hnone ⟨j, hold j _ hj (by intro hc; cases hc)⟩) hne
  · intro _ _
    left
    apply running_iff.2
    refine ⟨s.workers.length, i, ?_⟩
    rw [launch, hnext]
    exact List.getElem?_concat_length
  · rintro ⟨p, hp, hs⟩
    obtain hp | hp := List.mem_append.1 hp
    · exact absurd hs (hno p hp)
    · rw [List.mem_singleton.1 hp] at hs
      exact hs.elim

theorem Left.step {s : Pool α} (h : Left order past s)
    (hstep : Pool.step order shown s e = some s') : Left order (past ++ [(s, e)]) s' := by
  have hno := h.no_event hstep
  obtain ⟨k, a, i, t, rfl, hk, -, rfl⟩ | ⟨k, error, i, t, rfl, hk, ht, rfl⟩ |
    ⟨rfl, -, hne, hlt, rfl⟩ := step_cases hstep
  · exact h.answer hno hk _ t a
  · exact h.failure hno hk ht error _
  · exact h.standby hno hne hlt

/-! Runs. -/

structure Kept (order : List String) (chunks : List (Nat × Chunk)) (first : Pool α)
    (past : List (Pool α × PoolEvent α)) (s : Pool α) : Prop where
  placed : Placed chunks past s
  sent : Sent chunks (sends first past) past s
  left : Left order past s

theorem kept_run {r : Routes} {es : List (PoolEvent α)}
    (hrun : Concurrent.run (step r.tools shown) (start r chunks) es = some s) :
    Kept r.tools chunks (start r chunks)
      (Concurrent.steps (step r.tools shown) (start r chunks) es) s := by
  apply Concurrent.run_records (P := Kept r.tools chunks (start r chunks)) _ hrun
  · intro past u e u' h hstep
    refine ⟨h.placed.step hstep, ?_, h.left.step hstep⟩
    have hsends : sends (start r chunks) (past ++ [(u, e)]) =
        sends (start r chunks) past ++ (sentAt (u, e)).toList := by
      rw [sends, sends, Concurrent.filterMap_concat past rfl, List.append_assoc]
    rw [hsends]
    exact h.sent.step h.placed hstep
  · have hlaunched := launched_launchAll (min r.toolWorkers r.tools.length)
      (launched_new (α := α) chunks)
    refine ⟨hlaunched.placed, ?_, left_start r chunks⟩
    rw [sends, List.filterMap_nil, List.append_nil]
    exact hlaunched.sent

theorem routes_tools_ne_nil (h : urls ≠ []) (mode : Mode) (hookUrl toolUrl : String) :
    (routes urls mode hookUrl toolUrl).tools ≠ [] := by
  have hne : ∀ first, preferring first urls ≠ [] := by
    intro first
    rw [preferring]
    split
    · exact h
    · exact List.cons_ne_nil _ _
  cases mode with
  | share => exact hne _
  | split => exact hne _

theorem getD_inj {order : List String} (h : order.Nodup) (hj : j < order.length)
    (hk : k < order.length) (he : order.getD j "" = order.getD k "") : j = k := by
  rw [List.getD_eq_getElem _ _ hj, List.getD_eq_getElem _ _ hk] at he
  exact (h.getElem_inj_iff).1 he

variable {order : List String} {first s : Pool α} {past : List (Pool α × PoolEvent α)}

theorem Placed.url_inj (h : Placed chunks past s) (hl : Left order past s) (hd : order.Nodup)
    (hp : (j, i) ∈ past.filterMap failedAt) (hk : k < order.length)
    (he : order.getD j "" = order.getD k "") : j = k := by
  have hj := (List.getElem?_eq_some_iff.1 (h.stops _ hp)).1
  exact getD_inj hd (Nat.lt_of_lt_of_le hj hl.bound) hk he

/-- Two workers that failed a task have lost it. -/
theorem Placed.lost_of_two (h : Placed chunks past s) (hjk : j ≠ k)
    (hj : (j, i) ∈ past.filterMap failedAt) (hk : (k, i) ∈ past.filterMap failedAt)
    (hi : i < chunks.length) : i ∈ past.filterMap lostAt := by
  have hget : ∃ t, s.tasks[i]? = some t := by
    have htask := h.tasks i
    rw [List.getElem?_eq_getElem hi] at htask
    obtain ⟨t, ht, -⟩ := Option.map_eq_some_iff.1 htask
    exact ⟨t, ht⟩
  obtain ⟨t, ht⟩ := hget
  have htwo : 2 ≤ (past.filterMap failedAt).countP (·.2 = i) := by
    have hsub : [(j, i), (k, i)].Subperm ((past.filterMap failedAt).filter fun p => p.2 = i) := by
      apply List.subperm_of_subset
      · simpa using hjk
      · intro p hp
        rw [List.mem_filter]
        obtain rfl | hp := List.mem_cons.1 hp
        · exact ⟨hj, by simp⟩
        · rw [List.mem_singleton.1 hp]
          exact ⟨hk, by simp⟩
    rw [List.countP_eq_length_filter]
    exact hsub.length_le
  rw [← h.tries i t ht] at htwo
  obtain hle | ⟨-, hmem⟩ := h.spent i t ht
  · omega
  · exact hmem

/-- What is neither answered nor waited for is left. -/
theorem Placed.split (h : Placed chunks past s) (hrun : s.running = false) :
    (past.filterMap answeredAt ++ (past.filterMap lostAt ++ s.pending)).Perm
      (List.range chunks.length) := by
  rw [List.perm_iff_count]
  intro i
  have ho := h.once i
  have hnone : s.workers.count (.asking i) = 0 := by
    rw [List.count_eq_zero]
    intro hm
    obtain ⟨k, hk⟩ := List.mem_iff_getElem?.1 hm
    rw [running_iff.2 ⟨k, i, hk⟩] at hrun
    cases hrun
  rw [List.count_append, List.count_append, List.count_range]
  omega

theorem Kept.stopped_iff (h : Kept order chunks first past s) (horder : order ≠ [])
    (hend : s.Finished order) : s.stopped.isSome = true ↔ 0 < s.totalUnfinished := by
  rw [stopped]
  split
  · next hz =>
    rw [hz]
    simp
  · next hz =>
    refine ⟨fun _ => Nat.pos_of_ne_zero hz, fun _ => h.placed.error.2 ?_⟩
    intro hnone
    have hlost : past.filterMap lostAt = [] := by
      apply List.eq_nil_iff_forall_not_mem.2
      intro i hi
      obtain ⟨j, k, -, hj, -⟩ := h.placed.lost i hi
      rw [hnone] at hj
      cases hj
    have hpending : s.pending ≠ [] := by
      intro hp
      rw [totalUnfinished, h.placed.unfinished, hlost, hp] at hz
      exact hz rfl
    obtain hp | hlen := hend.2
    · exact hpending hp
    · have hpos := List.length_pos_iff.2 horder
      have hlt : 0 < s.workers.length := Nat.lt_of_lt_of_le hpos hlen
      have hget : s.workers[0]? = some s.workers[0] := List.getElem?_eq_getElem hlt
      cases hw : s.workers[0] with
      | asking i =>
        rw [hw] at hget
        have hr := running_iff.2 ⟨0, i, hget⟩
        rw [hend.1] at hr
        cases hr
      | failed =>
        rw [hw] at hget
        obtain ⟨i, hi⟩ := h.left.failed 0 hget
        rw [hnone] at hi
        cases hi
      | idle =>
        rw [hw] at hget
        exact hpending (h.left.found hnone ⟨0, hget⟩)

/-- Once no worker is left idle, every server has failed a request. -/
theorem Kept.all_failed (h : Kept order chunks first past s) (hend : s.Finished order)
    (hne : s.pending ≠ []) (hno : ∀ p ∈ past, ¬ Strands order p) :
    ∀ u ∈ order, ∃ j, (u, j) ∈ failures order past := by
  have hlen := hend.2.resolve_left hne
  intro u hu
  obtain ⟨k, hk, rfl⟩ := List.mem_iff_getElem.1 hu
  have hlt := Nat.lt_of_lt_of_le hk hlen
  have hget : s.workers[k]? = some s.workers[k] := List.getElem?_eq_getElem hlt
  cases hw : s.workers[k] with
  | asking i =>
    rw [hw] at hget
    have hr := running_iff.2 ⟨k, i, hget⟩
    rw [hend.1] at hr
    cases hr
  | failed =>
    rw [hw] at hget
    obtain ⟨i, hi⟩ := h.left.failed k hget
    exact ⟨i, List.mem_map.2 ⟨(k, i), hi, by rw [List.getD_eq_getElem _ _ hk]⟩⟩
  | idle =>
    rw [hw] at hget
    obtain hr | hr | ⟨p, hp, hs⟩ := h.left.stuck ⟨k, hget⟩ hne
    · rw [hend.1] at hr
      cases hr
    · omega
    · exact absurd hs (hno p hp)

theorem Kept.twice (h : Kept order chunks first past s) (i : Nat) :
    (sends first past).countP (·.2 = i) ≤ 2 := by
  by_cases hi : i < chunks.length
  · have htask := h.placed.tasks i
    rw [List.getElem?_eq_getElem hi] at htask
    obtain ⟨t, ht, -⟩ := Option.map_eq_some_iff.1 htask
    have hc := h.sent.count i t ht
    obtain hle | ⟨htwo, hmem⟩ := h.placed.spent i t ht
    · omega
    · have hpos : 0 < (past.filterMap lostAt).count i := List.count_pos_iff.2 hmem
      omega
  · have hzero : (sends first past).countP (·.2 = i) = 0 := by
      rw [List.countP_eq_zero]
      intro p hp hpi
      exact hi (of_decide_eq_true hpi ▸ (h.sent.bounds p hp).2)
    rw [hzero]
    exact Nat.zero_le 2

theorem Kept.apart (h : Kept order chunks first past s) (hd : order.Nodup) :
    ((sends first past).map fun p => (order.getD p.1 "", p.2)).Nodup := by
  apply List.Nodup.map_on _ h.sent.nodup
  intro p hp q hq he
  obtain ⟨hurl, htask⟩ := Prod.mk.inj he
  have hb : ∀ p ∈ sends first past, p.1 < order.length :=
    fun p hp => Nat.lt_of_lt_of_le (h.sent.bounds p hp).1 h.left.bound
  exact Prod.ext (getD_inj hd (hb p hp) (hb q hq) hurl) htask

theorem Kept.forCause (h : Kept order chunks first past s) (hd : order.Nodup)
    (horder : order ≠ []) (hend : s.Finished order) (hno : ∀ p ∈ past, ¬ Strands order p) :
    ForCause order chunks first past s where
  once := by
    refine ⟨past.filterMap answeredAt, past.filterMap lostAt ++ s.pending,
      h.placed.split hend.1, ?_, ?_, ?_⟩
    · intro f
      rw [h.placed.parts f]
    · rw [List.length_append, totalUnfinished, h.placed.unfinished]
    · intro i hi
      obtain hi | hi := List.mem_append.1 hi
      · obtain ⟨j, k, hjk, hj, hk⟩ := h.placed.lost i hi
        have hlt := (List.getElem?_eq_some_iff.1 (h.placed.stops _ hk)).1
        left
        refine ⟨order.getD j "", order.getD k "", ?_, List.mem_map.2 ⟨_, hj, rfl⟩,
          List.mem_map.2 ⟨_, hk, rfl⟩⟩
        intro he
        exact hjk (h.placed.url_inj h.left hd hj (Nat.lt_of_lt_of_le hlt h.left.bound) he)
      · exact .inr (h.all_failed hend (List.ne_nil_of_mem hi) hno)
  twice := h.twice
  apart := h.apart hd
  stopped := h.stopped_iff horder hend

theorem Kept.not_strands (h : Kept order chunks first past s) (hd : order.Nodup)
    (hf : ForCause order chunks first past s) : ∀ p ∈ past, ¬ Strands order p := by
  intro p hp hs
  obtain ⟨-, hlen, hne, k, hk⟩ := h.left.ended ⟨p, hp, hs⟩
  obtain ⟨done, left, hperm, -, hcount, hexcused⟩ := hf.once
  have hklt : k < order.length :=
    Nat.lt_of_lt_of_le (List.getElem?_eq_some_iff.1 hk).1 h.left.bound
  have hsubset : ∀ i ∈ left, i ∈ past.filterMap lostAt := by
    intro i hi
    have hin : i < chunks.length :=
      List.mem_range.1 (hperm.subset (List.mem_append_right _ hi))
    obtain ⟨u, v, huv, hu, hv⟩ | hall := hexcused i hi
    · obtain ⟨⟨a, b⟩, ha, hua⟩ := List.mem_map.1 hu
      obtain ⟨⟨c, d⟩, hc, hvc⟩ := List.mem_map.1 hv
      cases hua
      cases hvc
      apply h.placed.lost_of_two _ ha hc hin
      rintro rfl
      exact huv rfl
    · obtain ⟨j, hj⟩ := hall order[k] (List.getElem_mem hklt)
      obtain ⟨⟨a, b⟩, ha, hea⟩ := List.mem_map.1 hj
      have hurl : order.getD a "" = order.getD k "" := by
        rw [List.getD_eq_getElem _ _ hklt]
        exact (Prod.mk.inj hea).1
      obtain rfl := h.placed.url_inj h.left hd ha hklt hurl
      have hfailed := h.placed.stops _ ha
      rw [hk] at hfailed
      cases hfailed
  have hnodup : left.Nodup :=
    (List.nodup_append.1 (hperm.nodup_iff.2 List.nodup_range)).2.1
  have hle := (List.subperm_of_subset hnodup hsubset).length_le
  have hpos := List.length_pos_iff.2 hne
  rw [hcount, totalUnfinished, h.placed.unfinished] at hle
  omega

end Pool

/-- A finished pool gave up for cause unless its last worker failed while another was idle. -/
theorem pool_forCause {es : List (PoolEvent α)} (hurls : urls ≠ [])
    (hr : routes urls mode hookUrl toolUrl = r) (hdistinct : r.tools.Nodup)
    (hrun : Concurrent.run (Pool.step r.tools shown) (Pool.start r chunks) es = some s)
    (hend : s.Finished r.tools) :
    Pool.ForCause r.tools chunks (Pool.start r chunks)
        (Concurrent.steps (Pool.step r.tools shown) (Pool.start r chunks) es) s ↔
      ∀ p ∈ Concurrent.steps (Pool.step r.tools shown) (Pool.start r chunks) es,
        ¬ Pool.Strands r.tools p := by
  have hkept := Pool.kept_run hrun
  constructor
  · exact hkept.not_strands hdistinct
  · apply hkept.forCause hdistinct _ hend
    rw [← hr]
    exact Pool.routes_tools_ne_nil hurls mode hookUrl toolUrl

/-- Two servers that share a call. -/
def sharedRoutes : Routes := routes ["a", "b"] .share "" ""

/-- A file of two chunks. -/
def twoChunks : List (Nat × Chunk) := [(0, ⟨1, 50, 1000⟩), (0, ⟨51, 90, 800⟩)]

def twoAnswers : List (PoolEvent Unit) := [.answer 0 ⟨(), 5, none⟩, .answer 1 ⟨(), 9, none⟩]

theorem pool_forCause_twoAnswers : ∃ s,
    Concurrent.run (Pool.step sharedRoutes.tools fun _ => "f") (Pool.start sharedRoutes twoChunks)
      twoAnswers = some s ∧
    (Pool.ForCause sharedRoutes.tools twoChunks (Pool.start sharedRoutes twoChunks)
        (Concurrent.steps (Pool.step sharedRoutes.tools fun _ => "f")
          (Pool.start sharedRoutes twoChunks) twoAnswers) s ↔
      ∀ p ∈ Concurrent.steps (Pool.step sharedRoutes.tools fun _ => "f")
          (Pool.start sharedRoutes twoChunks) twoAnswers, ¬ Pool.Strands sharedRoutes.tools p) :=
  ⟨_, rfl, pool_forCause (List.cons_ne_nil "a" ["b"]) (rfl : routes _ .share "" "" = _)
    (by decide) rfl ⟨rfl, .inl rfl⟩⟩

/-- The first server answers and finds no other chunk; then the second fails its own. -/
def idleThenFailure : List (PoolEvent Unit) := [.answer 0 ⟨(), 5, none⟩, .failure 1 none]

/-- The second chunk is left, though only one server has failed it and the other none. -/
theorem pool_gives_up : ∃ s,
    Concurrent.run (Pool.step sharedRoutes.tools fun _ => "f") (Pool.start sharedRoutes twoChunks)
      idleThenFailure = some s ∧ s.Finished sharedRoutes.tools ∧ s.totalUnfinished = 1 ∧
    ¬ Pool.ForCause sharedRoutes.tools twoChunks (Pool.start sharedRoutes twoChunks)
        (Concurrent.steps (Pool.step sharedRoutes.tools fun _ => "f")
          (Pool.start sharedRoutes twoChunks) idleThenFailure) s := by
  refine ⟨_, rfl, ⟨rfl, .inr (Nat.le_refl 2)⟩, rfl, ?_⟩
  intro hf
  apply (Pool.kept_run rfl).not_strands (by decide) hf
    _ (Concurrent.mem_steps_cons rfl (Concurrent.mem_steps_head _ _ _))
  refine ⟨1, ⟨0, ⟨51, 90, 800⟩, 0⟩, rfl, rfl, ?_, Nat.le_refl 2, .inr rfl, 0, rfl⟩
  intro j i' hj
  match j with
  | 0 => cases hj
  | 1 => rfl
  | j + 2 => cases hj

end Jev

end LocalMind
