import LocalMind.Proxy.ContextCache

namespace LocalMind.ContextCache
open Concurrent Json
set_option autoImplicit true

/-! What one step does. -/

/-- A step of one call, and the state it leaves. -/
inductive Moved (s : State) (c : Nat) (task : Task) : Event → State → Prop where
  | read : task.stage = .entering → s.writer = false →
    Moved s c task (.step c) ({ s with readers := s.readers + 1 }.put c task .reading)
  | lock : task.stage = .entering → s.free = true →
    Moved s c task (.step c) ({ s with writer := true }.put c task .removing)
  | giveUp : task.stage = .entering → Moved s c task (.step c) (s.put c task (.evicted false))
  | look : task.stage = .reading →
    Moved s c task (.step c) ({ s with readers := s.readers - 1 }.put c task (s.look task))
  | write : task.stage = .storing value → s.free = true →
    Moved s c task (.step c) ({ s with writer := true }.put c task (.writing value))
  | skip : task.stage = .storing value →
    Moved s c task (.step c) (s.put c task (.skipping value))
  | wrote : task.stage = .writing value →
    Moved s c task (.step c) ({ s with
      writer := false
      cache := Function.update s.cache task.url (some ⟨value, s.now⟩) }.put c task
        (.returned (some value)))
  | skipped : task.stage = .skipping value →
    Moved s c task (.step c)
      ({ s with staleSkips := s.staleSkips + 1 }.put c task (.returned (some value)))
  | removed : task.stage = .removing →
    Moved s c task (.step c) ({ s with
      writer := false
      cache := Function.update s.cache task.url none
      evictions := if (s.cache task.url).isSome then s.evictions + 1 else s.evictions }.put c task
        (.evicted (s.cache task.url).isSome))
  | answered : task.stage = .props ∨ task.stage = .models → task.told body = some value →
    Moved s c task (.answer c body) (s.put c task (.storing value))
  | asked : task.stage = .props → Moved s c task (.answer c body) (s.put c task .models)
  | unanswered : task.stage = .props ∨ task.stage = .models →
    Moved s c task (.answer c body) (s.put c task (.returned none))
  | cancelled : task.stage = .entering ∨ task.stage = .props ∨ task.stage = .models →
    Moved s c task (.cancel c) (s.put c task .cancelled)

theorem advance_moved {s s' : State} {task : Task} (h : s.advance c task = some s') :
    Moved s c task (.step c) s' := by
  rw [State.advance] at h
  split at h
  · rename_i hstage
    split at h
    · split at h
      · cases h
        exact .lock hstage (by assumption)
      · cases h
        exact .giveUp hstage
    · split at h
      · cases h
      · cases h
        exact .read hstage (Bool.eq_false_of_not_eq_true (by assumption))
  · cases h
    exact .look (by assumption)
  · rename_i value hstage
    split at h
    · cases h
      exact .write hstage (by assumption)
    · cases h
      exact .skip hstage
  · rename_i value hstage
    cases h
    exact .wrote hstage
  · rename_i value hstage
    cases h
    exact .skipped hstage
  · rename_i hstage
    cases h
    exact .removed hstage
  · cases h

theorem receive_moved {s s' : State} {task : Task} (h : s.receive c task body = some s') :
    Moved s c task (.answer c body) s' := by
  rw [State.receive] at h
  split at h
  · rename_i hstage
    split at h
    · rename_i value htold
      cases h
      exact .answered (Or.inl hstage) htold
    · split at h
      · cases h
        exact .asked hstage
      · cases h
        exact .unanswered (Or.inl hstage)
  · rename_i hstage
    split at h
    · rename_i value htold
      cases h
      exact .answered (Or.inr hstage) htold
    · cases h
      exact .unanswered (Or.inr hstage)
  · cases h

theorem drop_moved {s s' : State} {task : Task} (h : s.drop c task = some s') :
    Moved s c task (.cancel c) s' := by
  rw [State.drop] at h
  split at h
  · cases h
  · rename_i hstage _
    cases h
    exact .cancelled (Or.inl hstage)
  · rename_i hstage
    cases h
    exact .cancelled (Or.inr (Or.inl hstage))
  · rename_i hstage
    cases h
    exact .cancelled (Or.inr (Or.inr hstage))
  · cases h

/-- Time goes on, a call comes, or one call moves. -/
inductive Stepped (s : State) : Event → State → Prop where
  | tick : Stepped s (.tick elapsed) { s with now := s.now + elapsed }
  | call : Stepped s (.call url kind) { s with tasks := s.tasks ++ [⟨url, kind, .entering⟩] }
  | move : s.tasks[c]? = some task → Moved s c task e s' → Stepped s e s'

theorem step_stepped {s s' : State} (h : s.step e = some s') : Stepped s e s' := by
  cases e with
  | tick elapsed =>
    cases h
    exact .tick
  | call url kind =>
    cases h
    exact .call
  | step c =>
    obtain ⟨task, htask, h⟩ := Option.bind_eq_some_iff.1 h
    exact .move htask (advance_moved h)
  | answer c body =>
    obtain ⟨task, htask, h⟩ := Option.bind_eq_some_iff.1 h
    exact .move htask (receive_moved h)
  | cancel c =>
    obtain ⟨task, htask, h⟩ := Option.bind_eq_some_iff.1 h
    exact .move htask (drop_moved h)

/-! The lock. -/

inductive Guard where
  | read
  | write
  deriving DecidableEq

def Task.guards (task : Task) : List Guard :=
  match task.stage with
  | .reading => [.read]
  | .writing _ | .removing => [.write]
  | _ => []

/-- The lock counts the guards, and a writer is alone. -/
structure Locked (s : State) : Prop where
  readers : s.readers = holdings Task.guards s.tasks .read
  writer : s.writer.toNat = holdings Task.guards s.tasks .write
  alone : s.writer = true → s.readers = 0

theorem Locked.put {s s' : State} {task : Task} (h : Locked s) (htask : s.tasks[c]? = some task)
    (htasks : s'.tasks = s.tasks.set c task')
    (hreaders : s'.readers + task.guards.count .read = s.readers + task'.guards.count .read)
    (hwriter : s'.writer.toNat + task.guards.count .write =
      s.writer.toNat + task'.guards.count .write)
    (halone : s'.writer = true → s'.readers = 0) : Locked s' := by
  have hread := holdings_set Task.guards htask task' .read
  have hwrite := holdings_set Task.guards htask task' .write
  have := h.readers
  have := h.writer
  constructor
  · rw [htasks]
    omega
  · rw [htasks]
    omega
  · exact halone

theorem look_guards (s : State) (task : Task) :
    Task.guards { task with stage := s.look task } = [] := by
  rw [State.look]
  split
  · split
    · split <;> rfl
    · rfl
  · split
    · rfl
    · split
      · rfl
      · split <;> rfl
  · rfl

theorem free_iff {s : State} : s.free = true ↔ s.readers = 0 ∧ s.writer = false := by
  simp [State.free]

/-- A call that holds no guard leaves the lock to the others. -/
theorem Locked.keep {s s' : State} {task : Task} (h : Locked s) (htask : s.tasks[c]? = some task)
    (htasks : s'.tasks = s.tasks.set c task') (hnone : task.guards = [])
    (hnone' : task'.guards = []) (hreaders : s'.readers = s.readers)
    (hwriter : s'.writer = s.writer) : Locked s' := by
  refine h.put htask htasks ?_ ?_ ?_
  · rw [hreaders, hnone, hnone']
  · rw [hwriter, hnone, hnone']
  · rw [hreaders, hwriter]
    exact h.alone

theorem Locked.writes {s : State} {c : Nat} {task : Task} (h : Locked s)
    (htask : s.tasks[c]? = some task) (hguards : task.guards = [.write]) : s.writer = true := by
  have hwrite := count_le_holdings Task.guards (List.mem_of_getElem? htask) .write
  rw [← h.writer, hguards] at hwrite
  cases hwriter : s.writer with
  | true => rfl
  | false => simp [hwriter] at hwrite

theorem Locked.move {s s' : State} {task : Task} (h : Locked s) (htask : s.tasks[c]? = some task)
    (hmove : Moved s c task e s') : Locked s' := by
  cases hmove with
  | read hstage hno =>
    refine h.put htask rfl ?_ ?_ fun hw => ?_
    · simp [State.put, Task.guards, hstage]
    · simp [State.put, Task.guards, hstage]
    · exact absurd hno (by simp [State.put] at hw; simp [hw])
  | lock hstage hfree =>
    obtain ⟨hnone, hno⟩ := free_iff.1 hfree
    refine h.put htask rfl ?_ ?_ fun _ => hnone
    · simp [State.put, Task.guards, hstage]
    · simp [State.put, Task.guards, hstage, hno]
  | giveUp hstage => exact h.keep htask rfl (by rw [Task.guards, hstage]) rfl rfl rfl
  | look hstage =>
    have hread := count_le_holdings Task.guards (List.mem_of_getElem? htask) .read
    rw [← h.readers] at hread
    have hone : 1 ≤ s.readers := by simpa [Task.guards, hstage] using hread
    refine h.put htask rfl ?_ ?_ fun hw => ?_
    · rw [look_guards]
      simp [State.put, Task.guards, hstage]
      omega
    · rw [look_guards]
      simp [State.put, Task.guards, hstage]
    · have := h.alone hw
      omega
  | write hstage hfree =>
    obtain ⟨hnone, hno⟩ := free_iff.1 hfree
    refine h.put htask rfl ?_ ?_ fun _ => hnone
    · simp [State.put, Task.guards, hstage]
    · simp [State.put, Task.guards, hstage, hno]
  | skip hstage => exact h.keep htask rfl (by rw [Task.guards, hstage]) rfl rfl rfl
  | wrote hstage =>
    have hw := h.writes htask (by simp [Task.guards, hstage])
    refine h.put htask rfl ?_ ?_ fun hno => by cases hno
    · simp [State.put, Task.guards, hstage]
    · simp [State.put, Task.guards, hstage, hw]
  | skipped hstage => exact h.keep htask rfl (by rw [Task.guards, hstage]) rfl rfl rfl
  | removed hstage =>
    have hw := h.writes htask (by simp [Task.guards, hstage])
    refine h.put htask rfl ?_ ?_ fun hno => by cases hno
    · simp [State.put, Task.guards, hstage]
    · simp [State.put, Task.guards, hstage, hw]
  | answered hstage htold =>
    have hnone : task.guards = [] := by
      obtain hstage | hstage := hstage <;> rw [Task.guards, hstage]
    exact h.keep htask rfl hnone rfl rfl rfl
  | asked hstage => exact h.keep htask rfl (by rw [Task.guards, hstage]) rfl rfl rfl
  | unanswered hstage =>
    have hnone : task.guards = [] := by
      obtain hstage | hstage := hstage <;> rw [Task.guards, hstage]
    exact h.keep htask rfl hnone rfl rfl rfl
  | cancelled hstage =>
    have hnone : task.guards = [] := by
      obtain hstage | hstage | hstage := hstage <;> rw [Task.guards, hstage]
    exact h.keep htask rfl hnone rfl rfl rfl

theorem Locked.step {s s' : State} (h : Locked s) (hs : s.step e = some s') : Locked s' := by
  cases step_stepped hs with
  | tick => exact ⟨h.readers, h.writer, h.alone⟩
  | call =>
    refine ⟨?_, ?_, h.alone⟩
    · rw [holdings_concat]
      exact h.readers
    · rw [holdings_concat]
      exact h.writer
  | move htask hmove => exact h.move htask hmove

theorem run_locked (hrun : run State.step .boot es = some t) : Locked t :=
  run_keeps ⟨rfl, rfl, fun h => by cases h⟩ hrun fun _ _ _ _ h hs => h.step hs

/-- A probe that has come as far as the write guard, and a fetch. -/
def contention : List Event :=
  [.call "http://a" (.preflight false (some 4096)), .step 0, .step 0, .step 0,
    .call "http://a" (.fetch none)]

def contended : State :=
  ⟨0, fun _ => none, 0, true, 0, 0,
    [⟨"http://a", .preflight false (some 4096), .writing 4096⟩, ⟨"http://a", .fetch none, .entering⟩]⟩

theorem Locked.exists_writer {s : State} (h : Locked s) (hwriter : s.writer = true) :
    ∃ d : Nat, ∃ holder : Task, s.tasks[d]? = some holder ∧
      ((∃ value, holder.stage = .writing value) ∨ holder.stage = .removing) := by
  have hpos : 0 < holdings Task.guards s.tasks .write := by
    rw [← h.writer, hwriter]
    decide
  obtain ⟨holder, hmem, hguard⟩ := exists_of_holdings_pos Task.guards hpos
  obtain ⟨d, hholder⟩ := List.mem_iff_getElem?.1 hmem
  refine ⟨d, holder, hholder, ?_⟩
  rw [Task.guards] at hguard
  split at hguard
  · cases List.mem_singleton.1 hguard
  · exact Or.inl ⟨_, by assumption⟩
  · exact Or.inr (by assumption)
  · cases hguard

theorem enters_unless_writer {s : State} {task : Task} (htask : s.tasks[c]? = some task)
    (hwaits : task.stage = .entering) (hwriter : s.writer = false) :
    ∃ s', s.step (.step c) = some s' := by
  rw [State.step, htask, Option.bind_some, State.advance, hwaits]
  simp only [hwriter]
  split
  · split
    · exact ⟨_, rfl⟩
    · exact ⟨_, rfl⟩
  · exact ⟨_, rfl⟩

/-- A call is kept from the cache only while one other call writes, and not any more once that
call has taken its next step. -/
theorem blocked_one_step (hrun : run State.step .boot es = some t)
    (htask : t.tasks[c]? = some task) (hwaits : task.stage = .entering)
    (hblocked : t.step (.step c) = none) :
    ∃ d t' t'', t.step (.step d) = some t' ∧ t'.step (.step c) = some t'' := by
  have hwriter : t.writer = true := by
    by_contra hno
    obtain ⟨s', hs'⟩ := enters_unless_writer htask hwaits (Bool.eq_false_of_not_eq_true hno)
    rw [hblocked] at hs'
    cases hs'
  obtain ⟨d, holder, hholder, hwrites⟩ := (run_locked hrun).exists_writer hwriter
  have hne : d ≠ c := by
    intro heq
    rw [heq, htask] at hholder
    cases hholder
    simp [hwaits] at hwrites
  have hkept : ∀ other : Task, (t.tasks.set d other)[c]? = some task :=
    fun other => by rw [List.getElem?_set_ne hne, htask]
  have hleaves : ∃ t', t.step (.step d) = some t' ∧ t'.writer = false ∧
      t'.tasks[c]? = some task := by
    rw [State.step, hholder, Option.bind_some, State.advance]
    obtain ⟨value, hstage⟩ | hstage := hwrites
    · rw [hstage]
      exact ⟨_, rfl, rfl, hkept _⟩
    · rw [hstage]
      exact ⟨_, rfl, rfl, hkept _⟩
  obtain ⟨t', hd, hfree, htask'⟩ := hleaves
  obtain ⟨t'', hc⟩ := enters_unless_writer htask' hwaits hfree
  exact ⟨d, t', t'', hd, hc⟩

/-- A fetch that comes while a probe's size is written. -/
theorem blocked_one_step_fetch :
    ∃ d t' t'', State.step contended (.step d) = some t' ∧ t'.step (.step 1) = some t'' := by
  have hrun : run State.step .boot contention = some contended := rfl
  exact blocked_one_step hrun (c := 1) rfl rfl rfl

/-! Where a size comes from. -/

/-- A call was told a size by its backend, or came with the one that its own probe had found. -/
inductive Learned (past : List (State × Event)) (c value : Nat) : Prop where
  | told : (u, .answer c body) ∈ past → u.tasks[c]? = some task → task.told body = some value →
    Learned past c value
  | found : (u, .step c) ∈ past → u.tasks[c]? = some task →
    task.kind = .preflight false (some value) → Learned past c value

/-- The step writes a backend's entry or takes it away. -/
def Touches (url : String) (p : State × Event) : Prop :=
  ∃ c task, p.2 = .step c ∧ p.1.tasks[c]? = some task ∧ task.url = url ∧
    ((∃ value, task.stage = .writing value) ∨ task.stage = .removing)

/-- A call stored the size at this instant; nobody has touched the entry since. -/
def Stored (past : List (State × Event)) (url : String) (entry : CacheEntry) : Prop :=
  ∃ before w d after task, past = before ++ (w, .step d) :: after ∧ w.now = entry.fetchedAt ∧
    w.tasks[d]? = some task ∧ task.url = url ∧ task.stage = .writing entry.value ∧
    Learned before d entry.value ∧ ∀ p ∈ after, ¬ Touches url p

/-- A call has read the entry of its backend; a fetch only reads one that is fresh. -/
def Read (past : List (State × Event)) (c : Nat) (url : String) (kind : Kind) (value : Nat) : Prop :=
  ∃ before u after entry, past = before ++ (u, .step c) :: after ∧ Stored before url entry ∧
    entry.value = value ∧
    ∀ modelName, kind = .fetch modelName → u.now - entry.fetchedAt < CONTEXT_CACHE_TTL

/-- What a call is about to store or returns is its own or was read. -/
def Task.Justified (past : List (State × Event)) (c : Nat) (task : Task) : Prop :=
  match task.stage with
  | .storing value | .writing value | .skipping value => Learned past c value
  | .returned (some value) => Learned past c value ∨ Read past c task.url task.kind value
  | _ => True

structure Recorded (past : List (State × Event)) (s : State) : Prop where
  stored : ∀ url entry, s.cache url = some entry → Stored past url entry
  justified : ∀ c (task : Task), s.tasks[c]? = some task → task.Justified past c

theorem Learned.concat (h : Learned past c value) : Learned (past ++ [p]) c value := by
  cases h with
  | told hmem htask htold => exact .told (List.mem_append_left _ hmem) htask htold
  | found hmem htask hkind => exact .found (List.mem_append_left _ hmem) htask hkind

theorem Stored.concat (h : Stored past url entry) (hno : ¬ Touches url p) :
    Stored (past ++ [p]) url entry := by
  obtain ⟨before, w, d, after, task, rfl, hnow, htask, hurl, hstage, hlearned, hafter⟩ := h
  refine ⟨before, w, d, after ++ [p], task, by simp, hnow, htask, hurl, hstage, hlearned, ?_⟩
  intro q hq
  obtain hq | hq := List.mem_append.1 hq
  · exact hafter q hq
  · rw [List.mem_singleton.1 hq]
    exact hno

theorem Read.concat (h : Read past c url kind value) : Read (past ++ [p]) c url kind value := by
  obtain ⟨before, u, after, entry, rfl, hstored, hvalue, hfresh⟩ := h
  exact ⟨before, u, after ++ [p], entry, by simp, hstored, hvalue, hfresh⟩

theorem Task.Justified.concat {task : Task} (h : task.Justified past c) :
    task.Justified (past ++ [p]) c := by
  rw [Task.Justified] at h ⊢
  split at h
  · exact h.concat
  · exact h.concat
  · exact h.concat
  · obtain h | h := h
    · exact Or.inl h.concat
    · exact Or.inr h.concat
  · trivial

/-- What a call reads of the cache was stored, and fresh. -/
theorem look_justified {past : List (State × Event)} {s : State} {task : Task}
    (hstored : ∀ url entry, s.cache url = some entry → Stored past url entry)
    (htask : s.tasks[c]? = some task) :
    Task.Justified (past ++ [(s, .step c)]) c { task with stage := s.look task } := by
  rw [State.look]
  split
  · rename_i modelName hkind
    split
    · rename_i entry hentry
      split
      · rename_i hfresh
        refine Or.inr ⟨past, s, [], entry, rfl, hstored _ _ hentry, rfl, fun _ _ => ?_⟩
        exact of_decide_eq_true hfresh
      · trivial
    · trivial
  · rename_i isLlamaCpp maxModelLen hkind
    split
    · rename_i entry hentry
      refine Or.inr ⟨past, s, [], entry, rfl, hstored _ _ hentry, rfl, fun m hm => ?_⟩
      rw [hkind] at hm
      cases hm
    · split
      · trivial
      · rename_i hno
        split
        · rename_i ctx hctx
          refine Learned.found (List.mem_append_right _ List.mem_cons_self) htask ?_
          rw [hkind, Bool.eq_false_of_not_eq_true hno]
        · trivial
  · trivial

theorem put_justified {past : List (State × Event)} {s : State} {tasks : List Task}
    {task : Task} (h : ∀ d (other : Task), tasks[d]? = some other → other.Justified past d)
    (hnew : Task.Justified (past ++ [(s, e)]) c task) :
    ∀ d (other : Task), (tasks.set c task)[d]? = some other →
      other.Justified (past ++ [(s, e)]) d := by
  intro d other hd
  by_cases hcd : c = d
  · subst hcd
    obtain ⟨-, rfl⟩ : c < tasks.length ∧ task = other := by simpa [List.getElem?_set] using hd
    exact hnew
  · rw [List.getElem?_set_ne hcd] at hd
    exact (h d other hd).concat

/-- A step that keeps the cache keeps what is known of its entries. -/
theorem stored_kept {past : List (State × Event)} {s : State}
    (h : ∀ url entry, s.cache url = some entry → Stored past url entry)
    (hno : ∀ url, ¬ Touches url (s, e)) :
    ∀ url entry, s.cache url = some entry → Stored (past ++ [(s, e)]) url entry :=
  fun url entry hentry => (h url entry hentry).concat (hno url)

theorem not_touches {s : State} {task : Task} (htask : s.tasks[c]? = some task)
    (hwrite : ∀ value, task.stage ≠ .writing value) (hremove : task.stage ≠ .removing)
    (url : String) : ¬ Touches url (s, .step c) := by
  rintro ⟨d, task', hd, htask', -, ⟨value, hstage⟩ | hstage⟩
  · cases hd
    rw [htask] at htask'
    cases htask'
    exact hwrite value hstage
  · cases hd
    rw [htask] at htask'
    cases htask'
    exact hremove hstage

theorem not_touches_of_ne {s : State} {e : Event} (he : ∀ c, e ≠ .step c) (url : String) :
    ¬ Touches url (s, e) := by
  rintro ⟨c, task, hc, -⟩
  exact he c hc

/-- The entry that a step replaces or takes away is that of its own backend. -/
theorem not_touches_other {s : State} {task : Task} (htask : s.tasks[c]? = some task)
    (hurl : url ≠ task.url) : ¬ Touches url (s, .step c) := by
  rintro ⟨d, task', hd, htask', hurl', -⟩
  cases hd
  rw [htask] at htask'
  cases htask'
  exact hurl hurl'.symm

/-- What a step puts in the place of an entry is all that it changes. -/
theorem stored_set {past : List (State × Event)} {s : State} {c : Nat} {task : Task}
    (h : ∀ url entry, s.cache url = some entry → Stored past url entry)
    (htask : s.tasks[c]? = some task) {held : Option CacheEntry}
    (hnew : ∀ entry, held = some entry → Stored (past ++ [(s, .step c)]) task.url entry) :
    ∀ url entry, Function.update s.cache task.url held url = some entry →
      Stored (past ++ [(s, .step c)]) url entry := by
  intro url entry hentry
  by_cases hurl : url = task.url
  · subst hurl
    rw [Function.update_self] at hentry
    exact hnew entry hentry
  · rw [Function.update_of_ne hurl] at hentry
    exact (h url entry hentry).concat (not_touches_other htask hurl)

/-- A step that keeps the cache records what its own call has come to know. -/
theorem Recorded.keep {s s' : State} {task : Task} (h : Recorded past s)
    (hcache : s'.cache = s.cache) (htasks : s'.tasks = s.tasks.set c task)
    (hno : ∀ url, ¬ Touches url (s, e)) (hown : task.Justified (past ++ [(s, e)]) c) :
    Recorded (past ++ [(s, e)]) s' := by
  refine ⟨fun url entry hentry => ?_, ?_⟩
  · rw [hcache] at hentry
    exact stored_kept h.stored hno url entry hentry
  · rw [htasks]
    exact put_justified h.justified hown

theorem Recorded.move {s s' : State} {task : Task} (h : Recorded past s)
    (htask : s.tasks[c]? = some task) (hmove : Moved s c task e s') :
    Recorded (past ++ [(s, e)]) s' := by
  have hown := h.justified c task htask
  cases hmove with
  | read hstage hno =>
    exact h.keep rfl rfl (not_touches htask (by simp [hstage]) (by simp [hstage])) trivial
  | lock hstage hfree =>
    exact h.keep rfl rfl (not_touches htask (by simp [hstage]) (by simp [hstage])) trivial
  | giveUp hstage =>
    exact h.keep rfl rfl (not_touches htask (by simp [hstage]) (by simp [hstage])) trivial
  | look hstage =>
    exact h.keep rfl rfl (not_touches htask (by simp [hstage]) (by simp [hstage]))
      (look_justified h.stored htask)
  | write hstage hfree =>
    rw [Task.Justified, hstage] at hown
    exact h.keep rfl rfl (not_touches htask (by simp [hstage]) (by simp [hstage])) hown.concat
  | skip hstage =>
    rw [Task.Justified, hstage] at hown
    exact h.keep rfl rfl (not_touches htask (by simp [hstage]) (by simp [hstage])) hown.concat
  | skipped hstage =>
    rw [Task.Justified, hstage] at hown
    exact h.keep rfl rfl (not_touches htask (by simp [hstage]) (by simp [hstage]))
      (Or.inl hown.concat)
  | @wrote value hstage =>
    rw [Task.Justified, hstage] at hown
    refine ⟨stored_set h.stored htask ?_, put_justified h.justified (Or.inl hown.concat)⟩
    rintro entry ⟨⟩
    exact ⟨past, s, c, [], task, rfl, rfl, htask, rfl, hstage, hown, fun p hp => by cases hp⟩
  | removed hstage =>
    exact ⟨stored_set h.stored htask (by rintro entry ⟨⟩), put_justified h.justified trivial⟩
  | answered hstage htold =>
    refine h.keep rfl rfl (not_touches_of_ne (by simp)) ?_
    exact Learned.told (List.mem_append_right _ List.mem_cons_self) htask htold
  | asked hstage => exact h.keep rfl rfl (not_touches_of_ne (by simp)) trivial
  | unanswered hstage => exact h.keep rfl rfl (not_touches_of_ne (by simp)) trivial
  | cancelled hstage => exact h.keep rfl rfl (not_touches_of_ne (by simp)) trivial

theorem Recorded.step {s s' : State} (h : Recorded past s) (hs : s.step e = some s') :
    Recorded (past ++ [(s, e)]) s' := by
  cases step_stepped hs with
  | tick =>
    exact ⟨stored_kept h.stored (not_touches_of_ne (by simp)),
      fun c task htask => (h.justified c task htask).concat⟩
  | call =>
    refine ⟨stored_kept h.stored (not_touches_of_ne (by simp)), fun c task htask => ?_⟩
    obtain hc | hc := Nat.lt_or_ge c s.tasks.length
    · rw [List.getElem?_append_left hc] at htask
      exact (h.justified c task htask).concat
    · rw [List.getElem?_append_right hc] at htask
      have hnew := List.mem_singleton.1 (List.mem_of_getElem? htask)
      rw [hnew]
      trivial
  | move htask hmove => exact h.move htask hmove

end LocalMind.ContextCache
