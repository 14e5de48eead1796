import LocalMind.Concurrent.Run
import LocalMind.Text.Str
import Mathlib.Logic.Function.Basic

namespace LocalMind.PromptCache
open Concurrent
set_option autoImplicit true

/-! One prompt file's cache, under any number of overlapping refreshes and edits of the file. -/

abbrev SystemTime := Nat

structure PromptFile where
  mtime : SystemTime
  text : List Char
deriving DecidableEq

/-- The two values stand under locks of their own. -/
structure PromptFileCache where
  text : List Char
  mtime : Option SystemTime
deriving DecidableEq

inductive Refresh
  | reloaded (text : List Char) (mtime : Option SystemTime)
  | unchanged
  | empty
  | failed
deriving DecidableEq

/-- A refresh between two of its steps. -/
inductive Phase
  | started
  | stated (current : Option SystemTime)
  | reading (mtime : Option SystemTime)
  | storing (text : List Char) (mtime : Option SystemTime)
  | stamping (text : List Char) (mtime : Option SystemTime)
  | ended (result : Refresh)
deriving DecidableEq

structure State where
  file : PromptFile
  cache : PromptFileCache
  phase : Nat → Option Phase

inductive Event
  | modify (mtime : SystemTime) (text : List Char)
  | start (r : Nat)
  | stat (r : Nat)
  | statFails (r : Nat)
  | compare (r : Nat)
  | readFile (r : Nat)
  | readFails (r : Nat)
  | writeText (r : Nat)
  | writeMtime (r : Nat)
deriving DecidableEq

/-- `text.trim().is_empty()` -/
def isBlank (text : List Char) : Bool := (Text.trim text).isEmpty

namespace State

def set (s : State) (r : Nat) (phase : Phase) : State :=
  { s with phase := Function.update s.phase r (some phase) }

/-- Only a time that differs from the cached one, or an unknown one, leads to a read. -/
def compared (s : State) : Option SystemTime → Phase
  | some current =>
    if s.cache.mtime = some current then .ended .unchanged else .reading (some current)
  | none => .reading none

/-- Edits move the time of the file forward and leave it with a text that is not blank. -/
def step (s : State) : Event → Option State
  | .modify mtime text =>
    if s.file.mtime < mtime ∧ isBlank text = false then
      some { s with file := ⟨mtime, text⟩ }
    else
      none
  | .start r => if s.phase r = none then some (s.set r .started) else none
  | .stat r =>
    if s.phase r = some .started then some (s.set r (.stated (some s.file.mtime))) else none
  | .statFails r => if s.phase r = some .started then some (s.set r (.ended .failed)) else none
  | .compare r =>
    match s.phase r with
    | some (.stated current) => some (s.set r (s.compared current))
    | _ => none
  | .readFile r =>
    match s.phase r with
    | some (.reading mtime) =>
      some (s.set r (if isBlank s.file.text then .ended .empty else .storing s.file.text mtime))
    | _ => none
  | .readFails r =>
    match s.phase r with
    | some (.reading _) => some (s.set r (.ended .failed))
    | _ => none
  | .writeText r =>
    match s.phase r with
    | some (.storing text mtime) =>
      some { s.set r (.stamping text mtime) with cache := { s.cache with text } }
    | _ => none
  | .writeMtime r =>
    match s.phase r with
    | some (.stamping text mtime) =>
      some { s.set r (.ended (.reloaded text mtime)) with cache := { s.cache with mtime } }
    | _ => none

/-- Every refresh that was started has ended. -/
def Quiet (s : State) : Prop := ∀ r phase, s.phase r = some phase → ∃ result, phase = .ended result

/-- The file's time is in the cache, or a refresh is about to put it there. -/
def Marked (s : State) : Prop :=
  s.cache.mtime = some s.file.mtime ∨
    ∃ r text, s.phase r = some (.stamping text (some s.file.mtime))

/-- No refresh puts an older text in the cache beside the time of the file. -/
def Careful (s : State) : Event → Prop
  | .writeText r => ∀ text mtime, s.phase r = some (.storing text mtime) →
      text ≠ s.file.text → ¬ s.Marked
  | _ => True

/-- The steps of one refresh, none of which fails. -/
def Alone (r : Nat) (e : Event) : Prop :=
  e ∈ [.start r, .stat r, .compare r, .readFile r, .writeText r, .writeMtime r]

/-- The cached time is the file's only beside the file's text, and once no refresh is under way
the next one, if the file stays, ends with the file's text in the cache. -/
structure NeverOutdated (s : State) : Prop where
  pair : s.cache.mtime = some s.file.mtime → s.cache.text = s.file.text
  refreshes : s.Quiet → ∀ r es t, s.phase r = none → (∀ e ∈ es, Alone r e) →
    run step s es = some t → t.Quiet → es ≠ [] → t.cache.text = s.file.text
  completes : s.Quiet → ∀ r, s.phase r = none →
    ∃ es t, (∀ e ∈ es, Alone r e) ∧ es ≠ [] ∧ run step s es = some t ∧ t.Quiet

/-- The cache as it is made, before any refresh. -/
structure Fresh (s : State) : Prop where
  none_begun : ∀ r, s.phase r = none
  written : isBlank s.file.text = false
  past : ∀ mtime, s.cache.mtime = some mtime → mtime ≤ s.file.mtime
  pair : s.cache.mtime = some s.file.mtime → s.cache.text = s.file.text

end State

/-- The time that a refresh saw. -/
def Phase.seen : Phase → Option SystemTime
  | stated current => current
  | reading mtime => mtime
  | storing _ mtime => mtime
  | stamping _ mtime => mtime
  | _ => none

/-- The text that a refresh has read. -/
def Phase.held : Phase → Option (List Char)
  | storing text _ => some text
  | stamping text _ => some text
  | _ => none

namespace State
variable {phase : Phase} {s t u : State}

/-- What a phase keeps: a time that was the file's, and with the file's own time its text. -/
structure Current (s : State) (phase : Phase) : Prop where
  past : ∀ mtime, phase.seen = some mtime → mtime ≤ s.file.mtime
  held : ∀ text, phase.seen = some s.file.mtime → phase.held = some text → text = s.file.text
  stamping : ∀ text, phase = .stamping text (some s.file.mtime) → s.cache.text = s.file.text

structure Sound (s : State) : Prop where
  written : isBlank s.file.text = false
  past : ∀ mtime, s.cache.mtime = some mtime → mtime ≤ s.file.mtime
  pair : s.cache.mtime = some s.file.mtime → s.cache.text = s.file.text
  phases : ∀ r phase, s.phase r = some phase → s.Current phase

theorem Fresh.sound (h : Fresh s) : Sound s := by
  constructor
  · exact h.written
  · exact h.past
  · exact h.pair
  · intro r phase hr
    rw [h.none_begun r] at hr
    cases hr

theorem set_phase (s : State) (r : Nat) (phase : Phase) (q : Nat) :
    (s.set r phase).phase q = if q = r then some phase else s.phase q :=
  Function.update_apply s.phase r (some phase) q

theorem set_file (s : State) (r : Nat) (phase : Phase) : (s.set r phase).file = s.file := rfl

theorem set_cache (s : State) (r : Nat) (phase : Phase) : (s.set r phase).cache = s.cache := rfl

theorem Current.of_same (h : Current s phase) (hfile : t.file = s.file)
    (hcache : t.cache.text = s.cache.text) : Current t phase := by
  constructor
  · rw [hfile]
    exact h.past
  · rw [hfile]
    exact h.held
  · rw [hfile, hcache]
    exact h.stamping

theorem Sound.set (h : Sound s) (r : Nat) (hphase : s.Current phase) : Sound (s.set r phase) := by
  constructor
  · exact h.written
  · exact h.past
  · exact h.pair
  · intro q p hq
    rw [set_phase] at hq
    split at hq
    · cases hq
      exact hphase.of_same rfl rfl
    · exact (h.phases q p hq).of_same rfl rfl

/-- A phase that has seen no time and read no text. -/
theorem Current.of_none (s : State) (hseen : phase.seen = none) : s.Current phase := by
  constructor
  · intro mtime h
    rw [hseen] at h
    cases h
  · intro text h
    rw [hseen] at h
    cases h
  · intro text h
    subst h
    cases hseen

theorem Current.of_seen {s : State} (hpast : ∀ mtime, phase.seen = some mtime → mtime ≤ s.file.mtime)
    (hheld : phase.held = none) : s.Current phase := by
  constructor
  · exact hpast
  · intro text _ h
    rw [hheld] at h
    cases h
  · intro text h
    subst h
    cases hheld

theorem Sound.modify (h : Sound s) (hlt : s.file.mtime < mtime) (hblank : isBlank text = false) :
    Sound { s with file := ⟨mtime, text⟩ } := by
  constructor
  · exact hblank
  · intro m hm
    exact (h.past m hm).trans hlt.le
  · intro hm
    exact absurd (h.past mtime hm) (not_le_of_gt hlt)
  · intro r phase hr
    have hcur := h.phases r phase hr
    have hnew : phase.seen ≠ some mtime := fun hm => absurd (hcur.past mtime hm) (not_le_of_gt hlt)
    constructor
    · intro m hm
      exact (hcur.past m hm).trans hlt.le
    · intro _ hm
      exact absurd hm hnew
    · intro _ hphase
      subst hphase
      exact absurd rfl hnew

theorem Sound.marked (h : Sound s) (hmarked : s.Marked) : s.cache.text = s.file.text := by
  obtain hm | ⟨r, text, hr⟩ := hmarked
  · exact h.pair hm
  · exact (h.phases r _ hr).stamping text rfl

/-- The text written is the file's, or nothing stands or is about to stand beside it as the
file's time. -/
theorem Sound.writeText (h : Sound s) (hr : s.phase r = some (.storing text mtime))
    (hcareful : text ≠ s.file.text → ¬ s.Marked) :
    Sound { s.set r (.stamping text mtime) with cache := { s.cache with text } } := by
  have hcur := h.phases r _ hr
  have htext : s.Marked → text = s.file.text := by
    intro hmarked
    by_contra hne
    exact hcareful hne hmarked
  constructor
  · exact h.written
  · exact h.past
  · intro hm
    exact htext (.inl hm)
  · intro q phase hq
    dsimp only at hq
    rw [set_phase] at hq
    split at hq
    · cases hq
      refine ⟨hcur.past, hcur.held, ?_⟩
      intro text' heq
      change Phase.stamping text mtime = .stamping text' (some s.file.mtime) at heq
      cases heq
      exact hcur.held text rfl rfl
    · have hother := h.phases q phase hq
      refine ⟨hother.past, hother.held, ?_⟩
      intro text' heq
      subst heq
      exact htext (.inr ⟨q, text', hq⟩)

theorem Sound.writeMtime (h : Sound s) (hr : s.phase r = some (.stamping text mtime)) :
    Sound { s.set r (.ended (.reloaded text mtime)) with cache := { s.cache with mtime } } := by
  have hcur := h.phases r _ hr
  constructor
  · exact h.written
  · exact hcur.past
  · intro hm
    change mtime = some s.file.mtime at hm
    subst hm
    exact hcur.stamping text rfl
  · intro q phase hq
    dsimp only at hq
    rw [set_phase] at hq
    split at hq
    · cases hq
      exact Current.of_none _ rfl
    · exact (h.phases q phase hq).of_same rfl rfl

theorem Sound.step (h : Sound s) (hcareful : s.Careful e) (hstep : s.step e = some t) :
    Sound t := by
  cases e with
  | modify mtime text =>
    rw [State.step] at hstep
    obtain ⟨⟨hlt, hblank⟩, heq⟩ := Option.ite_none_right_eq_some.1 hstep
    cases heq
    exact h.modify hlt hblank
  | start r =>
    rw [State.step] at hstep
    obtain ⟨_, heq⟩ := Option.ite_none_right_eq_some.1 hstep
    cases heq
    exact h.set r (Current.of_none s rfl)
  | stat r =>
    rw [State.step] at hstep
    obtain ⟨_, heq⟩ := Option.ite_none_right_eq_some.1 hstep
    cases heq
    apply h.set r
    apply Current.of_seen _ rfl
    intro mtime hm
    cases hm
    exact le_refl _
  | statFails r =>
    rw [State.step] at hstep
    obtain ⟨_, heq⟩ := Option.ite_none_right_eq_some.1 hstep
    cases heq
    exact h.set r (Current.of_none s rfl)
  | compare r =>
    rw [State.step] at hstep
    split at hstep
    · rename_i current hr
      cases hstep
      apply h.set r
      have hpast := (h.phases r _ hr).past
      cases current with
      | none => exact Current.of_none s rfl
      | some current =>
        rw [compared]
        split
        · exact Current.of_none s rfl
        · exact Current.of_seen hpast rfl
    · cases hstep
  | readFile r =>
    rw [State.step] at hstep
    split at hstep
    · rename_i mtime hr
      cases hstep
      apply h.set r
      rw [h.written]
      refine ⟨(h.phases r _ hr).past, ?_, ?_⟩
      · intro text _ htext
        cases htext
        rfl
      · intro text heq
        cases heq
    · cases hstep
  | readFails r =>
    rw [State.step] at hstep
    split at hstep
    · cases hstep
      exact h.set r (Current.of_none s rfl)
    · cases hstep
  | writeText r =>
    rw [State.step] at hstep
    split at hstep
    · rename_i text mtime hr
      cases hstep
      exact h.writeText hr (hcareful text mtime hr)
    · cases hstep
  | writeMtime r =>
    rw [State.step] at hstep
    split at hstep
    · rename_i text mtime hr
      cases hstep
      exact h.writeMtime hr
    · cases hstep

/-- What one refresh has done to the cache of a state it runs on alone. -/
def Reached (s : State) (cache : PromptFileCache) : Phase → Prop
  | .started => cache = s.cache
  | .stated current => cache = s.cache ∧ current = some s.file.mtime
  | .reading _ => True
  | .storing text _ => text = s.file.text
  | .stamping _ _ => cache.text = s.file.text
  | .ended _ => cache.text = s.file.text

theorem set_phase_self (s : State) (r : Nat) (phase : Phase) :
    (s.set r phase).phase r = some phase := by
  rw [set_phase, if_pos rfl]

/-- One more step of the refresh. -/
theorem reached_step (hsound : Sound s) (hfile : t.file = s.file)
    (hphase : t.phase r = some phase) (h : s.Reached t.cache phase) (halone : Alone r e)
    (hstep : t.step e = some u) :
    u.file = s.file ∧ ∃ phase', u.phase r = some phase' ∧ s.Reached u.cache phase' := by
  rw [Alone] at halone
  simp only [List.mem_cons, List.not_mem_nil, or_false] at halone
  obtain rfl | rfl | rfl | rfl | rfl | rfl := halone
  · rw [State.step, hphase] at hstep
    cases hstep
  · rw [State.step] at hstep
    obtain ⟨hp, heq⟩ := Option.ite_none_right_eq_some.1 hstep
    cases heq
    rw [hphase] at hp
    cases hp
    refine ⟨hfile, _, set_phase_self t r _, h, ?_⟩
    rw [hfile]
  · rw [State.step, hphase] at hstep
    cases phase with
    | stated current =>
      obtain ⟨hcache, rfl⟩ := h
      cases hstep
      refine ⟨hfile, _, set_phase_self t r _, ?_⟩
      rw [compared]
      split
      · rename_i hm
        change t.cache.text = s.file.text
        rw [hcache] at hm ⊢
        exact hsound.pair hm
      · trivial
    | _ => cases hstep
  · rw [State.step, hphase] at hstep
    cases phase with
    | reading mtime =>
      cases hstep
      refine ⟨hfile, _, set_phase_self t r _, ?_⟩
      rw [hfile, hsound.written]
      rfl
    | _ => cases hstep
  · rw [State.step, hphase] at hstep
    cases phase with
    | storing text mtime =>
      cases hstep
      exact ⟨hfile, _, set_phase_self t r _, h⟩
    | _ => cases hstep
  · rw [State.step, hphase] at hstep
    cases phase with
    | stamping text mtime =>
      cases hstep
      exact ⟨hfile, _, set_phase_self t r _, h⟩
    | _ => cases hstep

theorem reached_run (hsound : Sound s) (hfile : t.file = s.file)
    (hphase : t.phase r = some phase) (h : s.Reached t.cache phase) (halone : ∀ e ∈ es, Alone r e)
    (hrun : run step t es = some u) :
    ∃ phase', u.phase r = some phase' ∧ s.Reached u.cache phase' := by
  induction es generalizing t phase with
  | nil =>
    cases hrun
    exact ⟨phase, hphase, h⟩
  | cons e es ih =>
    obtain ⟨t', hstep, hrun⟩ := Option.bind_eq_some_iff.1 hrun
    obtain ⟨hfile', phase', hphase', h'⟩ :=
      reached_step hsound hfile hphase h (halone e List.mem_cons_self) hstep
    exact ih hfile' hphase' h' (fun e he => halone e (List.mem_cons_of_mem _ he)) hrun

/-- A refresh begins with its start. -/
theorem alone_first (hphase : s.phase r = none) (halone : Alone r e) (hstep : s.step e = some t) :
    t = s.set r .started := by
  rw [Alone] at halone
  simp only [List.mem_cons, List.not_mem_nil, or_false] at halone
  obtain rfl | rfl | rfl | rfl | rfl | rfl := halone
  · rw [State.step, if_pos hphase] at hstep
    exact (Option.some.inj hstep).symm
  · rw [State.step, hphase] at hstep
    cases hstep
  · rw [State.step, hphase] at hstep
    cases hstep
  · rw [State.step, hphase] at hstep
    cases hstep
  · rw [State.step, hphase] at hstep
    cases hstep
  · rw [State.step, hphase] at hstep
    cases hstep

theorem Sound.refreshes (h : Sound s) (hphase : s.phase r = none) (halone : ∀ e ∈ es, Alone r e)
    (hrun : run State.step s es = some t) (hquiet : t.Quiet) (hne : es ≠ []) :
    t.cache.text = s.file.text := by
  cases es with
  | nil => exact absurd rfl hne
  | cons e es =>
    obtain ⟨t', hstep, hrun⟩ := Option.bind_eq_some_iff.1 hrun
    have hstart := alone_first hphase (halone e List.mem_cons_self) hstep
    subst hstart
    have hstarted : s.Reached (s.set r .started).cache .started := rfl
    have hfile : (s.set r .started).file = s.file := rfl
    obtain ⟨phase, hp, hreached⟩ := reached_run h hfile (set_phase_self s r _) hstarted
      (fun e he => halone e (List.mem_cons_of_mem _ he)) hrun
    obtain ⟨result, rfl⟩ := hquiet r phase hp
    exact hreached

theorem step_start (hphase : s.phase r = none) : s.step (.start r) = some (s.set r .started) :=
  if_pos hphase

theorem step_stat (hphase : s.phase r = some .started) :
    s.step (.stat r) = some (s.set r (.stated (some s.file.mtime))) :=
  if_pos hphase

theorem step_compare (hphase : s.phase r = some (.stated current)) :
    s.step (.compare r) = some (s.set r (s.compared current)) := by
  rw [step, hphase]

theorem step_readFile (hphase : s.phase r = some (.reading mtime))
    (hwritten : isBlank s.file.text = false) :
    s.step (.readFile r) = some (s.set r (.storing s.file.text mtime)) := by
  rw [step, hphase, hwritten]
  rfl

theorem step_writeText (hphase : s.phase r = some (.storing text mtime)) :
    s.step (.writeText r) =
      some { s.set r (.stamping text mtime) with cache := { s.cache with text } } := by
  rw [step, hphase]

theorem step_writeMtime (hphase : s.phase r = some (.stamping text mtime)) :
    s.step (.writeMtime r) =
      some { s.set r (.ended (.reloaded text mtime)) with cache := { s.cache with mtime } } := by
  rw [step, hphase]

/-- A refresh can run on alone to its end. -/
def Finishes (s : State) (r : Nat) : Prop :=
  ∃ es t, (∀ e ∈ es, Alone r e) ∧ run step s es = some t ∧
    (∃ result, t.phase r = some (.ended result)) ∧ ∀ q, q ≠ r → t.phase q = s.phase q

theorem finishes_ended (h : s.phase r = some (.ended result)) : s.Finishes r :=
  ⟨[], s, fun _ he => absurd he List.not_mem_nil, rfl, ⟨result, h⟩, fun _ _ => rfl⟩

theorem finishes_step (hstep : s.step e = some u) (halone : Alone r e)
    (hother : ∀ q, q ≠ r → u.phase q = s.phase q) (h : u.Finishes r) : s.Finishes r := by
  obtain ⟨es, t, hes, hrun, hended, hq⟩ := h
  refine ⟨e :: es, t, ?_, ?_, hended, ?_⟩
  · intro f hf
    obtain rfl | hf := List.mem_cons.1 hf
    · exact halone
    · exact hes f hf
  · rw [run, hstep]
    exact hrun
  · intro q hqr
    rw [hq q hqr, hother q hqr]

theorem set_phase_other (s : State) (r : Nat) (phase : Phase) (q : Nat) (hq : q ≠ r) :
    (s.set r phase).phase q = s.phase q := by
  rw [set_phase, if_neg hq]

theorem finishes_stamping (h : s.phase r = some (.stamping text mtime)) : s.Finishes r := by
  apply finishes_step (step_writeMtime h) (by simp [Alone]) (set_phase_other s r _)
  exact finishes_ended (set_phase_self s r _)

theorem finishes_storing (h : s.phase r = some (.storing text mtime)) : s.Finishes r := by
  apply finishes_step (step_writeText h) (by simp [Alone]) (set_phase_other s r _)
  exact finishes_stamping (set_phase_self s r _)

theorem finishes_reading (h : s.phase r = some (.reading mtime))
    (hwritten : isBlank s.file.text = false) : s.Finishes r := by
  apply finishes_step (step_readFile h hwritten) (by simp [Alone]) (set_phase_other s r _)
  exact finishes_storing (set_phase_self s r _)

theorem finishes_stated (h : s.phase r = some (.stated current))
    (hwritten : isBlank s.file.text = false) : s.Finishes r := by
  apply finishes_step (step_compare h) (by simp [Alone]) (set_phase_other s r _)
  cases current with
  | none => exact finishes_reading (set_phase_self s r _) hwritten
  | some current =>
    by_cases hm : s.cache.mtime = some current
    · rw [compared, if_pos hm]
      exact finishes_ended (set_phase_self s r _)
    · rw [compared, if_neg hm]
      exact finishes_reading (set_phase_self s r _) hwritten

theorem finishes_started (h : s.phase r = some .started)
    (hwritten : isBlank s.file.text = false) : s.Finishes r := by
  apply finishes_step (step_stat h) (by simp [Alone]) (set_phase_other s r _)
  exact finishes_stated (set_phase_self s r _) hwritten

theorem Sound.completes (h : Sound s) (hquiet : s.Quiet) (hphase : s.phase r = none) :
    ∃ es t, (∀ e ∈ es, Alone r e) ∧ es ≠ [] ∧ run State.step s es = some t ∧ t.Quiet := by
  have hfinish := finishes_started (set_phase_self s r _) h.written
  obtain ⟨es, t, hes, hrun, ⟨result, hended⟩, hother⟩ := hfinish
  refine ⟨.start r :: es, t, ?_, List.cons_ne_nil _ _, ?_, ?_⟩
  · intro e he
    obtain rfl | he := List.mem_cons.1 he
    · simp [Alone]
    · exact hes e he
  · rw [run, step_start hphase]
    exact hrun
  · intro q phase hq
    by_cases hqr : q = r
    · subst hqr
      rw [hended] at hq
      exact ⟨result, (Option.some.inj hq).symm⟩
    · rw [hother q hqr, set_phase_other s r _ q hqr] at hq
      exact hquiet q phase hq

/-- A careless step is followed by an outdated cache, or one more write makes it so. -/
theorem outdated_of_careless (hcareless : ¬ s.Careful e) (hstep : s.step e = some t) :
    ¬ t.NeverOutdated ∨ ∃ q u, t.step (.writeMtime q) = some u ∧ ¬ u.NeverOutdated := by
  cases e with
  | writeText r =>
    rw [Careful] at hcareless
    simp only [not_forall, not_not] at hcareless
    obtain ⟨text, mtime, hphase, hne, hmarked⟩ := hcareless
    rw [step_writeText hphase] at hstep
    cases hstep
    obtain hm | ⟨q, text', hq⟩ := hmarked
    · left
      intro h
      exact hne (h.pair hm)
    · right
      have hqr : q ≠ r := by
        intro heq
        subst heq
        rw [hphase] at hq
        cases hq
      refine ⟨q, _, step_writeMtime ((set_phase_other s r _ q hqr).trans hq), ?_⟩
      intro h
      exact hne (h.pair rfl)
  | _ => exact absurd trivial hcareless

def unread : State := ⟨⟨1, ['a']⟩, ⟨[], none⟩, fun _ => none⟩

end State

end LocalMind.PromptCache
