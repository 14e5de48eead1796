import LocalMind.Concurrent.Run
import LocalMind.Proxy.KvScrape
import Mathlib.Logic.Function.Basic

namespace LocalMind.KvCache
open Concurrent KvLabels KvScrape
set_option autoImplicit true

/-! The cached outcome of one backend's scrapes, under any number of overlapping calls. -/

abbrev Instant := Nat

inductive KvLookup
  | known (info : Option Labels)
  | failed (lastAttempt : Instant)
deriving DecidableEq

/-- A call between two of its steps; it holds its lookup until it gets the lock to write it. -/
inductive Call
  | scraping
  | holding (lookup : KvLookup)
  | returned (info : Option Labels)
deriving DecidableEq

structure State where
  entry : Option KvLookup
  calls : Nat → Option Call

inductive Event
  | read (c : Nat) (now : Instant)
  | scraped (c : Nat) (scrape : Scrape) (now : Instant)
  | write (c : Nat)
deriving DecidableEq

def lookupOf (scrape : Scrape) (now : Instant) : KvLookup :=
  match scrape with
  | .found info => .known (some info)
  | .absent => .known none
  | .failed _ => .failed now

/-- What a call returns with its lookup. -/
def KvLookup.returned : KvLookup → Option Labels
  | known info => info
  | failed _ => none

/-- What the first section of a call makes of the entry; a clock that went back has waited 0. -/
def readEntry (retryBackoff : Nat) (now : Instant) : Option KvLookup → Call
  | some (.known info) => .returned info
  | some (.failed lastAttempt) =>
    if now - lastAttempt < retryBackoff then .returned none else .scraping
  | none => .scraping

namespace State

def empty : State := ⟨none, fun _ => none⟩

def set (s : State) (c : Nat) (call : Call) : State :=
  { s with calls := Function.update s.calls c (some call) }

def step (retryBackoff : Nat) (s : State) : Event → Option State
  | .read c now =>
    match s.calls c with
    | none => some (s.set c (readEntry retryBackoff now s.entry))
    | some _ => none
  | .scraped c scrape now =>
    match s.calls c with
    | some .scraping => some (s.set c (.holding (lookupOf scrape now)))
    | _ => none
  | .write c =>
    match s.calls c with
    | some (.holding lookup) =>
      some { s.set c (.returned lookup.returned) with entry := some lookup }
    | _ => none

end State

open State

/-- Once an answer stands, no later state of the run has a failure in its place, and a call that
starts there returns it and does not scrape. -/
def Permanent (retryBackoff : Nat) (es : List Event) : Prop :=
  ∀ before between after s t info, es = before ++ between ++ after →
    run (step retryBackoff) empty before = some s → s.entry = some (.known info) →
    run (step retryBackoff) s between = some t →
    (∀ lastAttempt, t.entry ≠ some (.failed lastAttempt)) ∧
      ∀ now, readEntry retryBackoff now t.entry = .returned info

/-- What the scrape of a call brought. -/
def outcome (es : List Event) (c : Nat) : Option KvLookup :=
  es.findSome? fun e =>
    match e with
    | .scraped d scrape now => if d = c then some (lookupOf scrape now) else none
    | _ => none

/-- A call that had read the cache before another wrote its answer, and that writes after it, has
found the same answer. -/
def Agreeing (es : List Event) : Prop :=
  ∀ before c between d after now info,
    es = before ++ .write c :: (between ++ .write d :: after) → .read d now ∈ before →
    outcome es c = some (.known info) → outcome es d = some (.known info)

theorem step_read (h : step backoff s (.read c now) = some t) :
    s.calls c = none ∧ t = s.set c (readEntry backoff now s.entry) := by
  rw [step] at h
  cases hc : s.calls c with
  | none =>
    rw [hc] at h
    cases h
    exact ⟨rfl, rfl⟩
  | some call =>
    rw [hc] at h
    cases h

theorem step_scraped (h : step backoff s (.scraped c scrape now) = some t) :
    s.calls c = some .scraping ∧ t = s.set c (.holding (lookupOf scrape now)) := by
  rw [step] at h
  split at h
  · rename_i hc
    cases h
    exact ⟨hc, rfl⟩
  · cases h

theorem step_write (h : step backoff s (.write c) = some t) :
    ∃ lookup, s.calls c = some (.holding lookup) ∧
      t = { s.set c (.returned lookup.returned) with entry := some lookup } := by
  rw [step] at h
  split at h
  · rename_i lookup hc
    cases h
    exact ⟨lookup, hc, rfl⟩
  · cases h

theorem set_calls (s : State) (c : Nat) (call : Call) (d : Nat) :
    (s.set c call).calls d = if d = c then some call else s.calls d := by
  exact Function.update_apply s.calls c (some call) d

theorem outcome_append (es fs : List Event) (c : Nat) :
    outcome (es ++ fs) c = (outcome es c).or (outcome fs c) :=
  List.findSome?_append

theorem outcome_append_of_some (h : outcome es c = some lookup) (fs : List Event) :
    outcome (es ++ fs) c = some lookup := by
  rw [outcome_append, h]
  rfl

theorem run_concat (h : run (step backoff) s (es ++ [e]) = some t) :
    ∃ u, run (step backoff) s es = some u ∧ step backoff u e = some t := by
  rw [run_append] at h
  obtain ⟨u, hu, h⟩ := Option.bind_eq_some_iff.1 h
  obtain ⟨t', ht, h⟩ := Option.bind_eq_some_iff.1 h
  cases h
  exact ⟨u, hu, ht⟩

/-- What a call's place in a state says of the events before it. -/
structure Recorded (es : List Event) (c : Nat) (call : Option Call) : Prop where
  read : call ≠ none → ∃ now, .read c now ∈ es
  pending : call = none ∨ call = some .scraping → outcome es c = none
  holding : ∀ lookup, call = some (.holding lookup) → outcome es c = some lookup

theorem Recorded.keep (h : Recorded es c call) (hother : outcome [e] c = none) :
    Recorded (es ++ [e]) c call := by
  constructor
  · intro hne
    obtain ⟨now, hmem⟩ := h.read hne
    exact ⟨now, List.mem_append_left _ hmem⟩
  · intro hp
    rw [outcome_append, h.pending hp, hother]
    rfl
  · intro lookup hl
    exact outcome_append_of_some (h.holding lookup hl) [e]

theorem outcome_scraped_ne (hne : d ≠ c) (scrape : Scrape) (now : Instant) :
    outcome [.scraped d scrape now] c = none := by
  rw [outcome, List.findSome?_cons]
  dsimp only
  rw [if_neg hne]
  rfl

theorem outcome_scraped (c : Nat) (scrape : Scrape) (now : Instant) :
    outcome [.scraped c scrape now] c = some (lookupOf scrape now) := by
  rw [outcome, List.findSome?_cons]
  dsimp only
  rw [if_pos rfl]

theorem readEntry_ne_holding (backoff now : Nat) (entry : Option KvLookup) (lookup : KvLookup) :
    readEntry backoff now entry ≠ .holding lookup := by
  intro h
  cases entry with
  | none => cases h
  | some l =>
    cases l with
    | known info => cases h
    | failed last =>
      rw [readEntry] at h
      split at h
      · cases h
      · cases h

theorem recorded (h : run (step backoff) empty es = some t) (c : Nat) :
    Recorded es c (t.calls c) := by
  induction es using List.reverseRecOn generalizing t with
  | nil =>
    cases h
    exact ⟨fun hne => absurd rfl hne, fun _ => rfl, fun _ hl => by cases hl⟩
  | append_singleton es e ih =>
    obtain ⟨u, hu, hstep⟩ := run_concat h
    have hrec := ih hu
    cases e with
    | read d now =>
      obtain ⟨hnone, rfl⟩ := step_read hstep
      rw [set_calls]
      by_cases hc : c = d
      · subst hc
        rw [if_pos rfl]
        refine ⟨fun _ => ⟨now, List.mem_append_right _ List.mem_cons_self⟩, ?_, ?_⟩
        · intro _
          rw [outcome_append, hrec.pending (.inl hnone)]
          rfl
        · intro lookup hl
          exact absurd (Option.some.inj hl) (readEntry_ne_holding _ _ _ lookup)
      · rw [if_neg hc]
        exact hrec.keep rfl
    | scraped d scrape now =>
      obtain ⟨hscraping, rfl⟩ := step_scraped hstep
      rw [set_calls]
      by_cases hc : c = d
      · subst hc
        rw [if_pos rfl]
        refine ⟨?_, ?_, ?_⟩
        · intro _
          obtain ⟨start, hmem⟩ := hrec.read (by rw [hscraping]; exact Option.some_ne_none _)
          exact ⟨start, List.mem_append_left _ hmem⟩
        · intro hp
          obtain hp | hp := hp
          · cases hp
          · cases hp
        · intro lookup hl
          cases hl
          rw [outcome_append, hrec.pending (.inr hscraping), outcome_scraped]
          rfl
      · rw [if_neg hc]
        exact hrec.keep (outcome_scraped_ne (Ne.symm hc) scrape now)
    | write d =>
      obtain ⟨lookup, hholding, rfl⟩ := step_write hstep
      dsimp only
      rw [set_calls]
      by_cases hc : c = d
      · subst hc
        rw [if_pos rfl]
        refine ⟨?_, ?_, ?_⟩
        · intro _
          obtain ⟨start, hmem⟩ := hrec.read (by rw [hholding]; exact Option.some_ne_none _)
          exact ⟨start, List.mem_append_left _ hmem⟩
        · intro hp
          obtain hp | hp := hp
          · cases hp
          · cases hp
        · intro l hl
          cases hl
      · rw [if_neg hc]
        exact hrec.keep rfl

/-- The entry is what the last call to write had found. -/
theorem write_entry (h : run (step backoff) empty (es ++ [.write c]) = some t) :
    ∃ lookup, outcome es c = some lookup ∧ t.entry = some lookup := by
  obtain ⟨u, hu, hstep⟩ := run_concat h
  obtain ⟨lookup, hholding, rfl⟩ := step_write hstep
  exact ⟨lookup, (recorded hu c).holding lookup hholding, rfl⟩

/-- An entry was written. -/
theorem exists_write (h : run (step backoff) empty es = some t) (hentry : t.entry = some lookup) :
    ∃ before c after, es = before ++ .write c :: after ∧ outcome before c = some lookup := by
  induction es using List.reverseRecOn generalizing t with
  | nil =>
    cases h
    cases hentry
  | append_singleton es e ih =>
    obtain ⟨u, hu, hstep⟩ := run_concat h
    have hearlier : u.entry = some lookup →
        ∃ before c after, es ++ [e] = before ++ .write c :: after ∧
          outcome before c = some lookup := by
      intro hue
      obtain ⟨before, c, after, rfl, hout⟩ := ih hu hue
      exact ⟨before, c, after ++ [e], List.append_assoc _ _ _, hout⟩
    cases e with
    | read d now =>
      obtain ⟨_, rfl⟩ := step_read hstep
      exact hearlier hentry
    | scraped d scrape now =>
      obtain ⟨_, rfl⟩ := step_scraped hstep
      exact hearlier hentry
    | write d =>
      obtain ⟨l, hout, hl⟩ := write_entry h
      rw [hl] at hentry
      cases hentry
      exact ⟨es, d, [], rfl, hout⟩

/-- A call that is scraping, or has scraped and not written. -/
def Busy : Option Call → Prop
  | some .scraping => True
  | some (.holding _) => True
  | _ => False

theorem Busy.ne_none (h : Busy call) : call ≠ none := by
  intro heq
  subst heq
  exact h

/-- An answer stands, and only calls that began before it was written can still write. -/
structure Settled (before : List Event) (info : Option Labels) (s : State) : Prop where
  entry : s.entry = some (.known info)
  busy : ∀ d, Busy (s.calls d) → ∃ now, .read d now ∈ before

theorem Settled.set (h : Settled before info s) (c : Nat) (call : Call)
    (hcall : Busy (some call) → Busy (s.calls c)) : Settled before info (s.set c call) := by
  constructor
  · exact h.entry
  · intro d hd
    rw [set_calls] at hd
    by_cases hdc : d = c
    · subst hdc
      rw [if_pos rfl] at hd
      exact h.busy d (hcall hd)
    · rw [if_neg hdc] at hd
      exact h.busy d hd

theorem settled_of_write (h : run (step backoff) empty (before ++ [.write c]) = some t)
    (hout : outcome before c = some (.known info)) : Settled before info t := by
  obtain ⟨lookup, hout', hentry⟩ := write_entry h
  rw [hout] at hout'
  cases hout'
  constructor
  · exact hentry
  · intro d hd
    obtain ⟨now, hmem⟩ := (recorded h d).read hd.ne_none
    obtain hmem | hmem := List.mem_append.1 hmem
    · exact ⟨now, hmem⟩
    · cases List.mem_singleton.1 hmem

theorem Settled.step (h : Settled before info s) (hstep : State.step backoff s e = some t)
    (hwrite : ∀ d lookup, e = .write d → s.calls d = some (.holding lookup) →
      lookup = .known info) : Settled before info t := by
  cases e with
  | read d now =>
    obtain ⟨_, rfl⟩ := step_read hstep
    apply h.set
    intro hbusy
    rw [h.entry, readEntry] at hbusy
    exact absurd hbusy id
  | scraped d scrape now =>
    obtain ⟨hscraping, rfl⟩ := step_scraped hstep
    apply h.set
    intro _
    rw [hscraping]
    exact trivial
  | write d =>
    obtain ⟨lookup, hholding, rfl⟩ := step_write hstep
    have hl := hwrite d lookup rfl hholding
    subst hl
    have hset := h.set d (.returned info) fun hbusy => absurd hbusy id
    exact ⟨rfl, hset.busy⟩

/-- From the write of an answer on, agreeing calls keep it. -/
theorem settled_after {info : Option Labels} (hagree : Agreeing es)
    (hes : es = before ++ .write c :: (between ++ after))
    (hout : outcome before c = some (.known info))
    (h : run (step backoff) empty (before ++ .write c :: between) = some t) :
    Settled before info t := by
  induction between using List.reverseRecOn generalizing t after with
  | nil => exact settled_of_write h hout
  | append_singleton between e ih =>
    rw [List.append_assoc] at hes
    rw [← List.cons_append, ← List.append_assoc] at h
    obtain ⟨u, hu, hstep⟩ := run_concat h
    have hsettled := ih hes hu
    apply hsettled.step hstep
    intro d lookup he hholding
    subst he
    have hbusy : Busy (u.calls d) := by
      rw [hholding]
      exact trivial
    obtain ⟨now, hread⟩ := hsettled.busy d hbusy
    have hcut : es = (before ++ .write c :: between) ++ (.write d :: after) := by
      rw [hes, List.append_assoc]
      rfl
    have hd : outcome es d = some lookup := by
      rw [hcut]
      exact outcome_append_of_some ((recorded hu d).holding lookup hholding) _
    have hc : outcome es c = some (.known info) := by
      rw [hes]
      exact outcome_append_of_some hout _
    have hknown := hagree before c between d after now info hes hread hc
    rw [hd] at hknown
    exact Option.some.inj hknown

theorem permanent_of_agreeing (hagree : Agreeing es) : Permanent backoff es := by
  intro before between after s t info hes hs hentry ht
  obtain ⟨first, c, rest, rfl, hout⟩ := exists_write hs hentry
  have hrun : run (step backoff) empty (first ++ .write c :: (rest ++ between)) = some t := by
    have happend : run (step backoff) empty ((first ++ .write c :: rest) ++ between) = _ :=
      run_append empty (first ++ .write c :: rest) between
    rw [hs, Option.bind_some, ht, List.append_assoc] at happend
    exact happend
  have hes' : es = first ++ .write c :: ((rest ++ between) ++ after) := by
    rw [hes, List.append_assoc, List.append_assoc, List.append_assoc]
    rfl
  have hsettled := settled_after hagree hes' hout hrun
  rw [hsettled.entry]
  constructor
  · intro last h
    cases h
  · intro now
    rfl

theorem agreeing_of_permanent (hrun : run (step backoff) empty es = some t)
    (hperm : Permanent backoff es) : Agreeing es := by
  intro before c between d after now info hes _ hc
  have hsplit : es = (before ++ [.write c]) ++ (between ++ [.write d]) ++ after := by
    rw [hes]
    simp only [List.append_assoc, List.cons_append, List.nil_append]
  rw [hsplit, run_append, run_append] at hrun
  obtain ⟨u, hu, _⟩ := Option.bind_eq_some_iff.1 hrun
  obtain ⟨s, hs, hu⟩ := Option.bind_eq_some_iff.1 hu
  obtain ⟨lookup, hout, hentry⟩ := write_entry hs
  have hlookup : outcome es c = some lookup := by
    rw [hes]
    exact outcome_append_of_some hout _
  rw [hc] at hlookup
  cases hlookup
  obtain ⟨hfailed, hread⟩ := hperm _ _ _ s u info hsplit hs hentry hu
  have hu' : run (step backoff) empty ((before ++ .write c :: between) ++ [.write d]) = some u := by
    have happend : run (step backoff) empty
        ((before ++ [.write c]) ++ (between ++ [.write d])) = _ :=
      run_append empty (before ++ [.write c]) (between ++ [.write d])
    rw [hs, Option.bind_some, hu] at happend
    simp only [List.append_assoc, List.cons_append, List.nil_append] at happend ⊢
    exact happend
  obtain ⟨lookup', hout', hentry'⟩ := write_entry hu'
  have hd : outcome es d = some lookup' := by
    have hcut : es = (before ++ .write c :: between) ++ (.write d :: after) := by
      rw [hes, List.append_assoc]
      rfl
    rw [hcut]
    exact outcome_append_of_some hout' _
  rw [hd]
  rw [hentry'] at hfailed hread
  cases lookup' with
  | failed last => exact absurd rfl (hfailed last)
  | known other =>
    have heq := hread 0
    rw [readEntry] at heq
    cases heq
    rfl

/-- An answer is permanent in exactly the runs whose overlapping calls agree on it. -/
theorem permanent_iff_agreeing (backoff : Nat) {es : List Event} {t : State}
    (hrun : run (step backoff) empty es = some t) : Permanent backoff es ↔ Agreeing es :=
  ⟨agreeing_of_permanent hrun, permanent_of_agreeing⟩

/-- Two calls scrape at once; the second one times out after the first has its answer written. -/
def lateTimeout : List Event :=
  [.read 0 0, .read 1 0, .scraped 0 (.found []) 1, .write 0, .scraped 1 (.failed "timeout") 2,
    .write 1]

theorem permanent_iff_agreeing_late_timeout : Permanent 30 lateTimeout ↔ Agreeing lateTimeout :=
  permanent_iff_agreeing 30 (rfl : run (step 30) empty lateTimeout = some _)

theorem answer_not_permanent :
    ¬ ∀ backoff es t, run (step backoff) empty es = some t → Permanent backoff es := by
  intro h
  have hperm := h 30 lateTimeout _ rfl
  have hsplit := hperm (lateTimeout.take 4) (lateTimeout.drop 4) [] _ _ (some []) rfl rfl rfl rfl
  exact hsplit.1 2 rfl

end LocalMind.KvCache
