import LocalMind.Order.StableSort
import Mathlib.Data.List.Nodup
import Mathlib.Data.Nat.Basic

namespace LocalMind.BootTiming
open Order
set_option autoImplicit true

/-! Marks of a boot, and the spans that they are paired to. -/

inductive Kind where
  | start
  | enter
  | exit
  | miss
  | mem
deriving DecidableEq

/-- The name and the detail of a mark. -/
abbrev Key := String × String

structure Span (T : Type) where
  name : String
  detail : String
  t0 : T
  t1 : T
deriving DecidableEq

structure Row (T : Type) where
  ts : T
  pid : Nat
  role : String
  kind : Kind
  name : String
  detail : String
deriving DecidableEq

def Row.key (r : Row T) : Key := (r.name, r.detail)

/-- The pending marks of each key, oldest first. -/
abbrev OpenQ (T : Type) := List (Key × List T)

def OpenQ.queue (m : OpenQ T) (k : Key) : List T := (m.lookup k).getD []

/-- `setdefault(key, deque()).append(ts)`. -/
def OpenQ.push : OpenQ T → Key → T → OpenQ T
  | [], k, t => [(k, [t])]
  | (l, q) :: m, k, t => if l = k then (l, q ++ [t]) :: m else (l, q) :: OpenQ.push m k t

/-- The queue of a key without its last mark. -/
def OpenQ.pop : OpenQ T → Key → OpenQ T
  | [], _ => []
  | (l, q) :: m, k => if l = k then (l, q.dropLast) :: m else (l, q) :: OpenQ.pop m k

structure Matching (T : Type) where
  openQ : OpenQ T
  out : List (Span T)

/-- An exit closes the mark of its key that was opened last. -/
def Matching.step (s : Matching T) (r : Row T) : Matching T :=
  match r.kind with
  | .enter => { s with openQ := s.openQ.push r.key r.ts }
  | .exit =>
    match (s.openQ.queue r.key).getLast? with
    | some t0 => ⟨s.openQ.pop r.key, s.out ++ [⟨r.name, r.detail, t0, r.ts⟩]⟩
    | none => { s with out := s.out ++ [⟨r.name, r.detail, r.ts, r.ts⟩] }
  | _ => s

def spanTo (endDefault : T) (p : Key × T) : Span T := ⟨p.1.1, p.1.2, p.2, endDefault⟩

/-- The marks that are still open. -/
def OpenQ.pending (m : OpenQ T) : List (Key × T) := m.flatMap fun e => e.2.map fun t => (e.1, t)

def matchSpans [LinearOrder T] (rows : List (Row T)) (endDefault : T) : List (Span T) :=
  let s := (sortBy Row.ts rows).foldl Matching.step ⟨[], []⟩
  s.out ++ s.openQ.pending.map (spanTo endDefault)

/-! The calls of a process. -/

/-- The span of a call, from its own enter to its own exit. -/
def Row.spanTo (e : Row T) (t1 : T) : Span T := ⟨e.name, e.detail, e.ts, t1⟩

/-- Calls that return, one after another, and their spans. -/
inductive Returned : List (Row T) → List (Span T) → Prop where
  | none : Returned [] []
  | call (e x : Row T) : e.kind = .enter → x.kind = .exit → x.key = e.key → Returned body nested →
      Returned rest spans → Returned (e :: (body ++ x :: rest)) (e.spanTo x.ts :: (nested ++ spans))

/-- The calls of a process, and their spans: a call that never returns ends with the trace. -/
inductive Traced (endDefault : T) : List (Row T) → List (Span T) → Prop where
  | returned : Returned rows spans → Traced endDefault rows spans
  | unfinished (e : Row T) : Returned before spans → e.kind = .enter → Traced endDefault rest nested →
      Traced endDefault (before ++ e :: rest) (spans ++ e.spanTo endDefault :: nested)

/-! The queues of the keys. -/

theorem queue_nil (k : Key) : OpenQ.queue ([] : OpenQ T) k = [] := rfl

theorem queue_cons (l : Key) (q : List T) (m : OpenQ T) (k : Key) :
    OpenQ.queue ((l, q) :: m) k = if l = k then q else OpenQ.queue m k := by
  rw [OpenQ.queue, List.lookup_cons]
  by_cases h : l = k
  · rw [if_pos h, h, BEq.rfl]
    rfl
  · rw [if_neg h, beq_false_of_ne (Ne.symm h)]
    rfl

theorem queue_push (m : OpenQ T) (k l : Key) (t : T) :
    (m.push k t).queue l = if k = l then m.queue k ++ [t] else m.queue l := by
  induction m with
  | nil => rw [OpenQ.push, queue_cons, queue_nil, queue_nil, List.nil_append]
  | cons e m ih =>
    obtain ⟨j, q⟩ := e
    rw [OpenQ.push]
    by_cases hj : j = k
    · rw [if_pos hj, queue_cons, queue_cons, queue_cons, if_pos hj, hj]
      split
      · rfl
      · rfl
    · rw [if_neg hj, queue_cons, queue_cons, queue_cons, if_neg hj, ih]
      by_cases hk : k = l
      · rw [if_pos hk, if_pos hk, if_neg (fun h => hj (h.trans hk.symm))]
      · rw [if_neg hk, if_neg hk]

theorem queue_pop (m : OpenQ T) (k l : Key) :
    (m.pop k).queue l = if k = l then (m.queue k).dropLast else m.queue l := by
  induction m with
  | nil =>
    rw [OpenQ.pop, queue_nil, queue_nil]
    exact (ite_self _).symm
  | cons e m ih =>
    obtain ⟨j, q⟩ := e
    rw [OpenQ.pop]
    by_cases hj : j = k
    · rw [if_pos hj, queue_cons, queue_cons, queue_cons, if_pos hj, hj]
      split
      · rfl
      · rfl
    · rw [if_neg hj, queue_cons, queue_cons, queue_cons, if_neg hj, ih]
      by_cases hk : k = l
      · rw [if_pos hk, if_pos hk, if_neg (fun h => hj (h.trans hk.symm))]
      · rw [if_neg hk, if_neg hk]

def OpenQ.keys (m : OpenQ T) : List Key := m.map Prod.fst

theorem keys_pop (m : OpenQ T) (k : Key) : (m.pop k).keys = m.keys := by
  induction m with
  | nil => rfl
  | cons e m ih =>
    obtain ⟨j, q⟩ := e
    rw [OpenQ.pop]
    split
    · rfl
    · exact congrArg (j :: ·) ih

theorem queue_notMem {m : OpenQ T} (h : k ∉ m.keys) : m.queue k = [] := by
  induction m with
  | nil => rfl
  | cons e m ih =>
    obtain ⟨hne, hm⟩ := List.ne_and_not_mem_of_not_mem_cons h
    rw [queue_cons, if_neg hne.symm]
    exact ih hm

theorem mem_keys_push {m : OpenQ T} : l ∈ (m.push k t).keys ↔ l = k ∨ l ∈ m.keys := by
  induction m with
  | nil =>
    rw [OpenQ.push]
    simp [OpenQ.keys]
  | cons e m ih =>
    obtain ⟨j, q⟩ := e
    rw [OpenQ.push]
    split
    · next hj =>
      subst hj
      simp [OpenQ.keys]
    · simp only [OpenQ.keys, List.map_cons, List.mem_cons] at ih ⊢
      rw [ih]
      exact or_left_comm

theorem nodup_keys_push {m : OpenQ T} (h : m.keys.Nodup) : (m.push k t).keys.Nodup := by
  induction m with
  | nil => exact List.nodup_singleton k
  | cons e m ih =>
    obtain ⟨j, q⟩ := e
    obtain ⟨hj, hm⟩ := List.nodup_cons.1 h
    rw [OpenQ.push]
    split
    · exact h
    · next hne =>
      apply List.nodup_cons.2
      refine ⟨?_, ih hm⟩
      intro hmem
      obtain rfl | hmem := mem_keys_push.1 hmem
      · exact hne rfl
      · exact hj hmem

/-! The run over a trace. -/

theorem step_enter {e : Row T} (h : e.kind = .enter) (s : Matching T) :
    s.step e = { s with openQ := s.openQ.push e.key e.ts } := by
  rw [Matching.step, h]

theorem step_exit {x : Row T} (h : x.kind = .exit) {s : Matching T}
    (hq : s.openQ.queue x.key = q ++ [t0]) :
    s.step x = ⟨s.openQ.pop x.key, s.out ++ [⟨x.name, x.detail, t0, x.ts⟩]⟩ := by
  rw [Matching.step, h]
  dsimp only
  rw [hq, List.getLast?_concat]

/-- A run leaves the queues as they were, but for the calls that it leaves open. -/
structure Runs (rows : List (Row T)) (m : OpenQ T) (out : List (Span T)) (m' : OpenQ T)
    (added : List (Span T)) (left : List (Key × T)) : Prop where
  run : rows.foldl Matching.step ⟨m, out⟩ = ⟨m', out ++ added⟩
  queues : ∀ k, m'.queue k = m.queue k ++ (left.filter fun p => p.1 = k).map Prod.snd
  keys : m.keys.Nodup → m'.keys.Nodup

theorem Runs.append (h : Runs rows m out m₁ added left)
    (h' : Runs rest m₁ (out ++ added) m₂ added' left') :
    Runs (rows ++ rest) m out m₂ (added ++ added') (left ++ left') where
  run := by rw [List.foldl_append, h.run, h'.run, List.append_assoc]
  queues := by
    intro k
    rw [h'.queues, h.queues, List.filter_append, List.map_append, List.append_assoc]
  keys hm := h'.keys (h.keys hm)

theorem runs_enter {e : Row T} (h : e.kind = .enter) (m : OpenQ T) (out : List (Span T)) :
    Runs [e] m out (m.push e.key e.ts) [] [(e.key, e.ts)] where
  run := by rw [List.foldl_cons, step_enter h, List.append_nil]; rfl
  queues := by
    intro k
    rw [queue_push, List.filter_cons]
    by_cases hk : e.key = k
    · rw [if_pos hk, if_pos (decide_eq_true hk), hk]
      rfl
    · rw [if_neg hk, if_neg (by simpa using hk)]
      exact (List.append_nil _).symm
  keys := nodup_keys_push

/-- A call whose body leaves nothing open is closed by its own exit. -/
theorem Runs.call {e x : Row T} (he : e.kind = .enter) (hx : x.kind = .exit)
    (hkey : x.key = e.key) (h : Runs body (m.push e.key e.ts) out m₁ added []) :
    Runs (e :: (body ++ [x])) m out (m₁.pop e.key) (added ++ [e.spanTo x.ts]) [] where
  run := by
    have hq : m₁.queue x.key = m.queue e.key ++ [e.ts] := by
      rw [hkey, h.queues, queue_push, if_pos rfl]
      exact List.append_nil _
    have hname : x.name = e.name := congrArg Prod.fst hkey
    have hdetail : x.detail = e.detail := congrArg Prod.snd hkey
    rw [List.foldl_cons, step_enter he, List.foldl_append, h.run, List.foldl_cons,
      step_exit hx hq, hkey, hname, hdetail, List.append_assoc]
    rfl
  queues := by
    intro k
    rw [queue_pop, h.queues, h.queues, queue_push, queue_push]
    by_cases hk : e.key = k
    · rw [if_pos hk, if_pos rfl, hk]
      simp
    · rw [if_neg hk, if_neg hk]
  keys hm := by
    rw [keys_pop]
    exact h.keys (nodup_keys_push hm)

theorem Returned.runs {rows : List (Row T)} (h : Returned rows spans) (m : OpenQ T) (out : List (Span T)) :
    ∃ m' added, Runs rows m out m' added [] ∧ added.Perm spans := by
  induction h generalizing m out with
  | none => exact ⟨m, [], ⟨congrArg _ (List.append_nil out).symm, fun k => (List.append_nil _).symm,
      fun hm => hm⟩, .refl _⟩
  | call e x he hx hkey _ _ ihbody ihrest =>
    obtain ⟨m₁, added, hbody, hinner⟩ := ihbody (m.push e.key e.ts) out
    have hcall := Runs.call he hx hkey hbody
    obtain ⟨m₂, added', hrest, hspans⟩ := ihrest (m₁.pop e.key) (out ++ (added ++ [e.spanTo x.ts]))
    refine ⟨m₂, added ++ [e.spanTo x.ts] ++ added', ?_, ?_⟩
    · have hrun := hcall.append hrest
      rw [List.cons_append, List.append_assoc] at hrun
      exact hrun
    · rw [List.append_assoc]
      apply List.perm_middle.trans
      exact (hinner.append hspans).cons _

theorem Traced.runs {endDefault : T} (h : Traced endDefault rows spans) (m : OpenQ T)
    (out : List (Span T)) : ∃ m' added left, Runs rows m out m' added left ∧
      (added ++ left.map (spanTo endDefault)).Perm spans := by
  induction h generalizing m out with
  | returned h =>
    obtain ⟨m', added, hrun, hspans⟩ := h.runs m out
    exact ⟨m', added, [], hrun, by rw [List.map_nil, List.append_nil]; exact hspans⟩
  | unfinished e hbefore he _ ih =>
    obtain ⟨m₁, added, hrun, hspans⟩ := hbefore.runs m out
    have henter := runs_enter he m₁ (out ++ added)
    obtain ⟨m₂, added', left, hrest, hinner⟩ := ih (m₁.push e.key e.ts) (out ++ added ++ [])
    have hall := hrun.append (henter.append hrest)
    refine ⟨m₂, _, _, hall, ?_⟩
    rw [List.nil_append, List.nil_append, List.singleton_append, List.map_cons, List.append_assoc]
    apply hspans.append
    exact List.perm_middle.trans (hinner.cons _)

/-! What is left open. -/

theorem pending_perm {m : OpenQ T} (hm : m.keys.Nodup) {left : List (Key × T)}
    (h : ∀ k, m.queue k = (left.filter fun p => p.1 = k).map Prod.snd) :
    m.pending.Perm left := by
  induction m generalizing left with
  | nil =>
    cases left with
    | nil => exact .refl _
    | cons p left =>
      have hp := h p.1
      rw [queue_nil, List.filter_cons, if_pos (decide_eq_true rfl)] at hp
      cases hp
  | cons e m ih =>
    obtain ⟨k, q⟩ := e
    obtain ⟨hk, hm⟩ := List.nodup_cons.1 hm
    have hq : q.map (fun t => (k, t)) = left.filter fun p => p.1 = k := by
      have hkey := h k
      rw [queue_cons, if_pos rfl] at hkey
      rw [hkey, List.map_map]
      have hsame : ∀ p ∈ left.filter fun p => p.1 = k, (k, p.2) = p := by
        intro p hp
        rw [← of_decide_eq_true (List.mem_filter.1 hp).2]
      exact (List.map_congr_left hsame).trans (List.map_id' _)
    have hrest : (OpenQ.pending m).Perm (left.filter fun p => !decide (p.1 = k)) := by
      apply ih hm
      intro l
      have hl := h l
      rw [queue_cons] at hl
      rw [List.filter_filter]
      by_cases hkl : k = l
      · have hnone : ∀ p ∈ left, ¬ (decide (p.1 = l) && !decide (p.1 = k)) = true := by
          intro p _
          rw [hkl]
          simp
        rw [← hkl, List.filter_eq_nil_iff.2 (hkl ▸ hnone)]
        exact queue_notMem hk
      · have hsame : ∀ p ∈ left, (decide (p.1 = l) && !decide (p.1 = k)) = decide (p.1 = l) := by
          intro p _
          by_cases hp : p.1 = l
          · rw [hp]
            simpa using Ne.symm hkl
          · rw [decide_eq_false hp, Bool.false_and]
        rw [if_neg hkl] at hl
        rw [hl, List.filter_congr hsame]
    have hsplit := List.filter_append_perm (fun p => decide (p.1 = k)) left
    rw [OpenQ.pending, List.flatMap_cons, hq]
    exact (hrest.append_left _).trans hsplit

/-- The calls of a process are found again from its marks, in whatever order the file has those of
different times. -/
theorem matchSpans_calls {T : Type} [LinearOrder T] {endDefault : T} {rows trace : List (Row T)}
    {spans : List (Span T)} (h : Traced endDefault trace spans)
    (htime : trace.Pairwise fun a b => a.ts ≤ b.ts) (hfile : SameFibers Row.ts rows trace) :
    (matchSpans rows endDefault).Perm spans := by
  obtain ⟨m, added, left, hrun, hspans⟩ := h.runs [] []
  have hpending : m.pending.Perm left := by
    apply pending_perm (hrun.keys List.nodup_nil)
    intro k
    exact hrun.queues k
  have hrows := hrun.run
  rw [List.nil_append] at hrows
  rw [matchSpans, sortBy_eq hfile htime, hrows]
  exact ((hpending.map _).append_left added).trans hspans

def mark (ts : Nat) (kind : Kind) (name : String) : Row Nat := ⟨ts, 381, "engine", kind, name, ""⟩

/-- A constructor that enters itself again through `super()`, below a call that never returns. -/
def superChain : List (Row Nat) :=
  [mark 0 .enter "core.proc", mark 1 .enter "core.ctor", mark 1 .enter "core.ctor",
    mark 5 .exit "core.ctor", mark 9 .exit "core.ctor"]

/-- The same marks in another order of the file. -/
def superChainFile : List (Row Nat) :=
  [mark 9 .exit "core.ctor", mark 5 .exit "core.ctor", mark 1 .enter "core.ctor",
    mark 0 .enter "core.proc", mark 1 .enter "core.ctor"]

theorem superChain_fibers : SameFibers Row.ts superChainFile superChain := by
  intro t
  have hsmall : ∀ t < 10, superChainFile.filter (fun r => decide (r.ts = t)) =
      superChain.filter fun r => decide (r.ts = t) := by decide
  by_cases ht : t < 10
  · exact hsmall t ht
  · have hfile : ∀ r ∈ superChainFile, r.ts < 10 := by decide
    have htrace : ∀ r ∈ superChain, r.ts < 10 := by decide
    have hnone : ∀ {l : List (Row Nat)}, (∀ r ∈ l, r.ts < 10) →
        l.filter (fun r => decide (r.ts = t)) = [] := by
      intro l hl
      apply List.filter_eq_nil_iff.2
      intro r hr he
      have hts := hl r hr
      rw [of_decide_eq_true he] at hts
      exact ht hts
    rw [hnone hfile, hnone htrace]

theorem matchSpans_calls_superChain :
    (matchSpans superChainFile 20).Perm
      [⟨"core.proc", "", 0, 20⟩, ⟨"core.ctor", "", 1, 9⟩, ⟨"core.ctor", "", 1, 5⟩] := by
  have hinner : Returned [mark 1 .enter "core.ctor", mark 5 .exit "core.ctor"]
      [⟨"core.ctor", "", 1, 5⟩] :=
    .call (mark 1 .enter "core.ctor") (mark 5 .exit "core.ctor") rfl rfl rfl .none .none
  have houter : Returned (mark 1 .enter "core.ctor" :: ([mark 1 .enter "core.ctor",
      mark 5 .exit "core.ctor"] ++ mark 9 .exit "core.ctor" :: []))
      [⟨"core.ctor", "", 1, 9⟩, ⟨"core.ctor", "", 1, 5⟩] :=
    .call (mark 1 .enter "core.ctor") (mark 9 .exit "core.ctor") rfl rfl rfl hinner .none
  have htrace : Traced 20 superChain
      [⟨"core.proc", "", 0, 20⟩, ⟨"core.ctor", "", 1, 9⟩, ⟨"core.ctor", "", 1, 5⟩] :=
    .unfinished (mark 0 .enter "core.proc") .none rfl (.returned houter)
  exact matchSpans_calls htrace (by decide) superChain_fibers

end LocalMind.BootTiming
