import LocalMind.Concurrent.Run
import LocalMind.Json.Python
import Mathlib.Logic.Function.Basic

namespace LocalMind.SpecLive
open Concurrent Json PyJson
set_option autoImplicit true

/-! The draft depth of a running engine, changed over HTTP. -/

/-- One depth for every batch size, within what everything was allocated for. -/
structure LiveLookup where
  maxK : Int
  k : Int
  nonneg : 0 ≤ k
  le : k ≤ maxK

/-- `dynamic_sd_lookup`: absent, a table by batch size, or the live depth. -/
inductive Lookup where
  | absent
  | table (ks : List Int)
  | live (l : LiveLookup)

/-- The depth that the environment asks for. -/
inductive EnvDepth where
  | unset
  | invalid
  | depth (k : Int)

def EnvDepth.get (maxK : Int) : EnvDepth → Int
  | .depth k => k
  | _ => maxK

theorem clamp_le (h : 0 < maxK) (k : Int) : max 0 (min k maxK) ≤ maxK :=
  max_le (le_of_lt h) (min_le_right k maxK)

/-- The lookup after the scheduler's `__init__`. -/
def wrapSchedulerInit (lookup : Option (List Int)) (maxK : Int) (env : EnvDepth) : Lookup :=
  match lookup with
  | none => .absent
  | some ks =>
    if h : 0 < maxK then
      .live ⟨maxK, max 0 (min (env.get maxK) maxK), le_max_left _ _, clamp_le h _⟩
    else .table ks

inductive Refusal where
  | disabled
  | outOfRange
  deriving DecidableEq

/-- The previous depth, the new one and the maximum, with the lookup that has the new one. -/
def setSpecTokens (lookup : Lookup) (k : Int) : Except Refusal ((Int × Int × Int) × Lookup) :=
  match lookup with
  | .live l =>
    if h : 0 ≤ k ∧ k ≤ l.maxK then .ok ((l.k, k, l.maxK), .live ⟨l.maxK, k, h.1, h.2⟩)
    else .error .outOfRange
  | _ => .error .disabled

/-- The depth and its maximum, if there is a live one. -/
def getSpecTokens : Lookup → Option (Int × Int)
  | .live l => some (l.k, l.maxK)
  | _ => none

/-- The depth of a step of the scheduler. -/
def scheduledDepth (lookup : Lookup) (batch : Nat) : Option Int :=
  match lookup with
  | .live l => some l.k
  | .table ks => ks[batch]?
  | .absent => none

/-- The depth that the body of a POST asks for, if it is JSON and has one. -/
def requestedDepth : Option (PyValue F) → Option Int
  | some (.dict m) =>
    match Fields.get m "num_speculative_tokens" with
    | some (.int k) => some k
    | _ => none
  | _ => none

inductive Response where
  | depth (current maximum : Int)
  | changed (previous current maximum : Int)
  | badBody
  | disabled
  | outOfRange (maximum : Int)
  | unread
  | unset
  deriving DecidableEq

def depthResponse : Option (Int × Int) → Response
  | some (current, maximum) => .depth current maximum
  | none => .disabled

/-- A call on the engine that waits in its queue. -/
inductive Utility where
  | get
  | set (k : Int)
  deriving DecidableEq

/-- A request between two of its steps, with the engine's reply when it has come. -/
inductive Call where
  | reading (reply : Option (Option (Int × Int)))
  | checking (k : Int) (reply : Option (Option (Int × Int)))
  | setting (k : Int) (reply : Option (Except Refusal (Int × Int × Int)))
  | answered (r : Response)
  | gone

/-- The reply to `get_spec_tokens`, if the request still waits for it. -/
def Call.replyGet (reply : Option (Int × Int)) : Call → Call
  | .reading none => .reading (some reply)
  | .checking k none => .checking k (some reply)
  | call => call

def Call.replySet (reply : Except Refusal (Int × Int × Int)) : Call → Call
  | .setting k none => .setting k (some reply)
  | call => call

structure State where
  lookup : Lookup
  queue : List (Nat × Utility)
  calls : Nat → Option Call

inductive Event (F : Type) where
  | get (c : Nat)
  | post (c : Nat) (body : Option (PyValue F))
  | execute
  | resume (c : Nat)
  /-- The call on the engine fails on the server's side, whatever the engine does with it. -/
  | lose (c : Nat)
  | abandon (c : Nat)
  | schedule (batch : Nat)

namespace State

def boot (lookup : Lookup) : State := ⟨lookup, [], fun _ => none⟩

def set (s : State) (c : Nat) (call : Call) : State :=
  { s with calls := Function.update s.calls c (some call) }

def send (s : State) (c : Nat) (u : Utility) : State := { s with queue := s.queue ++ [(c, u)] }

def deliver (s : State) (c : Nat) (reply : Call → Call) : State :=
  { s with calls := Function.update s.calls c ((s.calls c).map reply) }

/-- The engine executes the first call of its queue. -/
def execute (s : State) : Option State :=
  match s.queue with
  | [] => none
  | (c, .get) :: queue =>
    some ({ s with queue := queue }.deliver c (Call.replyGet (getSpecTokens s.lookup)))
  | (c, .set k) :: queue =>
    match setSpecTokens s.lookup k with
    | .ok (reply, lookup) =>
      some ({ s with queue := queue, lookup := lookup }.deliver c (Call.replySet (.ok reply)))
    | .error e => some ({ s with queue := queue }.deliver c (Call.replySet (.error e)))

def resume (s : State) (c : Nat) : Option State :=
  match s.calls c with
  | some (.reading (some reply)) => some (s.set c (.answered (depthResponse reply)))
  | some (.checking _ (some none)) => some (s.set c (.answered .disabled))
  | some (.checking k (some (some (_, maximum)))) =>
    if 0 ≤ k ∧ k ≤ maximum then some ((s.set c (.setting k none)).send c (.set k))
    else some (s.set c (.answered (.outOfRange maximum)))
  | some (.setting _ (some (.ok (previous, current, maximum)))) =>
    some (s.set c (.answered (.changed previous current maximum)))
  | some (.setting _ (some (.error _))) => some (s.set c (.answered .unset))
  | _ => none

def lose (s : State) (c : Nat) : Option State :=
  match s.calls c with
  | some (.reading none) => some (s.set c (.answered .unread))
  | some (.checking _ none) => some (s.set c (.answered .unread))
  | some (.setting _ none) => some (s.set c (.answered .unset))
  | _ => none

def abandon (s : State) (c : Nat) : Option State :=
  match s.calls c with
  | none => none
  | some (.answered _) => none
  | some _ => some (s.set c .gone)

def step (s : State) : Event F → Option State
  | .get c =>
    match s.calls c with
    | none => some ((s.set c (.reading none)).send c .get)
    | some _ => none
  | .post c body =>
    match s.calls c, requestedDepth body with
    | none, some k => some ((s.set c (.checking k none)).send c .get)
    | none, none => some (s.set c (.answered .badBody))
    | some _, _ => none
  | .execute => s.execute
  | .resume c => s.resume c
  | .lose c => s.lose c
  | .abandon c => s.abandon c
  | .schedule _ => some s

end State

/-! What a run has done to the depth. -/

/-- A change of the depth, by the request it was made for. -/
structure Change where
  call : Nat
  previous : Int
  current : Int
  deriving DecidableEq

def changeOf (p : State × Event F) : Option Change :=
  match p.2, p.1.queue with
  | .execute, (c, .set k) :: _ =>
    match setSpecTokens p.1.lookup k with
    | .ok ((previous, current, _), _) => some ⟨c, previous, current⟩
    | .error _ => none
  | _, _ => none

def changes (past : List (State × Event F)) : List Change := past.filterMap changeOf

/-- The depth after changes that each start from the one before. -/
def depthAfter (k : Int) : List Change → Option Int
  | [] => some k
  | change :: cs => if change.previous = k then depthAfter change.current cs else none

/-- The changes lead from one lookup to another, with the same maximum. -/
def LeadsTo (cs : List Change) : Lookup → Lookup → Prop
  | .live l, .live m => m.maxK = l.maxK ∧ depthAfter l.k cs = some m.k
  | .live _, _ => False
  | lookup, now => now = lookup ∧ cs = []

def changesFor (past : List (State × Event F)) (c : Nat) : List Change :=
  (changes past).filter fun d => d.call = c

/-- The calls on the engine that wait for a request. -/
def State.queued (s : State) (c : Nat) : List Utility :=
  (s.queue.filter fun p => p.1 = c).map Prod.snd

def Arrived (past : List (State × Event F)) (c : Nat) : Prop :=
  ∃ w, (w, .get c) ∈ past ∨ ∃ body, (w, .post c body) ∈ past

def Asked (past : List (State × Event F)) (c : Nat) (k : Int) : Prop :=
  ∃ w body, (w, .post c body) ∈ past ∧ requestedDepth body = some k

/-- The engine had this depth and maximum at some call after the request had come. -/
def Found (past : List (State × Event F)) (c : Nat) (reply : Option (Int × Int)) : Prop :=
  ∃ before u after, past = before ++ (u, .execute) :: after ∧ Arrived before c ∧
    getSpecTokens u.lookup = reply

/-- What a response says of the run, with the changes made for its request. -/
inductive Justified (past : List (State × Event F)) (c : Nat) : Response → List Change → Prop where
  | depth : Found past c (some (current, maximum)) →
    Justified past c (.depth current maximum) []
  | changed : Asked past c k → Found past c (some (previous, maximum)) →
    Justified past c (.changed previous k maximum) [⟨c, previous, k⟩]
  | badBody : Justified past c .badBody []
  | disabled : Found past c none → Justified past c .disabled []
  | outOfRange : Asked past c k → Found past c (some (current, maximum)) →
    ¬ (0 ≤ k ∧ k ≤ maximum) → Justified past c (.outOfRange maximum) []
  | unread : Justified past c .unread []
  | unset : cs.length ≤ 1 → Justified past c .unset cs

/-- Where a request stands: what waits for it in the queue, and what has been done for it. -/
inductive Tracked (past : List (State × Event F)) (c : Nat) :
    Option Call → List Utility → List Change → Prop where
  | fresh : Tracked past c none [] []
  | reading : Tracked past c (some (.reading none)) [.get] []
  | read : Found past c reply → Tracked past c (some (.reading (some reply))) [] []
  | checking : Asked past c k → Tracked past c (some (.checking k none)) [.get] []
  | checked : Asked past c k → Found past c reply →
    Tracked past c (some (.checking k (some reply))) [] []
  | setting : Asked past c k → Tracked past c (some (.setting k none)) [.set k] []
  | changed : Asked past c k → Found past c (some (previous, maximum)) →
    Tracked past c (some (.setting k (some (.ok (previous, k, maximum))))) [] [⟨c, previous, k⟩]
  | refused : Tracked past c (some (.setting k (some (.error e)))) [] []
  | answered : Justified past c r cs → Tracked past c (some (.answered r)) [] cs
  | unread : Tracked past c (some (.answered .unread)) [.get] []
  | unset : Asked past c k → Tracked past c (some (.answered .unset)) [.set k] []
  | gone : cs.length ≤ 1 → Tracked past c (some .gone) [] cs
  | left : (∀ k, u = .set k → Asked past c k) → Tracked past c (some .gone) [u] []

theorem setSpecTokens_ok (h : setSpecTokens l k = .ok ((previous, current, maximum), l')) :
    getSpecTokens l = some (previous, maximum) ∧ current = k ∧
      getSpecTokens l' = some (k, maximum) := by
  cases l with
  | absent => cases h
  | table ks => cases h
  | live l =>
    rw [setSpecTokens] at h
    split at h
    · cases h
      exact ⟨rfl, rfl, rfl⟩
    · cases h

theorem depthAfter_concat (h : depthAfter k cs = some change.previous) :
    depthAfter k (cs ++ [change]) = some change.current := by
  induction cs generalizing k with
  | nil =>
    cases h
    rw [List.nil_append, depthAfter, if_pos rfl, depthAfter]
  | cons d cs ih =>
    rw [depthAfter] at h
    rw [List.cons_append, depthAfter]
    split at h
    · rw [if_pos (by assumption)]
      exact ih h
    · cases h

theorem LeadsTo.refl (l : Lookup) : LeadsTo [] l l := by
  cases l with
  | absent => exact ⟨rfl, rfl⟩
  | table ks => exact ⟨rfl, rfl⟩
  | live l => exact ⟨rfl, rfl⟩

theorem LeadsTo.set (h : LeadsTo cs l m)
    (hset : setSpecTokens m k = .ok ((previous, current, maximum), m')) :
    LeadsTo (cs ++ [⟨c, previous, current⟩]) l m' := by
  cases l with
  | absent =>
    obtain ⟨rfl, rfl⟩ := h
    cases hset
  | table ks =>
    obtain ⟨rfl, rfl⟩ := h
    cases hset
  | live l =>
    cases m with
    | absent => cases hset
    | table ks => cases hset
    | live m =>
      rw [setSpecTokens] at hset
      split at hset
      · cases hset
        exact ⟨h.1, depthAfter_concat h.2⟩
      · cases hset

theorem Arrived.concat (h : Arrived past c) : Arrived (past ++ [p]) c := by
  obtain ⟨w, hget | ⟨body, hpost⟩⟩ := h
  · exact ⟨w, Or.inl (List.mem_append_left _ hget)⟩
  · exact ⟨w, Or.inr ⟨body, List.mem_append_left _ hpost⟩⟩

theorem Asked.concat (h : Asked past c k) : Asked (past ++ [p]) c k := by
  obtain ⟨w, body, hmem, hbody⟩ := h
  exact ⟨w, body, List.mem_append_left _ hmem, hbody⟩

theorem Found.concat (h : Found past c reply) : Found (past ++ [p]) c reply := by
  obtain ⟨before, u, after, rfl, harrived, hreply⟩ := h
  exact ⟨before, u, after ++ [p], by simp, harrived, hreply⟩

theorem Justified.concat (h : Justified past c r cs) : Justified (past ++ [p]) c r cs := by
  cases h with
  | depth hfound => exact .depth hfound.concat
  | changed hasked hfound => exact .changed hasked.concat hfound.concat
  | badBody => exact .badBody
  | disabled hfound => exact .disabled hfound.concat
  | outOfRange hasked hfound hout => exact .outOfRange hasked.concat hfound.concat hout
  | unread => exact .unread
  | unset hlen => exact .unset hlen

theorem Tracked.concat (h : Tracked past c call q cs) : Tracked (past ++ [p]) c call q cs := by
  cases h with
  | fresh => exact .fresh
  | reading => exact .reading
  | read hfound => exact .read hfound.concat
  | checking hasked => exact .checking hasked.concat
  | checked hasked hfound => exact .checked hasked.concat hfound.concat
  | setting hasked => exact .setting hasked.concat
  | changed hasked hfound => exact .changed hasked.concat hfound.concat
  | refused => exact .refused
  | answered hjust => exact .answered hjust.concat
  | unread => exact .unread
  | unset hasked => exact .unset hasked.concat
  | gone hlen => exact .gone hlen
  | left hasked => exact .left fun k hk => (hasked k hk).concat

/-- What a step does to one request, its calls in the queue and its changes. -/
inductive Moved (u : State) : Event F → Nat → Option Call → List Utility → Option Call →
    List Utility → List Change → Prop where
  | other : Moved u e c call q call q []
  | get : Moved u (.get c) c none q (some (.reading none)) (q ++ [.get]) []
  | post : requestedDepth body = some k →
    Moved u (.post c body) c none q (some (.checking k none)) (q ++ [.get]) []
  | badBody : Moved u (.post c body) c none q (some (.answered .badBody)) q []
  | gotten : Moved u .execute c call (.get :: q)
    (call.map (Call.replyGet (getSpecTokens u.lookup))) q []
  | done : setSpecTokens u.lookup k = .ok ((previous, current, maximum), l) →
    Moved u .execute c call (.set k :: q)
      (call.map (Call.replySet (.ok (previous, current, maximum)))) q [⟨c, previous, current⟩]
  | refused : Moved u .execute c call (.set k :: q) (call.map (Call.replySet (.error r))) q []
  | read : Moved u (.resume c) c (some (.reading (some reply))) q
    (some (.answered (depthResponse reply))) q []
  | static : Moved u (.resume c) c (some (.checking k (some none))) q
    (some (.answered .disabled)) q []
  | checked : Moved u (.resume c) c (some (.checking k (some (some reply)))) q
    (some (.setting k none)) (q ++ [.set k]) []
  | outOfRange : ¬ (0 ≤ k ∧ k ≤ maximum) →
    Moved u (.resume c) c (some (.checking k (some (some (current, maximum))))) q
      (some (.answered (.outOfRange maximum))) q []
  | changed : Moved u (.resume c) c (some (.setting k (some (.ok (previous, current, maximum))))) q
    (some (.answered (.changed previous current maximum))) q []
  | unset : Moved u (.resume c) c (some (.setting k (some (.error r)))) q
    (some (.answered .unset)) q []
  | lostRead : Moved u (.lose c) c (some (.reading none)) q (some (.answered .unread)) q []
  | lostCheck : Moved u (.lose c) c (some (.checking k none)) q (some (.answered .unread)) q []
  | lostSet : Moved u (.lose c) c (some (.setting k none)) q (some (.answered .unset)) q []
  | abandoned : (∀ r, call ≠ .answered r) →
    Moved u (.abandon c) c (some call) q (some .gone) q []

theorem calls_set (s : State) (c d : Nat) (call : Call) :
    (s.set c call).calls d = if d = c then some call else s.calls d :=
  Function.update_apply _ _ _ _

theorem calls_send (s : State) (c : Nat) (w : Utility) : (s.send c w).calls = s.calls := rfl

theorem calls_deliver (s : State) (c d : Nat) (reply : Call → Call) :
    (s.deliver c reply).calls d = if d = c then (s.calls c).map reply else s.calls d :=
  Function.update_apply _ _ _ _

theorem queued_set (s : State) (c d : Nat) (call : Call) :
    (s.set c call).queued d = s.queued d := rfl

theorem queued_send (s : State) (c d : Nat) (w : Utility) :
    (s.send c w).queued d = if d = c then s.queued d ++ [w] else s.queued d := by
  by_cases h : d = c
  · simp [State.queued, State.send, h]
  · simp [State.queued, State.send, h, Ne.symm h]

theorem queued_of_head {s : State} (h : s.queue = (c, w) :: queue) (d : Nat) :
    s.queued d = if d = c then w :: ((queue.filter fun p => p.1 = d).map Prod.snd)
      else (queue.filter fun p => p.1 = d).map Prod.snd := by
  by_cases hd : d = c
  · simp [State.queued, h, hd]
  · simp [State.queued, h, hd, Ne.symm hd]

/-- The changes of a step for one request. -/
def changeFor (u : State) (e : Event F) (c : Nat) : List Change :=
  (changeOf (u, e)).toList.filter fun d => d.call = c

theorem changesFor_concat (past : List (State × Event F)) (u : State) (e : Event F) (c : Nat) :
    changesFor (past ++ [(u, e)]) c = changesFor past c ++ changeFor u e c := by
  rw [changesFor, changes, filterMap_concat past rfl, List.filter_append]
  rfl

theorem moved_execute (h : u.execute = some u') (c : Nat) :
    Moved u (.execute : Event F) c (u.calls c) (u.queued c) (u'.calls c) (u'.queued c)
      (changeFor u (.execute : Event F) c) := by
  rw [State.execute] at h
  split at h
  · cases h
  · rename_i d queue hqueue
    cases h
    have hchange : changeFor u (.execute : Event F) c = [] := by
      simp [changeFor, changeOf, hqueue]
    rw [hchange, calls_deliver, queued_of_head hqueue]
    by_cases hc : c = d
    · subst hc
      rw [if_pos rfl, if_pos rfl]
      exact .gotten
    · rw [if_neg hc, if_neg hc]
      exact .other
  · rename_i d k queue hqueue
    rw [queued_of_head hqueue]
    split at h
    · rename_i reply l hset
      obtain ⟨previous, current, maximum⟩ := reply
      cases h
      have hchange : changeFor u (.execute : Event F) c =
          if c = d then [⟨d, previous, current⟩] else [] := by
        by_cases hc : c = d
        · simp [changeFor, changeOf, hqueue, hset, hc]
        · simp [changeFor, changeOf, hqueue, hset, hc, Ne.symm hc]
      rw [hchange, calls_deliver]
      by_cases hc : c = d
      · subst hc
        rw [if_pos rfl, if_pos rfl, if_pos rfl]
        exact .done hset
      · rw [if_neg hc, if_neg hc, if_neg hc]
        exact .other
    · rename_i r hset
      cases h
      have hchange : changeFor u (.execute : Event F) c = [] := by
        simp [changeFor, changeOf, hqueue, hset]
      rw [hchange, calls_deliver]
      by_cases hc : c = d
      · subst hc
        rw [if_pos rfl, if_pos rfl]
        exact .refused
      · rw [if_neg hc, if_neg hc]
        exact .other

theorem changeFor_other {e : Event F} (h : e ≠ .execute) : changeFor u e c = [] := by
  cases e with
  | execute => exact absurd rfl h
  | _ => rfl

/-- A step that only gives one request another state. -/
theorem moved_set {e : Event F} (he : e ≠ .execute) (c d : Nat) (call : Call)
    (h : Moved u e d (u.calls d) (u.queued d) (some call) (u.queued d) []) :
    Moved u e c (u.calls c) (u.queued c) ((u.set d call).calls c) ((u.set d call).queued c)
      (changeFor u e c) := by
  rw [changeFor_other he, calls_set, queued_set]
  by_cases hc : c = d
  · subst hc
    rw [if_pos rfl]
    exact h
  · rw [if_neg hc]
    exact .other

/-- A step that also sends a call to the engine. -/
theorem moved_send {e : Event F} (he : e ≠ .execute) (c d : Nat) (call : Call) (w : Utility)
    (h : Moved u e d (u.calls d) (u.queued d) (some call) (u.queued d ++ [w]) []) :
    Moved u e c (u.calls c) (u.queued c) (((u.set d call).send d w).calls c)
      (((u.set d call).send d w).queued c) (changeFor u e c) := by
  rw [changeFor_other he, calls_send, calls_set, queued_send, queued_set]
  by_cases hc : c = d
  · subst hc
    rw [if_pos rfl, if_pos rfl]
    exact h
  · rw [if_neg hc, if_neg hc]
    exact .other

theorem moved_resume (h : u.resume d = some u') (c : Nat) :
    Moved u (.resume d : Event F) c (u.calls c) (u.queued c) (u'.calls c) (u'.queued c)
      (changeFor u (.resume d : Event F) c) := by
  have he : (.resume d : Event F) ≠ .execute := by simp
  rw [State.resume] at h
  split at h
  · rename_i reply hcall
    cases h
    apply moved_set he
    rw [hcall]
    exact .read
  · rename_i k hcall
    cases h
    apply moved_set he
    rw [hcall]
    exact .static
  · rename_i k current maximum hcall
    split at h
    · cases h
      apply moved_send he
      rw [hcall]
      exact .checked
    · cases h
      apply moved_set he
      rw [hcall]
      exact .outOfRange (by assumption)
  · rename_i k previous current maximum hcall
    cases h
    apply moved_set he
    rw [hcall]
    exact .changed
  · rename_i k r hcall
    cases h
    apply moved_set he
    rw [hcall]
    exact .unset
  · cases h

theorem moved_lose (h : u.lose d = some u') (c : Nat) :
    Moved u (.lose d : Event F) c (u.calls c) (u.queued c) (u'.calls c) (u'.queued c)
      (changeFor u (.lose d : Event F) c) := by
  have he : (.lose d : Event F) ≠ .execute := by simp
  rw [State.lose] at h
  split at h
  · rename_i hcall
    cases h
    apply moved_set he
    rw [hcall]
    exact .lostRead
  · rename_i k hcall
    cases h
    apply moved_set he
    rw [hcall]
    exact .lostCheck
  · rename_i k hcall
    cases h
    apply moved_set he
    rw [hcall]
    exact .lostSet
  · cases h

theorem moved_abandon (h : u.abandon d = some u') (c : Nat) :
    Moved u (.abandon d : Event F) c (u.calls c) (u.queued c) (u'.calls c) (u'.queued c)
      (changeFor u (.abandon d : Event F) c) := by
  rw [State.abandon] at h
  split at h
  · cases h
  · cases h
  · rename_i call hanswered hcall
    cases h
    apply moved_set (by simp)
    rw [hcall]
    apply Moved.abandoned
    rintro r rfl
    exact hanswered r rfl

theorem step_moved (h : State.step u (e : Event F) = some u') (c : Nat) :
    Moved u e c (u.calls c) (u.queued c) (u'.calls c) (u'.queued c) (changeFor u e c) := by
  cases e with
  | get d =>
    rw [State.step] at h
    split at h
    · rename_i hcall
      cases h
      apply moved_send (by simp)
      rw [hcall]
      exact .get
    · cases h
  | post d body =>
    rw [State.step] at h
    split at h
    · rename_i k hcall hbody
      cases h
      apply moved_send (by simp)
      rw [hcall]
      exact .post hbody
    · rename_i hcall hbody
      cases h
      apply moved_set (by simp)
      rw [hcall]
      exact .badBody
    · cases h
  | execute => exact moved_execute h c
  | resume d => exact moved_resume h c
  | lose d => exact moved_lose h c
  | abandon d => exact moved_abandon h c
  | schedule batch =>
    cases h
    exact .other

theorem Found.now (past : List (State × Event F)) (u : State) (h : Arrived past c) :
    Found (past ++ [(u, .execute)]) c (getSpecTokens u.lookup) :=
  ⟨past, u, [], rfl, h, rfl⟩

theorem tracked_read (h : Found past c reply) :
    Justified past c (depthResponse reply) [] := by
  cases reply with
  | none => exact .disabled h
  | some reply =>
    obtain ⟨current, maximum⟩ := reply
    exact .depth h

theorem tracked_abandoned (h : Tracked past c (some call) q cs) (hcall : ∀ r, call ≠ .answered r) :
    Tracked past c (some .gone) q cs := by
  cases h with
  | reading => exact .left fun k hk => by cases hk
  | read hfound => exact .gone (Nat.zero_le 1)
  | checking hasked => exact .left fun k hk => by cases hk
  | checked hasked hfound => exact .gone (Nat.zero_le 1)
  | @setting k hasked =>
    apply Tracked.left
    intro j hj
    cases hj
    exact hasked
  | changed hasked hfound => exact .gone le_rfl
  | refused => exact .gone (Nat.zero_le 1)
  | answered hjust => exact absurd rfl (hcall _)
  | unread => exact absurd rfl (hcall _)
  | unset hasked => exact absurd rfl (hcall _)
  | gone hlen => exact .gone hlen
  | left hasked => exact .left hasked

theorem tracked_gotten (h : Tracked past c call (.get :: q) cs)
    (hfound : Found past c reply) :
    Tracked past c (call.map (Call.replyGet reply)) q cs := by
  cases h with
  | reading => exact .read hfound
  | checking hasked => exact .checked hasked hfound
  | unread => exact .answered .unread
  | left hasked => exact .gone (Nat.zero_le 1)

theorem tracked_done (h : Tracked past c call (.set k :: q) cs)
    (hfound : Found past c (some (previous, maximum))) :
    Tracked past c (call.map (Call.replySet (.ok (previous, k, maximum)))) q
      (cs ++ [⟨c, previous, k⟩]) := by
  cases h with
  | setting hasked => exact .changed hasked hfound
  | unset hasked => exact .answered (.unset le_rfl)
  | left hasked => exact .gone le_rfl

theorem tracked_refused (h : Tracked past c call (.set k :: q) cs) :
    Tracked past c (call.map (Call.replySet (.error r))) q cs := by
  cases h with
  | setting hasked => exact .refused
  | unset hasked => exact .answered (.unset (Nat.zero_le 1))
  | left hasked => exact .gone (Nat.zero_le 1)

/-- One step keeps where each request stands. -/
theorem tracked_moved {e : Event F} (h : Tracked past c call q cs)
    (hcome : call ≠ none → Arrived past c) (hmove : Moved u e c call q call' q' new) :
    Tracked (past ++ [(u, e)]) c call' q' (cs ++ new) := by
  have hkept := h.concat (p := (u, e))
  cases hmove with
  | other =>
    rw [List.append_nil]
    exact hkept
  | get =>
    cases hkept
    exact .reading
  | post hbody =>
    cases hkept
    exact .checking ⟨u, _, List.mem_append_right _ List.mem_cons_self, hbody⟩
  | badBody =>
    cases hkept
    exact .answered .badBody
  | gotten =>
    rw [List.append_nil]
    apply tracked_gotten hkept
    apply Found.now
    apply hcome
    rintro rfl
    cases h
  | done hset =>
    obtain ⟨hnow, rfl, -⟩ := setSpecTokens_ok hset
    apply tracked_done hkept
    rw [← hnow]
    apply Found.now
    apply hcome
    rintro rfl
    cases h
  | refused =>
    rw [List.append_nil]
    exact tracked_refused hkept
  | read =>
    cases hkept with
    | read hfound => exact .answered (tracked_read hfound)
  | static =>
    cases hkept with
    | checked hasked hfound => exact .answered (.disabled hfound)
  | checked =>
    cases hkept with
    | checked hasked hfound => exact .setting hasked
  | outOfRange hout =>
    cases hkept with
    | checked hasked hfound => exact .answered (.outOfRange hasked hfound hout)
  | changed =>
    cases hkept with
    | changed hasked hfound => exact .answered (.changed hasked hfound)
  | unset =>
    cases hkept with
    | refused => exact .answered (.unset (Nat.zero_le 1))
  | lostRead =>
    cases hkept
    exact .unread
  | lostCheck =>
    cases hkept
    exact .unread
  | lostSet =>
    cases hkept with
    | setting hasked => exact .unset hasked
  | abandoned hcall =>
    rw [List.append_nil]
    exact tracked_abandoned hkept hcall

theorem arrived_step {e : Event F} (hmove : Moved u e c call q call' q' new)
    (hcome : call ≠ none → Arrived past c) (hcall : call' ≠ none) :
    Arrived (past ++ [(u, e)]) c := by
  cases hmove with
  | get => exact ⟨u, Or.inl (List.mem_append_right _ List.mem_cons_self)⟩
  | post hbody => exact ⟨u, Or.inr ⟨_, List.mem_append_right _ List.mem_cons_self⟩⟩
  | badBody => exact ⟨u, Or.inr ⟨_, List.mem_append_right _ List.mem_cons_self⟩⟩
  | other => exact (hcome hcall).concat
  | gotten => exact (hcome fun h => hcall (by rw [h]; rfl)).concat
  | done hset => exact (hcome fun h => hcall (by rw [h]; rfl)).concat
  | refused => exact (hcome fun h => hcall (by rw [h]; rfl)).concat
  | _ => exact (hcome (by simp)).concat

theorem lookup_step {e : Event F} (he : e ≠ .execute) (h : State.step u e = some u') :
    u'.lookup = u.lookup := by
  cases e with
  | get c => grind [State.step, State.set, State.send]
  | post c body => grind [State.step, State.set, State.send]
  | execute => exact absurd rfl he
  | resume c => grind [State.step, State.resume, State.set, State.send]
  | lose c => grind [State.step, State.lose, State.set]
  | abandon c => grind [State.step, State.abandon, State.set]
  | schedule batch =>
    cases h
    rfl

theorem lookup_execute (h : u.execute = some u') :
    changeOf (u, (.execute : Event F)) = none ∧ u'.lookup = u.lookup ∨
      ∃ c k previous current maximum,
        setSpecTokens u.lookup k = .ok ((previous, current, maximum), u'.lookup) ∧
          changeOf (u, (.execute : Event F)) = some ⟨c, previous, current⟩ := by
  rw [State.execute] at h
  split at h
  · cases h
  · rename_i hqueue
    cases h
    exact Or.inl ⟨by simp [changeOf, hqueue], rfl⟩
  · rename_i c k queue hqueue
    split at h
    · rename_i reply m hset
      obtain ⟨previous, current, maximum⟩ := reply
      cases h
      exact Or.inr ⟨c, k, previous, current, maximum, hset, by simp [changeOf, hqueue, hset]⟩
    · rename_i r hset
      cases h
      exact Or.inl ⟨by simp [changeOf, hqueue, hset], rfl⟩

theorem leadsTo_step {e : Event F} (h : LeadsTo (changes past) l u.lookup)
    (hstep : State.step u e = some u') : LeadsTo (changes (past ++ [(u, e)])) l u'.lookup := by
  rw [changes, filterMap_concat past rfl]
  by_cases he : e = .execute
  · subst he
    obtain ⟨hchange, hlookup⟩ | ⟨c, k, previous, current, maximum, hset, hchange⟩ :=
      lookup_execute (F := F) hstep
    · rw [hchange, Option.toList_none, List.append_nil, hlookup]
      exact h
    · rw [hchange, Option.toList_some]
      exact h.set hset
  · have hchange : changeOf (u, e) = none := by
      cases e with
      | execute => exact absurd rfl he
      | _ => rfl
    rw [hchange, Option.toList_none, List.append_nil, lookup_step he hstep]
    exact h

/-- What a run from a lookup has kept. -/
structure Recorded (lookup : Lookup) (past : List (State × Event F)) (s : State) : Prop where
  leads : LeadsTo (changes past) lookup s.lookup
  led : ∀ before u e after, past = before ++ (u, e) :: after →
    LeadsTo (changes before) lookup u.lookup
  tracked : ∀ c, Tracked past c (s.calls c) (s.queued c) (changesFor past c)
  arrived : ∀ c, s.calls c ≠ none → Arrived past c

theorem recorded_boot (lookup : Lookup) :
    Recorded lookup ([] : List (State × Event F)) (.boot lookup) where
  leads := LeadsTo.refl lookup
  led before u e after h := by simp at h
  tracked c := .fresh
  arrived c h := absurd rfl h

theorem recorded_step {e : Event F} (h : Recorded lookup past u)
    (hstep : State.step u e = some u') : Recorded lookup (past ++ [(u, e)]) u' where
  leads := leadsTo_step h.leads hstep
  led before v f after hsplit := by
    obtain rfl | ⟨after, last, rfl⟩ := List.eq_nil_or_concat after
    · obtain ⟨rfl, hlast⟩ := List.append_inj' hsplit rfl
      cases hlast
      exact h.leads
    · rw [← List.concat_cons, List.append_concat, List.concat_eq_append] at hsplit
      exact h.led before v f after (List.append_inj' hsplit rfl).1
  tracked c := by
    rw [changesFor_concat]
    exact tracked_moved (h.tracked c) (h.arrived c) (step_moved hstep c)
  arrived c hcall := arrived_step (step_moved hstep c) (h.arrived c) hcall

theorem run_recorded {es : List (Event F)}
    (hrun : run State.step (.boot lookup) es = some t) :
    Recorded lookup (steps State.step (.boot lookup) es) t :=
  run_records (recorded_boot lookup) hrun fun _ _ _ _ => recorded_step

/-- In every order of steps, what a response says of the depth was so, and was done for it. -/
theorem answers_justified {es : List (Event F)}
    (hrun : run State.step (.boot lookup) es = some t) (h : t.calls c = some (.answered r)) :
    Justified (steps State.step (.boot lookup) es) c r
      (changesFor (steps State.step (.boot lookup) es) c) := by
  have htracked := (run_recorded hrun).tracked c
  rw [h] at htracked
  generalize changesFor (steps State.step (.boot lookup) es) c = cs at htracked
  generalize t.queued c = q at htracked
  cases htracked with
  | answered hjust => exact hjust
  | unread => exact .unread
  | unset hasked => exact .unset (Nat.zero_le 1)

def loweredEvents : List (Event Nat) :=
  [.post 1 (some (.dict [("num_speculative_tokens", .int 2)])), .execute, .resume 1, .execute,
    .resume 1]

def threeDeep : Lookup := wrapSchedulerInit (some [3, 1]) 3 .unset

theorem answers_justified_lowered :
    Justified (steps State.step (.boot threeDeep) loweredEvents) 1 (.changed 3 2 3)
      (changesFor (steps State.step (.boot threeDeep) loweredEvents) 1) :=
  answers_justified rfl rfl

theorem LeadsTo.live (h : LeadsTo cs (.live l) m) :
    ∃ n : LiveLookup, m = .live n ∧ n.maxK = l.maxK ∧ depthAfter l.k cs = some n.k := by
  cases m with
  | absent => cases h
  | table ks => cases h
  | live n => exact ⟨n, rfl, h.1, h.2⟩

/-- A step of the scheduler goes by the last change of the depth, within the maximum. -/
theorem schedules_last_change {es : List (Event F)} (hmax : 0 < maxK)
    (hrun : run State.step (.boot (wrapSchedulerInit (some ks) maxK env)) es = some t)
    (hsplit : steps State.step (.boot (wrapSchedulerInit (some ks) maxK env)) es =
      before ++ (u, .schedule batch) :: after) :
    ∃ k, scheduledDepth u.lookup batch = some k ∧
      depthAfter (max 0 (min (env.get maxK) maxK)) (changes before) = some k ∧ 0 ≤ k ∧ k ≤ maxK := by
  have hled := (run_recorded hrun).led before u _ after hsplit
  rw [wrapSchedulerInit, dif_pos hmax] at hled
  obtain ⟨n, hn, hmaximum, hafter⟩ := hled.live
  refine ⟨n.k, ?_, hafter, n.nonneg, ?_⟩
  · rw [hn, scheduledDepth]
  · exact le_of_le_of_eq n.le hmaximum

def lowered : State :=
  (run State.step (.boot threeDeep) loweredEvents).getD (.boot threeDeep)

theorem schedules_last_change_lowered :
    ∃ k, scheduledDepth lowered.lookup 1 = some k ∧
      depthAfter (max 0 (min (EnvDepth.unset.get 3) 3))
        (changes (steps State.step (.boot threeDeep) loweredEvents)) = some k ∧ 0 ≤ k ∧ k ≤ 3 :=
  schedules_last_change (by decide : (0 : Int) < 3) rfl
    (rfl : steps State.step (.boot threeDeep) (loweredEvents ++ [.schedule 1]) =
      steps State.step (.boot threeDeep) loweredEvents ++ (lowered, .schedule 1) :: [])

end LocalMind.SpecLive
