import LocalMind.Proxy.Admission

namespace LocalMind.Admission
open Concurrent
set_option autoImplicit true

/-- The permit of an exchange that was let in, where there is a limit. -/
def admitted (cfg : Config) : List Resource :=
  if 0 < cfg.maxConcurrentRequests then [.permit] else []

/-- What an exchange holds, by where it stands. -/
def Exchange.Sound (cfg : Config) (x : Exchange) : Prop :=
  match x.stage with
  | .reading | .selecting => x.held = [.gauge]
  | .routing n | .probing n | .scraping n _ => x.held = [.claim n, .gauge]
  | .admitting n => x.held = [.claim n, .gauge] ∧ route (cfg.node n) x.request = .forward
  | .forwarding n => x.held = admitted cfg ++ [.claim n, .gauge]
  | .streaming n => x.held = admitted cfg ++ [.claim n]
  | .closing answer => x.held.Nodup ∧ (.permit ∈ x.held → 0 < cfg.maxConcurrentRequests) ∧
    ∀ m, answer = some (.atCapacity m) → ∃ n, route (cfg.node n) x.request = .forward

/-- The exchange was answered with 429. -/
def Exchange.turnedAway (x : Exchange) : Bool :=
  match x.stage with
  | .closing (some (.atCapacity _)) => true
  | _ => false

theorem admitted_nodup (cfg : Config) (held : List Resource) (h : (.permit :: held).Nodup) :
    (admitted cfg ++ held).Nodup := by
  rw [admitted]
  split
  · exact h
  · exact (List.nodup_cons.1 h).2

theorem mem_admitted {cfg : Config} {held : List Resource} (hno : .permit ∉ held)
    (h : .permit ∈ admitted cfg ++ held) : 0 < cfg.maxConcurrentRequests := by
  rw [admitted] at h
  split at h
  · assumption
  · exact absurd h hno

theorem Exchange.Sound.nodup {x : Exchange} (h : x.Sound cfg) : x.held.Nodup := by
  rw [Exchange.Sound] at h
  split at h
  · rw [h]; decide
  · rw [h]; decide
  · rw [h]; simp
  · rw [h]; simp
  · rw [h]; simp
  · rw [h.1]; simp
  · rw [h]; exact admitted_nodup cfg _ (by simp)
  · rw [h]; exact admitted_nodup cfg _ (by simp)
  · exact h.1

theorem Exchange.Sound.limited {x : Exchange} (h : x.Sound cfg) (hmem : .permit ∈ x.held) :
    0 < cfg.maxConcurrentRequests := by
  rw [Exchange.Sound] at h
  split at h
  · rw [h] at hmem; simp at hmem
  · rw [h] at hmem; simp at hmem
  · rw [h] at hmem; simp at hmem
  · rw [h] at hmem; simp at hmem
  · rw [h] at hmem; simp at hmem
  · rw [h.1] at hmem; simp at hmem
  · rw [h] at hmem; exact mem_admitted (by simp) hmem
  · rw [h] at hmem; exact mem_admitted (by simp) hmem
  · exact h.2.1 hmem

/-- An exchange may be closed with what it holds. -/
theorem Exchange.Sound.closing {x : Exchange} (h : x.Sound cfg)
    (hanswer : ∀ m, answer = some (.atCapacity m) → ∃ n, route (cfg.node n) x.request = .forward) :
    Exchange.Sound cfg { x with stage := .closing answer } :=
  ⟨h.nodup, h.limited, hanswer⟩

/-- Every counter is what the exchanges hold of it. -/
structure Balanced (cfg : Config) (s : State) : Prop where
  concurrent : s.concurrent = holdings Exchange.held s.exchanges .gauge
  active : ∀ n, s.active n = holdings Exchange.held s.exchanges (.claim n)
  permits : ∀ k, s.permits = some k →
    k + holdings Exchange.held s.exchanges .permit = cfg.maxConcurrentRequests
  armed : s.permits.isSome = decide (0 < cfg.maxConcurrentRequests)
  rejected : s.rejected = s.exchanges.countP Exchange.turnedAway
  sound : ∀ x ∈ s.exchanges, x.Sound cfg

theorem countP_set {l : List α} (p : α → Bool) (h : l[c]? = some a) (b : α) :
    (l.set c b).countP p + (if p a then 1 else 0) = l.countP p + (if p b then 1 else 0) := by
  have hsum : ∀ l : List α, l.countP p = (l.map fun a => if p a then 1 else 0).sum := by
    intro l
    induction l with
    | nil => rfl
    | cons a l ih => rw [List.countP_cons, ih, List.map_cons, List.sum_cons, Nat.add_comm]
  rw [hsum, hsum]
  exact sum_map_set (fun a => if p a then 1 else 0) h b

/-- An exchange goes on, and the counters go with what it holds. -/
theorem Balanced.set {s s' : State} {x x' : Exchange} (h : Balanced cfg s)
    (hx : s.exchanges[c]? = some x) (hexchanges : s'.exchanges = s.exchanges.set c x')
    (hsound : x'.Sound cfg)
    (hconcurrent : s'.concurrent + x.held.count .gauge = s.concurrent + x'.held.count .gauge)
    (hactive : ∀ n,
      s'.active n + x.held.count (.claim n) = s.active n + x'.held.count (.claim n))
    (hpermits : ∀ k', s'.permits = some k' → ∃ k, s.permits = some k ∧
      k' + x'.held.count .permit = k + x.held.count .permit)
    (harmed : s'.permits.isSome = s.permits.isSome)
    (hrejected : s'.rejected + (if x.turnedAway then 1 else 0) =
      s.rejected + (if x'.turnedAway then 1 else 0)) : Balanced cfg s' := by
  constructor
  · have hgauge := holdings_set Exchange.held hx x' .gauge
    have := h.concurrent
    rw [hexchanges]
    omega
  · intro n
    have hclaim := holdings_set Exchange.held hx x' (.claim n)
    have := h.active n
    have := hactive n
    rw [hexchanges]
    omega
  · intro k' hk'
    have hpermit := holdings_set Exchange.held hx x' .permit
    obtain ⟨k, hk, hsame⟩ := hpermits k' hk'
    have := h.permits k hk
    rw [hexchanges]
    omega
  · rw [harmed, h.armed]
  · have hturned := countP_set Exchange.turnedAway hx x'
    have hsame : s'.rejected + (if x.turnedAway then 1 else 0) =
        (s.exchanges.set c x').countP Exchange.turnedAway + (if x.turnedAway then 1 else 0) := by
      rw [hrejected, h.rejected]
      exact_mod_cast hturned.symm
    rw [hexchanges]
    exact add_right_cancel hsame
  · intro y hy
    rw [hexchanges] at hy
    obtain hy | rfl := List.mem_or_eq_of_mem_set hy
    · exact h.sound y hy
    · exact hsound

theorem Balanced.move {s : State} {x : Exchange} (h : Balanced cfg s)
    (hx : s.exchanges[c]? = some x) (hsound : Exchange.Sound cfg { x with stage := stage })
    (hturned : Exchange.turnedAway { x with stage := stage } = x.turnedAway) :
    Balanced cfg (s.move c x stage) :=
  h.set hx rfl hsound rfl (fun _ => rfl) (fun k hk => ⟨k, hk, rfl⟩) rfl (by rw [hturned]; rfl)

/-- An exchange that was not turned away is closed with another answer. -/
theorem Balanced.close {s : State} {x : Exchange} (h : Balanced cfg s)
    (hx : s.exchanges[c]? = some x) (hopen : x.turnedAway = false)
    (hanswer : ∀ m, answer ≠ some (.atCapacity m)) :
    Balanced cfg (s.move c x (.closing answer)) := by
  refine h.move hx ((h.sound x (List.mem_of_getElem? hx)).closing ?_) ?_
  · intro m hm
    exact absurd hm (hanswer m)
  · rw [hopen, Exchange.turnedAway]
    split
    · next m hm => exact absurd (Stage.closing.inj hm) (hanswer m)
    · rfl

theorem Balanced.gainClaim {s : State} {x : Exchange} (h : Balanced cfg s)
    (hx : s.exchanges[c]? = some x) (hstage : x.stage = .selecting) :
    Balanced cfg (s.gain c x (.claim n) (.routing n)) := by
  have hsound := h.sound x (List.mem_of_getElem? hx)
  rw [Exchange.Sound, hstage] at hsound
  refine h.set hx rfl ?_ ?_ (fun m => ?_) (fun k hk => ⟨k, hk, ?_⟩) rfl ?_
  · simp only [Exchange.Sound, hsound]
  · simp [State.gain, State.put, State.take]
  · by_cases hm : m = n
    · subst hm
      simp [State.gain, State.put, State.take, hsound]
    · simp [State.gain, State.put, State.take, hm, Ne.symm hm]
  · simp
  · simp [Exchange.turnedAway, State.gain, State.put, State.take, hstage]

theorem Balanced.gainPermit {s : State} {x : Exchange} (h : Balanced cfg s)
    (hx : s.exchanges[c]? = some x) (hstage : x.stage = .admitting n)
    (hlimit : 0 < cfg.maxConcurrentRequests) (hpermits : s.permits = some (k + 1)) :
    Balanced cfg (s.gain c x .permit (.forwarding n)) := by
  have hsound := h.sound x (List.mem_of_getElem? hx)
  rw [Exchange.Sound, hstage] at hsound
  refine h.set hx rfl ?_ ?_ (fun m => ?_) (fun k' hk' => ⟨k + 1, hpermits, ?_⟩) ?_ ?_
  · simp [Exchange.Sound, hsound.1, admitted, hlimit]
  · simp [State.gain, State.put, State.take]
  · simp [State.gain, State.put, State.take]
  · simp only [State.gain, State.put, State.take, hpermits] at hk'
    cases hk'
    simp [hsound.1]
  · simp [State.gain, State.put, State.take]
  · simp [Exchange.turnedAway, State.gain, State.put, State.take, hstage]

/-- The counters after an exchange drops what it is about to drop. -/
theorem Balanced.give {s : State} {x : Exchange} (h : Balanced cfg s)
    (hx : s.exchanges[c]? = some x) (hmem : r ∈ x.held) (hheld : held = x.held.erase r)
    (hsound : Exchange.Sound cfg ⟨x.request, stage, held⟩)
    (hturned : Exchange.turnedAway ⟨x.request, stage, held⟩ = x.turnedAway) :
    Balanced cfg ((s.give r).put c ⟨x.request, stage, held⟩) := by
  have hcount : ∀ r', x.held.count r' = held.count r' + if r' = r then 1 else 0 := by
    intro r'
    rw [hheld, List.count_erase]
    by_cases hr : r' = r
    · subst hr
      have := List.count_pos_iff.2 hmem
      simp only [beq_self_eq_true, ↓reduceIte]
      omega
    · simp [hr, Ne.symm hr]
  have hturned' : ((s.give r).put c ⟨x.request, stage, held⟩).rejected +
      (if x.turnedAway then 1 else 0) = s.rejected +
        (if Exchange.turnedAway ⟨x.request, stage, held⟩ then 1 else 0) := by
    rw [hturned]
    cases r <;> rfl
  cases r with
  | gauge =>
    refine h.set hx rfl hsound ?_ (fun m => ?_) (fun k hk => ⟨k, hk, ?_⟩) rfl hturned'
    · rw [hcount]
      simp [State.give, State.put]
    · rw [hcount]
      simp [State.give, State.put]
    · rw [hcount]
      simp
  | claim n =>
    refine h.set hx rfl hsound ?_ (fun m => ?_) (fun k hk => ⟨k, hk, ?_⟩) rfl hturned'
    · rw [hcount]
      simp [State.give, State.put]
    · rw [hcount]
      by_cases hm : m = n
      · subst hm
        simp [State.give, State.put]
      · simp [State.give, State.put, hm]
    · rw [hcount]
      simp
  | permit =>
    refine h.set hx rfl hsound ?_ (fun m => ?_) (fun k' hk' => ?_) ?_ hturned'
    · rw [hcount]
      simp [State.give, State.put]
    · rw [hcount]
      simp [State.give, State.put]
    · obtain ⟨k, hk, rfl⟩ := Option.map_eq_some_iff.1 hk'
      refine ⟨k, hk, ?_⟩
      rw [hcount]
      simp
      omega
    · simp [State.give, State.put]

theorem Exchange.Sound.turnedAway_eq {x : Exchange} (hstage : ∀ answer, x.stage ≠ .closing answer) :
    x.turnedAway = false := by
  rw [Exchange.turnedAway]
  split
  · next hclosing => exact absurd hclosing (hstage _)
  · rfl

/-- An exchange that is let in or turned away. -/
theorem Balanced.acquire {s s' : State} {x : Exchange} (h : Balanced cfg s)
    (hx : s.exchanges[c]? = some x) (hs : s.advance cfg c x (.acquire d) = some s') :
    Balanced cfg s' := by
  have hsound := h.sound x (List.mem_of_getElem? hx)
  rw [State.advance] at hs
  split at hs
  · rename_i n hstage
    rw [Exchange.Sound, hstage] at hsound
    split at hs
    · rename_i hlimit
      split at hs
      · rename_i k hpermits
        cases hs
        exact h.gainPermit hx hstage hlimit hpermits
      · cases hs
        refine h.set hx rfl ?_ rfl (fun m => rfl) (fun k hk => ⟨k, hk, rfl⟩) rfl ?_
        · exact ⟨(h.sound x (List.mem_of_getElem? hx)).nodup,
            (h.sound x (List.mem_of_getElem? hx)).limited, fun _ _ => ⟨n, hsound.2⟩⟩
        · simp [Exchange.turnedAway, State.move, State.put, hstage]
      · rename_i hpermits
        have harmed := h.armed
        rw [hpermits, decide_eq_true hlimit] at harmed
        cases harmed
    · rename_i hlimit
      cases hs
      refine h.move hx ?_ ?_
      · simp [Exchange.Sound, hsound.1, admitted, hlimit]
      · simp [Exchange.turnedAway, hstage]
  · cases hs

theorem Balanced.advance {s s' : State} {x : Exchange} (h : Balanced cfg s)
    (hx : s.exchanges[c]? = some x) (hs : s.advance cfg c x e = some s') : Balanced cfg s' := by
  have hsound := h.sound x (List.mem_of_getElem? hx)
  cases e with
  | arrive req => cases hs
  | acquire d => exact h.acquire hx hs
  | read d ok =>
    rw [State.advance] at hs
    split at hs
    · rename_i hstage
      rw [Exchange.Sound, hstage] at hsound
      cases hs
      cases ok with
      | true => exact h.move hx hsound (by simp [Exchange.turnedAway, hstage])
      | false => exact h.close hx (by simp [Exchange.turnedAway, hstage]) (by simp)
    · cases hs
  | select d node =>
    cases hstage : x.stage with
    | selecting =>
      cases node with
      | none =>
        simp only [State.advance, hstage] at hs
        cases hs
        exact h.close hx (by simp [Exchange.turnedAway, hstage]) (by simp)
      | some n =>
        simp only [State.advance, hstage] at hs
        cases hs
        exact h.gainClaim hx hstage
    | _ =>
      simp only [State.advance, hstage] at hs
      cases hs
  | route d =>
    rw [State.advance] at hs
    split at hs
    · rename_i n hstage
      rw [Exchange.Sound, hstage] at hsound
      split at hs
      · cases hs
        exact h.move hx hsound (by simp [Exchange.turnedAway, hstage])
      · rename_i hroute
        cases hs
        exact h.move hx ⟨hsound, hroute⟩ (by simp [Exchange.turnedAway, hstage])
      · cases hs
        exact h.move hx hsound (by simp [Exchange.turnedAway, hstage])
    · cases hs
  | probe d =>
    rw [State.advance] at hs
    split at hs
    · rename_i n hstage
      cases hs
      refine h.close hx (by simp [Exchange.turnedAway, hstage]) fun m => ?_
      rw [probed]
      split <;> simp
    · cases hs
  | scrape d =>
    rw [State.advance] at hs
    split at hs
    · rename_i n rejected hstage
      cases hs
      exact h.close hx (by simp [Exchange.turnedAway, hstage]) (by simp)
    · cases hs
  | fail d augmenting =>
    rw [State.advance] at hs
    split at hs
    · rename_i n hstage
      cases hs
      refine h.close hx (by simp [Exchange.turnedAway, hstage]) fun m => ?_
      cases augmenting <;> simp
    · cases hs
  | buffer d =>
    rw [State.advance] at hs
    split at hs
    · rename_i n hstage
      cases hs
      exact h.close hx (by simp [Exchange.turnedAway, hstage]) (by simp)
    · cases hs
  | stream d =>
    rw [State.advance] at hs
    split at hs
    · rename_i n hstage
      rw [Exchange.Sound, hstage] at hsound
      cases hs
      refine h.give hx ?_ rfl ?_ (by simp [Exchange.turnedAway, hstage])
      · rw [hsound]
        simp
      · simp only [Exchange.Sound, hsound]
        rw [admitted]
        split <;> rfl
    · cases hs
  | finish d =>
    rw [State.advance] at hs
    split at hs
    · rename_i n hstage
      cases hs
      exact h.close hx (by simp [Exchange.turnedAway, hstage]) (by simp)
    · cases hs
  | abandon d =>
    rw [State.advance] at hs
    split at hs
    · rename_i hstage
      cases hs
      exact h.close hx (by simp [Exchange.turnedAway, hstage]) (by simp)
    · rename_i n hstage
      cases hs
      exact h.close hx (by simp [Exchange.turnedAway, hstage]) (by simp)
    · rename_i n hstage
      cases hs
      exact h.close hx (by simp [Exchange.turnedAway, hstage]) (by simp)
    · cases hs
  | release d =>
    rw [State.advance] at hs
    split at hs
    · rename_i answer r rest hstage hheld
      rw [Exchange.Sound, hstage] at hsound
      cases hs
      refine h.give hx ?_ ?_ ?_ ?_
      · rw [hheld]
        exact List.mem_cons_self
      · rw [hheld, List.erase_cons_head]
      · rw [hheld] at hsound
        rw [Exchange.Sound]
        dsimp only
        rw [hstage]
        exact ⟨(List.nodup_cons.1 hsound.1).2,
          fun hmem => hsound.2.1 (List.mem_cons_of_mem r hmem), hsound.2.2⟩
      · simp [Exchange.turnedAway]
    · cases hs

theorem Balanced.step {s s' : State} (h : Balanced cfg s) (hs : s.step cfg e = some s') :
    Balanced cfg s' := by
  by_cases harrive : ∃ req, e = .arrive req
  · obtain ⟨req, rfl⟩ := harrive
    cases hs
    constructor
    · rw [holdings_concat, Nat.cast_add, ← h.concurrent]
      rfl
    · intro n
      rw [holdings_concat, Nat.cast_add, ← h.active n]
      simp [State.take]
    · intro k hk
      rw [holdings_concat]
      exact h.permits k hk
    · exact h.armed
    · rw [List.countP_append, Nat.cast_add, ← h.rejected]
      exact (add_zero _).symm
    · intro x hx
      obtain hx | hx := List.mem_append.1 hx
      · exact h.sound x hx
      · rw [List.mem_singleton.1 hx]
        rfl
  · have hadvance : (s.exchanges[e.exchange]?).bind (fun x => s.advance cfg e.exchange x e) =
        some s' := by
      cases e with
      | arrive req => exact absurd ⟨req, rfl⟩ harrive
      | _ => exact hs
    obtain ⟨x, hx, hs⟩ := Option.bind_eq_some_iff.1 hadvance
    exact h.advance hx hs

theorem balanced_boot (cfg : Config) : Balanced cfg (.boot cfg) := by
  constructor
  · rfl
  · exact fun n => rfl
  · intro k hk
    rw [State.boot] at hk
    split at hk
    · cases hk
      rfl
    · cases hk
  · rw [State.boot]
    split
    · next hlimit => exact (decide_eq_true hlimit).symm
    · next hlimit => exact (decide_eq_false hlimit).symm
  · rfl
  · intro x hx
    cases hx

theorem run_balanced (hrun : run (State.step cfg) (.boot cfg) es = some t) : Balanced cfg t :=
  run_keeps (balanced_boot cfg) hrun fun _ _ _ _ h hs => h.step hs

/-- How many exchanges hold a resource. -/
def State.holders (s : State) (r : Resource) : Nat := s.exchanges.countP fun x => decide (r ∈ x.held)

theorem Balanced.holders {s : State} (h : Balanced cfg s) (r : Resource) :
    s.holders r = holdings Exchange.held s.exchanges r :=
  (holdings_eq_countP Exchange.held fun x hx =>
    List.nodup_iff_count_le_one.1 (h.sound x hx).nodup r).symm

/-- What the counters and the exchanges say of each other. -/
structure Accounted (cfg : Config) (s : State) : Prop where
  gauge : s.concurrent = s.holders .gauge
  busy : ∀ n, s.active n = s.holders (.claim n)
  within : 0 < cfg.maxConcurrentRequests → s.holders .permit ≤ cfg.maxConcurrentRequests
  /-- a node generates for nobody without a claim on it and a permit, where there is a limit -/
  generating : ∀ x ∈ s.exchanges, ∀ n, x.stage = .forwarding n ∨ x.stage = .streaming n →
    .claim n ∈ x.held ∧ (0 < cfg.maxConcurrentRequests → .permit ∈ x.held)
  rejected : s.rejected = s.exchanges.countP Exchange.turnedAway
  /-- a monitoring request is never turned away -/
  monitoring : ∀ x ∈ s.exchanges, x.turnedAway = true →
    ∃ n, route (cfg.node n) x.request = .forward
  rest : (∀ x ∈ s.exchanges, x.held = []) →
    s.concurrent = 0 ∧ (∀ n, s.active n = 0) ∧ s.permits = (State.boot cfg).permits

theorem Exchange.Sound.generating {x : Exchange} (h : x.Sound cfg)
    (hstage : x.stage = .forwarding n ∨ x.stage = .streaming n) :
    .claim n ∈ x.held ∧ (0 < cfg.maxConcurrentRequests → .permit ∈ x.held) := by
  rw [Exchange.Sound] at h
  obtain hstage | hstage := hstage
  · rw [hstage] at h
    rw [h, admitted]
    exact ⟨by simp, fun hlimit => by simp [hlimit]⟩
  · rw [hstage] at h
    rw [h, admitted]
    exact ⟨by simp, fun hlimit => by simp [hlimit]⟩

theorem Exchange.Sound.forwarded {x : Exchange} (h : x.Sound cfg) (hturned : x.turnedAway = true) :
    ∃ n, route (cfg.node n) x.request = .forward := by
  rw [Exchange.turnedAway] at hturned
  split at hturned
  · next m hstage =>
    rw [Exchange.Sound, hstage] at h
    exact h.2.2 m rfl
  · cases hturned

/-- One request at a time, and a second one that waits to be let in. -/
def oneAtATime : Config := ⟨1, fun _ => ⟨⟨none, none⟩, none⟩⟩

def chat : Request := ⟨.post, "/v1/chat/completions".toList⟩

def secondArrives : List Event :=
  [.arrive chat, .read 0 true, .select 0 (some 0), .route 0, .acquire 0, .stream 0,
    .arrive chat, .read 1 true, .select 1 (some 0), .route 1]

def secondWaits : State := (run (State.step oneAtATime) (.boot oneAtATime) secondArrives).getD
  (.boot oneAtATime)

theorem balanced_of_mem_trace (h : u ∈ trace (State.step cfg) (.boot cfg) es) : Balanced cfg u := by
  obtain ⟨fs, hrun⟩ := exists_run_of_mem_trace h
  exact run_balanced hrun

/-- A request is turned away just when every permit is out. -/
theorem admit_turns_away_iff (h : u ∈ trace (State.step cfg) (.boot cfg) es)
    (hs : u.step cfg (.acquire c) = some u') :
    u'.rejected = u.rejected + 1 ↔
      0 < cfg.maxConcurrentRequests ∧ u.holders .permit = cfg.maxConcurrentRequests := by
  have hbalanced := balanced_of_mem_trace h
  obtain ⟨x, hx, hs⟩ := Option.bind_eq_some_iff.1 hs
  rw [hbalanced.holders]
  have hno : ∀ a : Int, ¬ a = a + 1 := fun a => by omega
  rw [State.advance] at hs
  split at hs
  · split at hs
    · rename_i hlimit
      split at hs
      · rename_i k hpermits
        cases hs
        have hout := hbalanced.permits _ hpermits
        refine iff_of_false (hno _) fun hfull => ?_
        omega
      · rename_i hpermits
        cases hs
        have hout := hbalanced.permits _ hpermits
        exact iff_of_true rfl ⟨hlimit, by omega⟩
      · rename_i hpermits
        have harmed := hbalanced.armed
        rw [hpermits, decide_eq_true hlimit] at harmed
        cases harmed
    · rename_i hlimit
      cases hs
      exact iff_of_false (hno _) fun hfull => hlimit hfull.1
  · cases hs

def secondRefused : State := (secondWaits.step oneAtATime (.acquire 1)).getD secondWaits

theorem admit_turns_away_iff_second :
    secondRefused.rejected = secondWaits.rejected + 1 ↔
      0 < oneAtATime.maxConcurrentRequests ∧
        secondWaits.holders .permit = oneAtATime.maxConcurrentRequests :=
  admit_turns_away_iff (mem_trace_of_run
    (rfl : run (State.step oneAtATime) (.boot oneAtATime) secondArrives = some secondWaits))
    (rfl : secondWaits.step oneAtATime (.acquire 1) = some secondRefused)

/-- A scrape reports the other requests whose handlers run. -/
theorem scrape_reports_others (h : u ∈ trace (State.step cfg) (.boot cfg) es)
    (hs : u.step cfg (.scrape c) = some u') :
    ∃ x n rejected, u.exchanges[c]? = some x ∧ x.stage = .scraping n rejected ∧
      u' = u.move c x (.closing (some (.metrics rejected (u.holders .gauge - 1)))) ∧
      0 < u.holders .gauge := by
  have hbalanced := balanced_of_mem_trace h
  obtain ⟨x, hx, hs⟩ := Option.bind_eq_some_iff.1 hs
  rw [State.advance] at hs
  split at hs
  · rename_i n rejected hstage
    have hsound := hbalanced.sound x (List.mem_of_getElem? hx)
    rw [Exchange.Sound, hstage] at hsound
    have hown := count_le_holdings Exchange.held (List.mem_of_getElem? hx) .gauge
    rw [hsound] at hown
    have hpos : 0 < u.holders .gauge := by
      rw [hbalanced.holders]
      exact hown
    have hreported : max 0 (u.concurrent - 1) = (u.holders .gauge : Int) - 1 := by
      rw [hbalanced.concurrent, ← hbalanced.holders]
      omega
    rw [hreported] at hs
    cases hs
    exact ⟨x, n, rejected, hx, hstage, rfl, hpos⟩
  · cases hs

def scrapeArrives : List Event :=
  secondArrives ++ [.arrive ⟨.get, "/proxy/metrics".toList⟩, .read 2 true, .select 2 (some 0),
    .route 2]

def scrapeWaits : State := (run (State.step oneAtATime) (.boot oneAtATime) scrapeArrives).getD
  (.boot oneAtATime)

theorem scrape_reports_others_one :
    ∃ x n rejected, scrapeWaits.exchanges[2]? = some x ∧ x.stage = .scraping n rejected ∧
      (scrapeWaits.step oneAtATime (.scrape 2)).getD scrapeWaits =
        scrapeWaits.move 2 x
          (.closing (some (.metrics rejected (scrapeWaits.holders .gauge - 1)))) ∧
      0 < scrapeWaits.holders .gauge :=
  scrape_reports_others (mem_trace_of_run
    (rfl : run (State.step oneAtATime) (.boot oneAtATime) scrapeArrives = some scrapeWaits))
    (rfl : scrapeWaits.step oneAtATime (.scrape 2) =
      some ((scrapeWaits.step oneAtATime (.scrape 2)).getD scrapeWaits))

end LocalMind.Admission
