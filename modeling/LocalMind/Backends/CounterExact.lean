import LocalMind.Backends.Calls

namespace LocalMind.Backends
open Concurrent Program NodeOp
set_option autoImplicit true

/-! The accounting of each program: what it holds at its end. -/

section Programs
variable {post : α → Multiset (Fin (n + 1)) → Prop} {held : Multiset (Fin (n + 1))}

theorem inCooldown_meets {post : Bool → Multiset (Fin (n + 1)) → Prop} (i : Fin (n + 1))
    (now : Instant) (h : ∀ b, post b held) : (inCooldown i now).Meets (claiming n) post held := by
  rw [inCooldown, meets_bind, meets_perform]
  constructor
  · trivial
  · intro healthy _
    cases healthy with
    | true => exact h false
    | false =>
      constructor
      · trivial
      · intro expiry _
        exact h _

theorem soonestFrom_meets (best : Fin (n + 1)) (soonest : Instant) (rest : List (Fin (n + 1))) :
    (soonestFrom best soonest rest).Meets (claiming n) (fun _ held' => held' = held) held := by
  induction rest generalizing best soonest with
  | nil => rfl
  | cons i rest ih =>
    rw [soonestFrom, meets_bind, meets_perform]
    constructor
    · trivial
    · intro expiry _
      by_cases h : expiry < soonest
      · rw [if_pos h]
        exact ih i expiry
      · rw [if_neg h]
        exact ih best soonest

theorem fallback_meets :
    (soonestRecoveringNode >>= BackendGuard.new : NodeProgram n (Fin (n + 1))).Meets (claiming n)
      (fun i held => held = {i}) 0 := by
  rw [meets_bind, soonestRecoveringNode, meets_bind, meets_perform]
  constructor
  · trivial
  · intro expiry _
    apply (soonestFrom_meets 0 expiry _).mono
    intro i held h
    subst h
    constructor
    · trivial
    · intro load _
      rfl

namespace PriorityFreeBalancer

theorem claimFree_meets (now : Instant) (nodes : List (Fin (n + 1))) :
    (claimFree now nodes).Meets (claiming n)
      (fun claimed held => held = (claimed.toList : Multiset (Fin (n + 1)))) 0 := by
  induction nodes with
  | nil => rfl
  | cons i rest ih =>
    rw [claimFree, meets_bind]
    apply inCooldown_meets
    intro cooled
    cases cooled with
    | true => exact ih
    | false =>
      constructor
      · trivial
      · intro ok _
        cases ok with
        | true => rfl
        | false => exact ih

/-- What the second loop has reserved, with the best among it. -/
theorem reserveAll_meets (now : Instant) (best : Option (Fin (n + 1) × Int))
    (reserved nodes : List (Fin (n + 1))) (hbest : ∀ b ∈ best, b.1 ∈ reserved)
    (hnone : best = none → reserved = []) (hnodup : (reserved ++ nodes).Nodup) :
    (reserveAll now best reserved nodes).Meets (claiming n)
      (fun r held => held = r.2 ∧ r.2.Nodup ∧ (∀ b ∈ r.1, b.1 ∈ r.2) ∧ (r.1 = none → r.2 = []))
      reserved := by
  induction nodes generalizing best reserved with
  | nil =>
    rw [List.append_nil] at hnodup
    exact ⟨rfl, hnodup, hbest, hnone⟩
  | cons i rest ih =>
    rw [reserveAll, meets_bind]
    apply inCooldown_meets
    intro cooled
    cases cooled with
    | true =>
      apply ih best reserved hbest hnone
      exact hnodup.sublist ((List.sublist_cons_self i rest).append_left reserved)
    | false =>
      constructor
      · trivial
      · intro load _
        have hheld : i ::ₘ (reserved : Multiset (Fin (n + 1))) =
            ((reserved ++ [i] : List (Fin (n + 1))) : Multiset (Fin (n + 1))) := by
          rw [← Multiset.singleton_add, ← Multiset.coe_singleton, Multiset.coe_add,
            Multiset.coe_eq_coe]
          exact List.perm_append_comm
        change (reserveAll _ _ _ _).Meets _ _ (i ::ₘ (reserved : Multiset (Fin (n + 1))))
        rw [hheld]
        apply ih
        · intro b hb
          by_cases hlow : lower load best
          · rw [if_pos hlow] at hb
            cases hb
            simp
          · rw [if_neg hlow] at hb
            exact List.mem_append_left _ (hbest b hb)
        · intro h
          by_cases hlow : lower load best
          · rw [if_pos hlow] at h
            cases h
          · rw [if_neg hlow] at h
            subst h
            exact absurd rfl hlow
        · rw [List.append_assoc]
          exact hnodup

theorem releaseOthers_meets (best : Fin (n + 1)) (reserved : List (Fin (n + 1)))
    (kept : Multiset (Fin (n + 1))) :
    (releaseOthers best reserved).Meets (claiming n)
      (fun _ held => held = kept + (reserved.filter (· = best) : List (Fin (n + 1))))
      (kept + (reserved : Multiset (Fin (n + 1)))) := by
  induction reserved generalizing kept with
  | nil => rfl
  | cons i rest ih =>
    rw [releaseOthers]
    by_cases h : i = best
    · rw [if_pos h, List.filter_cons_of_pos (by simpa using h)]
      have := ih (kept + {i})
      simp only [Multiset.add_assoc, Multiset.singleton_add, Multiset.cons_coe] at this
      exact this
    · rw [if_neg h, List.filter_cons_of_neg (by simpa using h), meets_bind, meets_perform]
      constructor
      · exact Multiset.mem_add.2 (.inr (Multiset.mem_coe.2 List.mem_cons_self))
      · intro prev _
        have herase : (kept + ((i :: rest : List (Fin (n + 1))) : Multiset (Fin (n + 1)))).erase i =
            kept + (rest : Multiset (Fin (n + 1))) := by
          rw [← Multiset.cons_coe, Multiset.add_cons, Multiset.erase_cons_head]
        change (releaseOthers best rest).Meets _ _ (Multiset.erase _ i)
        rw [herase]
        exact ih kept

theorem candidateOrder_zero_nodup (n : Nat) : (candidateOrder n 0).Nodup := by
  apply List.Nodup.map_on _ List.nodup_range
  intro a ha b hb h
  have := congrArg Fin.val h
  simpa [Nat.mod_eq_of_lt (List.mem_range.1 ha), Nat.mod_eq_of_lt (List.mem_range.1 hb)] using this

/-- A `select` ends with one unit more, on the node it returns. -/
theorem select_meets (now : Instant) :
    (select n now).Meets (claiming n) (fun i held => held = {i}) 0 := by
  rw [select, meets_bind]
  apply (claimFree_meets now _).mono
  intro claimed held h
  subst h
  cases claimed with
  | some i => rfl
  | none =>
    rw [meets_bind]
    apply (reserveAll_meets now none [] _ (by simp) (fun _ => rfl)
      (candidateOrder_zero_nodup n)).mono
    intro r held h
    obtain ⟨best, reserved⟩ := r
    obtain ⟨rfl, hnodup, hbest, hnone⟩ := h
    cases best with
    | none =>
      cases hnone rfl
      exact fallback_meets
    | some b =>
      rw [meets_bind]
      have := releaseOthers_meets b.1 reserved 0
      simp only [Multiset.zero_add] at this
      apply this.mono
      intro _ held h
      rw [List.filter_eq, List.count_eq_one_of_mem hnodup (hbest b rfl)] at h
      exact h

end PriorityFreeBalancer

namespace RoundRobinBalancer

theorem selectFrom_meets (now : Instant) (nodes : List (Fin (n + 1))) :
    (selectFrom now nodes).Meets (claiming n) (fun i held => held = {i}) 0 := by
  induction nodes with
  | nil => exact fallback_meets
  | cons i rest ih =>
    rw [selectFrom, meets_bind]
    apply inCooldown_meets
    intro cooled
    cases cooled with
    | true => exact ih
    | false =>
      constructor
      · trivial
      · intro load _
        rfl

theorem select_meets (now : Instant) :
    (select n now).Meets (claiming n) (fun i held => held = {i}) 0 := by
  rw [select, meets_bind, meets_perform]
  constructor
  · trivial
  · intro start _
    exact selectFrom_meets now _

end RoundRobinBalancer

theorem drop_meets (i : Fin (n + 1)) :
    (BusyHandle.drop i).Meets (claiming n) (fun _ held => held = 0) {i} := by
  rw [BusyHandle.drop, meets_bind, meets_perform]
  constructor
  · exact Multiset.mem_singleton_self i
  · intro prev hprev
    rw [if_neg hprev]
    exact Multiset.erase_singleton i

theorem markFailed_meets (i : Fin (n + 1)) (expiry : Instant) :
    (markFailed i expiry).Meets (claiming n) (fun _ held => held = 0) 0 := by
  rw [markFailed, meets_bind]
  constructor
  · trivial
  · intro _ _
    constructor
    · trivial
    · intro _ _
      rfl

theorem markHealthy_meets (i : Fin (n + 1)) :
    (markHealthy i).Meets (claiming n) (fun _ held => held = 0) 0 := by
  constructor
  · trivial
  · intro _ _
    rfl

end Programs

/-- A program that ends holding no more than it should. -/
def Task.Sound : Task n → Prop
  | selecting p held => p.Meets (claiming n) (fun i held => held = {i}) held
  | effect p held => p.Meets (claiming n) (fun _ held => held = 0) held
  | _ => True

/-- The units a call has on a node's counter. -/
def Task.units (i : Fin (n + 1)) (task : Task n) : Nat := task.claims i + task.reserves i

def Pool.units (s : Pool n) (i : Fin (n + 1)) : Nat := (s.tasks.map (Task.units i)).sum

theorem Pool.units_eq (s : Pool n) (i : Fin (n + 1)) :
    s.units i = s.liveClaims i + s.reservations i := by
  rw [units, liveClaims, reservations, ← List.sum_map_add]
  rfl

/-- An operation moves a counter by what it moves the holdings. -/
theorem exec_active (s : Nodes n) (o : NodeOp n) {held : Multiset (Fin (n + 1))}
    (h : (claiming n).allows held o) (i : Fin (n + 1)) :
    (s.exec o).2.active i + held.count i =
      s.active i + ((claiming n).next held o (s.exec o).1).count i := by
  cases o with
  | loadHealthy j => rfl
  | storeHealthy j healthy =>
    exact congrArg (· + (held.count i : Int)) (Nodes.active_setNode s j i _ rfl)
  | loadCooldownUntil j => rfl
  | storeCooldownUntil j expiry =>
    exact congrArg (· + (held.count i : Int)) (Nodes.active_setNode s j i _ rfl)
  | fetchAddCounter => rfl
  | compareExchange j =>
    by_cases hz : s.active j = 0
    · simp only [Nodes.exec, if_pos hz, Nodes.active_setActive, claiming, Multiset.count_cons]
      split
      · next he => subst he; omega
      · omega
    · simp only [Nodes.exec, if_neg hz, claiming]
  | fetchAdd j =>
    simp only [Nodes.exec, Nodes.active_setActive, claiming, Multiset.count_cons]
    split
    · next he => subst he; omega
    · omega
  | fetchSub j =>
    have hpos := Multiset.count_pos.2 (show j ∈ held from h)
    simp only [Nodes.exec, Nodes.active_setActive, claiming]
    by_cases he : i = j
    · subst he
      rw [if_pos rfl, Multiset.count_erase_self]
      omega
    · rw [if_neg he, Multiset.count_erase_of_ne he]

/-- A counter that covers the holdings answers as expected. -/
theorem exec_expected (s : Nodes n) (o : NodeOp n) {held : Multiset (Fin (n + 1))}
    (h : (claiming n).allows held o) (hcover : ∀ i, (held.count i : Int) ≤ s.active i) :
    (claiming n).expects held o (s.exec o).1 := by
  cases o with
  | fetchSub j =>
    have hpos := Multiset.count_pos.2 (show j ∈ held from h)
    have := hcover j
    change s.active j ≠ 0
    omega
  | _ => trivial

/-- One step of a call moves the counters by what it moves the call's units. -/
theorem Task.advance_units {s : Nodes n} {task : Task n} (hsound : task.Sound)
    (hcover : ∀ i, (task.units i : Int) ≤ s.active i) (h : task.advance s = some (s', task')) :
    task'.Sound ∧ ∀ i, s'.active i + task.units i = s.active i + task'.units i := by
  cases task with
  | selecting p held =>
    have hc : ∀ i, (held.count i : Int) ≤ s.active i := by
      intro i
      have := hcover i
      simpa [units, claims, reserves] using this
    cases p with
    | ret i =>
      cases h
      cases (show held = {i} from hsound)
      constructor
      · trivial
      · intro j
        simp only [units, claims, reserves, Multiset.count_singleton]
        omega
    | act o k =>
      cases h
      constructor
      · exact hsound.2 _ (exec_expected s o hsound.1 hc)
      · intro i
        simpa [units, claims, reserves] using exec_active s o hsound.1 i
  | effect p held =>
    have hc : ∀ i, (held.count i : Int) ≤ s.active i := by
      intro i
      have := hcover i
      simpa [units, claims, reserves] using this
    cases p with
    | ret i =>
      cases h
      cases (show held = 0 from hsound)
      exact ⟨trivial, fun _ => rfl⟩
    | act o k =>
      cases h
      constructor
      · exact hsound.2 _ (exec_expected s o hsound.1 hc)
      · intro i
        simpa [units, claims, reserves] using exec_active s o hsound.1 i
  | guarded i clones => cases h
  | ended => cases h

theorem Task.clone_units {task : Task n} (h : task.clone = some task') :
    task'.Sound ∧ ∀ i, task'.units i = task.units i := by
  cases task with
  | guarded i clones => cases h; exact ⟨trivial, fun _ => rfl⟩
  | _ => cases h

theorem Task.dropGuard_units {task : Task n} (h : task.dropGuard = some task') :
    task'.Sound ∧ ∀ i, task'.units i = task.units i := by
  cases task with
  | guarded i clones =>
    cases clones with
    | zero =>
      cases h
      constructor
      · exact drop_meets i
      · intro j
        simp only [units, claims, reserves, Multiset.count_singleton]
    | succ clones => cases h; exact ⟨trivial, fun _ => rfl⟩
  | _ => cases h

/-- A call about to release a unit still has one. -/
theorem Task.units_pos {task : Task n} (hsound : task.Sound)
    (hp : task.pending = some (fetchSub i)) : 0 < task.units i := by
  cases task with
  | selecting p held =>
    cases p with
    | ret i => cases hp
    | act o k =>
      cases hp
      exact Nat.add_pos_right _ (Multiset.count_pos.2 hsound.1)
  | effect p held =>
    cases p with
    | ret i => cases hp
    | act o k =>
      cases hp
      exact Nat.add_pos_left (Multiset.count_pos.2 hsound.1) _
  | _ => cases hp

namespace Pool

/-- Each counter is the units of all calls, and each running program keeps its account. -/
structure Exact (s : Pool n) : Prop where
  active_eq : ∀ i, s.nodes.active i = s.units i
  sound : ∀ task ∈ s.tasks, task.Sound

theorem Exact.covers {s : Pool n} (h : s.Exact) (hmem : task ∈ s.tasks) (i : Fin (n + 1)) :
    (task.units i : Int) ≤ s.nodes.active i := by
  rw [h.active_eq]
  exact_mod_cast List.single_le_sum (fun _ _ => Nat.zero_le _) _ (List.mem_map_of_mem hmem)

theorem Exact.start {s : Pool n} (h : s.Exact) (hsound : task.Sound) (hu : ∀ i, task.units i = 0) :
    (s.start task).Exact := by
  constructor
  · intro i
    rw [Pool.start, units, List.map_append, List.sum_append, List.map_singleton,
      List.sum_singleton, hu, Nat.add_zero]
    exact h.active_eq i
  · intro t ht
    obtain ht | ht := List.mem_append.1 ht
    · exact h.sound t ht
    · rw [List.mem_singleton.1 ht]
      exact hsound

theorem Exact.set {s : Pool n} (h : s.Exact) (ht : s.tasks[t]? = some task) (hsound : task'.Sound)
    (hu : ∀ i, ns.active i + task.units i = s.nodes.active i + task'.units i) :
    Exact ⟨ns, s.tasks.set t task'⟩ := by
  constructor
  · intro i
    have hsum := sum_map_set (Task.units i) ht task'
    have := hu i
    have := h.active_eq i
    simp only [units] at this ⊢
    omega
  · intro u hmem
    obtain hmem | rfl := List.mem_or_eq_of_mem_set hmem
    · exact h.sound u hmem
    · exact hsound

theorem Exact.step {s : Pool n} (h : s.Exact) (hs : s.step e = some s') : s'.Exact := by
  cases e with
  | priorityFree now =>
    cases hs
    exact h.start (PriorityFreeBalancer.select_meets now) fun _ => rfl
  | roundRobin now =>
    cases hs
    exact h.start (RoundRobinBalancer.select_meets now) fun _ => rfl
  | markFailed i expiry =>
    cases hs
    exact h.start (markFailed_meets i expiry) fun _ => rfl
  | markHealthy i =>
    cases hs
    exact h.start (markHealthy_meets i) fun _ => rfl
  | step t =>
    obtain ⟨task, ht, hs⟩ := Option.bind_eq_some_iff.1 hs
    obtain ⟨r, hr, hs⟩ := Option.bind_eq_some_iff.1 hs
    cases hs
    have hmem := List.mem_of_getElem? ht
    obtain ⟨hsound, hu⟩ := Task.advance_units (h.sound task hmem) (h.covers hmem) hr
    exact h.set ht hsound hu
  | clone t =>
    obtain ⟨task, ht, hs⟩ := Option.bind_eq_some_iff.1 hs
    obtain ⟨task', hc, hs⟩ := Option.bind_eq_some_iff.1 hs
    cases hs
    obtain ⟨hsound, hu⟩ := Task.clone_units hc
    exact h.set ht hsound fun i => by rw [hu]
  | dropGuard t =>
    obtain ⟨task, ht, hs⟩ := Option.bind_eq_some_iff.1 hs
    obtain ⟨task', hc, hs⟩ := Option.bind_eq_some_iff.1 hs
    cases hs
    obtain ⟨hsound, hu⟩ := Task.dropGuard_units hc
    exact h.set ht hsound fun i => by rw [hu]

theorem Reachable.exact {s : Pool n} (h : s.Reachable) : s.Exact := by
  obtain ⟨s₀, es, ⟨htasks, hzero⟩, hrun⟩ := h
  have hstart : s₀.Exact := by
    constructor
    · intro i
      rw [hzero, units, htasks]
      rfl
    · rw [htasks]
      exact fun task hmem => absurd hmem List.not_mem_nil
  exact run_keeps hstart hrun fun _ _ _ _ h hs => h.step hs

end Pool

/-- What the counters say of a state. -/
structure CountersExact (s : Pool n) : Prop where
  counted : ∀ i, s.nodes.active i = s.liveClaims i + s.reservations i
  /-- no `fetch_sub` sees 0 -/
  positive : ∀ (t : Nat) task i, s.tasks[t]? = some task → task.pending = some (.fetchSub i) →
    0 < s.nodes.active i
  settled : (∀ task ∈ s.tasks, task.isSelecting = false) →
    ∀ i, s.nodes.active i = s.liveClaims i
  /-- a `select` that returns has one unit on one node, and it becomes a claim there -/
  returned : ∀ (t : Nat) i held, s.tasks[t]? = some (.selecting (.ret i) held) → held = {i} ∧
    ∃ s', s.step (.step t) = some s' ∧ s'.nodes = s.nodes ∧
      ∀ j, s'.liveClaims j = s.liveClaims j + if j = i then 1 else 0

theorem counters_exact {s : Pool n} (h : s.Reachable) : CountersExact s := by
  have hexact := h.exact
  have hcounted : ∀ i, s.nodes.active i = s.liveClaims i + s.reservations i := by
    intro i
    rw [hexact.active_eq, s.units_eq]
    push_cast
    rfl
  constructor
  · exact hcounted
  · intro t task i ht hp
    have hmem := List.mem_of_getElem? ht
    have hcover := hexact.covers hmem i
    have hsound := hexact.sound task hmem
    have hunits : 0 < task.units i := Task.units_pos hsound hp
    omega
  · intro hnone i
    have hzero : s.reservations i = 0 := by
      apply List.sum_eq_zero
      intro r hr
      obtain ⟨task, hmem, rfl⟩ := List.mem_map.1 hr
      have := hnone task hmem
      cases task with
      | selecting p held => cases this
      | _ => rfl
    have := hcounted i
    omega
  · intro t i held ht
    have hheld : held = {i} := hexact.sound _ (List.mem_of_getElem? ht)
    constructor
    · exact hheld
    · refine ⟨⟨s.nodes, s.tasks.set t (.guarded i 0)⟩, ?_, rfl, ?_⟩
      · rw [Pool.step, ht]
        rfl
      · intro j
        have := sum_map_set (Task.claims j) ht (.guarded i 0)
        exact this

/-- A cloned claim, a call that has only taken its turn and half a `mark_failed`. -/
theorem counters_exact_busy : CountersExact (((Pool.new 1 0).run
    [.priorityFree 0, .step 0, .step 0, .step 0, .clone 0, .roundRobin 0, .step 1,
      .markFailed 0 9, .step 2, .dropGuard 0]).get (by decide)) := by
  apply counters_exact
  exact ⟨Pool.new 1 0, _, Pool.new_fresh 1 0, by rw [Option.some_get]⟩

end LocalMind.Backends
