import Mathlib.Data.Int.ModEq
import LocalMind.Backends.Balancer
import LocalMind.Order.FirstMin

namespace LocalMind.Backends
open Concurrent NodeOp Ordered
open Program (perform)
set_option autoImplicit true

/-! A `select` that no other call interrupts. -/

def NodeProgram.alone (p : NodeProgram n α) (s : Nodes n) : α × Nodes n :=
  Program.alone Nodes.exec s p

namespace NodeProgram

theorem alone_pure (s : Nodes n) (a : α) : NodeProgram.alone (pure a) s = (a, s) := rfl

theorem alone_perform_bind (s : Nodes n) (o : NodeOp n) (f : o.Ret → NodeProgram n α) :
    NodeProgram.alone (perform o >>= f) s = (f (s.exec o).1).alone (s.exec o).2 := rfl

theorem alone_bind (s : Nodes n) (p : NodeProgram n α) (f : α → NodeProgram n β) :
    NodeProgram.alone (p >>= f) s = (f (p.alone s).1).alone (p.alone s).2 :=
  Program.alone_bind s p f

end NodeProgram

open NodeProgram

namespace Nodes

def cooled (s : Nodes n) (now : Instant) (i : Fin (n + 1)) : Bool :=
  !(s.node i).healthy && decide (now < (s.node i).cooldownUntil)

def free (s : Nodes n) (now : Instant) (i : Fin (n + 1)) : Bool :=
  !s.cooled now i && decide (s.active i = 0)

def expiry (s : Nodes n) (i : Fin (n + 1)) : Instant := (s.node i).cooldownUntil

/-- The nodes with a claim more on one of them. -/
def claim (s : Nodes n) (i : Fin (n + 1)) : Nodes n := s.setActive i (s.active i + 1)

/-- The nodes with so many claims more on each of them. -/
def addActive (s : Nodes n) (d : Fin (n + 1) → Int) : Nodes n :=
  { s with node := fun i => { s.node i with activeRequests := s.active i + d i } }

@[simp] theorem active_addActive (s : Nodes n) (d : Fin (n + 1) → Int) (i : Fin (n + 1)) :
    (s.addActive d).active i = s.active i + d i := rfl

@[simp] theorem cooled_addActive (s : Nodes n) (d : Fin (n + 1) → Int) (now : Instant)
    (i : Fin (n + 1)) : (s.addActive d).cooled now i = s.cooled now i := rfl

theorem addActive_addActive (s : Nodes n) (d e : Fin (n + 1) → Int) :
    (s.addActive d).addActive e = s.addActive fun i => d i + e i := by
  simp only [addActive, active, add_assoc]

theorem addActive_eq_self (s : Nodes n) (h : ∀ i, d i = 0) : s.addActive d = s := by
  simp only [addActive, h, add_zero, active]

theorem setActive_eq_addActive (s : Nodes n) (i : Fin (n + 1)) (a : Int) :
    s.setActive i (s.active i + a) = s.addActive fun k => if k = i then a else 0 := by
  rw [setActive, setNode, addActive]
  congr 1
  funext k
  by_cases hk : k = i
  · subst hk
    rw [Function.update_self, if_pos rfl]
  · rw [Function.update_of_ne hk, if_neg hk, add_zero]
    rfl

theorem cooled_claim (s : Nodes n) (i : Fin (n + 1)) (now : Instant) (k : Fin (n + 1)) :
    (s.claim i).cooled now k = s.cooled now k := by
  rw [claim, setActive_eq_addActive, cooled_addActive]

end Nodes

theorem inCooldown_alone (s : Nodes n) (i : Fin (n + 1)) (now : Instant) :
    (inCooldown i now).alone s = (s.cooled now i, s) := by
  have hload : s.exec (loadHealthy i) = ((s.node i).healthy, s) := rfl
  rw [inCooldown, alone_perform_bind, hload, Nodes.cooled]
  cases (s.node i).healthy with
  | true => rfl
  | false => rfl

theorem guard_alone (s : Nodes n) (i : Fin (n + 1)) :
    (BackendGuard.new i).alone s = (i, s.claim i) := rfl

theorem soonestFrom_alone (s : Nodes n) (h : FirstMin s.expiry seen best)
    (rest : List (Fin (n + 1))) :
    ∃ j, (soonestFrom best (s.expiry best) rest).alone s = (j, s) ∧
      FirstMin s.expiry (seen ++ rest) j := by
  induction rest generalizing seen best with
  | nil =>
    rw [List.append_nil]
    exact ⟨best, rfl, h⟩
  | cons i rest ih =>
    have hload : s.exec (loadCooldownUntil i) = (s.expiry i, s) := rfl
    rw [soonestFrom, alone_perform_bind, hload, List.append_cons]
    dsimp only
    split
    · next hlt => exact ih (h.concat_lower hlt)
    · next hge => exact ih (h.concat_keep hge)

theorem soonestRecoveringNode_alone (s : Nodes n) :
    ∃ j, soonestRecoveringNode.alone s = (j, s) ∧
      FirstMin s.expiry (List.finRange (n + 1)) j := by
  have hload : s.exec (loadCooldownUntil 0) = (s.expiry 0, s) := rfl
  have hall : List.finRange (n + 1) = [0] ++ (List.finRange (n + 1)).tail := by
    rw [List.finRange_succ]
    rfl
  rw [soonestRecoveringNode, alone_perform_bind, hload, hall]
  exact soonestFrom_alone s (FirstMin.singleton s.expiry 0) _

namespace PriorityFreeBalancer

theorem claimFree_alone (s : Nodes n) (now : Instant) (nodes : List (Fin (n + 1))) :
    (claimFree now nodes).alone s =
      match nodes.find? (s.free now) with
      | some j => (some j, s.claim j)
      | none => (none, s) := by
  induction nodes with
  | nil => rfl
  | cons i rest ih =>
    rw [claimFree, alone_bind, inCooldown_alone, List.find?_cons, Nodes.free]
    dsimp only
    cases s.cooled now i with
    | true => exact ih
    | false =>
      rw [if_neg Bool.false_ne_true, alone_perform_bind, Nodes.exec]
      by_cases hi : s.active i = 0
      · have hclaim : s.claim i = s.setActive i 1 := by rw [Nodes.claim, hi, zero_add]
        rw [if_pos hi, decide_eq_true hi]
        change (some i, s.setActive i 1) = (some i, s.claim i)
        rw [hclaim]
      · rw [if_neg hi, decide_eq_false hi]
        exact ih

/-- The first candidate of least load, beside a best one so far. -/
def leastLoaded (s : Nodes n) (best : Option (Fin (n + 1) × Int)) (nodes : List (Fin (n + 1))) :
    Option (Fin (n + 1) × Int) :=
  nodes.foldl (fun best i => if lower (s.active i) best then some (i, s.active i) else best) best

theorem leastLoaded_congr {s t : Nodes n} (h : ∀ i ∈ nodes, s.active i = t.active i)
    (best : Option (Fin (n + 1) × Int)) : leastLoaded s best nodes = leastLoaded t best nodes := by
  apply List.foldl_ext
  intro best i hi
  rw [h i hi]

theorem leastLoaded_some (s : Nodes n) (h : FirstMin s.active seen i) (nodes : List (Fin (n + 1))) :
    ∃ j, leastLoaded s (some (i, s.active i)) nodes = some (j, s.active j) ∧
      FirstMin s.active (seen ++ nodes) j := by
  induction nodes generalizing seen i with
  | nil =>
    rw [List.append_nil]
    exact ⟨i, rfl, h⟩
  | cons k nodes ih =>
    rw [leastLoaded, List.foldl_cons, List.append_cons]
    by_cases hlt : s.active k < s.active i
    · have hlower : lower (s.active k) (some (i, s.active i)) = true := decide_eq_true hlt
      rw [if_pos hlower]
      exact ih (h.concat_lower hlt)
    · have hlower : ¬ lower (s.active k) (some (i, s.active i)) = true := by simpa [lower] using hlt
      rw [if_neg hlower]
      exact ih (h.concat_keep hlt)

theorem leastLoaded_spec (s : Nodes n) (nodes : List (Fin (n + 1))) :
    (nodes = [] ∧ leastLoaded s none nodes = none) ∨
      ∃ j, leastLoaded s none nodes = some (j, s.active j) ∧ FirstMin s.active nodes j := by
  cases nodes with
  | nil => exact .inl ⟨rfl, rfl⟩
  | cons i nodes => exact .inr (leastLoaded_some s (FirstMin.singleton s.active i) nodes)

theorem count_cons_int (i k : Fin (n + 1)) (nodes : List (Fin (n + 1))) :
    ((i :: nodes).count k : Int) = nodes.count k + if k = i then 1 else 0 := by
  by_cases hk : k = i
  · subst hk
    rw [List.count_cons_self, if_pos rfl]
    rfl
  · rw [List.count_cons_of_ne (Ne.symm hk), if_neg hk, add_zero]

/-- The reservation of some nodes puts a claim on each. -/
theorem reserveAll_alone (s : Nodes n) (now : Instant) (best : Option (Fin (n + 1) × Int))
    (reserved : List (Fin (n + 1))) {nodes : List (Fin (n + 1))} (hnodes : nodes.Nodup) :
    (reserveAll now best reserved nodes).alone s =
      ((leastLoaded s best (nodes.filter fun i => !s.cooled now i),
        reserved ++ nodes.filter fun i => !s.cooled now i),
        s.addActive fun k => ((nodes.filter fun i => !s.cooled now i).count k : Int)) := by
  induction nodes generalizing s best reserved with
  | nil =>
    have hself : s.addActive (fun k => ([] : List (Fin (n + 1))).count k) = s :=
      Nodes.addActive_eq_self s fun _ => rfl
    rw [List.filter_nil, List.append_nil, hself]
    rfl
  | cons i nodes ih =>
    obtain ⟨hi, hnodes⟩ := List.nodup_cons.1 hnodes
    rw [reserveAll, alone_bind, inCooldown_alone, List.filter_cons]
    dsimp only
    cases s.cooled now i with
    | true => exact ih s best reserved hnodes
    | false =>
      have hadd : s.exec (fetchAdd i) =
          (s.active i, s.addActive fun k => if k = i then 1 else 0) := by
        rw [← Nodes.setActive_eq_addActive]
        rfl
      have hleast (best : Option (Fin (n + 1) × Int)) :
          leastLoaded (s.addActive fun k => if k = i then 1 else 0) best
              (nodes.filter fun k => !s.cooled now k) =
            leastLoaded s best (nodes.filter fun k => !s.cooled now k) := by
        apply leastLoaded_congr
        intro k hk
        have hki : k ≠ i := fun h => hi (h ▸ List.mem_of_mem_filter hk)
        rw [Nodes.active_addActive, if_neg hki, add_zero]
      rw [if_neg Bool.false_ne_true, alone_perform_bind, hadd, ih _ _ _ hnodes,
        Nodes.addActive_addActive]
      simp only [Nodes.cooled_addActive, hleast, Bool.not_false, if_true]
      rw [List.append_assoc, List.singleton_append]
      congr 2
      funext k
      rw [count_cons_int, add_comm]

theorem releaseOthers_alone (s : Nodes n) (best : Fin (n + 1)) (reserved : List (Fin (n + 1))) :
    (releaseOthers best reserved).alone s =
      ((), s.addActive fun k => -((reserved.filter fun i => i ≠ best).count k : Int)) := by
  induction reserved generalizing s with
  | nil =>
    have hself : s.addActive (fun k => -([] : List (Fin (n + 1))).count k) = s :=
      Nodes.addActive_eq_self s fun _ => rfl
    rw [List.filter_nil, hself]
    rfl
  | cons i reserved ih =>
    rw [releaseOthers, List.filter_cons]
    by_cases hi : i = best
    · rw [if_pos hi, ih, if_neg (by simpa using hi)]
    · have hsub : s.exec (fetchSub i) =
          (s.active i, s.addActive fun k => if k = i then -1 else 0) := by
        rw [← Nodes.setActive_eq_addActive]
        rfl
      rw [if_neg hi, alone_perform_bind, hsub, ih, if_pos (by simpa using hi),
        Nodes.addActive_addActive]
      congr 2
      funext k
      rw [count_cons_int]
      split
      · omega
      · omega

end PriorityFreeBalancer

/-- The node whose cooldown ends first, the lowest one of equals. -/
structure SoonestToRecover (s : Nodes n) (j : Fin (n + 1)) : Prop where
  least : ∀ i, s.expiry j ≤ s.expiry i
  first : ∀ i < j, s.expiry j < s.expiry i

theorem soonestToRecover_of_firstMin (h : FirstMin s.expiry (List.finRange (n + 1)) j) :
    SoonestToRecover s j := by
  constructor
  case least => exact fun i => h.le (List.mem_finRange i)
  case first =>
    exact fun i hi => h.lt_of_lt (List.pairwise_lt_finRange (n + 1)) (List.mem_finRange i) hi

theorem candidateOrder_zero (n : Nat) : candidateOrder n 0 = List.finRange (n + 1) := by
  have hmap : candidateOrder n 0 =
      (List.finRange (n + 1)).map fun i => Fin.ofNat (n + 1) (0 % (n + 1) + i.val) := by
    rw [candidateOrder, ← List.map_coe_finRange_eq_range, List.map_map]
    rfl
  rw [hmap]
  have hid : (fun i : Fin (n + 1) => Fin.ofNat (n + 1) (0 % (n + 1) + i.val)) = id := by
    funext i
    rw [Nat.zero_mod, Nat.zero_add]
    exact Fin.ofNat_val_eq_self i
  rw [hid, List.map_id]

namespace PriorityFreeBalancer

/-- The choice of a node: the lowest free one, else the lowest of the least loaded that are not
cooled, else the one that recovers first. -/
inductive Policy (s : Nodes n) (now : Instant) (j : Fin (n + 1)) : Prop
  | free (idle : s.free now j = true) (first : ∀ i < j, s.free now i = false)
  | leastLoaded (busy : ∀ i, s.free now i = false) (up : s.cooled now j = false)
      (least : ∀ i, s.cooled now i = false → s.active j ≤ s.active i)
      (first : ∀ i < j, s.cooled now i = false → s.active j < s.active i)
  | recovering (down : ∀ i, s.cooled now i = true) (soonest : SoonestToRecover s j)

theorem Policy.not_cooled (h : Policy s now j) (hi : s.cooled now i = false) :
    s.cooled now j = false := by
  cases h with
  | free idle first =>
    rw [Nodes.free, Bool.and_eq_true] at idle
    simpa using idle.1
  | leastLoaded busy up least first => exact up
  | recovering down soonest =>
    rw [down i] at hi
    cases hi

/-- What is reserved and not released is the claim on the best. -/
theorem addActive_release (s : Nodes n) {reserved : List (Fin (n + 1))} (hreserved : reserved.Nodup)
    (hbest : best ∈ reserved) :
    ((s.addActive fun k => (reserved.count k : Int)).addActive fun k =>
      -((reserved.filter fun i => i ≠ best).count k : Int)) = s.claim best := by
  rw [Nodes.claim, Nodes.setActive_eq_addActive, Nodes.addActive_addActive]
  congr 1
  funext k
  by_cases hk : k = best
  · have hout : (reserved.filter fun i => i ≠ best).count k = 0 := by
      apply List.count_eq_zero_of_not_mem
      intro hmem
      exact of_decide_eq_true (List.mem_filter.1 hmem).2 hk
    rw [if_pos hk, hout, hk, List.count_eq_one_of_mem hreserved hbest]
    rfl
  · have hin : (reserved.filter fun i => i ≠ best).count k = reserved.count k :=
      List.count_filter (decide_eq_true hk)
    rw [if_neg hk, hin, add_neg_cancel]

/-- A `select` alone follows the policy and puts one claim on the node it returns. -/
theorem select_alone (s : Nodes n) (now : Instant) :
    ∃ j, (select n now).alone s = (j, s.claim j) ∧ Policy s now j := by
  have hsorted := List.pairwise_lt_finRange (n + 1)
  rw [select, candidateOrder_zero, alone_bind, claimFree_alone]
  cases hfind : (List.finRange (n + 1)).find? (s.free now) with
  | some j =>
    refine ⟨j, rfl, .free (List.find?_some hfind) ?_⟩
    exact fun i hi => find?_first hsorted hfind (List.mem_finRange i) hi
  | none =>
    have hbusy (i : Fin (n + 1)) : s.free now i = false := by
      simpa using List.find?_eq_none.1 hfind i (List.mem_finRange i)
    dsimp only
    rw [alone_bind, reserveAll_alone s now none [] (List.nodup_finRange (n + 1)), List.nil_append]
    obtain ⟨hnone, hleast⟩ | ⟨j, hleast, hmin⟩ := leastLoaded_spec s
      ((List.finRange (n + 1)).filter fun i => !s.cooled now i)
    · have hdown (i : Fin (n + 1)) : s.cooled now i = true := by
        simpa using List.filter_eq_nil_iff.1 hnone i (List.mem_finRange i)
      have hself : s.addActive (fun k => (([] : List (Fin (n + 1))).count k : Int)) = s :=
        Nodes.addActive_eq_self s fun _ => rfl
      obtain ⟨j, hrun, hsoonest⟩ := soonestRecoveringNode_alone s
      rw [hleast, hnone, hself]
      dsimp only
      rw [alone_bind, hrun]
      exact ⟨j, rfl, .recovering hdown (soonestToRecover_of_firstMin hsoonest)⟩
    · rw [hleast]
      dsimp only
      rw [alone_bind, releaseOthers_alone,
        addActive_release s ((List.nodup_finRange (n + 1)).filter _) hmin.mem]
      have hmem (i : Fin (n + 1)) (hi : s.cooled now i = false) :
          i ∈ (List.finRange (n + 1)).filter fun i => !s.cooled now i := by
        rw [List.mem_filter, hi]
        exact ⟨List.mem_finRange i, rfl⟩
      refine ⟨j, rfl, .leastLoaded hbusy ?_ ?_ ?_⟩
      · simpa using (List.mem_filter.1 hmin.mem).2
      · exact fun i hi => hmin.le (hmem i hi)
      · exact fun i hlt hi => hmin.lt_of_lt (hsorted.filter _) (hmem i hi) hlt

end PriorityFreeBalancer

/-- The node that the walk from `start` visits at a step. -/
theorem candidate_val (n start step : Nat) :
    (Fin.ofNat (n + 1) (start % (n + 1) + step)).val = (start + step) % (n + 1) :=
  Nat.mod_add_mod start (n + 1) step

/-- The walk visits every node once, wherever it starts. -/
theorem candidateOrder_count (n start : Nat) (i : Fin (n + 1)) :
    (candidateOrder n start).count i = 1 := by
  have hnodup : (candidateOrder n start).Nodup := by
    apply List.nodup_range.map_on
    intro a ha b hb hab
    have hval := congrArg Fin.val hab
    rw [candidate_val, candidate_val] at hval
    have hmod : a ≡ b [MOD n + 1] := Nat.ModEq.add_left_cancel' start hval
    exact hmod.eq_of_lt_of_lt (List.mem_range.1 ha) (List.mem_range.1 hb)
  have hmem : i ∈ candidateOrder n start := by
    have hpos : 0 < n + 1 := Nat.succ_pos n
    have hstart := Nat.mod_lt start hpos
    refine List.mem_map.2 ⟨(i.val + (n + 1 - start % (n + 1))) % (n + 1),
      List.mem_range.2 (Nat.mod_lt _ hpos), ?_⟩
    apply Fin.ext
    have hsum : start % (n + 1) + (i.val + (n + 1 - start % (n + 1))) = i.val + (n + 1) := by omega
    change (start % (n + 1) + (i.val + (n + 1 - start % (n + 1))) % (n + 1)) % (n + 1) = i.val
    rw [Nat.add_mod_mod, hsum, Nat.add_mod_right, Nat.mod_eq_of_lt i.isLt]
  exact List.count_eq_one_of_mem hnodup hmem

namespace RoundRobinBalancer

/-- The choice of a node: the first one from the counter on that is not cooled, else the one that
recovers first. -/
inductive Policy (s : Nodes n) (now : Instant) (j : Fin (n + 1)) : Prop
  | next (steps : Nat) (within : steps < n + 1) (at_step : j.val = (s.counter + steps) % (n + 1))
      (up : s.cooled now j = false)
      (first : ∀ earlier < steps, ∀ i : Fin (n + 1), i.val = (s.counter + earlier) % (n + 1) →
        s.cooled now i = true)
  | recovering (down : ∀ i, s.cooled now i = true) (soonest : SoonestToRecover s j)

theorem Policy.not_cooled (h : Policy s now j) (hi : s.cooled now i = false) :
    s.cooled now j = false := by
  cases h with
  | next steps within at_step up first => exact up
  | recovering down soonest =>
    rw [down i] at hi
    cases hi

/-- The nodes with the counter one further. -/
def tick (s : Nodes n) : Nodes n := { s with counter := (s.counter + 1) % 2 ^ 64 }

theorem selectFrom_alone (s : Nodes n) (now : Instant) (nodes : List (Fin (n + 1))) :
    (selectFrom now nodes).alone s =
      match nodes.find? fun i => !s.cooled now i with
      | some j => (j, s.claim j)
      | none => NodeProgram.alone (soonestRecoveringNode >>= BackendGuard.new) s := by
  induction nodes with
  | nil => rfl
  | cons i nodes ih =>
    rw [selectFrom, alone_bind, inCooldown_alone, List.find?_cons]
    dsimp only
    cases s.cooled now i with
    | true => exact ih
    | false => rfl

/-- A `select` alone follows the policy, puts one claim on the node it returns and moves the
counter on. -/
theorem select_alone (s : Nodes n) (now : Instant) :
    ∃ j, (select n now).alone s = (j, (tick s).claim j) ∧ Policy s now j := by
  rw [select, alone_perform_bind]
  change ∃ j, (selectFrom now (candidateOrder n s.counter)).alone (tick s) = _ ∧ _
  rw [selectFrom_alone]
  have hcooled (i : Fin (n + 1)) : (tick s).cooled now i = s.cooled now i := rfl
  cases hfind : (candidateOrder n s.counter).find? fun i => !(tick s).cooled now i with
  | some j =>
    rw [candidateOrder, List.find?_map] at hfind
    obtain ⟨steps, hsteps, rfl⟩ := Option.map_eq_some_iff.1 hfind
    obtain ⟨hup, hwithin, hfirst⟩ := List.find?_range_eq_some.1 hsteps
    refine ⟨_, rfl, .next steps (List.mem_range.1 hwithin) (candidate_val n _ steps) ?_ ?_⟩
    · simpa [hcooled] using hup
    · intro earlier hearlier i hi
      have heq : i = Fin.ofNat (n + 1) (s.counter % (n + 1) + earlier) :=
        Fin.ext (hi.trans (candidate_val n s.counter earlier).symm)
      rw [heq]
      simpa [hcooled] using hfirst earlier hearlier
  | none =>
    have hdown (i : Fin (n + 1)) : s.cooled now i = true := by
      have hmem : i ∈ candidateOrder n s.counter := by
        apply List.count_pos_iff.1
        rw [candidateOrder_count]
        exact Nat.one_pos
      simpa [hcooled] using List.find?_eq_none.1 hfind i hmem
    obtain ⟨j, hrun, hsoonest⟩ := soonestRecoveringNode_alone (tick s)
    dsimp only
    rw [alone_bind, hrun]
    exact ⟨j, rfl, .recovering hdown (soonestToRecover_of_firstMin hsoonest)⟩

/-- The nodes that consecutive calls return, each call at its own instant. -/
def selects (s : Nodes n) : List Instant → List (Fin (n + 1))
  | [] => []
  | now :: nows =>
    let r := (select n now).alone s
    r.1 :: selects r.2 nows

theorem selects_up (s : Nodes n) (nows : List Instant)
    (hup : ∀ now ∈ nows, ∀ i, s.cooled now i = false)
    (hcounter : s.counter + nows.length ≤ 2 ^ 64) :
    selects s nows = (List.range nows.length).map fun step =>
      Fin.ofNat (n + 1) (s.counter % (n + 1) + step) := by
  induction nows generalizing s with
  | nil => rfl
  | cons now nows ih =>
    obtain ⟨hnow, hnows⟩ := List.forall_mem_cons.1 hup
    obtain ⟨j, hrun, hpolicy⟩ := select_alone s now
    have hj : j = Fin.ofNat (n + 1) (s.counter % (n + 1) + 0) := by
      cases hpolicy with
      | next steps within at_step up first =>
        cases steps with
        | zero => exact Fin.ext (at_step.trans (candidate_val n s.counter 0).symm)
        | succ steps =>
          have hzero := first 0 (Nat.succ_pos steps) (Fin.ofNat (n + 1) (s.counter + 0)) rfl
          rw [hnow] at hzero
          cases hzero
      | recovering down soonest =>
        have hzero := down 0
        rw [hnow] at hzero
        cases hzero
    rw [List.length_cons] at hcounter
    have hrest : ∀ now ∈ nows, ∀ i, ((tick s).claim j).cooled now i = false := by
      intro now hmem i
      rw [Nodes.cooled_claim]
      exact hnows now hmem i
    rw [selects, hrun, List.length_cons, List.range_succ_eq_map, List.map_cons, List.map_map, hj]
    dsimp only
    congr 1
    cases nows with
    | nil => rfl
    | cons next nows =>
      have hnext : ((tick s).claim j).counter = s.counter + 1 := by
        rw [List.length_cons] at hcounter
        exact Nat.mod_eq_of_lt (by omega)
      rw [← hj, ih _ hrest (by rw [hnext]; omega), hnext]
      apply List.map_congr_left
      intro step _
      apply Fin.ext
      rw [candidate_val, Function.comp_apply, candidate_val, Nat.succ_eq_add_one, Nat.add_assoc,
        Nat.add_comm 1 step]

end RoundRobinBalancer

/-- A `select` that no other call interrupts follows its balancer's stated policy, returns no
cooled node while another is up and changes one count; while no node is cooled, a balancer that
rotates returns every node once in as many calls as there are nodes. -/
theorem select_sequential (s : Nodes n) (now : Instant) :
    (∃ j, (PriorityFreeBalancer.select n now).alone s = (j, s.claim j) ∧
      PriorityFreeBalancer.Policy s now j ∧
      ∀ i, s.cooled now i = false → s.cooled now j = false) ∧
    (∃ j, (RoundRobinBalancer.select n now).alone s = (j, (RoundRobinBalancer.tick s).claim j) ∧
      RoundRobinBalancer.Policy s now j ∧
      ∀ i, s.cooled now i = false → s.cooled now j = false) ∧
    ∀ nows : List Instant, nows.length = n + 1 →
      (∀ now ∈ nows, ∀ i, s.cooled now i = false) → s.counter + nows.length ≤ 2 ^ 64 →
      ∀ i, (RoundRobinBalancer.selects s nows).count i = 1 := by
  obtain ⟨j, hj, hpriority⟩ := PriorityFreeBalancer.select_alone s now
  obtain ⟨k, hk, hrotation⟩ := RoundRobinBalancer.select_alone s now
  refine ⟨⟨j, hj, hpriority, fun _ => hpriority.not_cooled⟩,
    ⟨k, hk, hrotation, fun _ => hrotation.not_cooled⟩, ?_⟩
  intro nows hlength hup hcounter i
  rw [RoundRobinBalancer.selects_up s nows hup hcounter, hlength]
  exact candidateOrder_count n s.counter i

theorem select_sequential_five :
    ∀ i, (RoundRobinBalancer.selects (⟨fun _ => ⟨0, true, 0⟩, 5⟩ : Nodes 2) [0, 0, 0]).count i = 1 :=
  (select_sequential _ 0).2.2 [0, 0, 0] rfl (fun _ _ _ => rfl) (by decide)

end LocalMind.Backends
