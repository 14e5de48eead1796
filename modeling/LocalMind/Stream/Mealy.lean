import LocalMind.Json.Value

namespace Mealy
set_option autoImplicit true

/-- Run a machine that reads one symbol at a time and writes any number of symbols. -/
def run (step : σ → α → σ × List β) (s : σ) : List α → σ × List β
  | [] => (s, [])
  | a :: as =>
    let r := step s a
    let t := run step r.1 as
    (t.1, r.2 ++ t.2)

@[simp] theorem run_nil (step : σ → α → σ × List β) (s : σ) : run step s [] = (s, []) := rfl

theorem run_cons (step : σ → α → σ × List β) (s : σ) (a : α) (as : List α) :
    run step s (a :: as) =
      ((run step (step s a).1 as).1, (step s a).2 ++ (run step (step s a).1 as).2) := rfl

theorem run_append (step : σ → α → σ × List β) (s : σ) (as bs : List α) :
    run step s (as ++ bs) =
      ((run step (run step s as).1 bs).1,
        (run step s as).2 ++ (run step (run step s as).1 bs).2) := by
  induction as generalizing s with
  | nil => rfl
  | cons a as ih => simp only [List.cons_append, run_cons, ih, List.append_assoc]

/-- The output over a stream cut into chunks, the state carried across each cut. -/
def runChunks (step : σ → α → σ × List β) (s : σ) : List (List α) → σ × List β
  | [] => (s, [])
  | c :: cs =>
    let r := run step s c
    let t := runChunks step r.1 cs
    (t.1, r.2 ++ t.2)

/-- How the stream is cut makes no difference. -/
theorem runChunks_eq (step : σ → α → σ × List β) (s : σ) (cs : List (List α)) :
    runChunks step s cs = run step s cs.flatten := by
  induction cs generalizing s with
  | nil => rfl
  | cons c cs ih => simp only [runChunks, ih, List.flatten_cons, run_append]

/-! Cutting a stream after every pair of equal separators. -/

section Pairs
variable {α : Type} [DecidableEq α] (sep : α)

/-- The position of the first two adjacent separators. -/
def findPair : List α → Option Nat
  | a :: b :: t => if a = sep ∧ b = sep then some 0 else (findPair (b :: t)).map (· + 1)
  | _ => none

/-- The greedy count of pairs that do not overlap. -/
def countPairs : List α → Nat
  | a :: b :: t => if a = sep ∧ b = sep then countPairs t + 1 else countPairs (b :: t)
  | _ => 0

/-- Hold the symbols of an unfinished block; write the block when a pair closes it. -/
def blockStep (r : List α) (a : α) : List α × List (List α) :=
  if a = sep ∧ r.getLast? = some sep then ([], [r ++ [a]]) else (r ++ [a], [])

/-- The blocks closed by a pair, and the unfinished one. -/
def blocks (s : List α) : List α × List (List α) := run (blockStep sep) [] s

variable {sep}

theorem blockStep_conserves (r : List α) (a : α) :
    (blockStep sep r a).2.flatten ++ (blockStep sep r a).1 = r ++ [a] := by
  unfold blockStep
  split <;> simp

theorem run_blockStep_conserves (r s : List α) :
    (run (blockStep sep) r s).2.flatten ++ (run (blockStep sep) r s).1 = r ++ s := by
  induction s generalizing r with
  | nil => simp
  | cons a s ih =>
    have h : (blockStep sep r a).2.flatten ++ (blockStep sep r a).1 = r ++ [a] :=
      blockStep_conserves r a
    rw [run_cons, List.flatten_append, List.append_assoc, ih, ← List.append_assoc, h]
    simp

theorem blockStep_ends (h : b ∈ (blockStep sep r a).2) : ∃ x, b = x ++ [sep, sep] := by
  unfold blockStep at h
  split at h
  · next hp =>
    obtain ⟨x, rfl⟩ := List.getLast?_eq_some_iff.1 hp.2
    rw [List.mem_singleton] at h
    exact ⟨x, by rw [h, hp.1, List.append_assoc]; rfl⟩
  · cases h

theorem run_blockStep_ends {r s : List α} (h : b ∈ (run (blockStep sep) r s).2) :
    ∃ x, b = x ++ [sep, sep] := by
  induction s generalizing r with
  | nil => cases h
  | cons a s ih =>
    rw [run_cons, List.mem_append] at h
    exact h.elim blockStep_ends ih

theorem countPairs_cons_of_ne (h : a ≠ sep) (s : List α) :
    countPairs sep (a :: s) = countPairs sep s := by
  cases s with
  | nil => rfl
  | cons b t => rw [countPairs, if_neg fun h' => h h'.1]

theorem length_run_blockStep (r s : List α) :
    (run (blockStep sep) r s).2.length =
      countPairs sep (if r.getLast? = some sep then sep :: s else s) := by
  induction s generalizing r with
  | nil => split <;> rfl
  | cons a s ih =>
    rw [run_cons, List.length_append, ih]
    by_cases ha : a = sep <;> by_cases hr : r.getLast? = some sep
    · simp [blockStep, ha, hr, countPairs, Nat.add_comm]
    · simp [blockStep, ha, hr]
    · simp [blockStep, ha, hr, countPairs, countPairs_cons_of_ne ha]
    · simp [blockStep, ha, hr, countPairs_cons_of_ne ha]

theorem length_blocks (s : List α) : (blocks sep s).2.length = countPairs sep s :=
  length_run_blockStep [] s

theorem findPair_cons_eq_none {a : α} {s : List α} (h : findPair sep (a :: s) = none) :
    findPair sep s = none := by
  cases s with
  | nil => rfl
  | cons b t =>
    rw [findPair] at h
    split at h
    · cases h
    · simpa using h

theorem findPair_append_pair (a t : List α) : findPair sep (a ++ sep :: sep :: t) ≠ none := by
  induction a with
  | nil => simp [findPair]
  | cons x a ih => exact fun h => ih (findPair_cons_eq_none h)

theorem findPair_eq_some {s : List α} (h : findPair sep s = some i) :
    ∃ a t, s = a ++ sep :: sep :: t ∧ a.length = i ∧ findPair sep (a ++ [sep]) = none := by
  induction s generalizing i with
  | nil => cases h
  | cons x s ih =>
    cases s with
    | nil => cases h
    | cons y t =>
      rw [findPair] at h
      split at h
      · next hp =>
        cases h
        exact ⟨[], t, by rw [hp.1, hp.2]; rfl, rfl, rfl⟩
      · next hp =>
        obtain ⟨j, hj, rfl⟩ := Option.map_eq_some_iff.1 h
        obtain ⟨a, u, hs, hl, hn⟩ := ih hj
        refine ⟨x :: a, u, by rw [hs]; rfl, by rw [List.length_cons, hl], ?_⟩
        cases a with
        | nil =>
          have hy : y = sep := (List.cons.inj hs).1
          simpa [findPair, hy] using fun hx => hp ⟨hx, hy⟩
        | cons z a =>
          have hy : y = z := (List.cons.inj hs).1
          subst hy
          rw [List.cons_append, List.cons_append, findPair, if_neg hp]
          simpa using hn

theorem run_blockStep_of_findPair_none {r s : List α} (h : findPair sep (r ++ s) = none) :
    run (blockStep sep) r s = (r ++ s, []) := by
  induction s generalizing r with
  | nil => simp
  | cons a s ih =>
    have hstep : blockStep sep r a = (r ++ [a], []) := by
      rw [blockStep, if_neg]
      rintro ⟨rfl, hr⟩
      obtain ⟨x, rfl⟩ := List.getLast?_eq_some_iff.1 hr
      rw [List.append_assoc] at h
      exact findPair_append_pair x s h
    have h' : findPair sep ((r ++ [a]) ++ s) = none := by simpa using h
    rw [run_cons, hstep, ih h']
    simp

theorem run_blockStep_of_findPair_some (r t : List α) (h : findPair sep (r ++ [sep]) = none) :
    run (blockStep sep) [] (r ++ sep :: sep :: t) =
      ((blocks sep t).1, (r ++ [sep, sep]) :: (blocks sep t).2) := by
  have h' : run (blockStep sep) [] (r ++ [sep]) = (r ++ [sep], []) :=
    run_blockStep_of_findPair_none h
  have hs : r ++ sep :: sep :: t = (r ++ [sep]) ++ sep :: t := by simp
  rw [hs, run_append, h', run_cons, blockStep, if_pos ⟨rfl, by simp⟩]
  simp [blocks]

/-- The unfinished block never holds a pair. -/
theorem findPair_run_blockStep {r s : List α} (h : findPair sep r = none) :
    findPair sep (run (blockStep sep) r s).1 = none := by
  induction s generalizing r with
  | nil => exact h
  | cons a s ih =>
    rw [run_cons]
    apply ih
    unfold blockStep
    split
    · rfl
    · next hp =>
      cases hf : findPair sep (r ++ [a]) with
      | none => rfl
      | some i =>
        obtain ⟨x, t, he, -, hn⟩ := findPair_eq_some hf
        rcases List.eq_nil_or_concat t with rfl | ⟨t, y, rfl⟩
        · have he' : r ++ [a] = (x ++ [sep]) ++ [sep] := by simpa using he
          obtain ⟨hr, ha⟩ := List.append_inj' he' rfl
          simp only [List.cons.injEq, and_true] at ha
          exact absurd ⟨ha, by rw [hr]; simp⟩ hp
        · have he' : r ++ [a] = (x ++ sep :: sep :: t) ++ [y] := by simpa using he
          obtain ⟨hr, -⟩ := List.append_inj' he' rfl
          rw [hr] at h
          exact absurd h (findPair_append_pair x t)

/-- Symbols ahead of a nonempty unfinished block only lengthen the first block. -/
theorem run_blockStep_prefix (q : List α) {r : List α} (hr : r ≠ []) (s : List α) :
    run (blockStep sep) (q ++ r) s =
      match run (blockStep sep) r s with
      | (t, []) => (q ++ t, [])
      | (t, b :: bs) => (t, (q ++ b) :: bs) := by
  induction s generalizing r with
  | nil => rfl
  | cons a s ih =>
    have hl : (q ++ r).getLast? = r.getLast? := List.getLast?_append_of_ne_nil q hr
    by_cases hp : a = sep ∧ r.getLast? = some sep
    · have h₁ : blockStep sep (q ++ r) a = ([], [(q ++ r) ++ [a]]) := by
        rw [blockStep, if_pos ⟨hp.1, hl.trans hp.2⟩]
      have h₂ : blockStep sep r a = ([], [r ++ [a]]) := by rw [blockStep, if_pos hp]
      simp only [run_cons, h₁, h₂, List.append_assoc, List.cons_append, List.nil_append]
    · have h₁ : blockStep sep (q ++ r) a = (q ++ (r ++ [a]), []) := by
        rw [blockStep, if_neg fun h => hp ⟨h.1, hl.symm.trans h.2⟩, List.append_assoc]
      have h₂ : blockStep sep r a = (r ++ [a], []) := by rw [blockStep, if_neg hp]
      simp only [run_cons, h₁, h₂, List.nil_append]
      exact ih (by simp)

/-- A scan may start at the last symbol of a prefix that holds no pair. -/
theorem blocks_drop {s : List α} {n : Nat} (hn : n < s.length)
    (h : findPair sep (s.take (n + 1)) = none) :
    (blocks sep (s.drop n)).2.length = (blocks sep s).2.length ∧
      ((blocks sep s).2 ≠ [] → (blocks sep (s.drop n)).1 = (blocks sep s).1) := by
  obtain ⟨a, t, ht⟩ : ∃ a t, s.drop n = a :: t := by
    cases hd : s.drop n with
    | nil => exact absurd (List.drop_eq_nil_iff.1 hd) (Nat.not_le.2 hn)
    | cons a t => exact ⟨a, t, rfl⟩
  have hs : s = (s.take n ++ [a]) ++ t := by
    rw [List.append_assoc, List.singleton_append, ← ht, List.take_append_drop]
  have htake : s.take (n + 1) = s.take n ++ [a] := by
    have hl : (s.take n ++ [a]).length = n + 1 := by
      rw [List.length_append, List.length_take, Nat.min_eq_left (Nat.le_of_lt hn)]
      rfl
    conv_lhs => rw [hs]
    exact List.take_left' hl
  rw [htake] at h
  have hq : run (blockStep sep) [] (s.take n ++ [a]) = (s.take n ++ [a], []) :=
    run_blockStep_of_findPair_none h
  have hp : blocks sep s = run (blockStep sep) (s.take n ++ [a]) t := by
    conv_lhs => rw [blocks, hs]
    rw [run_append, hq]
    rfl
  have hd : blocks sep (s.drop n) = run (blockStep sep) [a] t := by
    rw [blocks, ht, run_cons, blockStep, if_neg (by simp)]
    rfl
  rw [hp, hd, run_blockStep_prefix _ (by simp)]
  generalize run (blockStep sep) [a] t = r
  obtain ⟨u, bs⟩ := r
  cases bs with
  | nil => exact ⟨rfl, fun h => absurd rfl h⟩
  | cons b bs => exact ⟨rfl, fun _ => rfl⟩

end Pairs

end Mealy
