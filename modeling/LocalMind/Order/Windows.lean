import Mathlib.Data.List.Basic
import Mathlib.Data.List.Chain

namespace Windows
set_option autoImplicit true

/-! Runs of a list packed greedily, each one starting a little before the end of the last. -/

def total (w : α → Nat) : List α → Nat
  | [] => 0
  | x :: xs => w x + total w xs

def slice (xs : List α) (s e : Nat) : List α := (xs.drop s).take (e - s)

theorem total_append (w : α → Nat) (xs ys : List α) :
    total w (xs ++ ys) = total w xs + total w ys := by
  induction xs with
  | nil => rw [List.nil_append, total, Nat.zero_add]
  | cons x xs ih => rw [List.cons_append, total, total, ih, Nat.add_assoc]

theorem total_map (w : β → Nat) (f : α → β) (xs : List α) :
    total w (xs.map f) = total (fun x => w (f x)) xs := by
  induction xs with
  | nil => rfl
  | cons x xs ih => rw [List.map_cons, total, total, ih]

/-- A run from `s` that no run of total at most `size` goes beyond. -/
structure Greedy (w : α → Nat) (size : Nat) (xs : List α) (s e : Nat) : Prop where
  lt : s < e
  le : e ≤ xs.length
  maximal : ∀ b, b ≤ xs.length → total w (slice xs s b) ≤ size → b ≤ e

/-- The runs of a sweep that steps back by `overlap`, and forward by one at least. -/
inductive Sweep (w : α → Nat) (size overlap : Nat) (xs : List α) : Nat → List (Nat × Nat) → Prop
  | last (h : Greedy w size xs s xs.length) : Sweep w size overlap xs s [(s, xs.length)]
  | next (h : Greedy w size xs s e) (hlt : e < xs.length)
      (tail : Sweep w size overlap xs (max (e - overlap) (s + 1)) spans) :
      Sweep w size overlap xs s ((s, e) :: spans)

namespace Sweep
variable {w : α → Nat} {xs : List α}

theorem head (h : Sweep w size overlap xs s spans) : ∃ e rest, spans = (s, e) :: rest := by
  cases h with
  | last _ => exact ⟨xs.length, [], rfl⟩
  | next _ _ _ => exact ⟨_, _, rfl⟩

theorem getLast (h : Sweep w size overlap xs s spans) :
    spans.getLast?.map Prod.snd = some xs.length := by
  induction h with
  | last _ => rfl
  | next _ _ tail ih =>
    obtain ⟨e, rest, rfl⟩ := tail.head
    rw [List.getLast?_cons_cons]
    exact ih

theorem greedy (h : Sweep w size overlap xs s spans) (hmem : span ∈ spans) :
    Greedy w size xs span.1 span.2 := by
  induction h with
  | last hg =>
    cases List.mem_singleton.1 hmem
    exact hg
  | next hg _ _ ih =>
    obtain rfl | hmem := List.mem_cons.1 hmem
    · exact hg
    · exact ih hmem

theorem le_start (h : Sweep w size overlap xs s spans) (hmem : span ∈ spans) : s ≤ span.1 := by
  induction h with
  | last _ =>
    cases List.mem_singleton.1 hmem
    exact le_refl _
  | next _ _ _ ih =>
    obtain rfl | hmem := List.mem_cons.1 hmem
    · exact le_refl _
    · have := ih hmem
      omega

theorem increasing (h : Sweep w size overlap xs s spans) :
    spans.Pairwise fun a b => a.1 < b.1 := by
  induction h with
  | last _ => exact List.pairwise_singleton _ _
  | next _ _ tail ih =>
    apply List.pairwise_cons.2
    refine ⟨?_, ih⟩
    intro span hmem
    have := tail.le_start hmem
    dsimp only
    omega

/-- The next run starts no later than where this one stops. -/
theorem no_gap (h : Sweep w size overlap xs s spans) : spans.IsChain fun a b => b.1 ≤ a.2 := by
  induction h with
  | last _ => exact List.isChain_singleton _
  | next hg _ tail ih =>
    obtain ⟨e, rest, rfl⟩ := tail.head
    apply List.isChain_cons_cons.2
    refine ⟨?_, ih⟩
    have := hg.lt
    dsimp only
    omega

/-- A run of at most `overlap + 1` elements that fits is inside the last run to start before it. -/
theorem covers (h : Sweep w size overlap xs s spans) (hs : s ≤ a) (hab : a < b)
    (hb : b ≤ xs.length) (hlen : b - a ≤ overlap + 1) (hfit : total w (slice xs a b) ≤ size) :
    ∃ span ∈ spans, span.1 ≤ a ∧ b ≤ span.2 := by
  induction h with
  | last _ => exact ⟨_, List.mem_cons_self, hs, hb⟩
  | @next s e _ hg _ _ ih =>
    by_cases hnext : max (e - overlap) (s + 1) ≤ a
    · obtain ⟨span, hmem, hspan⟩ := ih hnext
      exact ⟨span, List.mem_cons_of_mem _ hmem, hspan⟩
    · clear ih
      refine ⟨(s, e), List.mem_cons_self, hs, ?_⟩
      by_cases hback : a < e - overlap
      · dsimp only
        omega
      · have ha : a = s := by omega
        subst ha
        exact hg.maximal b hb hfit

end Sweep

end Windows
