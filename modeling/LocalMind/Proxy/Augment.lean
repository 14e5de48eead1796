import LocalMind.Json.Same

namespace LocalMind
set_option autoImplicit true
open Json

/-! Where an augmentation goes. -/

/-- The place of the last element that fits. -/
def lastIndex (p : α → Bool) : List α → Option Nat
  | [] => none
  | a :: as =>
    match lastIndex p as with
    | some i => some (i + 1)
    | none => if p a then some 0 else none

/-- The block that is injected. -/
def augmentationBlock (requestPrompt augmentation : String) : String :=
  "\n\n" ++ requestPrompt ++ "\n\n" ++ augmentation

theorem lastIndex_congr (h : List.Forall₂ (fun a b => p a = q b) as bs) :
    lastIndex p as = lastIndex q bs := by
  induction h with
  | nil => rfl
  | cons hab _ ih => rw [lastIndex, lastIndex, ih, hab]

theorem lastIndex_lt (h : lastIndex p as = some i) : ∃ a, as[i]? = some a ∧ p a = true := by
  induction as generalizing i with
  | nil => cases h
  | cons a as ih =>
    rw [lastIndex] at h
    split at h
    · next j hj =>
      cases h
      exact ih hj
    · split at h
      · next ha =>
        cases h
        exact ⟨a, rfl, ha⟩
      · cases h

/-- A relation of two lists is one of theirs with an element rewritten on both sides. -/
theorem forall₂_modify_iff {S : α → β → Prop} (h : List.Forall₂ R as bs)
    (hfg : ∀ a b, R a b → (S (f a) (g b) ↔ S a b)) (i : Nat) :
    List.Forall₂ S (as.modify i f) (bs.modify i g) ↔ List.Forall₂ S as bs := by
  induction h generalizing i with
  | nil =>
    rw [List.modify_nil, List.modify_nil]
  | cons hab _ ih =>
    cases i with
    | zero =>
      rw [List.modify_zero_cons, List.modify_zero_cons, List.forall₂_cons, List.forall₂_cons,
        hfg _ _ hab]
    | succ i =>
      rw [List.modify_succ_cons, List.modify_succ_cons, List.forall₂_cons, List.forall₂_cons, ih]

theorem forall_mem_modify {P : α → Prop} (hf : ∀ a, P (f a) ↔ P a) (i : Nat) (as : List α) :
    (∀ a ∈ as.modify i f, P a) ↔ ∀ a ∈ as, P a := by
  induction as generalizing i with
  | nil => rw [List.modify_nil]
  | cons a as ih =>
    cases i with
    | zero => rw [List.modify_zero_cons, List.forall_mem_cons, List.forall_mem_cons, hf]
    | succ i => rw [List.modify_succ_cons, List.forall_mem_cons, List.forall_mem_cons, ih]

end LocalMind
