import Mathlib.Algebra.Order.BigOperators.Group.List
import Mathlib.Algebra.Order.Ring.Nat
import Mathlib.Data.Multiset.AddSub

namespace Concurrent
set_option autoImplicit true

/-- A sequential program whose steps are atomic operations: `Ret o` is what `o` answers. -/
inductive Program (Op : Type) (Ret : Op → Type) (α : Type)
  | ret (a : α)
  | act (o : Op) (k : Ret o → Program Op Ret α)

namespace Program
variable {Op : Type} {Ret : Op → Type}

def andThen (p : Program Op Ret α) (f : α → Program Op Ret β) : Program Op Ret β :=
  match p with
  | ret a => f a
  | act o k => act o fun r => (k r).andThen f

instance : Monad (Program Op Ret) where
  pure := ret
  bind := andThen

def perform (o : Op) : Program Op Ret (Ret o) := act o ret

/-- A run of a program with nothing between its steps; `exec` answers an operation. -/
def alone (exec : σ → (o : Op) → Ret o × σ) (s : σ) : Program Op Ret α → α × σ
  | ret a => (a, s)
  | act o k => (k (exec s o).1).alone exec (exec s o).2

variable {exec : σ → (o : Op) → Ret o × σ}

@[simp] theorem alone_pure (s : σ) (a : α) :
    (pure a : Program Op Ret α).alone exec s = (a, s) := rfl

@[simp] theorem alone_perform (s : σ) (o : Op) :
    (perform o : Program Op Ret (Ret o)).alone exec s = exec s o := rfl

@[simp] theorem alone_bind (s : σ) (p : Program Op Ret α) (f : α → Program Op Ret β) :
    (p >>= f).alone exec s = (f (p.alone exec s).1).alone exec (p.alone exec s).2 := by
  induction p generalizing s with
  | ret a => rfl
  | act o k ih => exact ih _ _

end Program

/-- What is tracked beside a program: the operations a ghost state allows, the answers the rest of
the system can give there, and the next ghost state. -/
structure Ghost (Op : Type) (Ret : Op → Type) (G : Type) where
  allows : G → Op → Prop
  expects : G → (o : Op) → Ret o → Prop
  next : G → (o : Op) → Ret o → G

/-- The ghost state that keeps every operation with its answer. -/
def history (Op : Type) (Ret : Op → Type) : Ghost Op Ret (List (Sigma Ret)) where
  allows _ _ := True
  expects _ _ _ := True
  next h o r := h ++ [⟨o, r⟩]

namespace Program
variable {Op : Type} {Ret : Op → Type} {G : Type} {ghost : Ghost Op Ret G}

/-- Whatever the expected answers, each step is allowed and the program ends as promised. -/
def Meets (ghost : Ghost Op Ret G) (post : α → G → Prop) : Program Op Ret α → G → Prop
  | ret a, g => post a g
  | act o k, g => ghost.allows g o ∧
      ∀ r, ghost.expects g o r → (k r).Meets ghost post (ghost.next g o r)

@[simp] theorem meets_pure (post : α → G → Prop) (a : α) (g : G) :
    (pure a : Program Op Ret α).Meets ghost post g ↔ post a g := Iff.rfl

@[simp] theorem meets_perform (o : Op) (post : Ret o → G → Prop) (g : G) :
    (perform o).Meets ghost post g ↔
      ghost.allows g o ∧ ∀ r, ghost.expects g o r → post r (ghost.next g o r) := Iff.rfl

@[simp] theorem meets_bind (p : Program Op Ret α) (f : α → Program Op Ret β)
    (post : β → G → Prop) (g : G) :
    (p >>= f).Meets ghost post g ↔ p.Meets ghost (fun a => (f a).Meets ghost post) g := by
  induction p generalizing g with
  | ret a => exact Iff.rfl
  | act o k ih =>
    apply and_congr_right
    intro _
    apply forall_congr'
    intro r
    exact imp_congr_right fun _ => ih r _

theorem Meets.mono {p : Program Op Ret α} {post post' : α → G → Prop}
    (h : p.Meets ghost post g) (hpost : ∀ a g, post a g → post' a g) : p.Meets ghost post' g := by
  induction p generalizing g with
  | ret a => exact hpost a g h
  | act o k ih =>
    constructor
    · exact h.1
    · intro r hr
      exact ih r (h.2 r hr)

end Program

/-- Replacing one element moves its weight in the sum. -/
theorem sum_map_set {l : List α} {c : Nat} {a : α} (f : α → Nat) (h : l[c]? = some a) (b : α) :
    ((l.set c b).map f).sum + f a = (l.map f).sum + f b := by
  induction l generalizing c with
  | nil => cases h
  | cons x l ih =>
    cases c with
    | zero =>
      cases h
      simp only [List.set_cons_zero, List.map_cons, List.sum_cons]
      omega
    | succ c =>
      have := ih h
      simp only [List.set_cons_succ, List.map_cons, List.sum_cons]
      omega

end Concurrent
