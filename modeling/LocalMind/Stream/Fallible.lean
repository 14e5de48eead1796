import LocalMind.Stream.Mealy

namespace Fallible
set_option autoImplicit true

theorem isOk_iff {x : Except ε α} : x.isOk = true ↔ ∃ a, x = .ok a := by
  cases x with
  | ok a => exact ⟨fun _ => ⟨a, rfl⟩, fun _ => rfl⟩
  | error e => exact ⟨nofun, nofun⟩

theorem isOk_bind_iff {x : Except ε α} {f : α → Except ε β} :
    (x >>= f).isOk = true ↔ ∃ a, x = .ok a ∧ (f a).isOk = true := by
  cases x with
  | ok a =>
    refine ⟨fun h => ⟨a, rfl, h⟩, ?_⟩
    rintro ⟨b, hb, h⟩
    cases hb
    exact h
  | error e =>
    refine ⟨nofun, ?_⟩
    rintro ⟨b, hb, -⟩
    cases hb

@[simp] theorem isOk_map (f : α → β) (x : Except ε α) : (x.map f).isOk = x.isOk := by
  cases x <;> rfl

@[simp] theorem isOk_ok (a : α) : (Except.ok a : Except ε α).isOk = true := rfl

theorem ok_bind (a : α) (f : α → Except ε β) : (Except.ok a >>= f) = f a := rfl

theorem map_eq_ok_iff {f : α → β} {x : Except ε α} :
    x.map f = .ok b ↔ ∃ a, x = .ok a ∧ f a = b := by
  cases x with
  | ok a => simp [Except.map]
  | error e => simp [Except.map]

theorem bind_eq_ok_iff {x : Except ε α} {f : α → Except ε β} :
    x >>= f = .ok b ↔ ∃ a, x = .ok a ∧ f a = .ok b := by
  cases x with
  | ok a => simp [bind, Except.bind]
  | error e => simp [bind, Except.bind]

/-- Every step of a run is taken in a state that accepts it. -/
def Accepts (ok : σ → α → Prop) (f : σ → α → Except ε σ) (s : σ) : List α → Prop
  | [] => True
  | a :: as => ok s a ∧ ∀ t, f s a = .ok t → Accepts ok f t as

/-- A traversal that succeeds succeeds on each element, in order. -/
theorem forall₂_of_mapM_ok {l : List α} {f : α → Except ε β} (h : l.mapM f = .ok r) :
    List.Forall₂ (fun a b => f a = .ok b) l r := by
  induction l generalizing r with
  | nil =>
    cases h
    exact List.Forall₂.nil
  | cons a l ih =>
    rw [List.mapM_cons] at h
    obtain ⟨b, hb, h⟩ := bind_eq_ok_iff.1 h
    obtain ⟨bs, hbs, h⟩ := bind_eq_ok_iff.1 h
    cases h
    exact List.Forall₂.cons hb (ih hbs)

theorem exists_left_of_forall₂ {R : α → β → Prop} (h : List.Forall₂ R l r) (hb : b ∈ r) :
    ∃ a ∈ l, R a b := by
  induction h with
  | nil => cases hb
  | @cons a c l r hac _ ih =>
    obtain rfl | hb := List.mem_cons.1 hb
    · exact ⟨a, List.mem_cons_self, hac⟩
    · obtain ⟨a', ha', hr⟩ := ih hb
      exact ⟨a', List.mem_cons_of_mem a ha', hr⟩

theorem exists_right_of_forall₂ {R : α → β → Prop} (h : List.Forall₂ R l r) (ha : a ∈ l) :
    ∃ b ∈ r, R a b :=
  exists_left_of_forall₂ h.flip ha

theorem map_eq_of_forall₂ {R : α → β → Prop} {f : α → γ} {g : β → γ} (h : List.Forall₂ R l r)
    (hfg : ∀ a b, R a b → f a = g b) : l.map f = r.map g := by
  induction h with
  | nil => rfl
  | cons hab _ ih => rw [List.map_cons, List.map_cons, ih, hfg _ _ hab]

theorem mapM_ok_of_forall {l : List α} {f : α → Except ε β} (h : ∀ a ∈ l, ∃ b, f a = .ok b) :
    ∃ r, l.mapM f = .ok r := by
  induction l with
  | nil => exact ⟨[], rfl⟩
  | cons a l ih =>
    obtain ⟨b, hb⟩ := h a List.mem_cons_self
    obtain ⟨bs, hbs⟩ := ih fun c hc => h c (List.mem_cons_of_mem a hc)
    refine ⟨b :: bs, ?_⟩
    rw [List.mapM_cons, hb, hbs]
    rfl

theorem foldlM_preserves {f : σ → α → Except ε σ} {I : σ → Prop}
    (hf : ∀ s a t, I s → f s a = .ok t → I t) (hs : I s) {as : List α}
    (h : as.foldlM f s = .ok t) : I t := by
  induction as generalizing s with
  | nil =>
    cases h
    exact hs
  | cons a as ih =>
    rw [List.foldlM_cons, bind_eq_ok_iff] at h
    obtain ⟨u, hu, h⟩ := h
    exact ih (hf s a u hs hu) h

/-- What relates the ends of every step relates the ends of a run. -/
theorem foldlM_related {f : σ → α → Except ε σ} {R : σ → σ → Prop} (hrefl : ∀ s, R s s)
    (htrans : ∀ s t u, R s t → R t u → R s u) {as : List α}
    (hf : ∀ a ∈ as, ∀ s t, f s a = .ok t → R s t) (h : as.foldlM f s = .ok t) : R s t := by
  induction as generalizing s with
  | nil =>
    cases h
    exact hrefl _
  | cons a as ih =>
    rw [List.foldlM_cons, bind_eq_ok_iff] at h
    obtain ⟨u, hu, h⟩ := h
    exact htrans s u t (hf a List.mem_cons_self s u hu)
      (ih (fun b hb => hf b (List.mem_cons_of_mem a hb)) h)

/-- A run under an invariant succeeds exactly when every state accepts its step. -/
theorem foldlM_isOk_iff {f : σ → α → Except ε σ} {ok : σ → α → Prop} {I : σ → Prop}
    (hinv : ∀ s a t, I s → f s a = .ok t → I t)
    (hok : ∀ s a, I s → ((f s a).isOk = true ↔ ok s a)) (hs : I s) (as : List α) :
    (as.foldlM f s).isOk = true ↔ Accepts ok f s as := by
  induction as generalizing s with
  | nil => exact ⟨fun _ => trivial, fun _ => rfl⟩
  | cons a as ih =>
    rw [List.foldlM_cons, isOk_bind_iff, Accepts, ← hok s a hs]
    constructor
    · rintro ⟨t, ht, h⟩
      refine ⟨isOk_iff.2 ⟨t, ht⟩, ?_⟩
      intro u hu
      rw [ht] at hu
      cases hu
      exact (ih (hinv s a t hs ht)).1 h
    · rintro ⟨h, hn⟩
      obtain ⟨t, ht⟩ := isOk_iff.1 h
      exact ⟨t, ht, (ih (hinv s a t hs ht)).2 (hn t ht)⟩

/-- Where every state under the invariant accepts the same steps, a run succeeds exactly when
each of its steps is one of them. -/
theorem foldlM_isOk_iff_forall {f : σ → α → Except ε σ} {ok : α → Prop} {I : σ → Prop}
    (hinv : ∀ s a t, I s → f s a = .ok t → I t)
    (hok : ∀ s a, I s → ((f s a).isOk = true ↔ ok a)) (hs : I s) (as : List α) :
    (as.foldlM f s).isOk = true ↔ ∀ a ∈ as, ok a := by
  induction as generalizing s with
  | nil => exact ⟨fun _ => List.forall_mem_nil ok, fun _ => rfl⟩
  | cons a as ih =>
    rw [List.foldlM_cons, isOk_bind_iff, List.forall_mem_cons, ← hok s a hs]
    constructor
    · rintro ⟨t, ht, h⟩
      exact ⟨isOk_iff.2 ⟨t, ht⟩, (ih (hinv s a t hs ht)).1 h⟩
    · rintro ⟨h, ha⟩
      obtain ⟨t, ht⟩ := isOk_iff.1 h
      exact ⟨t, ht, (ih (hinv s a t hs ht)).2 ha⟩

/-- A run whose every step stays ends where it starts. -/
theorem foldlM_idle {f : σ → α → Except ε σ} {l : List α} (h : ∀ a ∈ l, f s a = .ok s) :
    l.foldlM f s = .ok s := by
  induction l with
  | nil => rfl
  | cons a l ih =>
    rw [List.foldlM_cons, h a List.mem_cons_self]
    exact ih fun b hb => h b (List.mem_cons_of_mem _ hb)

end Fallible
