import LocalMind.Json.Value
import LocalMind.Stream.Fallible

namespace Json
set_option autoImplicit true

/-! Rewriting a value in place, by steps that may fail and that note what they did. -/

abbrev Rewrite (ε ω α : Type) := α → Except ε (α × List ω)

namespace Rewrite

def skip : Rewrite ε ω α := fun a => .ok (a, [])

def seq (f g : Rewrite ε ω α) : Rewrite ε ω α := fun a =>
  match f a with
  | .error e => .error e
  | .ok (b, notes) => (g b).map fun r => (r.1, notes ++ r.2)

/-- Rewrite the entries of a list, each by a step that is told its position. -/
def list (f : Nat → Rewrite ε ω α) (i : Nat) : Rewrite ε ω (List α)
  | [] => .ok ([], [])
  | x :: xs =>
    match f i x with
    | .error e => .error e
    | .ok (y, notes) => (list f (i + 1) xs).map fun r => (y :: r.1, notes ++ r.2)

/-- Rewrite the value under a key, where there is one. -/
def under (k : String) (f : Rewrite ε ω Value) : Rewrite ε ω Value := fun v =>
  match v.get k with
  | some x => (f x).map fun r => (v.put k r.1, r.2)
  | none => .ok (v, [])

/-- Rewrite the values under several keys, one after the other. -/
def each (f : Rewrite ε ω Value) : List String → Rewrite ε ω Value
  | [] => skip
  | k :: ks => seq (under k f) (each f ks)

/-- Rewrite the items of an array. -/
def items (f : Nat → Rewrite ε ω Value) : Rewrite ε ω Value := fun v =>
  match v.asArray with
  | some xs => (list f 0 xs).map fun r => (.array r.1, r.2)
  | none => .ok (v, [])

def Makes (f : Rewrite ε ω α) (a b : α) : Prop := ∃ notes, f a = .ok (b, notes)

/-- The error of a step. -/
def failure : Except ε β → Option ε
  | .error e => some e
  | .ok _ => none

end Rewrite

/-! What a rewriting can change. -/

/-- Two values that agree but for related values under some of their keys. -/
structure Below (ks : List String) (S : Value → Value → Prop) (v w : Value) : Prop where
  scalar : v.isObject = false → w = v
  isObject : w.isObject = v.isObject
  within : ∀ k ∈ ks, Option.Rel S (v.get k) (w.get k)
  outside : ∀ k ∉ ks, w.get k = v.get k

/-- Two values that agree but for related items, where they are arrays. -/
structure Items (S : Value → Value → Prop) (v w : Value) : Prop where
  scalar : v.asArray = none → w = v
  items : Option.Rel (List.Forall₂ S) v.asArray w.asArray

theorem optionRel_refl {S : α → α → Prop} (h : ∀ a, S a a) (o : Option α) :
    Option.Rel S o o := by
  cases o with
  | none => exact .none
  | some a => exact .some (h a)

theorem optionRel_trans {S : α → α → Prop} (h : ∀ a b c, S a b → S b c → S a c)
    (hS : Option.Rel S o p) (hT : Option.Rel S p q) : Option.Rel S o q := by
  cases hS with
  | none =>
    cases hT
    exact .none
  | some hs =>
    cases hT with
    | some ht => exact .some (h _ _ _ hs ht)

theorem optionRel_mono {S T : α → β → Prop} (h : ∀ a b, S a b → T a b)
    (hS : Option.Rel S o p) : Option.Rel T o p := by
  cases hS with
  | none => exact .none
  | some hs => exact .some (h _ _ hs)

theorem optionRel_none_left {S : α → β → Prop} (h : Option.Rel S none o) : o = none := by
  cases h
  rfl

theorem optionRel_some_left {S : α → β → Prop} (h : Option.Rel S (some a) o) :
    ∃ b, o = some b ∧ S a b := by
  cases h with
  | some hs => exact ⟨_, rfl, hs⟩

theorem forall₂_comp {S : α → β → Prop} {T : β → γ → Prop} {U : α → γ → Prop}
    (h : ∀ a b c, S a b → T b c → U a c) (hS : List.Forall₂ S as bs)
    (hT : List.Forall₂ T bs cs) : List.Forall₂ U as cs := by
  induction hS generalizing cs with
  | nil =>
    cases hT
    exact .nil
  | cons hs _ ih =>
    cases hT with
    | cons ht hT => exact .cons (h _ _ _ hs ht) (ih hT)

theorem forall₂_mem_left {S : α → β → Prop} (h : List.Forall₂ S as bs) (ha : a ∈ as) :
    ∃ b ∈ bs, S a b := by
  induction h with
  | nil => cases ha
  | @cons a' b' as bs hab _ ih =>
    rcases List.mem_cons.1 ha with rfl | ha
    · exact ⟨b', List.mem_cons_self, hab⟩
    · obtain ⟨b, hb, hs⟩ := ih ha
      exact ⟨b, List.mem_cons_of_mem _ hb, hs⟩

theorem findSome?_of_forall₂ {f : α → Option γ} {g : β → Option γ}
    (h : List.Forall₂ (fun a b => f a = g b) as bs) : as.findSome? f = bs.findSome? g := by
  induction h with
  | nil => rfl
  | cons hab _ ih => rw [List.findSome?_cons, List.findSome?_cons, hab, ih]

theorem findSome?_flatMap (f : α → List β) (p : β → Option γ) (as : List α) :
    (as.flatMap f).findSome? p = as.findSome? fun a => (f a).findSome? p := by
  induction as with
  | nil => rfl
  | cons a as ih =>
    rw [List.flatMap_cons, List.findSome?_append, List.findSome?_cons, ih]
    cases (f a).findSome? p <;> rfl

theorem isObject_of_get {v : Value} (h : v.get k = some x) : v.isObject = true := by
  obtain ⟨m, rfl⟩ := Value.object_of_get h
  rfl

theorem get_of_not_isObject {v : Value} (h : v.isObject = false) (k : String) :
    v.get k = none := by
  cases v with
  | object m => cases h
  | _ => rfl

theorem put_isObject (v : Value) (k : String) (x : Value) :
    (v.put k x).isObject = v.isObject := by
  cases v <;> rfl

theorem Below.refl {S : Value → Value → Prop} (h : ∀ v, S v v) (v : Value) : Below ks S v v :=
  ⟨fun _ => rfl, rfl, fun _ _ => optionRel_refl h _, fun _ _ => rfl⟩

theorem Below.trans {S : Value → Value → Prop} (h : ∀ u v w, S u v → S v w → S u w)
    (hS : Below ks S u v) (hT : Below ks S v w) : Below ks S u w := by
  refine ⟨fun hu => ?_, hT.isObject.trans hS.isObject, fun k hk => ?_, fun k hk => ?_⟩
  · rw [hT.scalar (hS.isObject.trans hu), hS.scalar hu]
  · exact optionRel_trans h (hS.within k hk) (hT.within k hk)
  · rw [hT.outside k hk, hS.outside k hk]

theorem Below.mono {S T : Value → Value → Prop} (h : ∀ v w, S v w → T v w)
    (hS : Below ks S v w) : Below ks T v w :=
  ⟨hS.scalar, hS.isObject, fun k hk => optionRel_mono h (hS.within k hk), hS.outside⟩

/-- More keys may differ. -/
theorem Below.widen {S : Value → Value → Prop} (hS : ∀ v, S v v) (h : Below ks S v w)
    (hk : ∀ k ∈ ks, k ∈ ls) : Below ls S v w := by
  refine ⟨h.scalar, h.isObject, fun k _ => ?_, fun k hl => h.outside k fun hk' => hl (hk k hk')⟩
  by_cases hks : k ∈ ks
  · exact h.within k hks
  · rw [h.outside k hks]
    exact optionRel_refl hS _

theorem Below.put {S : Value → Value → Prop} {v : Value} (h : v.get k = some x) (hx : S x y) :
    Below [k] S v (v.put k y) := by
  refine ⟨fun hv => ?_, put_isObject v k y, fun l hl => ?_, fun l hl => ?_⟩
  · rw [isObject_of_get h] at hv
    cases hv
  · rw [List.mem_singleton.1 hl, h, Value.get_put_of_get h]
    exact .some hx
  · exact Value.get_put_of_ne (Ne.symm (by simpa using hl)) v y

/-- Changes under one key and then under others. -/
theorem Below.cons {S : Value → Value → Prop} (hS : Below [k] S u v) (hT : Below ks S v w)
    (hk : k ∉ ks) : Below (k :: ks) S u w := by
  refine ⟨fun hu => ?_, hT.isObject.trans hS.isObject, fun l hl => ?_, fun l hl => ?_⟩
  · rw [hT.scalar (hS.isObject.trans hu), hS.scalar hu]
  · rcases List.mem_cons.1 hl with rfl | hl
    · rw [hT.outside l hk]
      exact hS.within l (List.mem_singleton.2 rfl)
    · have hne : l ∉ [k] := fun h => hk (List.mem_singleton.1 h ▸ hl)
      rw [← hS.outside l hne]
      exact hT.within l hl
  · have hks : l ∉ ks := fun h => hl (List.mem_cons_of_mem _ h)
    have hne : l ∉ [k] := fun h => hl (by rw [List.mem_singleton.1 h]; exact List.mem_cons_self)
    rw [hT.outside l hks, hS.outside l hne]

theorem Items.refl {S : Value → Value → Prop} (h : ∀ v, S v v) (v : Value) : Items S v v :=
  ⟨fun _ => rfl, optionRel_refl (fun _ => List.forall₂_same.2 fun x _ => h x) _⟩

theorem Items.trans {S : Value → Value → Prop} (h : ∀ u v w, S u v → S v w → S u w)
    (hS : Items S u v) (hT : Items S v w) : Items S u w := by
  refine ⟨fun hu => ?_, optionRel_trans (fun _ _ _ => forall₂_comp h) hS.items hT.items⟩
  rw [hT.scalar (by rwa [hS.scalar hu]), hS.scalar hu]

theorem Items.mono {S T : Value → Value → Prop} (h : ∀ v w, S v w → T v w)
    (hS : Items S v w) : Items T v w :=
  ⟨hS.scalar, optionRel_mono (fun _ _ hxs => hxs.imp h) hS.items⟩

namespace Rewrite

theorem Makes.seq {f g : Rewrite ε ω α} (h : Makes (seq f g) a c) :
    ∃ b, Makes f a b ∧ Makes g b c := by
  obtain ⟨notes, h⟩ := h
  rw [Rewrite.seq] at h
  split at h
  · cases h
  · next b n hb =>
    obtain ⟨⟨c', m⟩, hc, hq⟩ := Fallible.map_eq_ok_iff.1 h
    cases hq
    exact ⟨b, ⟨n, hb⟩, m, hc⟩

theorem Makes.list {f : Nat → Rewrite ε ω α} (h : Makes (list f i) xs ys) :
    List.Forall₂ (fun x y => ∃ i, Makes (f i) x y) xs ys := by
  induction xs generalizing i ys with
  | nil =>
    obtain ⟨notes, h⟩ := h
    cases h
    exact .nil
  | cons x xs ih =>
    obtain ⟨notes, h⟩ := h
    rw [Rewrite.list] at h
    split at h
    · cases h
    · next y n hy =>
      obtain ⟨⟨ys', m⟩, hys, hq⟩ := Fallible.map_eq_ok_iff.1 h
      cases hq
      exact .cons ⟨i, n, hy⟩ (ih ⟨m, hys⟩)

theorem Makes.under {f : Rewrite ε ω Value} (h : Makes (under k f) v w) :
    Below [k] (Makes f) v w := by
  obtain ⟨notes, h⟩ := h
  rw [Rewrite.under] at h
  split at h
  · next x hx =>
    obtain ⟨⟨y, m⟩, hy, hq⟩ := Fallible.map_eq_ok_iff.1 h
    cases hq
    exact .put hx ⟨m, hy⟩
  · next hx =>
    cases h
    refine ⟨fun _ => rfl, rfl, fun l hl => ?_, fun _ _ => rfl⟩
    rw [List.mem_singleton.1 hl, hx]
    exact .none

theorem Makes.each {f : Rewrite ε ω Value} (h : Makes (each f ks) v w) (hks : ks.Nodup) :
    Below ks (Makes f) v w := by
  induction ks generalizing v with
  | nil =>
    obtain ⟨notes, h⟩ := h
    cases h
    exact ⟨fun _ => rfl, rfl, nofun, fun _ _ => rfl⟩
  | cons k ks ih =>
    obtain ⟨u, hu, hw⟩ := Makes.seq h
    obtain ⟨hk, hks⟩ := List.nodup_cons.1 hks
    exact .cons hu.under (ih hw hks) hk

theorem Makes.items {f : Nat → Rewrite ε ω Value} (h : Makes (items f) v w) :
    Items (fun x y => ∃ i, Makes (f i) x y) v w := by
  obtain ⟨notes, h⟩ := h
  rw [Rewrite.items] at h
  split at h
  · next xs hxs =>
    obtain ⟨⟨ys, m⟩, hys, hq⟩ := Fallible.map_eq_ok_iff.1 h
    cases hq
    refine ⟨fun hn => ?_, ?_⟩
    · rw [hxs] at hn
      cases hn
    · rw [hxs]
      exact .some (Makes.list ⟨m, hys⟩)
  · next hxs =>
    cases h
    refine ⟨fun _ => rfl, ?_⟩
    rw [hxs]
    exact .none

/-! The first failure of a rewriting. -/

theorem failure_eq_none {x : Except ε β} : failure x = none ↔ ∃ b, x = .ok b := by
  cases x <;> simp [failure]

theorem failure_eq_some {x : Except ε β} : failure x = some e ↔ x = .error e := by
  cases x <;> simp [failure]

@[simp] theorem failure_map (x : Except ε β) (g : β → γ) : failure (x.map g) = failure x := by
  cases x <;> rfl

theorem failure_list (f : Rewrite ε ω α) (i : Nat) (xs : List α) :
    failure (list (fun _ => f) i xs) = xs.findSome? fun x => failure (f x) := by
  induction xs generalizing i with
  | nil => rfl
  | cons x xs ih =>
    rw [list, List.findSome?_cons]
    cases hx : f x with
    | error e => rfl
    | ok r => exact (failure_map _ _).trans (ih (i + 1))

theorem failure_under (k : String) (f : Rewrite ε ω Value) (v : Value) :
    failure (under k f v) = (v.get k).bind fun x => failure (f x) := by
  rw [under]
  cases v.get k with
  | none => rfl
  | some x => exact failure_map _ _

theorem failure_items (f : Rewrite ε ω Value) (v : Value) :
    failure (items (fun _ => f) v) = (v.asArray.getD []).findSome? fun x => failure (f x) := by
  rw [items]
  cases v.asArray with
  | none => rfl
  | some xs => exact (failure_map _ _).trans (failure_list f 0 xs)

theorem failure_each (f : Rewrite ε ω Value) (hks : ks.Nodup) (v : Value) :
    failure (each f ks v) = ks.findSome? fun k => (v.get k).bind fun x => failure (f x) := by
  induction ks generalizing v with
  | nil => rfl
  | cons k ks ih =>
    obtain ⟨hk, hks⟩ := List.nodup_cons.1 hks
    have hhead := failure_under k f v
    rw [each, seq, List.findSome?_cons, ← hhead]
    cases hu : under k f v with
    | error e => rfl
    | ok r =>
      obtain ⟨w, notes⟩ := r
      have hw : ∀ l ∈ ks, w.get l = v.get l := fun l hl =>
        (Makes.under ⟨notes, hu⟩).outside l fun h => hk (List.mem_singleton.1 h ▸ hl)
      refine (failure_map _ _).trans ((ih hks w).trans ?_)
      exact findSome?_of_forall₂ (List.forall₂_same.2 fun l hl => by rw [hw l hl])

theorem ok_of_under {f : Rewrite ε ω Value} (h : under k f v = .ok r) :
    ∀ x ∈ v.get k, ∃ b, f x = .ok b := by
  intro x hx
  have hfail := failure_under k f v
  rw [h, Option.mem_def.1 hx] at hfail
  exact failure_eq_none.1 hfail.symm

theorem ok_of_items {f : Rewrite ε ω Value} (h : items (fun _ => f) v = .ok r) :
    ∀ x ∈ v.asArray.getD [], ∃ b, f x = .ok b := by
  intro x hx
  have hfail := failure_items f v
  rw [h] at hfail
  exact failure_eq_none.1 (List.findSome?_eq_none_iff.1 hfail.symm x hx)

theorem ok_of_each {f : Rewrite ε ω Value} (hks : ks.Nodup) (h : each f ks v = .ok r)
    (hk : k ∈ ks) : ∀ x ∈ v.get k, ∃ b, f x = .ok b := by
  intro x hx
  have hfail := failure_each f hks v
  rw [h] at hfail
  have hnone := List.findSome?_eq_none_iff.1 hfail.symm k hk
  rw [Option.mem_def.1 hx] at hnone
  exact failure_eq_none.1 hnone

/-! What a rewriting notes. -/

/-- What a step notes; nothing where it fails. -/
def noted : Except ε (β × List ω) → List ω
  | .ok r => r.2
  | .error _ => []

theorem noted_map (x : Except ε (β × List ω)) (g : β → γ) :
    noted (x.map fun r => (g r.1, r.2)) = noted x := by
  cases x <;> rfl

theorem noted_ok {x : Except ε (β × List ω)} (h : x = .ok (b, notes)) : notes = noted x := by
  rw [h]
  rfl

theorem noted_list {f : Rewrite ε ω α} (h : list (fun _ => f) i xs = .ok (ys, notes)) :
    notes = xs.flatMap fun x => noted (f x) := by
  induction xs generalizing i ys notes with
  | nil =>
    cases h
    rfl
  | cons x xs ih =>
    rw [list] at h
    rw [List.flatMap_cons]
    cases hx : f x with
    | error e =>
      rw [hx] at h
      cases h
    | ok r =>
      rw [hx] at h
      obtain ⟨⟨zs, more⟩, hzs, hq⟩ := Fallible.map_eq_ok_iff.1 h
      cases hq
      rw [ih hzs]
      rfl

theorem noted_under (k : String) (f : Rewrite ε ω Value) (v : Value) :
    noted (under k f v) = ((v.get k).map fun x => noted (f x)).getD [] := by
  rw [under]
  cases v.get k with
  | none => rfl
  | some x => exact noted_map _ _

theorem noted_items {f : Rewrite ε ω Value} (h : items (fun _ => f) v = .ok (w, notes)) :
    notes = (v.asArray.getD []).flatMap fun x => noted (f x) := by
  rw [items] at h
  cases hv : v.asArray with
  | none =>
    rw [hv] at h
    cases h
    rfl
  | some xs =>
    rw [hv] at h
    obtain ⟨⟨ys, more⟩, hys, hq⟩ := Fallible.map_eq_ok_iff.1 h
    cases hq
    exact noted_list hys

theorem noted_each {f : Rewrite ε ω Value} (hks : ks.Nodup) (h : each f ks v = .ok (w, notes)) :
    notes = ks.flatMap fun k => ((v.get k).map fun x => noted (f x)).getD [] := by
  induction ks generalizing v notes with
  | nil =>
    cases h
    rfl
  | cons k ks ih =>
    obtain ⟨hk, hks⟩ := List.nodup_cons.1 hks
    rw [each, seq] at h
    rw [List.flatMap_cons, ← noted_under]
    cases hu : under k f v with
    | error e =>
      rw [hu] at h
      cases h
    | ok r =>
      rw [hu] at h
      obtain ⟨⟨z, more⟩, hz, hq⟩ := Fallible.map_eq_ok_iff.1 h
      cases hq
      have hget : ∀ l ∈ ks, r.1.get l = v.get l := fun l hl =>
        (Makes.under ⟨r.2, hu⟩).outside l fun h => hk (List.mem_singleton.1 h ▸ hl)
      rw [ih hks hz]
      congr 1
      apply List.flatMap_congr
      intro l hl
      rw [hget l hl]

end Rewrite

end Json
