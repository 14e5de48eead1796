import LocalMind.Fixes.JsonScanAgreement
import LocalMind.Fixes.MalformedArguments
import LocalMind.Json.Quotes

namespace LocalMind
open Json
set_option autoImplicit true

/-! The names of an object's entries can be exchanged in its text. -/

/-- A text from the first of some names on: each name, in quotes, and the text behind it. -/
def fill : List (List Char × List Char) → List Char
  | [] => []
  | (name, after) :: holes => '"' :: name ++ '"' :: after ++ fill holes

/-- The texts from each of the names on. -/
def fills : List (List Char × List Char) → List (List Char)
  | [] => []
  | hole :: holes => fill (hole :: holes) :: fills holes

/-- Children of which some are marked. -/
abbrev Marked := List (Bool × Child)

namespace Marked

def children (ms : Marked) : List Child := ms.map Prod.snd

def slots (ms : Marked) : List Child := (ms.filter fun m => m.1).map Prod.snd

def others (ms : Marked) : List Child := (ms.filter fun m => !m.1).map Prod.snd

@[simp] theorem slots_true (c : Child) (ms : Marked) : slots ((true, c) :: ms) = c :: slots ms :=
  rfl

@[simp] theorem slots_false (c : Child) (ms : Marked) : slots ((false, c) :: ms) = slots ms := rfl

@[simp] theorem others_true (c : Child) (ms : Marked) : others ((true, c) :: ms) = others ms := rfl

@[simp] theorem others_false (c : Child) (ms : Marked) :
    others ((false, c) :: ms) = c :: others ms := rfl

theorem slots_subset (ms : Marked) : slots ms ⊆ children ms := by
  intro c hc
  obtain ⟨m, hm, rfl⟩ := List.mem_map.1 hc
  exact List.mem_map_of_mem (List.mem_of_mem_filter hm)

theorem count_keys (ms : Marked) (k : String) :
    ((children ms).map Child.key).count k =
      ((others ms).map Child.key).count k + ((slots ms).map Child.key).count k := by
  induction ms with
  | nil => rfl
  | cons m ms ih =>
    obtain ⟨b, c⟩ := m
    change (c.key :: (children ms).map Child.key).count k = _
    rw [List.count_cons, ih]
    cases b with
    | true =>
      rw [slots_true, others_true, List.map_cons, List.count_cons]
      omega
    | false =>
      rw [slots_false, others_false, List.map_cons, List.count_cons]
      omega

end Marked

open Marked

/-- A text between quotes that stands for a name. -/
def Stands (text : List Char) (name : String) : Prop :=
  StrBody escape text name.toList ∧ QuoteFree text

/-- The marked children's names are the names in some holes, which others are to take the
place of. -/
structure Refills (ms : Marked) (holes holes' : List (List Char × List Char))
    (names : List String) : Prop where
  texts : (slots ms).map Child.text = fills holes
  bodies : (slots ms).map Child.keyBody = holes.map Prod.fst
  after : holes.map Prod.snd = holes'.map Prod.snd
  stand : List.Forall₂ (fun hole name => Stands hole.1 name) holes' names

theorem Refills.nil (h : Refills [] holes holes' names) :
    holes = [] ∧ holes' = [] ∧ names = [] := by
  obtain ⟨-, hbodies, hafter, hstand⟩ := h
  obtain rfl := List.map_eq_nil_iff.1 hbodies.symm
  obtain rfl := List.map_eq_nil_iff.1 hafter.symm
  cases hstand
  exact ⟨rfl, rfl, rfl⟩

theorem Refills.other (h : Refills ((false, c) :: ms) holes holes' names) :
    Refills ms holes holes' names := ⟨h.texts, h.bodies, h.after, h.stand⟩

theorem Refills.slot (h : Refills ((true, c) :: ms) holes holes' names) :
    ∃ after rest body rest' name names', holes = (c.keyBody, after) :: rest ∧
      holes' = (body, after) :: rest' ∧ names = name :: names' ∧ Stands body name ∧
      c.text = fill holes ∧ Refills ms rest rest' names' := by
  obtain ⟨htexts, hbodies, hafter, hstand⟩ := h
  rw [slots_true, List.map_cons] at htexts hbodies
  cases holes with
  | nil => cases htexts
  | cons hole rest =>
    obtain ⟨body, after⟩ := hole
    obtain ⟨htext, htexts'⟩ := List.cons.inj htexts
    obtain ⟨rfl, hbodies'⟩ := List.cons.inj hbodies
    cases holes' with
    | nil => cases hafter
    | cons hole' rest' =>
      obtain ⟨body', after'⟩ := hole'
      obtain ⟨rfl, hafter'⟩ := List.cons.inj hafter
      cases hstand with
      | cons hname hstand' =>
        exact ⟨after, rest, body', rest', _, _, rfl, rfl, rfl, hname, htext, htexts', hbodies',
          hafter', hstand'⟩

theorem Refills.suffix {ms : Marked} (h : Refills ms holes holes' names)
    (ht : Children codec t (children ms)) : fill holes <:+ t := by
  cases holes with
  | nil => exact List.nil_suffix
  | cons hole holes =>
    have hmem : fill (hole :: holes) ∈ (slots ms).map Child.text := by
      rw [h.texts]
      exact List.mem_cons_self
    obtain ⟨c, hc, htext⟩ := List.mem_map.1 hmem
    rw [← htext]
    exact ht.suffix c (slots_subset ms hc)

/-- A child with another name, and with another text behind its value. -/
def Child.renamed (c : Child) (body : List Char) (name : String) (rest : List Char) : Child :=
  { c with key := name, keyBody := body, post := rest }

theorem Child.text_parts (c : Child) :
    c.text = '"' :: c.keyBody ++ '"' :: (c.gap ++ (c.valueText ++ c.post)) := by
  rw [Child.text, Child.keyText, Child.afterKey, Child.fromValue, List.append_assoc,
    List.singleton_append]

theorem Child.renamed_text (c : Child) (body : List Char) (name : String) (rest : List Char) :
    (c.renamed body name rest).text = '"' :: body ++ '"' :: (c.gap ++ (c.valueText ++ rest)) :=
  Child.text_parts _

theorem Child.Valid.renamed {c : Child} {rest : List Char} (h : c.Valid codec)
    (hname : Stands body name) (hends : Ends rest) : (c.renamed body name rest).Valid codec :=
  ⟨hname.1, hname.2, h.gap, h.value, hends⟩

theorem Child.Valid.stands {c : Child} (h : c.Valid codec) : Stands c.keyBody c.key :=
  ⟨h.key, h.quoteFree⟩

/-- The text behind a marked child's name, where the child's text is one of a name on. -/
theorem after_eq {c : Child} (htext : c.text = fill ((c.keyBody, after) :: holes)) :
    after ++ fill holes = c.gap ++ (c.valueText ++ c.post) := by
  rw [Child.text_parts, fill, List.append_assoc] at htext
  exact (List.cons.inj (List.append_cancel_left htext)).2.symm

/-- What becomes of marked children under other names. -/
structure Refilled (ms ms' : Marked) (holes' : List (List Char × List Char))
    (names : List String) : Prop where
  texts : (slots ms').map Child.text = fills holes'
  keys : (slots ms').map Child.key = names
  others : (others ms').map Child.key = (others ms).map Child.key

/-- The entries of an object text keep their shape under other names of the marked ones. -/
theorem Children.refill {ms : Marked} (h : Children codec t (children ms))
    (ht : t = lit ++ fill holes) (hrefills : Refills ms holes holes' names) :
    ∃ ms' : Marked, Children codec (lit ++ fill holes') (children ms') ∧
      Refilled ms ms' holes' names := by
  generalize hcs : children ms = cs at h
  induction h generalizing ms lit holes holes' names with
  | @one w w' r c hw hc hw' hpost =>
    obtain _ | ⟨⟨b, d⟩, ms⟩ := ms
    · cases hcs
    · change d :: children ms = [c] at hcs
      obtain ⟨rfl, hnil⟩ := List.cons.inj hcs
      obtain rfl := List.map_eq_nil_iff.1 hnil
      cases b with
      | false =>
        obtain ⟨rfl, rfl, rfl⟩ := hrefills.other.nil
        rw [← ht]
        exact ⟨[(false, d)], .one hw hc hw' hpost, rfl, rfl, rfl⟩
      | true =>
        obtain ⟨after, rest, body, rest', name, names', rfl, rfl, rfl, hname, htext, hrest⟩ :=
          hrefills.slot
        obtain ⟨rfl, rfl, rfl⟩ := hrest.nil
        have hlit : w = lit := List.append_cancel_right (ht.trans (congrArg _ htext.symm))
        have hafter := after_eq htext
        have hends : Ends (w' ++ '}' :: r) := ends_ws hw' (ends_cons rfl r)
        have hchild := Children.one hw (hc.renamed hname hends) hw' rfl
        have hnew : (d.renamed body name (w' ++ '}' :: r)).text = fill [(body, after)] := by
          rw [Child.renamed_text, fill, ← hpost, ← hafter, fill]
          simp
        refine ⟨[(true, d.renamed body name (w' ++ '}' :: r))], ?_, congrArg (fun t => [t]) hnew,
          rfl, rfl⟩
        rw [hnew, hlit] at hchild
        exact hchild
  | @cons w w' t c cs hw hc hw' hpost hrest ih =>
    obtain _ | ⟨⟨b, d⟩, ms⟩ := ms
    · cases hcs
    · change d :: children ms = c :: cs at hcs
      obtain ⟨rfl, rfl⟩ := List.cons.inj hcs
      have hends (s : List Char) : Ends (w' ++ ',' :: s) := ends_ws hw' (ends_cons rfl s)
      cases b with
      | false =>
        obtain ⟨lit', hlit'⟩ := hrefills.other.suffix hrest
        have hlit : w ++ ('"' :: d.keyBody ++ '"' :: (d.gap ++ (d.valueText ++
            (w' ++ ',' :: lit')))) = lit := by
          apply (List.append_left_inj (fill holes)).1
          rw [← ht, Child.text_parts, hpost, ← hlit']
          simp
        obtain ⟨ms', hms', htexts, hkeys, hothers⟩ := ih hlit'.symm hrefills.other rfl
        have hchild := Children.cons hw
          (hc.renamed hc.stands (hends (lit' ++ fill holes'))) hw' rfl hms'
        refine ⟨(false, d.renamed d.keyBody d.key (w' ++ ',' :: (lit' ++ fill holes'))) :: ms', ?_,
          htexts, hkeys, ?_⟩
        · rw [Child.renamed_text] at hchild
          rw [← hlit]
          simp only [List.append_assoc, List.cons_append] at hchild ⊢
          exact hchild
        · exact congrArg (d.key :: ·) hothers
      | true =>
        obtain ⟨after, rest, body, rest', name, names', rfl, rfl, rfl, hname, htext, hslots⟩ :=
          hrefills.slot
        obtain ⟨lit', hlit'⟩ := hslots.suffix hrest
        have hlit : w = lit := List.append_cancel_right (ht.trans (congrArg _ htext.symm))
        have hafter : d.gap ++ (d.valueText ++ (w' ++ ',' :: lit')) = after := by
          apply (List.append_left_inj (fill rest)).1
          rw [after_eq htext, hpost, ← hlit']
          simp
        obtain ⟨ms', hms', htexts, hkeys, hothers⟩ := ih hlit'.symm hslots rfl
        have hchild := Children.cons hw
          (hc.renamed hname (hends (lit' ++ fill rest'))) hw' rfl hms'
        have hnew : (d.renamed body name (w' ++ ',' :: (lit' ++ fill rest'))).text =
            fill ((body, after) :: rest') := by
          rw [Child.renamed_text, fill, ← hafter]
          simp
        refine ⟨(true, d.renamed body name (w' ++ ',' :: (lit' ++ fill rest'))) :: ms', ?_, ?_,
          congrArg (name :: ·) hkeys, hothers⟩
        · rw [hnew, hlit] at hchild
          exact hchild
        · rw [slots_true, List.map_cons, hnew, htexts, fills]

theorem Root.refill {ms : Marked} (h : Root codec json ms.children)
    (hjson : json = lit ++ fill holes) (hrefills : Refills ms holes holes' names) :
    ∃ ms' : Marked, Root codec (lit ++ fill holes') ms'.children ∧
      Refilled ms ms' holes' names := by
  generalize hcs : ms.children = cs at h
  cases h with
  | @empty w w' r hw hw' =>
    obtain rfl := List.map_eq_nil_iff.1 hcs
    obtain ⟨rfl, rfl, rfl⟩ := hrefills.nil
    rw [← hjson]
    exact ⟨[], .empty hw hw', rfl, rfl, rfl⟩
  | @children w t cs hw ht =>
    subst hcs
    obtain ⟨lit', hlit'⟩ := hrefills.suffix ht
    obtain ⟨ms', hms', hrefilled⟩ := ht.refill hlit'.symm hrefills
    have hlit : w ++ '{' :: lit' = lit := by
      apply (List.append_left_inj (fill holes)).1
      rw [← hjson, ← hlit', List.append_assoc, List.cons_append]
    rw [← hlit, List.append_assoc, List.cons_append]
    exact ⟨ms', .children hw hms', hrefilled⟩

end LocalMind
