import LocalMind.Json.Marked
import LocalMind.Switcher.Spans

namespace LocalMind.Switcher
open Json Text
set_option autoImplicit true

/-! The default model. -/

def modelKey : List Char := ['m', 'o', 'd', 'e', 'l']

/-- The first line that starts in the document's object with the key. -/
def modelLineIndex (content : List Char) : Option Nat :=
  ((lineStartDepths content).zip (lines content)).findIdx? fun l =>
    l.1 == 1 && ('"' :: modelKey ++ ['"']).isPrefixOf (trimStart l.2)

def updateDefaultModel (codec : FloatCodec) (content model : List Char) :
    Except UpdateError (List Char) :=
  match modelLineIndex content with
  | none => .error .noModelLine
  | some idx =>
    let replaced := fun l => replaceStringValue l modelKey model
    let (new, _) := mapLines (fun i l => if i = idx then (replaced l).getD l else l) content
    if ((lines content)[idx]?.bind replaced).isNone then .error .badModelLine
    else writeJsoncChecked codec new

def getDefaultModel (codec : FloatCodec) (content : List Char) : Option String := do
  let cfg ← parseJsonc codec content
  let model ← cfg.get "model"
  model.asStr

/-- An update sets the top-level key and nothing else, or fails and leaves the file as it is. -/
structure SetsModel (codec : FloatCodec) (file model : List Char) : Prop where
  failed : ∀ e, updateDefaultModel codec file model = .error e →
    fileAfter file (updateDefaultModel codec file model) = file
  written : ∀ new, updateDefaultModel codec file model = .ok new →
    ∃ old fields, parseJsonc codec file = some (.object old) ∧
      parseJsonc codec (fileAfter file (.ok new)) = some (.object fields) ∧
      (∀ k, Fields.get fields k =
        if k = "model" then some (.string (String.ofList model)) else Fields.get old k) ∧
      getDefaultModel codec (fileAfter file (.ok new)) = some (String.ofList model)

/-- The string that an update of the file replaces. -/
def modelSpan (file : List Char) : Option Cut := do
  let idx ← modelLineIndex file
  let line ← (lines file)[idx]?
  let cut ← stringAfterKey line modelKey
  some ⟨textBefore ((lines file).take idx) ++ cut.before, cut.span,
    cut.after ++ textAfter file ((lines file).drop (idx + 1))⟩

section
variable (codec : FloatCodec)

/-- The entry of an object at a depth that a document's entries can have. -/
abbrev EntryOf : List Char → String × Value → Prop :=
  EntryText escape (Tok (valueHandlers codec) 126)

/-- The entries before an entry. -/
def Leading (b : List Char) (es : List (String × Value)) : Prop :=
  AllWs b ∧ es = [] ∨ ∃ body w, b = body ++ ',' :: w ∧ AllWs w ∧ ItemsText (EntryOf codec) body es

/-- The entries behind an entry. -/
def Trailing (b : List Char) (es : List (String × Value)) : Prop :=
  AllWs b ∧ es = [] ∨ ∃ w body, b = w ++ ',' :: body ∧ AllWs w ∧ ItemsText (EntryOf codec) body es

/-- Between the two texts stands the string value of the document's last entry `model`. -/
def AtModel (before old after : List Char) : Prop :=
  ∃ w b es key g g' c es' w',
    (∀ s, QuoteFree s → stripJsonc (before ++ '"' :: s ++ '"' :: after) =
      w ++ '{' :: b ++ '"' :: key ++ '"' :: g ++ ':' :: g' ++ '"' :: s ++ '"' :: c ++ '}' :: w') ∧
    AllWs w ∧ Leading codec b es ∧ StrBody escape key modelKey ∧ QuoteFree key ∧ AllWs g ∧
    AllWs g' ∧ Trailing codec c es' ∧ "model" ∉ Fields.keys es' ∧ AllWs w' ∧ QuoteFree old ∧
    ∃ x, StrBody escape old x

end

theorem ItemsText.append {R : List Char → α → Prop} (h : ItemsText R b as)
    (h' : ItemsText R b' as') : ItemsText R (b ++ ',' :: b') (as ++ as') := by
  induction h with
  | one hw ht hk => exact .cons hw ht hk h'
  | cons hw ht hk _ ih =>
    have hitems := ItemsText.cons hw ht hk ih
    simpa using hitems

theorem items_around {codec : FloatCodec} (hb : Leading codec b es) (he : EntryOf codec t e)
    (hc : Trailing codec c es') : ItemsText (EntryOf codec) (b ++ t ++ c) (es ++ e :: es') := by
  have htail : ∀ {w}, AllWs w → ItemsText (EntryOf codec) (w ++ t ++ c) (e :: es') := by
    intro w hw
    obtain ⟨hc, rfl⟩ | ⟨k, body, rfl, hk, hbody⟩ := hc
    · exact .one hw he hc
    · have hitems := ItemsText.cons hw he hk hbody
      simpa using hitems
  obtain ⟨hb, rfl⟩ | ⟨body, w, rfl, hw, hbody⟩ := hb
  · exact htail hb
  · have hitems := ItemsText.append hbody (htail hw)
    simpa using hitems

/-- The document with a string as its model. -/
theorem AtModel.parse {codec : FloatCodec} (h : AtModel codec before old after) :
    ∃ es es', "model" ∉ Fields.keys es' ∧ QuoteFree old ∧ (∃ x, StrBody escape old x) ∧
      ∀ s x, QuoteFree s → StrBody escape s x →
        parseJsonc codec (before ++ '"' :: s ++ '"' :: after) =
          some (.object (Fields.insertAll []
            (es ++ ("model", .string (String.ofList x)) :: es'))) := by
  obtain ⟨w, b, es, key, g, g', c, es', w', hstrip, hw, hb, hkey, hfree, hg, hg', hc, hlast, hw',
    hold, hx⟩ := h
  refine ⟨es, es', hlast, hold, hx, ?_⟩
  intro s x hs hbody
  have hvalue : Tok (valueHandlers codec) 126 ('"' :: s ++ ['"']) (.string (String.ofList x)) :=
    Tok.leaf (.str hbody hs) 126
  have hentry : EntryOf codec ('"' :: key ++ '"' :: g ++ ':' :: g' ++ ('"' :: s ++ ['"']))
      (String.ofList modelKey, .string (String.ofList x)) := .mk hkey hfree hg hg' hvalue
  have hitems := items_around hb hentry hc
  rw [parseJsonc, hstrip s hs]
  apply fromStr_eq_some_iff.2
  refine ⟨w, '{' :: (b ++ ('"' :: key ++ '"' :: g ++ ':' :: g' ++ ('"' :: s ++ ['"'])) ++ c) ++
    ['}'], w', ?_, hw, hw', .inr (.inr ⟨_, _, .items hitems, rfl, rfl⟩)⟩
  simp

theorem mapIdx_at {front back : List (List Char)} (g : List Char → List Char) (line : List Char) :
    (front ++ line :: back).mapIdx (fun i l => if i = front.length then g l else l) =
      front ++ g line :: back := by
  apply List.ext_getElem?
  intro i
  rw [List.getElem?_mapIdx]
  obtain hlt | rfl | hgt := Nat.lt_trichotomy i front.length
  · rw [List.getElem?_append_left hlt, List.getElem?_append_left hlt, List.getElem?_eq_getElem hlt]
    rw [Option.map_some, if_neg (Nat.ne_of_lt hlt)]
  · rw [List.getElem?_append_right (Nat.le_refl _), List.getElem?_append_right (Nat.le_refl _),
      Nat.sub_self]
    simp
  · rw [List.getElem?_append_right (Nat.le_of_lt hgt), List.getElem?_append_right (Nat.le_of_lt hgt)]
    obtain ⟨k, hk⟩ := Nat.exists_eq_add_of_lt hgt
    have hsub : i - front.length = k + 1 := by omega
    rw [hsub, List.getElem?_cons_succ, List.getElem?_cons_succ]
    have hne : i ≠ front.length := by omega
    cases back[k]? with
    | none => rfl
    | some l => rw [Option.map_some, if_neg hne]

/-- An update fails, or writes the file with the model in place of the string. -/
theorem updateDefaultModel_span (codec : FloatCodec) (file model : List Char) :
    (∃ e, updateDefaultModel codec file model = .error e) ∨
      ∃ cut, modelSpan file = some cut ∧
        LineEnds file (cut.before ++ '"' :: cut.span ++ '"' :: cut.after) ∧
        updateDefaultModel codec file model =
          writeJsoncChecked codec (cut.before ++ '"' :: model ++ '"' :: cut.after) := by
  rw [updateDefaultModel, modelSpan]
  cases hidx : modelLineIndex file with
  | none => exact .inl ⟨_, rfl⟩
  | some idx =>
    obtain ⟨hlt, -⟩ := List.findIdx?_eq_some_iff_findIdx_eq.1 hidx
    have hlen : idx < (lines file).length := by
      rw [List.length_zip] at hlt
      omega
    have hget := List.getElem?_eq_getElem hlen
    have hlines : lines file =
        (lines file).take idx ++ (lines file)[idx] :: (lines file).drop (idx + 1) := by
      rw [← List.drop_eq_getElem_cons hlen, List.take_append_drop]
    have hfront : ((lines file).take idx).length = idx := by
      rw [List.length_take]
      omega
    have hends := lineEnds_joinLines file
    generalize (lines file)[idx] = line at hget hlines
    generalize htake : (lines file).take idx = front at hlines hfront
    generalize hdrop : (lines file).drop (idx + 1) = back at hlines
    dsimp only [bind, Option.bind_some]
    rw [hget, htake, hdrop, Option.bind_some, Option.bind_some]
    cases hcut : stringAfterKey line modelKey with
    | none =>
      left
      rw [replaceStringValue, hcut]
      exact ⟨_, rfl⟩
    | some cut =>
      right
      have hline := stringAfterKey_eq hcut
      rw [hlines, joinLines_at, hline] at hends
      have hreplaced : replaceStringValue line modelKey model =
          some (cut.before ++ '"' :: model ++ '"' :: cut.after) := by
        rw [replaceStringValue, hcut]
        rfl
      refine ⟨_, rfl, by simpa using hends, ?_⟩
      rw [hreplaced, mapLines, hlines, ← hfront]
      dsimp only
      rw [mapIdx_at (fun l => (replaceStringValue l modelKey model).getD l), hreplaced,
        Option.getD_some, joinLines_at, Option.isNone_some, if_neg Bool.false_ne_true]
      simp

/-- An update that replaces the model's string by one that needs no escapes sets the model. -/
theorem updateDefaultModel_sets {codec : FloatCodec} {file model : List Char}
    (hfile : (parseJsonc codec file).isSome = true)
    (h : ∀ cut, modelSpan file = some cut →
      parseJsonc codec (cut.before ++ '"' :: model ++ '"' :: cut.after) = none ∨
        Json.Plain model ∧ AtModel codec cut.before cut.span cut.after) :
    SetsModel codec file model where
  failed := by
    intro e he
    rw [he]
    rfl
  written := by
    intro new hnew
    obtain ⟨e, he⟩ | ⟨cut, hspan, hends, hwrite⟩ := updateDefaultModel_span codec file model
    · rw [he] at hnew
      cases hnew
    · rw [hwrite, writeJsoncChecked] at hnew
      obtain hnone | ⟨hplain, hat⟩ := h cut hspan
      · rw [hnone] at hnew
        cases hnew
      · obtain ⟨es, es', hlast, hold, ⟨x, hx⟩, hparse⟩ := hat.parse
        have hmodel := hparse model model hplain.quoteFree hplain.strBody
        obtain ⟨v, hv⟩ := Option.isSome_iff_exists.1 hfile
        have hunix := parseJsonc_lineEnds hv hends
        rw [hparse cut.span x hold hx] at hunix
        rw [← hunix] at hv
        rw [hmodel] at hnew
        cases hnew
        refine ⟨_, _, hv, hmodel, Fields.get_insertAll_last hlast _ _, ?_⟩
        rw [getDefaultModel, fileAfter, hmodel]
        change (Fields.get _ "model").bind Value.asStr = _
        rw [Fields.get_insertAll_last hlast _ .null, if_pos rfl]
        rfl

theorem stripJsonc_of_keeps (hs : Strips t t) (hk : Keeps t t) : stripJsonc t = t := by
  have hstrips : stripComments .code (t ++ []) = t ++ [] := hs []
  have hkeeps : removeTrailingCommas false (t ++ []) = t ++ [] := hk []
  rw [List.append_nil] at hstrips hkeeps
  rw [stripJsonc, hstrips, hkeeps]

/-- The object with one line for the model. -/
theorem updateDefaultModel_sets_line : SetsModel integersOnly
    "\x7b\n\"model\": \"a/b\"\n\x7d\n".toList "c/d".toList := by
  apply updateDefaultModel_sets (by decide +kernel)
  intro cut hcut
  have hspan : modelSpan "\x7b\n\"model\": \"a/b\"\n\x7d\n".toList =
      some ⟨"\x7b\n\"model\": ".toList, "a/b".toList, "\n\x7d\n".toList⟩ := by decide +kernel
  rw [hspan] at hcut
  cases hcut
  refine .inr ⟨by decide, [], ['\n'], [], modelKey, [], [' '], ['\n'], [], ['\n'], ?_, ?_⟩
  · intro s hs
    have hkey : Json.Plain modelKey := by decide
    have hopen : Strips ['\x7b', '\n'] ['\x7b', '\n'] := strips_plain (by simp)
    have hcolon : Strips [':', ' '] [':', ' '] := strips_plain (by simp)
    have hclose : Strips ['\n', '\x7d', '\n'] ['\n', '\x7d', '\n'] := strips_plain (by simp)
    have hopen' : Keeps ['\x7b', '\n'] ['\x7b', '\n'] := keeps_plain (by simp)
    have hcolon' : Keeps [':', ' '] [':', ' '] := keeps_plain (by simp)
    have hclose' : Keeps ['\n', '\x7d', '\n'] ['\n', '\x7d', '\n'] := keeps_plain (by simp)
    have hstrips := (((hopen.append (strips_string hkey.quoteFree)).append hcolon).append
      (strips_string hs)).append hclose
    have hkeeps := (((hopen'.append (keeps_string hkey.quoteFree)).append hcolon').append
      (keeps_string hs)).append hclose'
    have htext := stripJsonc_of_keeps hstrips hkeeps
    simpa [modelKey] using htext
  · have hkey : Json.Plain modelKey := by decide
    have hold : Json.Plain "a/b".toList := by decide
    have hline : AllWs ['\n'] := allWs_singleton rfl
    exact ⟨allWs_nil, .inl ⟨hline, rfl⟩, hkey.strBody, hkey.quoteFree, allWs_nil,
      allWs_singleton rfl, .inl ⟨hline, rfl⟩, List.not_mem_nil, hline, hold.quoteFree, _,
      hold.strBody⟩

theorem not_setsModel (h : updateDefaultModel codec file model = .ok new)
    (hget : getDefaultModel codec new ≠ some (String.ofList model)) :
    ¬ SetsModel codec file model := by
  intro hsets
  obtain ⟨old, fields, -, -, -, hmodel⟩ := hsets.written new h
  exact hget hmodel

/-- A line in a comment that starts as the model's line does. -/
def commentedFile : List Char :=
  "\x7b\n/*\n\"model\": \"x\"\n*/\n\"model\": \"a/b\"\n\x7d\n".toList

theorem updateDefaultModel_comment :
    (parseJsonc integersOnly commentedFile).isSome = true ∧
      ¬ SetsModel integersOnly commentedFile "c/d".toList := by
  have hrun : updateDefaultModel integersOnly commentedFile "c/d".toList =
      .ok "\x7b\n/*\n\"model\": \"c/d\"\n*/\n\"model\": \"a/b\"\n\x7d\n".toList := by
    decide +kernel
  refine ⟨by decide +kernel, ?_⟩
  apply not_setsModel hrun
  decide +kernel

end LocalMind.Switcher
