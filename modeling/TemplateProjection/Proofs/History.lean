import Mathlib.Data.List.Induction
import TemplateProjection.Proofs.SessionStore
import TemplateProjection.Session.Call

/-! What edits do to the documents of a session, and the texts that a document has had. -/
namespace TemplateProjection

variable {s : Session} {id file : DocumentId} {document document' : Document} {edit : Edit}
  {edits : List Edit}

namespace Session

/-- The session after an edit. -/
def edited (s : Session) : Edit → Session
  | .change file text => s.modify file (·.change text)
  | .close file => s.close file
  | .cancel => s

def editedAll (s : Session) (edits : List Edit) : Session := edits.foldl edited s

@[simp]
theorem editedAll_nil (s : Session) : s.editedAll [] = s := rfl

@[simp]
theorem editedAll_cons (s : Session) (edit : Edit) (edits : List Edit) :
    s.editedAll (edit :: edits) = (s.edited edit).editedAll edits := rfl

theorem nodup_edited (h : s.ids.Nodup) (edit : Edit) : (s.edited edit).ids.Nodup := by
  cases edit with
  | change file text => simpa [edited] using h
  | close file => exact nodup_close h file
  | cancel => exact h

end Session

/-- The edit is a change of the document. -/
def Edit.changes (file : DocumentId) : Edit → Bool
  | .change file' _ => file'.original = file.original
  | _ => false

/-- A document that is open after an edit was open before, and it differs only by a change. -/
theorem Session.find?_edited (h : s.ids.Nodup)
    (hfind : (s.edited edit).find? file = some document') :
    ∃ document, s.find? file = some document ∧
      ((edit.changes file = false ∧ document' = document) ∨
        ∃ text, edit.changes file = true ∧ document' = document.change text) := by
  cases edit with
  | change file' text =>
    rw [edited, find?_modify] at hfind
    split at hfind
    · next heq =>
      obtain ⟨document, hdocument, rfl⟩ := Option.map_eq_some_iff.1 hfind
      exact ⟨document, hdocument, Or.inr ⟨text, by simp [Edit.changes, heq], rfl⟩⟩
    · next hne =>
      exact ⟨document', hfind, Or.inl ⟨by simpa [Edit.changes] using Ne.symm hne, rfl⟩⟩
  | close file' =>
    rw [edited, find?_close h] at hfind
    split at hfind
    · simp at hfind
    · exact ⟨document', hfind, Or.inl ⟨rfl, rfl⟩⟩
  | cancel => exact ⟨document', hfind, Or.inl ⟨rfl, rfl⟩⟩

/-- How many of the edits change the document while it is open. -/
def changesMade (file : DocumentId) : List Edit → Session → Nat
  | [], _ => 0
  | edit :: edits, s =>
    (if edit.changes file && (s.find? file).isSome then 1 else 0) +
      changesMade file edits (s.edited edit)

/-- A document that is open after edits has gained a version with each change made, and without
changes it is what it was. -/
theorem Session.find?_editedAll (h : s.ids.Nodup)
    (hfind : (s.editedAll edits).find? file = some document') :
    ∃ document, s.find? file = some document ∧ document'.language = document.language ∧
      document'.installed = document.installed ∧
      document'.version = document.version + changesMade file edits s ∧
      (changesMade file edits s = 0 → document' = document) := by
  induction edits generalizing s with
  | nil => exact ⟨document', hfind, rfl, rfl, rfl, fun _ => rfl⟩
  | cons edit edits ih =>
    obtain ⟨mid, hmid, hlang, hinst, hversion, hsame⟩ := ih (nodup_edited h edit) hfind
    obtain ⟨document, hdocument, ⟨hchanges, rfl⟩ | ⟨text, hchanges, rfl⟩⟩ := find?_edited h hmid
    · refine ⟨mid, hdocument, hlang, hinst, ?_, ?_⟩
      · simpa [changesMade, hchanges] using hversion
      · simpa [changesMade, hchanges] using hsame
    · refine ⟨document, hdocument, hlang, hinst, ?_, ?_⟩
      · simp only [changesMade, hchanges, hdocument, hversion, Document.change]
        simp
        omega
      · simp [changesMade, hchanges, hdocument]

namespace Call

variable {c : Call}

@[simp]
theorem perform_session (c : Call) (edit : Edit) :
    (c.perform edit).session = c.session.edited edit := by
  cases edit <;> rfl

@[simp]
theorem perform_queries (c : Call) (edit : Edit) : (c.perform edit).queries = c.queries := by
  cases edit <;> rfl

@[simp]
theorem performAll_session (c : Call) (edits : List Edit) :
    (c.performAll edits).session = c.session.editedAll edits := by
  induction edits generalizing c with
  | nil => rfl
  | cons edit edits ih =>
    rw [Session.editedAll_cons, ← perform_session]
    exact ih (c.perform edit)

@[simp]
theorem performAll_queries (c : Call) (edits : List Edit) :
    (c.performAll edits).queries = c.queries := by
  induction edits generalizing c with
  | nil => rfl
  | cons edit edits ih => exact (ih (c.perform edit)).trans (perform_queries c edit)

end Call

/-- What happens to the documents of a session. -/
inductive Event where
  | opened (id : DocumentId) (text : Text)
  | edited (edit : Edit)
deriving DecidableEq, Repr

/-- The texts of a document after an event, from those before it. -/
def Event.texts (id : DocumentId) (texts : List Text) : Event → List Text
  | .opened id' text => if id'.original = id.original then [text] else texts
  | .edited (.change file text) =>
    if file.original = id.original ∧ texts ≠ [] then texts ++ [text] else texts
  | .edited (.close file) => if file.original = id.original then [] else texts
  | .edited .cancel => texts

/-- The texts that an open document has had, one for each version. There are none once it is
closed. -/
def textsOf (events : List Event) (id : DocumentId) : List Text :=
  events.foldl (Event.texts id) []

/-- The text that an open document had at a version. -/
def textAt? (events : List Event) (id : DocumentId) : (version : Nat) → Option Text
  | 0 => none
  | version + 1 => (textsOf events id)[version]?

/-- The identifiers handed out, in order. -/
def openedIds (events : List Event) : List DocumentId :=
  events.filterMap fun
    | .opened id _ => some id
    | .edited _ => none

section events

variable {events : List Event} {text : Text} {version : Nat}

@[simp]
theorem textsOf_concat (events : List Event) (event : Event) (id : DocumentId) :
    textsOf (events ++ [event]) id = event.texts id (textsOf events id) := by
  simp [textsOf]

@[simp]
theorem openedIds_append (events events' : List Event) :
    openedIds (events ++ events') = openedIds events ++ openedIds events' := by
  simp [openedIds]

@[simp]
theorem openedIds_edits (edits : List Edit) : openedIds (edits.map .edited) = [] := by
  simp [openedIds]

@[simp]
theorem openedIds_concat_edited (events : List Event) (edit : Edit) :
    openedIds (events ++ [.edited edit]) = openedIds events := by
  simp [openedIds]

theorem version_le_of_textAt? (h : textAt? events id version = some text) :
    version ≤ (textsOf events id).length := by
  cases version with
  | zero => exact Nat.zero_le _
  | succ version => exact (List.getElem?_eq_some_iff.1 h).1

/-- A text keeps its version when others follow. -/
theorem textAt?_of_append {events' : List Event} {more : List Text}
    (hmore : textsOf events' id = textsOf events id ++ more)
    (h : textAt? events id version = some text) : textAt? events' id version = some text := by
  cases version with
  | zero => cases h
  | succ version =>
    obtain ⟨hlt, -⟩ := List.getElem?_eq_some_iff.1 h
    rw [textAt?, hmore, List.getElem?_append_left hlt]
    exact h

theorem textAt?_length (hlast : (textsOf events id).getLast? = some text) :
    textAt? events id (textsOf events id).length = some text := by
  obtain ⟨texts, htexts⟩ := List.getLast?_eq_some_iff.1 hlast
  simp [textAt?, htexts]

/-- Only a document that was opened has had a text. -/
theorem mem_openedIds_of_textsOf (h : textsOf events id ≠ [])
    (horiginal : ∀ id' ∈ openedIds events, id'.original = id') :
    id.original ∈ openedIds events := by
  induction events using List.reverseRecOn with
  | nil => exact absurd rfl h
  | append_singleton events event ih =>
    rw [openedIds_append] at horiginal ⊢
    by_cases hbefore : textsOf events id = []
    · rw [textsOf_concat, hbefore] at h
      match event with
      | .opened id' text =>
        have hid : id'.original = id.original := by
          by_contra hne
          simp [Event.texts, hne] at h
        have hid' := horiginal id' (by simp [openedIds])
        simp [openedIds, ← hid, hid']
      | .edited (.change _ _) => simp [Event.texts] at h
      | .edited (.close _) => simp [Event.texts] at h
      | .edited .cancel => simp [Event.texts] at h
    · have hmem := ih hbefore fun id' hid' => horiginal id' (List.mem_append_left _ hid')
      exact List.mem_append_left _ hmem

end events

end TemplateProjection
