import Mathlib.Data.List.Nodup
import TemplateProjection.Proofs.History

/-! The steps of which every call on a session is made, and the history that explains a session. -/
namespace TemplateProjection

/-- The session with a virtual document installed, if its document is open. -/
def Session.withInstalled (s : Session) (d : VirtualDocument) : Session :=
  s.modify d.id fun document => { document with installed := some d }

/-- A step of a call: a document is opened, an edit happens, or the virtual document of a document
as it is now gets installed. -/
inductive Step : Session → List Event → Session → Prop
  | add (s : Session) (text : Text) (language : Language) :
    Step s [.opened (.ofNat s.nextIndex) text] (s.add text language).2
  | edit (s : Session) (edit : Edit) : Step s [.edited edit] (s.edited edit)
  | install {s : Session} {id : DocumentId} {document : Document} {d : VirtualDocument}
    (hfind : s.find? id = some document)
    (hbuild : VirtualDocument.build? id.original document.text document.version
      document.language = some d) : Step s [] (s.withInstalled d)

inductive Steps : Session → List Event → Session → Prop
  | refl (s : Session) : Steps s [] s
  | tail {s t s' : Session} {events events' : List Event} (hsteps : Steps s events t)
    (hstep : Step t events' s') : Steps s (events ++ events') s'

variable {s s' t : Session} {id file : DocumentId} {document document' : Document}
  {events events' : List Event} {d : VirtualDocument}

namespace VirtualDocument

variable {source : Text} {version : Nat} {language : Language}

theorem id_of_build? (h : build? id source version language = some d) : d.id = id.virtual := by
  cases language with
  | markup => cases h; rfl
  | outline =>
    obtain ⟨markup, -, hd⟩ := Option.bind_eq_some_iff.1 h
    cases hd
    rfl

theorem version_of_build? (h : build? id source version language = some d) :
    d.version = version := by
  cases language with
  | markup => cases h; rfl
  | outline =>
    obtain ⟨markup, -, hd⟩ := Option.bind_eq_some_iff.1 h
    cases hd
    rfl

end VirtualDocument

theorem Steps.single (h : Step s events s') : Steps s events s' := Steps.tail (.refl s) h

theorem Steps.trans (h : Steps s events t) (h' : Steps t events' s') :
    Steps s (events ++ events') s' := by
  induction h' with
  | refl => simpa using h
  | tail _ hstep ih =>
    rw [← List.append_assoc]
    exact .tail ih hstep

theorem Steps.editedAll (s : Session) (edits : List Edit) :
    Steps s (edits.map .edited) (s.editedAll edits) := by
  induction edits generalizing s with
  | nil => exact .refl s
  | cons edit edits ih => exact (Steps.single (.edit s edit)).trans (ih (s.edited edit))

theorem Document.current?_eq_some_iff :
    document.current? = some d ↔ document.installed = some d ∧ d.version = document.version := by
  simp [current?, Option.filter_eq_some_iff]

/-- A document has the version and text that its history gives it, and its virtual document was made
from the text of one of its versions. -/
structure Document.Follows (document : Document) (id : DocumentId) (events : List Event) :
    Prop where
  version : document.version = (textsOf events id).length
  text : (textsOf events id).getLast? = some document.text
  installed : ∀ d, document.installed = some d → ∃ text, textAt? events id d.version = some text ∧
    VirtualDocument.build? id.original text d.version document.language = some d

namespace Document.Follows

theorem of_textsOf (h : document.Follows id events) (heq : textsOf events' id = textsOf events id) :
    document.Follows id events' := by
  refine ⟨heq ▸ h.version, heq ▸ h.text, fun d hd => ?_⟩
  obtain ⟨text, htext, hbuild⟩ := h.installed d hd
  exact ⟨text, textAt?_of_append (heq.trans (List.append_nil _).symm) htext, hbuild⟩

theorem change {text : Text} (h : document.Follows id events)
    (htexts : textsOf events' id = textsOf events id ++ [text]) :
    (document.change text).Follows id events' := by
  refine ⟨?_, ?_, fun d hd => ?_⟩
  · simp [Document.change, htexts, h.version]
  · simp [Document.change, htexts]
  · obtain ⟨old, hold, hbuild⟩ := h.installed d hd
    exact ⟨old, textAt?_of_append htexts hold, hbuild⟩

theorem install (h : document.Follows id events)
    (hbuild : VirtualDocument.build? id.original document.text document.version
      document.language = some d) :
    { document with installed := some d }.Follows id events := by
  refine ⟨h.version, h.text, fun d' hd' => ?_⟩
  obtain rfl : d = d' := by simpa using hd'
  rw [VirtualDocument.version_of_build? hbuild]
  exact ⟨document.text, h.version ▸ textAt?_length h.text, hbuild⟩

theorem textsOf_ne_nil (h : document.Follows id events) : textsOf events id ≠ [] := by
  intro hnil
  simpa [hnil] using h.text

theorem version_le (h : document.Follows id events) (hd : document.installed = some d) :
    d.version ≤ document.version := by
  obtain ⟨text, htext, -⟩ := h.installed d hd
  exact h.version ▸ version_le_of_textAt? htext

/-- An up-to-date virtual document was made from the document as it is. -/
theorem build?_of_current? (h : document.Follows id events) (hd : document.current? = some d) :
    VirtualDocument.build? id.original document.text document.version document.language = some d ∧
      d.version = document.version := by
  obtain ⟨hinstalled, hversion⟩ := Document.current?_eq_some_iff.1 hd
  obtain ⟨text, htext, hbuild⟩ := h.installed d hinstalled
  have hlast := textAt?_length h.text
  rw [← h.version, ← hversion, htext] at hlast
  obtain rfl : text = document.text := Option.some.inj hlast
  exact ⟨hversion ▸ hbuild, hversion⟩

end Document.Follows

/-- A history explains a session: the identifiers were handed out in order, a closed document has no
texts, and every open document follows its history. -/
structure Explains (events : List Event) (s : Session) : Prop where
  nodup : s.ids.Nodup
  opened : openedIds events = (List.range s.nextIndex).map .ofNat
  closed : ∀ id, s.find? id = none → textsOf events id = []
  follows : ∀ id document, s.find? id = some document → document.Follows id events

namespace Explains

theorem new (config : Config) : Explains [] (.new config) := by
  refine ⟨List.nodup_nil, rfl, fun _ _ => rfl, fun id document hfind => ?_⟩
  simp [Session.find?, Session.new] at hfind

theorem add (h : Explains events s) (text : Text) (language : Language) :
    Explains (events ++ [.opened (.ofNat s.nextIndex) text]) (s.add text language).2 := by
  have hopened : openedIds [.opened (.ofNat s.nextIndex) text] = [.ofNat s.nextIndex] := rfl
  refine ⟨Session.nodup_add h.nodup text language, ?_, fun id hfind => ?_,
    fun id document hfind => ?_⟩
  · rw [openedIds_append, hopened, h.opened]
    change _ = (List.range (s.nextIndex + 1)).map DocumentId.ofNat
    rw [List.range_succ, List.map_append, List.map_singleton]
  · rw [Session.find?_add] at hfind
    split at hfind
    · cases hfind
    · next hne => simp [Event.texts, Ne.symm hne, h.closed id hfind]
  · rw [Session.find?_add] at hfind
    split at hfind
    · next heq =>
      cases hfind
      constructor <;> simp [Event.texts, heq]
    · next hne =>
      exact (h.follows id document hfind).of_textsOf (by simp [Event.texts, Ne.symm hne])

theorem change (h : Explains events s) (file : DocumentId) (text : Text) :
    Explains (events ++ [.edited (.change file text)]) (s.edited (.change file text)) := by
  refine ⟨Session.nodup_edited h.nodup _, ?_, fun id hfind => ?_, fun id document' hfind => ?_⟩
  · rw [openedIds_concat_edited]
    exact h.opened
  · have hnone := h.closed id (Session.find?_modify_eq_none.1 hfind)
    simp [Event.texts, hnone]
  · rw [Session.edited, Session.find?_modify] at hfind
    split at hfind
    · next heq =>
      obtain ⟨document, hdocument, rfl⟩ := Option.map_eq_some_iff.1 hfind
      have hfollows := h.follows id document hdocument
      exact hfollows.change (by simp [Event.texts, heq, hfollows.textsOf_ne_nil])
    · next hne =>
      exact (h.follows id document' hfind).of_textsOf (by simp [Event.texts, Ne.symm hne])

theorem close (h : Explains events s) (file : DocumentId) :
    Explains (events ++ [.edited (.close file)]) (s.edited (.close file)) := by
  refine ⟨Session.nodup_edited h.nodup _, ?_, fun id hfind => ?_, fun id document hfind => ?_⟩
  · have hnext : (s.close file).nextIndex = s.nextIndex := by
      rw [Session.close]
      split <;> rfl
    rw [openedIds_concat_edited, h.opened, Session.edited, hnext]
  · rw [Session.edited, Session.find?_close h.nodup] at hfind
    split at hfind
    · next heq => simp [Event.texts, heq]
    · next hne => simp [Event.texts, Ne.symm hne, h.closed id hfind]
  · rw [Session.edited, Session.find?_close h.nodup] at hfind
    split at hfind
    · cases hfind
    · next hne =>
      exact (h.follows id document hfind).of_textsOf (by simp [Event.texts, Ne.symm hne])

theorem cancel (h : Explains events s) :
    Explains (events ++ [.edited .cancel]) (s.edited .cancel) := by
  have htexts : ∀ id, textsOf (events ++ [.edited .cancel]) id = textsOf events id := by
    simp [Event.texts]
  refine ⟨h.nodup, ?_, fun id hfind => (htexts id).trans (h.closed id hfind),
    fun id document hfind => (h.follows id document hfind).of_textsOf (htexts id)⟩
  rw [openedIds_concat_edited]
  exact h.opened

theorem install (h : Explains events s) (hfind : s.find? id = some document)
    (hbuild : VirtualDocument.build? id.original document.text document.version
      document.language = some d) : Explains events (s.withInstalled d) := by
  have hid : d.id.original = id.original := by rw [VirtualDocument.id_of_build? hbuild]; rfl
  refine ⟨by simpa [Session.withInstalled] using h.nodup, h.opened, fun id' hnone => ?_,
    fun id' document' hsome => ?_⟩
  · exact h.closed id' (Session.find?_modify_eq_none.1 hnone)
  · rw [Session.withInstalled, Session.find?_modify, hid] at hsome
    split at hsome
    · next heq =>
      rw [s.find?_congr heq, hfind] at hsome
      obtain rfl := Option.some.inj hsome
      have hfollows := h.follows id' document (by rw [s.find?_congr heq, hfind])
      exact hfollows.install (heq ▸ hbuild)
    · exact h.follows id' document' hsome

theorem step (h : Explains events s) (hstep : Step s events' s') :
    Explains (events ++ events') s' := by
  cases hstep with
  | add text language => exact h.add text language
  | edit edit =>
    cases edit with
    | change file text => exact h.change file text
    | close file => exact h.close file
    | cancel => exact h.cancel
  | install hfind hbuild => exact (List.append_nil events).symm ▸ h.install hfind hbuild

theorem steps (h : Explains events s) (hsteps : Steps s events' s') :
    Explains (events ++ events') s' := by
  induction hsteps with
  | refl => simpa using h
  | tail _ hstep ih =>
    rw [← List.append_assoc]
    exact ih.step hstep

/-- Identifiers come round again only after 2³¹ documents. -/
theorem nodup_openedIds (h : Explains events s) (hfew : (openedIds events).length < 0x80000000) :
    (openedIds events).Nodup := by
  rw [h.opened] at hfew ⊢
  rw [List.length_map, List.length_range] at hfew
  refine List.Nodup.map_on ?_ List.nodup_range
  intro m hm n hn heq
  rw [List.mem_range] at hm hn
  have hmod : m % 0x80000000 = n % 0x80000000 := congrArg DocumentId.index heq
  rwa [Nat.mod_eq_of_lt (by omega), Nat.mod_eq_of_lt (by omega)] at hmod

theorem mem_openedIds (h : Explains events s) (hfind : s.find? id = some document) :
    id.original ∈ openedIds events := by
  refine mem_openedIds_of_textsOf (h.follows id document hfind).textsOf_ne_nil ?_
  intro id' hid'
  rw [h.opened] at hid'
  obtain ⟨n, -, rfl⟩ := List.mem_map.1 hid'
  rfl

end Explains

/-- The virtual document that was installed is still there, or a later one is. -/
def Document.InstalledLE (document document' : Document) : Prop :=
  ∀ d, document.installed = some d → ∃ d', document'.installed = some d' ∧ d.version ≤ d'.version

namespace Document.InstalledLE

theorem of_eq (h : document'.installed = document.installed) : document.InstalledLE document' :=
  fun d hd => ⟨d, h.trans hd, Nat.le_refl _⟩

theorem trans {document'' : Document} (h : document.InstalledLE document')
    (h' : document'.InstalledLE document'') : document.InstalledLE document'' := by
  intro d hd
  obtain ⟨d', hd', hle⟩ := h d hd
  obtain ⟨d'', hd'', hle'⟩ := h' d' hd'
  exact ⟨d'', hd'', Nat.le_trans hle hle'⟩

end Document.InstalledLE

/-- A step keeps the virtual document of a document that stays open or installs a later one. -/
theorem Step.installedLE (he : Explains events s) (hstep : Step s events' s')
    (hid : id.original ∉ openedIds events') (hfind : s'.find? id = some document') :
    ∃ document, s.find? id = some document ∧ document.InstalledLE document' := by
  cases hstep with
  | add text language =>
    rw [Session.find?_add, if_neg (by simpa [openedIds] using hid)] at hfind
    exact ⟨document', hfind, .of_eq rfl⟩
  | edit edit =>
    obtain ⟨document, hdocument, ⟨-, rfl⟩ | ⟨text, -, rfl⟩⟩ := Session.find?_edited he.nodup hfind
    · exact ⟨document', hdocument, .of_eq rfl⟩
    · exact ⟨document, hdocument, .of_eq rfl⟩
  | @install key current built hcurrent hbuild =>
    rw [Session.withInstalled, Session.find?_modify, VirtualDocument.id_of_build? hbuild] at hfind
    split at hfind
    · next heq =>
      have hopen : s.find? id = some current := (s.find?_congr heq).trans hcurrent
      rw [hopen] at hfind
      obtain rfl := Option.some.inj hfind
      refine ⟨current, hopen, fun d hd => ⟨built, rfl, ?_⟩⟩
      rw [VirtualDocument.version_of_build? hbuild]
      exact (he.follows id current hopen).version_le hd
    · exact ⟨document', hfind, .of_eq rfl⟩

theorem Steps.installedLE (he : Explains events s) (hsteps : Steps s events' s')
    (hid : id.original ∉ openedIds events') (hfind : s'.find? id = some document') :
    ∃ document, s.find? id = some document ∧ document.InstalledLE document' := by
  induction hsteps generalizing document' with
  | refl => exact ⟨document', hfind, .of_eq rfl⟩
  | tail hsteps hstep ih =>
    rw [openedIds_append, List.mem_append, not_or] at hid
    obtain ⟨mid, hmid, hle⟩ := hstep.installedLE (he.steps hsteps) hid.2 hfind
    obtain ⟨document, hdocument, hle'⟩ := ih hid.1 hmid
    exact ⟨document, hdocument, hle'.trans hle⟩

end TemplateProjection
