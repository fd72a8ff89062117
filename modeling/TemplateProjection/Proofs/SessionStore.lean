import Mathlib.Data.List.Nodup
import TemplateProjection.Session.Store

/-! What each operation on the documents of a session does to the one that is looked up. -/
namespace TemplateProjection

@[simp]
theorem DocumentId.original_ofNat (n : Nat) : (DocumentId.ofNat n).original = .ofNat n := rfl

namespace Session

variable {s : Session} {id id' : DocumentId} {document : Document}

theorem find?_congr (s : Session) (h : id.original = id'.original) : s.find? id = s.find? id' := by
  rw [find?, find?, h]

theorem find?_modify (s : Session) (id id' : DocumentId) (f : Document → Document) :
    (s.modify id f).find? id' =
      if id'.original = id.original then (s.find? id').map f else s.find? id' := by
  simp only [find?, modify]
  induction s.documents with
  | nil => simp
  | cons e documents ih =>
    obtain ⟨key, document⟩ := e
    by_cases hkey : id'.original = key
    · subst hkey
      by_cases hid : id'.original = id.original <;> simp [hid]
    · have hne : (id'.original == key) = false := by simpa using hkey
      by_cases hid : key = id.original
      · subst hid
        simp [List.lookup_cons, hne, hkey, ih]
      · simp [List.lookup_cons, hne, hid, ih]

@[simp]
theorem find?_modify_eq_none {f : Document → Document} :
    (s.modify id f).find? id' = none ↔ s.find? id' = none := by
  rw [find?_modify]
  split <;> simp

@[simp]
theorem ids_modify (s : Session) (id : DocumentId) (f : Document → Document) :
    (s.modify id f).ids = s.ids := by
  simp only [ids, modify, List.map_map]
  refine List.map_congr_left fun e _ => ?_
  simp only [Function.comp_apply]
  split <;> rfl

theorem find?_eq_none_iff : s.find? id = none ↔ id.original ∉ s.ids := by
  simp only [find?, ids, List.lookup_eq_none_iff, List.mem_map, bne_iff_ne]
  constructor
  · rintro h ⟨e, he, heq⟩
    exact h e he heq.symm
  · intro h e he heq
    exact h ⟨e, he, heq.symm⟩

theorem find?_eq_some_iff (h : s.ids.Nodup) :
    s.find? id = some document ↔ (id.original, document) ∈ s.documents := by
  constructor
  · intro hfind
    obtain ⟨before, after, hsplit, -⟩ := List.lookup_eq_some_iff.1 hfind
    simp [hsplit]
  · intro hmem
    obtain ⟨before, after, hsplit⟩ := List.append_of_mem hmem
    refine List.lookup_eq_some_iff.2 ⟨before, after, hsplit, ?_⟩
    intro e he
    simp only [ids, hsplit, List.map_append, List.map_cons, List.nodup_append] at h
    exact bne_iff_ne.2 (h.2.2 e.1 (List.mem_map_of_mem he) _ (by simp)).symm

theorem ne_of_mem_others {key : DocumentId} {before after : List (DocumentId × Document)}
    (h : s.ids.Nodup) (hsplit : s.documents = before ++ (key, document) :: after) :
    ∀ e ∈ before ++ after, e.1 ≠ key := by
  rintro e he rfl
  rw [ids, hsplit, List.map_append, List.map_cons, List.nodup_middle, List.nodup_cons,
    ← List.map_append] at h
  exact h.1 (List.mem_map.2 ⟨e, he, rfl⟩)

/-- Closing takes one document out; the order of the others may change. -/
theorem close_perm (h : s.ids.Nodup) (hfind : s.find? id = some document) :
    ∃ before after, s.documents = before ++ (id.original, document) :: after ∧
      (s.close id).documents.Perm (before ++ after) := by
  obtain ⟨before, after, hsplit⟩ := List.append_of_mem ((find?_eq_some_iff h).1 hfind)
  refine ⟨before, after, hsplit, ?_⟩
  have hother := ne_of_mem_others h hsplit
  rcases List.eq_nil_or_concat after with rfl | ⟨after, last, rfl⟩
  · simp [close, hfind, hsplit]
  · have hlast : last.1 ≠ id.original := hother last (by simp)
    have hkeep : ∀ part : List (DocumentId × Document), (∀ e ∈ part, e.1 ≠ id.original) →
        (part.map fun e => if e.1 = id.original then last else e) = part := by
      intro part hpart
      exact (List.map_congr_left fun e he => if_neg (hpart e he)).trans (List.map_id' part)
    have hdocuments : (s.close id).documents = before ++ last :: after := by
      have hfront := hkeep before fun e he => hother e (by simp [he])
      have hback := hkeep after fun e he => hother e (by simp [he])
      have hdrop : s.documents.dropLast = before ++ (id.original, document) :: after := by
        rw [hsplit, List.concat_eq_append, ← List.cons_append, ← List.append_assoc,
          List.dropLast_concat]
      have hget : s.documents.getLast? = some last := by
        rw [hsplit, List.concat_eq_append, ← List.cons_append, ← List.append_assoc,
          List.getLast?_concat]
      simp [close, hfind, hget, hlast, hdrop, hfront, hback]
    rw [hdocuments, List.concat_eq_append]
    exact (List.perm_append_singleton last after).symm.append_left before

theorem nodup_close (h : s.ids.Nodup) (id : DocumentId) : (s.close id).ids.Nodup := by
  cases hfind : s.find? id with
  | none => simpa [close, hfind] using h
  | some document =>
    obtain ⟨before, after, hsplit, hperm⟩ := close_perm h hfind
    rw [ids, (hperm.map Prod.fst).nodup_iff, List.map_append]
    rw [ids, hsplit, List.map_append, List.map_cons, List.nodup_middle] at h
    exact h.of_cons

theorem find?_close (h : s.ids.Nodup) (id id' : DocumentId) :
    (s.close id).find? id' = if id'.original = id.original then none else s.find? id' := by
  cases hfind : s.find? id with
  | none =>
    rw [show s.close id = s by simp [close, hfind]]
    split
    · next heq => rw [s.find?_congr heq, hfind]
    · rfl
  | some document =>
    obtain ⟨before, after, hsplit, hperm⟩ := close_perm h hfind
    have hother := ne_of_mem_others h hsplit
    have hmem : ∀ d, (s.close id).find? id' = some d ↔
        id'.original ≠ id.original ∧ s.find? id' = some d := by
      intro d
      rw [find?_eq_some_iff (nodup_close h id), find?_eq_some_iff h, hperm.mem_iff, hsplit]
      constructor
      · intro hd
        refine ⟨hother _ hd, ?_⟩
        simp only [List.mem_append, List.mem_cons] at hd ⊢
        tauto
      · rintro ⟨hne, hd⟩
        simpa [hne] using hd
    refine Option.ext fun d => ?_
    rw [hmem]
    split <;> simp_all

/-- A new document stands last, unless its index has come round to one that is open. -/
theorem documents_add (s : Session) (text : Text) (language : Language) :
    (s.add text language).2.documents =
      if (s.find? (.ofNat s.nextIndex)).isSome then
        (s.modify (.ofNat s.nextIndex) fun _ => ⟨language, text, 1, none⟩).documents
      else s.documents ++ [(.ofNat s.nextIndex, ⟨language, text, 1, none⟩)] := rfl

theorem find?_add (s : Session) (text : Text) (language : Language) (id : DocumentId) :
    (s.add text language).2.find? id =
      if id.original = .ofNat s.nextIndex then some ⟨language, text, 1, none⟩ else s.find? id := by
  rw [find?, documents_add]
  split
  · next hopen =>
    obtain ⟨document, hdocument⟩ := Option.isSome_iff_exists.1 hopen
    change (s.modify _ _).find? id = _
    rw [find?_modify, DocumentId.original_ofNat]
    split
    · next heq =>
      have hsame : s.find? id = s.find? (.ofNat s.nextIndex) := s.find?_congr heq
      rw [hsame, hdocument, Option.map_some]
    · rfl
  · next hnew =>
    have hnone : s.find? (.ofNat s.nextIndex) = none := by simpa using hnew
    rw [List.lookup_append]
    change (s.find? id).or _ = _
    split
    · next heq =>
      have hsame : s.find? id = s.find? (.ofNat s.nextIndex) := s.find?_congr heq
      rw [hsame, hnone, heq]
      simp
    · next hne =>
      have hbeq : (id.original == .ofNat s.nextIndex) = false := by simpa using hne
      simp [List.lookup_cons, hbeq]

theorem nodup_add (h : s.ids.Nodup) (text : Text) (language : Language) :
    (s.add text language).2.ids.Nodup := by
  rw [ids, documents_add]
  split
  · change (s.modify _ _).ids.Nodup
    rwa [ids_modify]
  · next hnew =>
    have hnotin : DocumentId.ofNat s.nextIndex ∉ s.ids :=
      find?_eq_none_iff.1 (by simpa using hnew)
    rw [List.map_append, List.map_singleton, ← List.concat_eq_append, List.nodup_concat]
    exact ⟨hnotin, h⟩

end Session

end TemplateProjection
