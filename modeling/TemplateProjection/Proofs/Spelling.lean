import TemplateProjection.Code.Name
import TemplateProjection.Proofs.Ascii

/-! Spellings of a name: camel case only drops hyphens, so a spelling of the same length is the name
itself. The spelling of a listener puts `on` in front and is never the name of its event. -/
namespace TemplateProjection

theorem toNat_lt_of_isWordChar {c : Char} (h : Code.isWordChar c) : c.toNat < 128 := by
  simp only [Code.isWordChar, Bool.or_eq_true, beq_iff_eq] at h
  rcases h with h | rfl
  · exact toNat_lt_of_isAlphanum h
  · decide

theorem utf8Size_toUpper_of_isWordChar {c : Char} (h : Code.isWordChar c) :
    c.toUpper.utf8Size = c.utf8Size := by
  have hsize := ascii_imp Code.isWordChar (fun c => c.toUpper.utf8Size == c.utf8Size) (by decide)
    (toNat_lt_of_isWordChar h) h
  exact beq_iff_eq.1 hsize

namespace Code

theorem byteLength_camelize_le (t : Text) : (camelize t).byteLength ≤ t.byteLength := by
  fun_induction camelize t with
  | case1 c t hword ih =>
    simp only [Text.byteLength_cons, utf8Size_toUpper_of_isWordChar hword]
    omega
  | case2 c t hword ih =>
    simp only [Text.byteLength_cons] at ih ⊢
    omega
  | case3 c t _ ih =>
    simp only [Text.byteLength_cons]
    omega
  | case4 => exact Nat.le_refl _

theorem camelize_eq_self {t : Text} (h : (camelize t).byteLength = t.byteLength) :
    camelize t = t := by
  fun_induction camelize t with
  | case1 c t hword ih =>
    have hle := byteLength_camelize_le t
    have hpos := Char.utf8Size_pos '-'
    simp only [Text.byteLength_cons, utf8Size_toUpper_of_isWordChar hword] at h
    omega
  | case2 c t hword ih =>
    simp only [Text.byteLength_cons] at h ih
    rw [ih (by omega)]
  | case3 c t _ ih =>
    simp only [Text.byteLength_cons] at h
    rw [ih (by omega)]
  | case4 => rfl

theorem byteLength_propertyKey_le (name : Text) :
    (propertyKey name).byteLength ≤ name.byteLength := by
  simp only [propertyKey]
  split
  · exact byteLength_camelize_le name
  · exact Nat.le_refl _

theorem propertyKey_eq_self {name : Text}
    (h : (propertyKey name).byteLength = name.byteLength) : propertyKey name = name := by
  simp only [propertyKey] at h ⊢
  split at h
  · next hkey => rw [if_pos hkey, camelize_eq_self h]
  · next hkey => rw [if_neg hkey]

theorem camelize_cons {c : Char} (h : c ≠ '-') (t : Text) :
    camelize (c :: t) = c :: camelize t := by
  rw [camelize]
  exact fun _ _ hc _ => h hc

theorem ne_hyphen_of_toLower {c d : Char} (h : c.toLower = d) (hd : d ≠ '-') : c ≠ '-' := by
  rintro rfl
  exact hd h.symm

/-- A text that goes on with its own camel case never ends. -/
theorem lower_ne_on_camelize : ∀ t : Text,
    t.map Char.toLower ≠ 'o' :: 'n' :: (camelize t).map Char.toLower
  | [], h => by simp at h
  | [a], h => by simp at h
  | a :: b :: t, h => by
    simp only [List.map_cons, List.cons.injEq] at h
    obtain ⟨ha, hb, h⟩ := h
    rw [camelize_cons (ne_hyphen_of_toLower ha (by decide)),
      camelize_cons (ne_hyphen_of_toLower hb (by decide))] at h
    simp only [List.map_cons, ha, hb] at h
    exact lower_ne_on_camelize t h

theorem camelize_on (event : Text) :
    camelize ("on-".toList ++ event) = 'o' :: 'n' :: camelize ('-' :: event) := by
  show camelize ('o' :: 'n' :: '-' :: event) = _
  rw [camelize_cons (by decide), camelize_cons (by decide)]

/-- The spelling of a listener is not the name of its event in whatever case. -/
theorem listener_ne_event (event : Text) :
    ¬ event.eqIgnoringCase (camelize ("on-".toList ++ event)) := by
  intro h
  rw [camelize_on] at h
  have heq := beq_iff_eq.1 h
  rcases event with _ | ⟨a, _ | ⟨b, t⟩⟩
  · simp at heq
  · simp at heq
  · simp only [List.map_cons, List.cons.injEq] at heq
    obtain ⟨ha, hb, heq⟩ := heq
    have hascii : a.toNat < 128 := toNat_lt_of_toLower (by rw [ha]; decide)
    have ho : (isWordChar a && a.toUpper.toLower == 'o') = true :=
      ascii_imp (fun c => c.toLower == 'o') (fun c => isWordChar c && c.toUpper.toLower == 'o')
        (by decide) hascii (beq_iff_eq.2 ha)
    simp only [Bool.and_eq_true, beq_iff_eq] at ho
    rw [camelize, if_pos ho.1, camelize_cons (ne_hyphen_of_toLower hb (by decide))] at heq
    simp only [List.map_cons, ho.2, hb] at heq
    exact lower_ne_on_camelize t heq

end Code

end TemplateProjection
