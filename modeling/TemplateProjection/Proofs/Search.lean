import TemplateProjection.Markup.Entity
import TemplateProjection.Outline.Alignment
import TemplateProjection.Proofs.Excerpt

/-! What searching a text finds is there, and a replacement that changes a text shortens it. -/
namespace TemplateProjection

namespace Text

variable {needle replacement t : Text} {skip offset found : Nat}

/-- Every offset that is found has the needle behind it. -/
theorem occurrencesFrom_sound (h : found ∈ occurrencesFrom needle skip offset t) :
    ∃ before after, t = before ++ needle ++ after ∧ offset + before.byteLength = found := by
  fun_induction occurrencesFrom needle skip offset t with
  | case1 skip offset hneedle =>
    refine ⟨[], [], ?_, ?_⟩
    · simpa using hneedle
    · exact (List.mem_singleton.1 h).symm
  | case2 => simp at h
  | case3 skip offset c t ih =>
    obtain ⟨before, after, rfl, hfound⟩ := ih h
    exact ⟨c :: before, after, rfl, by simp only [byteLength_cons]; omega⟩
  | case4 offset c t hsome ih =>
    rcases List.mem_cons.1 h with rfl | h
    · obtain ⟨rest, hrest⟩ := Option.isSome_iff_exists.1 hsome
      exact ⟨[], rest, (append_of_after? hrest).symm, rfl⟩
    · obtain ⟨before, after, rfl, hfound⟩ := ih h
      exact ⟨c :: before, after, rfl, by simp only [byteLength_cons]; omega⟩
  | case5 offset c t hnone ih =>
    obtain ⟨before, after, rfl, hfound⟩ := ih h
    exact ⟨c :: before, after, rfl, by simp only [byteLength_cons]; omega⟩

theorem slice?_of_mem_occurrences (h : found ∈ occurrences needle t) :
    t.slice? ⟨found, needle.byteLength⟩ = some needle := by
  obtain ⟨before, after, happ, hfound⟩ := occurrencesFrom_sound h
  exact slice?_eq_some_iff.2 ⟨before, after, happ, by simpa using hfound, rfl⟩

/-- Bytes of a text that starts with a nonempty needle. -/
theorem byteLength_of_after?_isSome {c : Char} (hneedle : 0 < needle.byteLength)
    (h : (after? needle (c :: t)).isSome) :
    byteLength (c :: t) = needle.byteLength + byteLength (t.drop (needle.length - 1)) := by
  obtain ⟨rest, hrest⟩ := Option.isSome_iff_exists.1 h
  have happ := append_of_after? hrest
  cases needle with
  | nil => simp at hneedle
  | cons d needle =>
    obtain ⟨rfl, rfl⟩ := List.cons.inj happ
    simp [Nat.add_assoc]

/-- A replacement shorter than its needle never makes a text longer. -/
theorem byteLength_replaceFrom_le (h : replacement.byteLength < needle.byteLength)
    (skip : Nat) (t : Text) :
    (replaceFrom needle replacement skip t).byteLength ≤ byteLength (t.drop skip) := by
  fun_induction replaceFrom needle replacement skip t with
  | case1 => simp
  | case2 skip c t ih => exact ih
  | case3 c t hsome ih =>
    have := byteLength_of_after?_isSome (by omega) hsome
    simp only [byteLength_append, List.drop_zero]
    omega
  | case4 c t hnone ih =>
    simp only [List.drop_zero, byteLength_cons] at ih ⊢
    omega

theorem byteLength_replace_le (h : replacement.byteLength < needle.byteLength) (t : Text) :
    (replace needle replacement t).byteLength ≤ t.byteLength :=
  byteLength_replaceFrom_le h 0 t

/-- A text that keeps its length under a shorter replacement holds no needle. -/
theorem replace_eq_self (h : replacement.byteLength < needle.byteLength)
    (hlen : (replace needle replacement t).byteLength = t.byteLength) :
    replace needle replacement t = t := by
  induction t with
  | nil => rfl
  | cons c t ih =>
    simp only [replace, replaceFrom] at hlen ⊢
    split at hlen
    · next hsome =>
      have := byteLength_of_after?_isSome (by omega) hsome
      have := byteLength_replaceFrom_le h (needle.length - 1) t
      simp only [byteLength_append] at hlen
      omega
    · next hnone =>
      rw [if_neg hnone]
      exact congrArg (c :: ·) (ih (by simpa [replace] using hlen))

end Text

/-- References become shorter, so a text of the same length held none. -/
theorem Entity.normalize_eq_self {t : Text}
    (h : (Entity.normalize t).byteLength = t.byteLength) : Entity.normalize t = t := by
  have hgt : Text.byteLength ['>'] < Text.byteLength "&gt;".toList := by decide
  have hlt : Text.byteLength ['<'] < Text.byteLength "&lt;".toList := by decide
  have hamp : Text.byteLength ['&'] < Text.byteLength "&amp;".toList := by decide
  have hquot : Text.byteLength ['"'] < Text.byteLength "&quot;".toList := by decide
  unfold Entity.normalize at h ⊢
  have h₁ := Text.byteLength_replace_le hgt t
  generalize ht₁ : Text.replace "&gt;".toList ['>'] t = t₁ at h h₁ ⊢
  have h₂ := Text.byteLength_replace_le hlt t₁
  generalize ht₂ : Text.replace "&lt;".toList ['<'] t₁ = t₂ at h h₂ ⊢
  have h₃ := Text.byteLength_replace_le hamp t₂
  generalize ht₃ : Text.replace "&amp;".toList ['&'] t₂ = t₃ at h h₃ ⊢
  have h₄ := Text.byteLength_replace_le hquot t₃
  rw [Text.replace_eq_self hquot (by omega), ← ht₃, Text.replace_eq_self hamp (by rw [ht₃]; omega),
    ← ht₂, Text.replace_eq_self hlt (by rw [ht₂]; omega), ← ht₁,
    Text.replace_eq_self hgt (by rw [ht₁]; omega)]

namespace Outline

variable {o : Occurrences} {a : Alignment} {needle : Text} {offset found : Nat}

theorem Occurrences.outlineOffset?_mem (h : o.outlineOffset? offset = some found) :
    found ∈ o.outline := by
  simp only [Occurrences.outlineOffset?] at h
  split at h
  · obtain ⟨before, after, hzip, -⟩ := List.lookup_eq_some_iff.1 h
    exact (List.of_mem_zip (show (offset, found) ∈ o.markup.zip o.outline by simp [hzip])).2
  · simp at h

/-- The outline holds the needle wherever a markup offset is located. -/
theorem Alignment.slice?_of_locate? (h : a.locate? needle offset = some found) :
    a.outline.slice? ⟨found, needle.byteLength⟩ = some needle := by
  simp only [Alignment.locate?] at h
  split at h
  · simp at h
  · exact Text.slice?_of_mem_occurrences (Occurrences.outlineOffset?_mem h)

end Outline

end TemplateProjection
