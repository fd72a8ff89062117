import TemplateProjection.Text.Blank

/-! Facts about ASCII characters, each decided by looking at all of them. -/
namespace TemplateProjection

variable {c : Char}

/-- What follows for each of the 128 characters follows for every ASCII character. -/
theorem ascii_imp (p q : Char → Bool) (h : ∀ n < 128, p (Char.ofNat n) → q (Char.ofNat n))
    (hc : c.toNat < 128) (hp : p c) : q c := by
  have hq := h c.toNat hc
  rw [Char.ofNat_toNat] at hq
  exact hq hp

theorem toNat_lt_of_isAlpha (h : c.isAlpha) : c.toNat < 128 := by
  rcases (Bool.or_eq_true _ _).mp h with h | h
  · have hle : c.val ≤ 'Z'.val := (of_decide_eq_true h).2
    exact Nat.lt_of_le_of_lt (UInt32.le_iff_toNat_le.1 hle) (by decide)
  · have hle : c.val ≤ 'z'.val := of_decide_eq_true ((Bool.and_eq_true _ _).mp h).2
    exact Nat.lt_of_le_of_lt (UInt32.le_iff_toNat_le.1 hle) (by decide)

theorem toNat_lt_of_isAlphanum (h : c.isAlphanum) : c.toNat < 128 := by
  rcases (Bool.or_eq_true _ _).mp h with h | h
  · exact toNat_lt_of_isAlpha h
  · have hle : c.val ≤ '9'.val := of_decide_eq_true ((Bool.and_eq_true _ _).mp h).2
    exact Nat.lt_of_le_of_lt (UInt32.le_iff_toNat_le.1 hle) (by decide)

theorem isAlpha_not_tagEnd (h : c.isAlpha) : (!(isBlank c || c == '/' || c == '>')) = true :=
  ascii_imp Char.isAlpha (fun c => !(isBlank c || c == '/' || c == '>')) (by decide)
    (toNat_lt_of_isAlpha h) h

theorem toNat_lt_of_toLower (h : c.toLower.toNat < 128) : c.toNat < 128 := by
  by_cases hupper : c.isUpper
  · exact toNat_lt_of_isAlpha ((Bool.or_eq_true _ _).mpr (.inl hupper))
  · have hsame : c.toLower = c := dif_neg fun hrange => hupper (decide_eq_true hrange)
    rwa [hsame] at h

theorem isAsciiBlank_toLower (h : isAsciiBlank c) : isAsciiBlank c.toLower := by
  simp only [isAsciiBlank, Bool.or_eq_true, beq_iff_eq] at h
  obtain (((rfl | rfl) | rfl) | rfl) | rfl := h <;> decide

/-- Small letters are no blanks. -/
theorem isAsciiBlank_of_toLower (h : isAsciiBlank c.toLower) : isAsciiBlank c := by
  have hascii : c.toLower.toNat < 128 := by
    simp only [isAsciiBlank, Bool.or_eq_true, beq_iff_eq] at h
    obtain (((h | h) | h) | h) | h := h <;> rw [h] <;> decide
  exact ascii_imp (fun c => isAsciiBlank c.toLower) isAsciiBlank (by decide)
    (toNat_lt_of_toLower hascii) h

/-- Only ASCII letters have another case, and those have one byte. -/
theorem utf8Size_toLower (c : Char) : c.toLower.utf8Size = c.utf8Size := by
  by_cases hupper : c.isUpper
  · have hascii := toNat_lt_of_isAlpha ((Bool.or_eq_true _ _).mpr (.inl hupper))
    exact beq_iff_eq.1 (ascii_imp Char.isUpper (fun c => c.toLower.utf8Size == c.utf8Size)
      (by decide) hascii hupper)
  · have hsame : c.toLower = c := dif_neg fun hrange => hupper (decide_eq_true hrange)
    rw [hsame]

end TemplateProjection
