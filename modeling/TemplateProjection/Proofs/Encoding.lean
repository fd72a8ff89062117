import TemplateProjection.Text.Basic

/-! The bytes of a text. -/
namespace TemplateProjection.Text

/-- The UTF-8 encoding of a text. -/
def utf8 (t : Text) : List UInt8 := t.flatMap String.utf8EncodeChar

variable {t : Text} {offset : Nat}

theorem utf8_cons (c : Char) (t : Text) : utf8 (c :: t) = String.utf8EncodeChar c ++ utf8 t := rfl

@[simp]
theorem utf8_append (s t : Text) : (s ++ t).utf8 = s.utf8 ++ t.utf8 :=
  List.flatMap_append

@[simp]
theorem length_utf8 (t : Text) : t.utf8.length = t.byteLength := by
  induction t with
  | nil => rfl
  | cons c t ih =>
    rw [utf8_cons, List.length_append, ih, String.length_utf8EncodeChar, byteLength_cons]

theorem utf8_replicate_space (n : Nat) : utf8 (List.replicate n ' ') = List.replicate n 0x20 := by
  induction n with
  | zero => rfl
  | succ n ih =>
    have hspace : String.utf8EncodeChar ' ' = [0x20] := rfl
    rw [List.replicate_succ, utf8_cons, ih, hspace, List.replicate_succ, List.singleton_append]

/-- The byte of a line feed is no part of any other character. -/
theorem eq_lineFeed_of_mem_utf8EncodeChar {c : Char} (h : 10 ∈ String.utf8EncodeChar c) :
    c = '\n' := by
  have hbyte : ∀ n : Nat, (10 : UInt8) = UInt8.ofNat n → n % 256 = 10 := by
    intro n hn
    have := congrArg UInt8.toNat hn
    simpa [UInt8.toNat_ofNat] using this.symm
  unfold String.utf8EncodeChar at h
  dsimp only at h
  split at h
  · next hsmall =>
    have := hbyte _ (List.mem_singleton.1 h)
    refine Char.ext (UInt32.toNat_inj.1 ?_)
    show c.val.toNat = 10
    omega
  · exfalso
    split at h
    · simp only [List.mem_cons, List.not_mem_nil, or_false] at h
      rcases h with h | h
      all_goals
        have := hbyte _ h
        omega
    · split at h
      · simp only [List.mem_cons, List.not_mem_nil, or_false] at h
        rcases h with h | h | h
        all_goals
          have := hbyte _ h
          omega
      · simp only [List.mem_cons, List.not_mem_nil, or_false] at h
        rcases h with h | h | h | h
        all_goals
          have := hbyte _ h
          omega

/-- A line feed in the encoding is one in the text. -/
theorem utf8_getElem?_eq_lineFeed :
    t.utf8[offset]? = some 10 ↔
      ∃ before after, t = before ++ '\n' :: after ∧ before.byteLength = offset := by
  induction t generalizing offset with
  | nil => simp [utf8]
  | cons c t ih =>
    have hlength := String.length_utf8EncodeChar c
    have hpos := c.utf8Size_pos
    rw [utf8_cons]
    by_cases hoffset : offset < c.utf8Size
    · rw [List.getElem?_append_left (by omega)]
      constructor
      · intro h
        obtain rfl := eq_lineFeed_of_mem_utf8EncodeChar (List.mem_of_getElem? h)
        have hsize : Char.utf8Size '\n' = 1 := by decide
        exact ⟨[], t, rfl, by rw [byteLength_nil]; omega⟩
      · rintro ⟨before, after, heq, rfl⟩
        cases before with
        | nil =>
          cases heq
          decide
        | cons d before =>
          cases heq
          rw [byteLength_cons] at hoffset
          omega
    · rw [List.getElem?_append_right (by omega), hlength, ih]
      constructor
      · rintro ⟨before, after, rfl, hbefore⟩
        exact ⟨c :: before, after, rfl, by rw [byteLength_cons]; omega⟩
      · rintro ⟨before, after, heq, rfl⟩
        cases before with
        | nil => exact absurd hpos hoffset
        | cons d before =>
          cases heq
          exact ⟨before, after, rfl, by rw [byteLength_cons]; omega⟩

end TemplateProjection.Text
