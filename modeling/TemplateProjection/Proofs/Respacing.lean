import TemplateProjection.Proofs.Words
import TemplateProjection.Text.Search

/-!
Texts that differ in their blanks only: where one has a run of ASCII blanks, the other has one, too.
Whatever treats all blanks alike divides such texts in the same places.
-/
namespace TemplateProjection.Text

variable {s s' t t' w : Text} {c : Char} {p : Char → Bool}

theorem rel_map {α β γ δ : Type} {R : α → β → Prop} {S : γ → δ → Prop} {f : α → γ} {g : β → δ}
    {o : Option α} {o' : Option β} (h : Option.Rel R o o') (hfg : ∀ a b, R a b → S (f a) (g b)) :
    Option.Rel S (o.map f) (o'.map g) := by
  cases h with
  | none => exact .none
  | some h => exact .some (hfg _ _ h)

theorem ne_of_isAsciiBlank {d : Char} (hc : isAsciiBlank c) (hd : ¬ isBlank d) : c ≠ d := by
  rintro rfl
  exact hd (isBlank_of_isAsciiBlank hc)

/-- The text has no blanks. -/
def isSolid (t : Text) : Bool := t.all (!isBlank ·)

theorem isSolid_iff : isSolid t ↔ ∀ c ∈ t, ¬ isBlank c := by
  simp [isSolid]

inductive Respaced : Text → Text → Prop
  | nil : Respaced [] []
  | char {c : Char} {t t' : Text} (hc : ¬ isBlank c) (h : Respaced t t') :
      Respaced (c :: t) (c :: t')
  | blanks {w w' t t' : Text} (hw : ∀ c ∈ w, isAsciiBlank c) (hne : w ≠ [])
      (hw' : ∀ c ∈ w', isAsciiBlank c) (hne' : w' ≠ []) (h : Respaced t t') :
      Respaced (w ++ t) (w' ++ t')

namespace Respaced

theorem blank {c' : Char} (hc : isAsciiBlank c) (hc' : isAsciiBlank c') (h : Respaced t t') :
    Respaced (c :: t) (c' :: t') :=
  show Respaced ([c] ++ t) ([c'] ++ t') from
    .blanks (by simpa using hc) (by simp) (by simpa using hc') (by simp) h

/-- A text without other blanks than the ASCII ones. -/
theorem refl (h : ∀ c ∈ t, isBlank c → isAsciiBlank c) : Respaced t t := by
  induction t with
  | nil => exact .nil
  | cons c t ih =>
    obtain ⟨hc, ht⟩ := List.forall_mem_cons.1 h
    by_cases hblank : isBlank c
    · exact .blank (hc hblank) (hc hblank) (ih ht)
    · exact .char hblank (ih ht)

theorem of_solid (h : isSolid t) : Respaced t t :=
  .refl fun c hc hblank => absurd hblank (isSolid_iff.1 h c hc)

theorem symm (h : Respaced t t') : Respaced t' t := by
  induction h with
  | nil => exact .nil
  | char hc _ ih => exact .char hc ih
  | blanks hw hne hw' hne' _ ih => exact .blanks hw' hne' hw hne ih

theorem append (hs : Respaced s s') (ht : Respaced t t') : Respaced (s ++ t) (s' ++ t') := by
  induction hs with
  | nil => exact ht
  | char hc _ ih => exact .char hc ih
  | blanks hw hne hw' hne' _ ih =>
    rw [List.append_assoc, List.append_assoc]
    exact .blanks hw hne hw' hne' ih

theorem reverse (h : Respaced t t') : Respaced t.reverse t'.reverse := by
  induction h with
  | nil => exact .nil
  | char hc _ ih =>
    rw [List.reverse_cons, List.reverse_cons]
    exact ih.append (.char hc .nil)
  | @blanks w w' _ _ hw hne hw' hne' _ ih =>
    rw [List.reverse_append, List.reverse_append]
    refine ih.append ?_
    rw [← List.append_nil w.reverse, ← List.append_nil w'.reverse]
    exact .blanks (by simpa using hw) (by simpa using hne) (by simpa using hw')
      (by simpa using hne') .nil

theorem ascii (h : Respaced t t') : ∀ c ∈ t, isBlank c → isAsciiBlank c := by
  induction h with
  | nil => simp
  | char hc _ ih => exact List.forall_mem_cons.2 ⟨fun hblank => absurd hblank hc, ih⟩
  | blanks hw _ _ _ _ ih => exact List.forall_mem_append.2 ⟨fun c hc _ => hw c hc, ih⟩

/-- Both texts are empty, both start with the same character, or both start with a blank. -/
theorem head_cases (h : Respaced t t') :
    (t = [] ∧ t' = []) ∨
      (∃ c u u', t = c :: u ∧ t' = c :: u' ∧ ¬ isBlank c ∧ Respaced u u') ∨
      ∃ c c' u u', t = c :: u ∧ t' = c' :: u' ∧ isAsciiBlank c ∧ isAsciiBlank c' := by
  cases h with
  | nil => exact Or.inl ⟨rfl, rfl⟩
  | char hc h => exact Or.inr (Or.inl ⟨_, _, _, rfl, rfl, hc, h⟩)
  | @blanks w w' u u' hw hne hw' hne' h =>
    obtain ⟨c, w, rfl⟩ := List.exists_cons_of_ne_nil hne
    obtain ⟨c', w', rfl⟩ := List.exists_cons_of_ne_nil hne'
    exact Or.inr (Or.inr ⟨c, c', w ++ u, w' ++ u', rfl, rfl, hw c List.mem_cons_self,
      hw' c' List.mem_cons_self⟩)

theorem eq_nil (h : Respaced [] t') : t' = [] := by
  obtain ⟨-, ht'⟩ | ⟨_, _, _, ht, -⟩ | ⟨_, _, _, _, ht, -⟩ := h.head_cases
  · exact ht'
  · cases ht
  · cases ht

theorem of_cons (h : Respaced (c :: t) s') (hc : ¬ isBlank c) :
    ∃ t', s' = c :: t' ∧ Respaced t t' := by
  obtain ⟨ht, -⟩ | ⟨_, _, t', ht, hs', -, h⟩ | ⟨_, _, _, _, ht, -, hblank, -⟩ := h.head_cases
  · cases ht
  · cases ht
    exact ⟨t', hs', h⟩
  · cases ht
    exact absurd (isBlank_of_isAsciiBlank hblank) hc

theorem drop_one (h : Respaced t t') (hhead : ∀ c ∈ t.head?, ¬ isBlank c) :
    Respaced (t.drop 1) (t'.drop 1) := by
  cases t with
  | nil =>
    rw [h.eq_nil]
    exact .nil
  | cons c t =>
    obtain ⟨u', rfl, hu⟩ := h.of_cons (hhead c rfl)
    exact hu

/-- A text without blanks has only itself. -/
theorem eq_of_solid (h : Respaced t t') (hsolid : ∀ c ∈ t, ¬ isBlank c) : t' = t := by
  induction h with
  | nil => rfl
  | char _ _ ih => rw [ih (List.forall_mem_cons.1 hsolid).2]
  | @blanks w _ _ _ hw hne =>
    obtain ⟨c, w, rfl⟩ := List.exists_cons_of_ne_nil hne
    have hblank := isBlank_of_isAsciiBlank (hw c List.mem_cons_self)
    exact absurd hblank (hsolid c (by simp))

theorem words_append (h : Respaced t t') (s : Text) : words (s ++ t) = words (s ++ t') := by
  induction h generalizing s with
  | nil => rfl
  | @char c t t' _ _ ih =>
    have hmove := ih (s ++ [c])
    simpa using hmove
  | @blanks w w' t t' hw hne hw' hne' _ ih =>
    have hrun : ∀ {w u : Text}, (∀ c ∈ w, isAsciiBlank c) → w ≠ [] →
        words (s ++ (w ++ u)) = words s ++ words u := by
      intro w u hw hne
      obtain ⟨c, w, rfl⟩ := List.exists_cons_of_ne_nil hne
      obtain ⟨hc, hw⟩ := List.forall_mem_cons.1 hw
      rw [List.cons_append, words_append_blank (isBlank_of_isAsciiBlank hc),
        words_blank_append fun c hc => isBlank_of_isAsciiBlank (hw c hc)]
    rw [hrun hw hne, hrun hw' hne']
    exact congrArg (words s ++ ·) (ih [])

theorem words_eq (h : Respaced t t') : words t = words t' := h.words_append []

end Respaced

/-- The predicate treats all ASCII blanks alike. -/
def Uniform (p : Char → Bool) : Prop := ∃ b, ∀ c, isAsciiBlank c → p c = b

theorem Uniform.of_all {b : Bool} (h : " \t\n\x0c\r".toList.all (p · == b)) : Uniform p := by
  refine ⟨b, fun c hc => beq_iff_eq.1 (List.all_eq_true.1 h c ?_)⟩
  simp only [isAsciiBlank, Bool.or_eq_true, beq_iff_eq] at hc
  simpa [or_assoc] using hc

/-- Blanks in front make no difference to what takes them all. -/
theorem takeWhile_trimStart (hp : ∀ c, isBlank c → p c) (t : Text) :
    t.trimStart.takeWhile p = trimStart (t.takeWhile p) := by
  induction t with
  | nil => rfl
  | cons c t ih =>
    by_cases hc : isBlank c
    · rw [List.takeWhile_cons_of_pos (hp c hc), trimStart, trimStart,
        List.dropWhile_cons_of_pos hc, List.dropWhile_cons_of_pos hc]
      exact ih
    · rw [trimStart, List.dropWhile_cons_of_neg hc, trimStart_eq_self]
      intro d hd
      cases hpc : p c with
      | true =>
        rw [List.takeWhile_cons_of_pos hpc, List.head?_cons] at hd
        exact Option.some.inj hd ▸ hc
      | false => simp [hpc] at hd

theorem dropWhile_trimStart (hp : ∀ c, isBlank c → p c) (t : Text) :
    t.trimStart.dropWhile p = t.dropWhile p := by
  induction t with
  | nil => rfl
  | cons c t ih =>
    by_cases hc : isBlank c
    · rw [List.dropWhile_cons_of_pos (hp c hc), trimStart, List.dropWhile_cons_of_pos hc]
      exact ih
    · rw [trimStart, List.dropWhile_cons_of_neg hc]

namespace Respaced

theorem takeWhile (h : Respaced t t') (hp : Uniform p) :
    Respaced (t.takeWhile p) (t'.takeWhile p) := by
  obtain ⟨b, hb⟩ := hp
  induction h with
  | nil => exact .nil
  | @char c _ _ hc _ ih =>
    cases hpc : p c with
    | true =>
      rw [List.takeWhile_cons_of_pos hpc, List.takeWhile_cons_of_pos hpc]
      exact .char hc ih
    | false => simp only [List.takeWhile_cons, hpc]; exact .nil
  | @blanks w w' _ _ hw hne hw' hne' _ ih =>
    cases b with
    | true =>
      rw [List.takeWhile_append_of_pos fun c hc => hb c (hw c hc),
        List.takeWhile_append_of_pos fun c hc => hb c (hw' c hc)]
      exact .blanks hw hne hw' hne' ih
    | false =>
      obtain ⟨c, w, rfl⟩ := List.exists_cons_of_ne_nil hne
      obtain ⟨c', w', rfl⟩ := List.exists_cons_of_ne_nil hne'
      simp only [List.cons_append, List.takeWhile_cons, hb c (hw c List.mem_cons_self),
        hb c' (hw' c' List.mem_cons_self)]
      exact .nil

theorem dropWhile (h : Respaced t t') (hp : Uniform p) :
    Respaced (t.dropWhile p) (t'.dropWhile p) := by
  obtain ⟨b, hb⟩ := hp
  induction h with
  | nil => exact .nil
  | @char c _ _ hc h ih =>
    cases hpc : p c with
    | true =>
      rw [List.dropWhile_cons_of_pos hpc, List.dropWhile_cons_of_pos hpc]
      exact ih
    | false =>
      simp only [List.dropWhile_cons, hpc]
      exact .char hc h
  | @blanks w w' _ _ hw hne hw' hne' h ih =>
    cases b with
    | true =>
      rw [List.dropWhile_append_of_pos fun c hc => hb c (hw c hc),
        List.dropWhile_append_of_pos fun c hc => hb c (hw' c hc)]
      exact ih
    | false =>
      have hstay : ∀ {w u : Text}, (∀ c ∈ w, isAsciiBlank c) → w ≠ [] →
          (w ++ u).dropWhile p = w ++ u := by
        intro w u hw hne
        obtain ⟨c, w, rfl⟩ := List.exists_cons_of_ne_nil hne
        simp [hb c (hw c List.mem_cons_self)]
      rw [hstay hw hne, hstay hw' hne']
      exact .blanks hw hne hw' hne' h

theorem dropTrailing (h : Respaced t t') (hp : Uniform p) :
    Respaced (t.dropTrailing p) (t'.dropTrailing p) :=
  (h.reverse.dropWhile hp).reverse

theorem uniform_isBlank : Uniform isBlank := ⟨true, fun _ hc => isBlank_of_isAsciiBlank hc⟩

theorem uniform_isAsciiBlank : Uniform isAsciiBlank := ⟨true, fun _ hc => hc⟩

theorem trimStart (h : Respaced t t') : Respaced t.trimStart t'.trimStart :=
  h.dropWhile uniform_isBlank

theorem trimEnd (h : Respaced t t') : Respaced t.trimEnd t'.trimEnd :=
  h.dropTrailing uniform_isBlank

/-- What follows a text that starts with other blanks. -/
theorem trimStart_append (h : Respaced t.trimStart t'.trimStart) (hs : Respaced s s') :
    Respaced (Text.trimStart (t ++ s)) (Text.trimStart (t' ++ s')) := by
  simp only [Text.trimStart, List.dropWhile_append] at h ⊢
  cases ht : t.dropWhile isBlank with
  | nil =>
    rw [ht] at h
    rw [h.eq_nil]
    exact hs.trimStart
  | cons c u =>
    have hne : t'.dropWhile isBlank ≠ [] := by
      intro hnil
      have hnil' := (hnil ▸ h.symm).eq_nil
      rw [ht] at hnil'
      cases hnil'
    rw [ht] at h
    rw [if_neg (by simp), if_neg (by simpa using hne)]
    exact h.append hs

/-- No blank in `lead` means that the texts agree on starting with it. -/
theorem after? (h : Respaced t t') (lead : Text) (hlead : isSolid lead) :
    Option.Rel Respaced (Text.after? lead t) (Text.after? lead t') := by
  induction lead generalizing t t' with
  | nil => exact .some h
  | cons a lead ih =>
    obtain ⟨ha, hrest⟩ := List.forall_mem_cons.1 (isSolid_iff.1 hlead)
    obtain ⟨rfl, rfl⟩ | ⟨c, u, u', rfl, rfl, -, hu⟩ | ⟨c, c', u, u', rfl, rfl, hc, hc'⟩ :=
      h.head_cases
    · exact .none
    · simp only [Text.after?]
      split
      · exact ih hu (isSolid_iff.2 hrest)
      · exact .none
    · simp only [Text.after?, if_neg (ne_of_isAsciiBlank hc ha).symm,
        if_neg (ne_of_isAsciiBlank hc' ha).symm]
      exact .none

theorem before? (h : Respaced t t') (tail : Text) (htail : isSolid tail) :
    Option.Rel Respaced (Text.before? tail t) (Text.before? tail t') := by
  refine rel_map (h.reverse.after? tail.reverse ?_) fun _ _ h => h.reverse
  rwa [isSolid, List.all_reverse]

theorem getD {o o' : Option Text} (h : Option.Rel Respaced o o') (ht : Respaced t t') :
    Respaced (o.getD t) (o'.getD t') := by
  cases h with
  | none => exact ht
  | some h => exact h

end Respaced

/-- Both parts differ in their blanks only. -/
def RespacedParts (p p' : Text × Text) : Prop := Respaced p.1 p'.1 ∧ Respaced p.2 p'.2

theorem around?_blanks {a : Char} {needle : Text} (ha : ¬ isBlank a)
    (hw : ∀ c ∈ w, isAsciiBlank c) (t : Text) :
    around? (a :: needle) (w ++ t) =
      (around? (a :: needle) t).map fun p => (w ++ p.1, p.2) := by
  induction w with
  | nil => simp
  | cons c w ih =>
    obtain ⟨hc, hw⟩ := List.forall_mem_cons.1 hw
    have hne := ne_of_isAsciiBlank hc ha
    simp only [List.cons_append, around?, Text.after?, if_neg hne.symm, ih hw, Option.map_map]
    rfl

theorem Respaced.around? (h : Respaced t t') (needle : Text) (hne : needle ≠ [])
    (hneedle : isSolid needle) :
    Option.Rel RespacedParts (Text.around? needle t) (Text.around? needle t') := by
  obtain ⟨a, needle, rfl⟩ := List.exists_cons_of_ne_nil hne
  have ha := isSolid_iff.1 hneedle a List.mem_cons_self
  induction h with
  | nil => exact .none
  | @char c t t' hc h ih =>
    have hrel := (Respaced.char hc h).after? (a :: needle) hneedle
    simp only [Text.around?]
    generalize Text.after? (a :: needle) (c :: t) = o,
      Text.after? (a :: needle) (c :: t') = o' at hrel
    cases hrel with
    | some hrest => exact .some ⟨.nil, hrest⟩
    | none => exact rel_map ih fun _ _ hparts => ⟨.char hc hparts.1, hparts.2⟩
  | blanks hw hne hw' hne' _ ih =>
    rw [around?_blanks ha hw, around?_blanks ha hw']
    exact rel_map ih fun _ _ hparts => ⟨.blanks hw hne hw' hne' hparts.1, hparts.2⟩

/-- A text is divided in the same place if the division stops at every blank, and elsewhere does
not tell respaced texts apart. -/
theorem Respaced.breakAt {stop : Text → Bool} (h : Respaced t t')
    (hblank : ∀ c t, isAsciiBlank c → stop (c :: t))
    (hstop : ∀ c t t', ¬ isBlank c → Respaced t t' → stop (c :: t) = stop (c :: t')) :
    RespacedParts (Text.breakAt stop t) (Text.breakAt stop t') := by
  induction h with
  | nil => exact ⟨.nil, .nil⟩
  | @char c t t' hc h ih =>
    simp only [Text.breakAt, hstop c t t' hc h]
    split
    · exact ⟨.nil, .char hc h⟩
    · exact ⟨.char hc ih.1, ih.2⟩
  | @blanks w w' t t' hw hne hw' hne' h _ =>
    have hall : ∀ {w u : Text}, (∀ c ∈ w, isAsciiBlank c) → w ≠ [] →
        Text.breakAt stop (w ++ u) = ([], w ++ u) := by
      intro w u hw hne
      obtain ⟨c, w, rfl⟩ := List.exists_cons_of_ne_nil hne
      rw [List.cons_append, Text.breakAt, if_pos (hblank _ _ (hw c List.mem_cons_self))]
    rw [hall hw hne, hall hw' hne']
    exact ⟨.nil, .blanks hw hne hw' hne' h⟩

end TemplateProjection.Text
