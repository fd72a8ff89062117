import TemplateProjection.Markup.Entity
import TemplateProjection.Proofs.Search
import TemplateProjection.Proofs.Words

/-! Escaped texts read as the texts they were made from, up to references for the double quote. -/
namespace TemplateProjection

namespace Text

variable {needle replacement s t : Text} {c : Char}

theorem replace_cons (h : ¬ needle <+: c :: t) :
    replace needle replacement (c :: t) = c :: replace needle replacement t := by
  rw [replace, replaceFrom, if_neg fun hsome => h (isSome_after?_iff.1 hsome)]
  rfl

theorem replaceFrom_append (s t : Text) :
    replaceFrom needle replacement s.length (s ++ t) = replaceFrom needle replacement 0 t := by
  induction s with
  | nil => rfl
  | cons c s ih => exact ih

theorem replace_append (hneedle : needle ≠ []) (t : Text) :
    replace needle replacement (needle ++ t) = replacement ++ replace needle replacement t := by
  obtain ⟨c, rest, rfl⟩ := List.exists_cons_of_ne_nil hneedle
  have hsome : (after? (c :: rest) (c :: (rest ++ t))).isSome := isSome_after?_iff.2 ⟨t, rfl⟩
  rw [replace, List.cons_append, replaceFrom, if_pos hsome, List.length_cons, Nat.add_sub_cancel,
    replaceFrom_append]
  rfl

theorem replace_of_not_infix (h : ¬ needle <:+: t) :
    replace needle replacement t = t := by
  induction t with
  | nil => rfl
  | cons c t ih =>
    obtain ⟨hstart, hinside⟩ := not_or.1 (mt List.infix_cons_iff.2 h)
    rw [replace_cons hstart, ih hinside]

/-- Induction along a text from one occurrence of the needle to the next. -/
theorem occurrence_induction {motive : Text → Prop} (hneedle : needle ≠ []) (nil : motive [])
    (found : ∀ t, motive t → motive (needle ++ t))
    (other : ∀ c t, ¬ needle <+: c :: t → motive t → motive (c :: t)) (t : Text) : motive t := by
  -- on the length, for an occurrence is passed in one step
  induction hn : t.length using Nat.strongRecOn generalizing t with
  | ind n ih =>
    cases t with
    | nil => exact nil
    | cons c t =>
      by_cases hstart : needle <+: c :: t
      · obtain ⟨u, hu⟩ := hstart
        have hlen : u.length < n := by
          rw [← hn, ← hu, List.length_append]
          exact Nat.lt_add_of_pos_left (List.length_pos_iff.2 hneedle)
        rw [← hu]
        exact found u (ih _ hlen u rfl)
      · have hlen : t.length < n := by
          rw [← hn]
          exact Nat.lt_succ_self _
        exact other c t hstart (ih _ hlen t rfl)

/-- A text is a row of pieces without the needle, each but the first behind an occurrence, and
replacing puts the same pieces behind the replacement. -/
theorem exists_pieces_of_replace (hneedle : needle ≠ []) (t : Text) :
    ∃ first rest, t = first ++ rest.flatMap (needle ++ ·) ∧
      replace needle replacement t = first ++ rest.flatMap (replacement ++ ·) ∧
      ∀ piece ∈ first :: rest, ¬ needle <:+: piece := by
  induction t using occurrence_induction hneedle with
  | nil =>
    refine ⟨[], [], rfl, rfl, ?_⟩
    simpa using hneedle
  | found t ih =>
    obtain ⟨first, rest, ht, hreplace, hpieces⟩ := ih
    refine ⟨[], first :: rest, ?_, ?_, ?_⟩
    · simp [← ht]
    · simp [replace_append hneedle, hreplace]
    · refine List.forall_mem_cons.2 ⟨?_, hpieces⟩
      simpa using hneedle
  | other c t hstart ih =>
    obtain ⟨first, rest, ht, hreplace, hpieces⟩ := ih
    refine ⟨c :: first, rest, ?_, ?_, ?_⟩
    · simp [← ht]
    · simp [replace_cons hstart, hreplace]
    · obtain ⟨hfirst, hrest⟩ := List.forall_mem_cons.1 hpieces
      refine List.forall_mem_cons.2 ⟨fun hin => ?_, hrest⟩
      rcases List.infix_cons_iff.1 hin with hhere | hlater
      · rw [ht] at hstart
        exact hstart (hhere.trans (List.prefix_append (c :: first) _))
      · exact hfirst hlater

/-- A shorter replacement changes every text that holds the needle. -/
theorem replace_eq_self_iff (h : replacement.byteLength < needle.byteLength) :
    replace needle replacement t = t ↔ ¬ needle <:+: t := by
  have hneedle : needle ≠ [] := by
    rintro rfl
    simp at h
  refine ⟨fun heq => ?_, replace_of_not_infix⟩
  induction t using occurrence_induction hneedle with
  | nil => simpa using hneedle
  | found t ih =>
    rw [replace_append hneedle] at heq
    have hlen := congrArg byteLength heq
    have hle := byteLength_replace_le h t
    simp only [byteLength_append] at hlen
    omega
  | other c t hstart ih =>
    rw [replace_cons hstart] at heq
    rw [List.infix_cons_iff, not_or]
    exact ⟨hstart, ih (List.cons.inj heq).2⟩

end Text

namespace Entity

/-- Put references for those reserved characters that are in `p`. -/
def escapeOnly (p : Char → Bool) (t : Text) : Text :=
  t.flatMap fun c => if p c then escapeChar c else [c]

/-- A character that is not reserved has no reference. -/
theorem escapeChar_of_ne {c : Char} (hamp : c ≠ '&') (hlt : c ≠ '<') (hgt : c ≠ '>')
    (hquot : c ≠ '"') : escapeChar c = [c] := by
  unfold escapeChar
  split <;> simp_all

/-- The characters whose references are put first. -/
def isBracket (c : Char) : Bool := c == '>' || c == '<' || c == '&'

/-- A reference starts with its only `&`. -/
theorem escapeChar_reserved {c : Char} (h : c = '&' ∨ c = '<' ∨ c = '>' ∨ c = '"') :
    ∃ u, escapeChar c = '&' :: u ∧ '&' ∉ u := by
  rcases h with rfl | rfl | rfl | rfl <;> exact ⟨_, rfl, by decide⟩

theorem isBracket_cases {x : Char} (h : isBracket x) : x = '>' ∨ x = '<' ∨ x = '&' := by
  simpa only [isBracket, Bool.or_eq_true, beq_iff_eq, or_assoc] using h

theorem escapeChar_cons {x : Char} (hx : isBracket x) : ∃ u, escapeChar x = '&' :: u := by
  rcases isBracket_cases hx with rfl | rfl | rfl <;> exact ⟨_, rfl⟩

theorem replace_reference_cons {x c : Char} (hx : isBracket x) (hc : c ≠ '&') (t : Text) :
    Text.replace (escapeChar x) [x] (c :: t) = c :: Text.replace (escapeChar x) [x] t := by
  obtain ⟨u, hu⟩ := escapeChar_cons hx
  refine Text.replace_cons ?_
  rw [hu]
  rintro ⟨v, hv⟩
  exact hc (List.cons.inj hv).1.symm

theorem replace_reference_skip {x : Char} {s : Text} (hx : isBracket x) (hs : '&' ∉ s) (t : Text) :
    Text.replace (escapeChar x) [x] (s ++ t) = s ++ Text.replace (escapeChar x) [x] t := by
  induction s with
  | nil => rfl
  | cons c s ih =>
    obtain ⟨hc, hs⟩ := not_or.1 (mt List.mem_cons.2 hs)
    rw [List.cons_append, replace_reference_cons hx (Ne.symm hc), ih hs, List.cons_append]

/-- No reference is the start of another. -/
theorem reference_not_isPrefix {x c : Char} (hx : isBracket x) (hc : c ≠ x)
    (hreserved : c = '&' ∨ c = '<' ∨ c = '>' ∨ c = '"') (t : Text) :
    ¬ escapeChar x <+: escapeChar c ++ t := by
  have hamp : escapeChar '&' = "&amp;".toList := rfl
  have hlt : escapeChar '<' = "&lt;".toList := rfl
  have hgt : escapeChar '>' = "&gt;".toList := rfl
  have hquot : escapeChar '"' = "&quot;".toList := rfl
  rcases isBracket_cases hx with rfl | rfl | rfl <;>
    rcases hreserved with rfl | rfl | rfl | rfl <;> simp [hamp, hlt, hgt, hquot] at hc ⊢

/-- A reference stays when those for another character are replaced. -/
theorem replace_reference_append {x c : Char} (hx : isBracket x) (hc : c ≠ x) (t : Text) :
    Text.replace (escapeChar x) [x] (escapeChar c ++ t) =
      escapeChar c ++ Text.replace (escapeChar x) [x] t := by
  by_cases hreserved : c = '&' ∨ c = '<' ∨ c = '>' ∨ c = '"'
  · obtain ⟨u, hu, hamp⟩ := escapeChar_reserved hreserved
    have hcopy := reference_not_isPrefix hx hc hreserved t
    rw [hu, List.cons_append] at hcopy ⊢
    rw [Text.replace_cons hcopy, replace_reference_skip hx hamp, List.cons_append]
  · simp only [not_or] at hreserved
    obtain ⟨hamp, hlt, hgt, hquot⟩ := hreserved
    rw [escapeChar_of_ne hamp hlt hgt hquot]
    exact replace_reference_cons hx hamp t

theorem replace_escapeOnly {p : Char → Bool} {x : Char} (hx : isBracket x) (hp : p x) (hamp : p '&')
    (t : Text) :
    Text.replace (escapeChar x) [x] (escapeOnly p t) = escapeOnly (fun c => p c && c != x) t := by
  induction t with
  | nil => rfl
  | cons c t ih =>
    obtain ⟨u, hu⟩ := escapeChar_cons hx
    simp only [escapeOnly, List.flatMap_cons] at ih ⊢
    by_cases hc : c = x
    · subst hc
      have hne : escapeChar c ≠ [] := by simp [hu]
      simp [hp, Text.replace_append hne, ih]
    · by_cases hpc : p c
      · simp [hpc, hc, replace_reference_append hx hc, ih]
      · have hne : c ≠ '&' := by
          rintro rfl
          exact hpc hamp
        simp [hpc, replace_reference_cons hx hne, ih]

/-- Put references for double quotes only. -/
def escapeQuotes (t : Text) : Text := escapeOnly (· == '"') t

@[simp]
theorem escapeQuotes_nil : escapeQuotes [] = [] := rfl

theorem escapeQuotes_quote (t : Text) :
    escapeQuotes ('"' :: t) = "&quot;".toList ++ escapeQuotes t :=
  rfl

theorem escapeQuotes_cons {c : Char} (hc : c ≠ '"') (t : Text) :
    escapeQuotes (c :: t) = c :: escapeQuotes t := by
  simp [escapeQuotes, escapeOnly, hc]

/-- A start without `&` was there before the references were put. -/
theorem prefix_of_prefix_escapeQuotes {s t : Text} (hs : '&' ∉ s) (h : s <+: escapeQuotes t) :
    s <+: t := by
  induction s generalizing t with
  | nil => exact List.nil_prefix
  | cons c s ih =>
    obtain ⟨hc, hs⟩ := not_or.1 (mt List.mem_cons.2 hs)
    cases t with
    | nil => simp at h
    | cons d t =>
      by_cases hd : d = '"'
      · subst hd
        obtain ⟨u, hu⟩ := h
        exact absurd (List.cons.inj hu).1.symm hc
      · rw [escapeQuotes_cons hd, List.cons_prefix_cons] at h
        exact List.cons_prefix_cons.2 ⟨h.1, ih hs h.2⟩

/-- References that were put for double quotes are as good as references that were there. -/
theorem replace_escapeQuotes (t : Text) :
    Text.replace "&quot;".toList ['"'] (escapeQuotes t) = Text.replace "&quot;".toList ['"'] t := by
  have hneedle : "&quot;".toList ≠ [] := by decide
  induction t using Text.occurrence_induction hneedle with
  | nil => rfl
  | found t ih =>
    have hescape : escapeQuotes ("&quot;".toList ++ t) = "&quot;".toList ++ escapeQuotes t := rfl
    rw [hescape, Text.replace_append hneedle, Text.replace_append hneedle, ih]
  | other c t hstart ih =>
    rw [Text.replace_cons hstart]
    by_cases hc : c = '"'
    · subst hc
      rw [escapeQuotes_quote, Text.replace_append hneedle, ih]
      rfl
    · have hcopy : ¬ "&quot;".toList <+: c :: escapeQuotes t := by
        intro h
        obtain ⟨hamp, hrest⟩ := List.cons_prefix_cons.1 h
        have hrest := prefix_of_prefix_escapeQuotes (by decide) hrest
        exact hstart (List.cons_prefix_cons.2 ⟨hamp, hrest⟩)
      rw [escapeQuotes_cons hc, Text.replace_cons hcopy, ih]

/-- Only references for double quotes that the text holds itself are lost by escaping it. -/
theorem normalize_escape (t : Text) :
    normalize (escape t) = Text.replace "&quot;".toList ['"'] t := by
  have hquotes : escapeOnly (fun c => ((true && c != '>') && c != '<') && c != '&') t =
      escapeQuotes t := by
    refine congrArg (List.flatMap · t) (funext fun c => ?_)
    by_cases hplain : c = '&' ∨ c = '<' ∨ c = '>' ∨ c = '"'
    · rcases hplain with rfl | rfl | rfl | rfl <;> rfl
    · simp only [not_or] at hplain
      obtain ⟨hamp, hlt, hgt, hquot⟩ := hplain
      simp [escapeChar_of_ne hamp hlt hgt hquot]
  calc normalize (escape t)
    _ = Text.replace "&quot;".toList ['"']
        (escapeOnly (fun c => ((true && c != '>') && c != '<') && c != '&') t) := by
      rw [← replace_escapeOnly (x := '&') rfl rfl rfl, ← replace_escapeOnly (x := '<') rfl rfl rfl,
        ← replace_escapeOnly (x := '>') rfl rfl rfl]
      rfl
    _ = Text.replace "&quot;".toList ['"'] t := by rw [hquotes, replace_escapeQuotes]

/-- Escaping a text and reading it back puts a double quote for each `&quot;` that stands in the
text and leaves the pieces between them as they are, so a text comes back unchanged exactly if it
holds none. -/
theorem escape_loses_only_quotes (t : Text) :
    normalize (escape t) = Text.replace "&quot;".toList ['"'] t ∧
      (∃ first rest, t = first ++ rest.flatMap ("&quot;".toList ++ ·) ∧
        normalize (escape t) = first ++ rest.flatMap ('"' :: ·) ∧
        ∀ piece ∈ first :: rest, ¬ "&quot;".toList <:+: piece) ∧
      (normalize (escape t) = t ↔ ¬ "&quot;".toList <:+: t) := by
  have hshorter : Text.byteLength ['"'] < Text.byteLength "&quot;".toList := by decide
  refine ⟨normalize_escape t, ?_, ?_⟩
  · rw [normalize_escape]
    exact Text.exists_pieces_of_replace (by decide) t
  · rw [normalize_escape, Text.replace_eq_self_iff hshorter]

/-- A text without `&` holds no reference. -/
theorem normalize_of_not_mem {t : Text} (h : '&' ∉ t) : normalize t = t := by
  have hnone : ∀ {needle : Text}, '&' ∈ needle → ¬ needle <:+: t :=
    fun hamp hin => h (hin.subset hamp)
  unfold normalize
  rw [Text.replace_of_not_infix (hnone (by decide)), Text.replace_of_not_infix (hnone (by decide)),
    Text.replace_of_not_infix (hnone (by decide)), Text.replace_of_not_infix (hnone (by decide))]

theorem quote_not_mem_escape (t : Text) : '"' ∉ escape t := by
  intro h
  obtain ⟨c, -, hc⟩ := List.mem_flatMap.1 h
  by_cases hplain : c = '&' ∨ c = '<' ∨ c = '>' ∨ c = '"'
  · rcases hplain with rfl | rfl | rfl | rfl <;> exact absurd hc (by decide)
  · simp only [not_or] at hplain
    obtain ⟨hamp, hlt, hgt, hquot⟩ := hplain
    rw [escapeChar_of_ne hamp hlt hgt hquot] at hc
    exact hquot (List.mem_singleton.1 hc).symm

end Entity

end TemplateProjection
