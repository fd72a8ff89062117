import TemplateProjection.Text.Basic

/-! Occurrences of one text in another, leftmost first and without overlap. -/
namespace TemplateProjection.Text

/-- The text before and after the first occurrence of `needle`. -/
def around? (needle : Text) : Text → Option (Text × Text)
  | [] => if needle.isEmpty then some ([], []) else none
  | c :: t =>
    match after? needle (c :: t) with
    | some rest => some ([], rest)
    | none => (around? needle t).map fun (before, after) => (c :: before, after)

theorem append_of_around? {needle t before after : Text}
    (h : around? needle t = some (before, after)) : before ++ needle ++ after = t := by
  induction t generalizing before with
  | nil =>
    simp only [around?] at h
    split at h <;> simp_all
  | cons c t ih =>
    simp only [around?] at h
    split at h
    · next rest hrest =>
      cases h
      simpa using append_of_after? hrest
    · obtain ⟨⟨a, b⟩, hab, he⟩ := Option.map_eq_some_iff.1 h
      cases he
      simpa using ih hab

/-- Offsets of the occurrences of `needle` in a text that starts at `offset`, of which the first
`skip` characters belong to an earlier occurrence. -/
def occurrencesFrom (needle : Text) : (skip offset : Nat) → Text → List Nat
  | _, offset, [] => if needle.isEmpty then [offset] else []
  | skip + 1, offset, c :: t => occurrencesFrom needle skip (offset + c.utf8Size) t
  | 0, offset, c :: t =>
    if (after? needle (c :: t)).isSome then
      offset :: occurrencesFrom needle (needle.length - 1) (offset + c.utf8Size) t
    else occurrencesFrom needle 0 (offset + c.utf8Size) t

/-- The offsets of the occurrences of `needle`. -/
def occurrences (needle t : Text) : List Nat := occurrencesFrom needle 0 0 t

/-- Put `replacement` for each occurrence of `needle`, of which the first `skip` characters have
been replaced already. -/
def replaceFrom (needle replacement : Text) : (skip : Nat) → Text → Text
  | _, [] => []
  | skip + 1, _ :: t => replaceFrom needle replacement skip t
  | 0, c :: t =>
    if (after? needle (c :: t)).isSome then
      replacement ++ replaceFrom needle replacement (needle.length - 1) t
    else c :: replaceFrom needle replacement 0 t

/-- Put `replacement` for each occurrence of the nonempty `needle`. -/
def replace (needle replacement t : Text) : Text := replaceFrom needle replacement 0 t

end TemplateProjection.Text
