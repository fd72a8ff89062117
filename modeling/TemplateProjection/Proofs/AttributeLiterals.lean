import TemplateProjection.Code.Projection
import TemplateProjection.Proofs.Assembly

/-!
The template literals that stand for the values of plain attributes. Only backticks are escaped in
them, so a literal reads as its value exactly if the value has no backslash and no `$` in front of
an opening brace.
-/
namespace TemplateProjection.Code

/-- What comes of reading a template literal from behind its opening backtick. -/
inductive LiteralReading where
  /-- The literal denotes `value` and ends at a backtick, with `rest` behind it. -/
  | closed (value rest : Text)
  /-- A substitution starts after `value`, with `rest` behind its opening brace. -/
  | substitution (value rest : Text)
  /-- The literal goes on to the end of the text. -/
  | unclosed
deriving DecidableEq, Repr

/-- The reading with one more character at the start of the value. -/
def LiteralReading.cons (c : Char) : LiteralReading → LiteralReading
  | .closed value rest => .closed (c :: value) rest
  | .substitution value rest => .substitution (c :: value) rest
  | .unclosed => .unclosed

/-- A substitution opens with `c` in front of `t`. -/
def opensSubstitution (c : Char) (t : Text) : Bool := c == '$' && t.head? == some '\x7b'

/-- Read a template literal. A backslash escapes the character behind it, a backtick that is not
escaped ends the literal, and a `$` in front of an opening brace starts a substitution unless it is
escaped. -/
def readLiteral : Text → LiteralReading
  | [] => .unclosed
  | c :: t =>
    if c = '\\' then
      match t with
      | [] => .unclosed
      | escaped :: t => (readLiteral t).cons escaped
    else if c = '\x60' then .closed [] t
    else if opensSubstitution c t then .substitution [] t.tail
    else (readLiteral t).cons c

variable {c : Char} {t value rest v : Text} {r : LiteralReading}

theorem LiteralReading.cons_eq_closed_iff :
    r.cons c = .closed value rest ↔ ∃ tail, value = c :: tail ∧ r = .closed tail rest := by
  cases r with
  | closed u rest' =>
    simp only [cons, LiteralReading.closed.injEq]
    constructor
    · rintro ⟨rfl, rfl⟩
      exact ⟨u, rfl, rfl, rfl⟩
    · rintro ⟨tail, rfl, rfl, rfl⟩
      exact ⟨rfl, rfl⟩
  | substitution u rest' => simp [cons]
  | unclosed => simp [cons]

theorem readLiteral_escape (c : Char) (t : Text) :
    readLiteral ('\\' :: c :: t) = (readLiteral t).cons c := by
  rw [readLiteral, if_pos rfl]

theorem readLiteral_backtick (t : Text) : readLiteral ('\x60' :: t) = .closed [] t := by
  unfold readLiteral
  rw [if_neg (by decide), if_pos rfl]

theorem readLiteral_substitution (hbackslash : c ≠ '\\') (hbacktick : c ≠ '\x60')
    (hopens : opensSubstitution c t) : readLiteral (c :: t) = .substitution [] t.tail := by
  unfold readLiteral
  rw [if_neg hbackslash, if_neg hbacktick, if_pos hopens]

theorem readLiteral_plain (hbackslash : c ≠ '\\') (hbacktick : c ≠ '\x60')
    (hopens : ¬ opensSubstitution c t) : readLiteral (c :: t) = (readLiteral t).cons c := by
  conv => lhs; unfold readLiteral
  rw [if_neg hbackslash, if_neg hbacktick, if_neg hopens]

/-- A literal that ends has its backtick in front of the rest. -/
theorem length_rest_lt (h : readLiteral t = .closed value rest) : rest.length < t.length := by
  fun_induction readLiteral t generalizing value with
  | case1 => simp at h
  | case2 => simp at h
  | case3 escaped t ih =>
    obtain ⟨tail, -, htail⟩ := LiteralReading.cons_eq_closed_iff.1 h
    have hlt := ih htail
    simp only [List.length_cons]
    omega
  | case4 t =>
    cases h
    exact Nat.lt_succ_self _
  | case5 => simp at h
  | case6 c t _ _ _ ih =>
    obtain ⟨tail, -, htail⟩ := LiteralReading.cons_eq_closed_iff.1 h
    exact Nat.lt_succ_of_lt (ih htail)

/-- What stands behind the opening backtick when `v` is written in front of `rest`. -/
def literalText (v rest : Text) : Text := escapeBackticks v ++ '\x60' :: rest

theorem literalText_nil (rest : Text) : literalText [] rest = '\x60' :: rest := rfl

theorem literalText_backtick (v rest : Text) :
    literalText ('\x60' :: v) rest = '\\' :: '\x60' :: literalText v rest := by
  simp [literalText, escapeBackticks]

theorem literalText_cons (hc : c ≠ '\x60') (v rest : Text) :
    literalText (c :: v) rest = c :: literalText v rest := by
  simp [literalText, escapeBackticks, hc]

theorem length_lt_literalText (v rest : Text) : rest.length < (literalText v rest).length := by
  simp only [literalText, List.length_append, List.length_cons]
  omega

/-- Escaping neither makes an opening brace nor hides one. -/
theorem opensSubstitution_literalText (c : Char) (v rest : Text) :
    opensSubstitution c (literalText v rest) = opensSubstitution c v := by
  have hhead : ((literalText v rest).head? == some '\x7b') = (v.head? == some '\x7b') := by
    cases v with
    | nil => rfl
    | cons d v =>
      by_cases hd : d = '\x60'
      · subst hd
        rw [literalText_backtick]
        rfl
      · rw [literalText_cons hd]
        rfl
  rw [opensSubstitution, opensSubstitution, hhead]

theorem opensSubstitution_iff : opensSubstitution c v ↔ "$\x7b".toList <+: c :: v := by
  have hbrace : "$\x7b".toList = ['$', '\x7b'] := rfl
  cases v with
  | nil => simp [opensSubstitution, hbrace]
  | cons d v =>
    simp only [opensSubstitution, hbrace, List.head?_cons, Bool.and_eq_true, beq_iff_eq,
      Option.some.injEq, List.cons_prefix_cons, List.nil_prefix, and_true]
    rw [@eq_comm _ c, @eq_comm _ d]

/-- The value needs no escape but for its backticks. -/
structure Inert (v : Text) : Prop where
  no_backslash : '\\' ∉ v
  no_substitution : ¬ "$\x7b".toList <:+: v

theorem inert_nil : Inert [] := ⟨by simp, by simp⟩

theorem inert_cons : Inert (c :: v) ↔ c ≠ '\\' ∧ ¬ opensSubstitution c v ∧ Inert v := by
  rw [opensSubstitution_iff]
  constructor
  · rintro ⟨hbackslash, hsubstitution⟩
    rw [List.mem_cons, not_or] at hbackslash
    rw [List.infix_cons_iff, not_or] at hsubstitution
    exact ⟨Ne.symm hbackslash.1, hsubstitution.1, hbackslash.2, hsubstitution.2⟩
  · rintro ⟨hc, hopens, hbackslash, hsubstitution⟩
    refine ⟨?_, ?_⟩
    · rw [List.mem_cons, not_or]
      exact ⟨hc.symm, hbackslash⟩
    · rw [List.infix_cons_iff, not_or]
      exact ⟨hopens, hsubstitution⟩

/-- The literal of such a value denotes it and ends where it should. -/
theorem Inert.reads_closed (h : Inert v) (rest : Text) :
    readLiteral (literalText v rest) = .closed v rest := by
  induction v with
  | nil => exact readLiteral_backtick rest
  | cons c v ih =>
    obtain ⟨hbackslash, hopens, htail⟩ := inert_cons.1 h
    by_cases hc : c = '\x60'
    · subst hc
      rw [literalText_backtick, readLiteral_escape, ih htail]
      rfl
    · rw [← opensSubstitution_literalText c v rest] at hopens
      rw [literalText_cons hc, readLiteral_plain hbackslash hc hopens, ih htail]
      rfl

/-- How a literal that ends where it should starts. Either the first character of the value reads as
itself, or it is a backslash, which is lost, and the character behind it reads as itself. -/
theorem closed_cons (h : readLiteral (literalText (c :: v) rest) = .closed value rest) :
    (c ≠ '\\' ∧ ¬ opensSubstitution c v ∧
      ∃ tail, value = c :: tail ∧ readLiteral (literalText v rest) = .closed tail rest) ∨
    (c = '\\' ∧ ∃ d w tail, v = d :: w ∧ value = d :: tail ∧
      readLiteral (literalText w rest) = .closed tail rest) := by
  by_cases hbacktick : c = '\x60'
  · subst hbacktick
    rw [literalText_backtick, readLiteral_escape] at h
    exact .inl ⟨by decide, by simp [opensSubstitution], LiteralReading.cons_eq_closed_iff.1 h⟩
  rw [literalText_cons hbacktick] at h
  by_cases hbackslash : c = '\\'
  · subst hbackslash
    refine .inr ⟨rfl, ?_⟩
    cases v with
    | nil =>
      -- the backtick that should end the literal is escaped
      rw [literalText_nil, readLiteral_escape] at h
      obtain ⟨tail, -, htail⟩ := LiteralReading.cons_eq_closed_iff.1 h
      exact absurd (length_rest_lt htail) (Nat.lt_irrefl _)
    | cons d w =>
      by_cases hd : d = '\x60'
      · -- the backslash that should escape the backtick is escaped itself
        subst hd
        rw [literalText_backtick, readLiteral_escape, readLiteral_backtick] at h
        obtain ⟨tail, -, htail⟩ := LiteralReading.cons_eq_closed_iff.1 h
        have hlt := length_lt_literalText w rest
        rw [(LiteralReading.closed.inj htail).2] at hlt
        exact absurd hlt (Nat.lt_irrefl _)
      · rw [literalText_cons hd, readLiteral_escape] at h
        obtain ⟨tail, hvalue, htail⟩ := LiteralReading.cons_eq_closed_iff.1 h
        exact ⟨d, w, tail, rfl, hvalue, htail⟩
  · by_cases hopens : opensSubstitution c (literalText v rest)
    · rw [readLiteral_substitution hbackslash hbacktick hopens] at h
      cases h
    · rw [readLiteral_plain hbackslash hbacktick hopens] at h
      rw [opensSubstitution_literalText] at hopens
      exact .inl ⟨hbackslash, hopens, LiteralReading.cons_eq_closed_iff.1 h⟩

/-- Nothing is added to a value by writing and reading it. -/
theorem length_le_of_closed (v : Text)
    (h : readLiteral (literalText v rest) = .closed value rest) :
    value.length ≤ v.length := by
  -- on the length, for a backslash is read together with the character behind it
  induction hn : v.length using Nat.strongRecOn generalizing v value with
  | ind n ih =>
    subst hn
    cases v with
    | nil =>
      rw [literalText_nil, readLiteral_backtick] at h
      cases h
      exact Nat.le_refl _
    | cons c v =>
      rcases closed_cons h with ⟨-, -, tail, rfl, htail⟩ | ⟨-, d, w, tail, rfl, rfl, htail⟩
      · exact Nat.succ_le_succ (ih _ (Nat.lt_succ_self _) v htail rfl)
      · have hshort : w.length < (c :: d :: w).length :=
          Nat.lt_succ_of_lt (Nat.lt_succ_self _)
        exact Nat.le_succ_of_le (Nat.succ_le_succ (ih _ hshort w htail rfl))

theorem inert_of_closed (h : readLiteral (literalText v rest) = .closed v rest) :
    Inert v := by
  induction v with
  | nil => exact inert_nil
  | cons c v ih =>
    rcases closed_cons h with ⟨hc, hopens, tail, heq, htail⟩ | ⟨rfl, d, w, tail, rfl, heq, htail⟩
    · cases heq
      exact inert_cons.2 ⟨hc, hopens, ih htail⟩
    · -- the backslash is lost, so what follows would have to read as one character more
      obtain rfl := (List.cons.inj heq).2
      exact absurd (length_le_of_closed w htail) (Nat.not_succ_le_self _)

/-- The literal of a value denotes it and ends where it should exactly if the value is inert. -/
theorem readLiteral_literalText_iff (v rest : Text) :
    readLiteral (literalText v rest) = .closed v rest ↔ Inert v :=
  ⟨inert_of_closed, fun h => h.reads_closed rest⟩

/-- A property of the code whose value is a template literal. -/
def literalEntry (spelling body : Text) : Text :=
  '\'' :: spelling ++ "': `".toList ++ body ++ "`,\n".toList

/-- The code for a plain attribute holds its value as one template literal, once under the key and
once more under the name if that is spelled differently. Whatever follows, the literal has no
substitution, ends at its last backtick and denotes the value exactly if the value has no backslash
and no `$` in front of an opening brace: nothing else is escaped but backticks. -/
theorem attribute_literal_inert_iff (alignment : Option Outline.Alignment)
    (a : Template.Attribute) :
    ∃ body : Text,
      (assemble alignment (attributeProperty a)).text =
        literalEntry (propertyKey a.name) body ++
          (if a.name = propertyKey a.name then [] else literalEntry a.name body) ∧
      ∀ rest : Text, readLiteral (body ++ '\x60' :: rest) = .closed (a.value.getD []) rest ↔
        '\\' ∉ a.value.getD [] ∧ ¬ "$\x7b".toList <:+: a.value.getD [] := by
  refine ⟨escapeBackticks (a.value.getD []), ?_, fun rest => ?_⟩
  · rw [assemble_text, attributeProperty]
    split <;> simp [literalEntry, Emission.text, Emission.parts]
  · refine (readLiteral_literalText_iff (a.value.getD []) rest).trans ?_
    exact ⟨fun h => ⟨h.no_backslash, h.no_substitution⟩, fun h => ⟨h.1, h.2⟩⟩

/-- A backslash at the end of a value escapes the backtick that should end the literal, which then
goes on to the end of the code. -/
theorem attribute_literal_runs_on :
    (Text.around? "'a': `".toList (projectMarkup "<x a=\"\\\"/>".toList).text).map
      (fun parts => (parts.2.take 2, readLiteral parts.2)) = some ("\\`".toList, .unclosed) := by
  decide +kernel

end TemplateProjection.Code
