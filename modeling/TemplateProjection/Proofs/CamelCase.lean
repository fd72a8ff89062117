import TemplateProjection.Proofs.Spelling
import TemplateProjection.Text.Split

/-!
Names in camel case and names with hyphens are two ways of writing the same words, so each
determines the other.
-/
namespace TemplateProjection

variable {c : Char} {t rest : Text} {w name : Text} {words : List Text}

theorem toNat_lt_of_isLower (h : c.isLower) : c.toNat < 128 :=
  toNat_lt_of_isAlpha ((Bool.or_eq_true _ _).mpr (.inr h))

theorem lowercaseAfter_of_ascii (before : Text) (h : ∀ c ∈ t, c.toNat < 128) :
    lowercaseAfter before t = t.map Char.toLower := by
  induction t generalizing before with
  | nil => rfl
  | cons c t ih =>
    obtain ⟨hc, ht⟩ := List.forall_mem_cons.1 h
    have hsigma : c ≠ 'Σ' := by
      rintro rfl
      exact absurd hc (by decide)
    rw [lowercaseAfter, if_neg hsigma, lowercaseChar, if_pos hc, ih (c :: before) ht]
    rfl

namespace Code

/-- The characters that may follow the first one of a word. -/
def isWordTail (c : Char) : Bool := c.isLower || c.isDigit

/-- A word in lower case: a letter, and then letters and digits. -/
def isWord : Text → Bool
  | [] => false
  | c :: t => c.isLower && t.all isWordTail

/-- A name of letters and digits that starts with a small letter. -/
def isCamelName : Text → Bool
  | [] => false
  | c :: t => c.isLower && t.all Char.isAlphanum

/-- Words with hyphens between them. -/
def isHyphenName (name : Text) : Prop :=
  ∃ words : List Text, words ≠ [] ∧ words.all isWord ∧ name = Text.join ['-'] words

/-- The word with its first letter as a capital. -/
def capitalize : Text → Text
  | [] => []
  | c :: t => c.toUpper :: t

/-- The words one after another, each but the first with a capital. -/
def joinCamel : List Text → Text
  | [] => []
  | w :: words => w ++ words.flatMap capitalize

theorem isWord_cons (h : isWord w) : ∃ c t, w = c :: t ∧ c.isLower ∧ ∀ d ∈ t, isWordTail d := by
  cases w with
  | nil => cases h
  | cons c t =>
    obtain ⟨hc, ht⟩ := (Bool.and_eq_true _ _).mp h
    exact ⟨c, t, rfl, hc, List.all_eq_true.1 ht⟩

theorem toNat_lt_of_isWordTail (h : isWordTail c) : c.toNat < 128 := by
  rcases (Bool.or_eq_true _ _).mp h with h | h
  · exact toNat_lt_of_isLower h
  · exact toNat_lt_of_isAlphanum ((Bool.or_eq_true _ _).mpr (.inr h))

theorem isWordTail_of_mem_word (h : isWord w) : ∀ c ∈ w, isWordTail c := by
  obtain ⟨c, t, rfl, hc, ht⟩ := isWord_cons h
  exact List.forall_mem_cons.2 ⟨(Bool.or_eq_true _ _).mpr (.inl hc), ht⟩

/-- What the two spellings ask of a character inside a word. -/
theorem isWordTail_spec (h : isWordTail c) :
    c ≠ '-' ∧ c.isUpper = false ∧ isWordChar c ∧ c.toLower = c ∧ c.isAlphanum := by
  have hspec := ascii_imp isWordTail
    (fun c => c != '-' && !c.isUpper && isWordChar c && c.toLower == c && c.isAlphanum)
    (by decide) (toNat_lt_of_isWordTail h) h
  simpa [and_assoc] using hspec

/-- A capital and its small letter. -/
theorem toUpper_spec (h : c.isLower) :
    c.toUpper.isUpper ∧ isWordChar c.toUpper ∧ c.toUpper.toLower = c ∧ c.toUpper.isAlphanum ∧
      c.toUpper.toNat < 128 := by
  have hspec := ascii_imp Char.isLower (fun c => c.toUpper.isUpper && isWordChar c.toUpper &&
    c.toUpper.toLower == c && c.toUpper.isAlphanum && decide (c.toUpper.toNat < 128))
    (by decide) (toNat_lt_of_isLower h) h
  simpa [and_assoc] using hspec

theorem toLower_spec (h : c.isUpper) : c.toLower.isLower ∧ c.toLower.toUpper = c := by
  have hspec := ascii_imp Char.isUpper (fun c => c.toLower.isLower && c.toLower.toUpper == c)
    (by decide) (toNat_lt_of_isAlpha ((Bool.or_eq_true _ _).mpr (.inl h))) h
  simpa using hspec

theorem join_hyphen_cons (w : Text) (words : List Text) :
    Text.join ['-'] (w :: words) = w ++ words.flatMap ('-' :: ·) := by
  induction words generalizing w with
  | nil => simp [Text.join]
  | cons v words ih => simpa [Text.join, List.intercalate] using ih v

theorem camelize_tail (h : ∀ c ∈ t, isWordTail c) (rest : Text) :
    camelize (t ++ rest) = t ++ camelize rest := by
  induction t with
  | nil => rfl
  | cons c t ih =>
    obtain ⟨hc, ht⟩ := List.forall_mem_cons.1 h
    rw [List.cons_append, camelize_cons (isWordTail_spec hc).1, ih ht]
    rfl

/-- Camel case turns each hyphen into the capital of the word behind it. -/
theorem camelize_words (h : words.all isWord) :
    camelize (words.flatMap ('-' :: ·)) = words.flatMap capitalize := by
  induction words with
  | nil => rfl
  | cons w words ih =>
    obtain ⟨hw, hwords⟩ := (Bool.and_eq_true _ _).mp h
    obtain ⟨c, t, rfl, hc, ht⟩ := isWord_cons hw
    have hword := (isWordTail_spec ((Bool.or_eq_true _ _).mpr (.inl hc))).2.2.1
    show camelize ('-' :: c :: (t ++ words.flatMap ('-' :: ·))) = _
    rw [camelize, if_pos hword, camelize_tail ht, ih hwords]
    rfl

theorem camelize_join (h : words.all isWord) :
    camelize (Text.join ['-'] words) = joinCamel words := by
  cases words with
  | nil => rfl
  | cons w words =>
    obtain ⟨hw, hwords⟩ := (Bool.and_eq_true _ _).mp h
    rw [join_hyphen_cons, camelize_tail (isWordTail_of_mem_word hw), camelize_words hwords]
    rfl

theorem markCapitals_tail (h : ∀ c ∈ t, isWordTail c) (rest : Text) :
    markCapitals true (t ++ rest) = t ++ markCapitals true rest := by
  induction t with
  | nil => rfl
  | cons c t ih =>
    obtain ⟨hc, ht⟩ := List.forall_mem_cons.1 h
    obtain ⟨-, hupper, hword, -⟩ := isWordTail_spec hc
    rw [List.cons_append, markCapitals, hupper, hword, ih ht]
    rfl

theorem markCapitals_words (h : words.all isWord) :
    markCapitals true (words.flatMap capitalize) = words.flatMap ('-' :: capitalize ·) := by
  induction words with
  | nil => rfl
  | cons w words ih =>
    obtain ⟨hw, hwords⟩ := (Bool.and_eq_true _ _).mp h
    obtain ⟨c, t, rfl, hc, ht⟩ := isWord_cons hw
    obtain ⟨hupper, hword, -⟩ := toUpper_spec hc
    show markCapitals true (c.toUpper :: (t ++ words.flatMap capitalize)) = _
    rw [markCapitals, hupper, hword, markCapitals_tail ht, ih hwords]
    rfl

/-- The first word has no capital, and every other one follows a word character. -/
theorem markCapitals_word (h : isWord w) (rest : Text) :
    markCapitals false (w ++ rest) = w ++ markCapitals true rest := by
  obtain ⟨c, t, rfl, hc, ht⟩ := isWord_cons h
  obtain ⟨-, hupper, hword, -⟩ := isWordTail_spec ((Bool.or_eq_true _ _).mpr (.inl hc))
  rw [List.cons_append, markCapitals, hupper, hword, markCapitals_tail ht]
  rfl

theorem map_toLower_of_tail (h : ∀ c ∈ t, isWordTail c) : t.map Char.toLower = t :=
  (List.map_congr_left fun c hc => (isWordTail_spec (h c hc)).2.2.2.1).trans (List.map_id' t)

theorem map_toLower_capitalize (h : isWord w) : (capitalize w).map Char.toLower = w := by
  obtain ⟨c, t, rfl, hc, ht⟩ := isWord_cons h
  rw [capitalize, List.map_cons, map_toLower_of_tail ht, (toUpper_spec hc).2.2.1]

theorem map_toLower_words (h : words.all isWord) :
    (words.flatMap ('-' :: capitalize ·)).map Char.toLower = words.flatMap ('-' :: ·) := by
  induction words with
  | nil => rfl
  | cons w words ih =>
    obtain ⟨hw, hwords⟩ := (Bool.and_eq_true _ _).mp h
    rw [List.flatMap_cons, List.map_append, ih hwords, List.map_cons, map_toLower_capitalize hw]
    rfl

theorem toNat_lt_of_mem_words (h : words.all isWord) :
    ∀ c ∈ words.flatMap ('-' :: capitalize ·), c.toNat < 128 := by
  intro c hc
  obtain ⟨w, hw, hc⟩ := List.mem_flatMap.1 hc
  obtain ⟨d, t, rfl, hd, ht⟩ := isWord_cons (List.all_eq_true.1 h w hw)
  rw [capitalize, List.mem_cons, List.mem_cons] at hc
  rcases hc with rfl | rfl | hc
  · decide
  · exact (toUpper_spec hd).2.2.2.2
  · exact toNat_lt_of_isWordTail (ht c hc)

/-- Hyphens come back at the capitals, which become small again. -/
theorem hyphenate_joinCamel (h : words.all isWord) :
    hyphenate (joinCamel words) = Text.join ['-'] words := by
  cases words with
  | nil => rfl
  | cons w words =>
    obtain ⟨hw, hwords⟩ := (Bool.and_eq_true _ _).mp h
    have htail := isWordTail_of_mem_word hw
    have hascii : ∀ c ∈ w ++ words.flatMap ('-' :: capitalize ·), c.toNat < 128 :=
      List.forall_mem_append.2
        ⟨fun c hc => toNat_lt_of_isWordTail (htail c hc), toNat_lt_of_mem_words hwords⟩
    rw [hyphenate, joinCamel, markCapitals_word hw, markCapitals_words hwords, Text.lowercase,
      lowercaseAfter_of_ascii [] hascii, List.map_append, map_toLower_of_tail htail,
      map_toLower_words hwords, join_hyphen_cons]

theorem markCapitals_of_not_isUpper (afterWord : Bool) (h : ∀ c ∈ t, c.isUpper = false) :
    markCapitals afterWord t = t := by
  induction t generalizing afterWord with
  | nil => rfl
  | cons c t ih =>
    obtain ⟨hc, ht⟩ := List.forall_mem_cons.1 h
    rw [markCapitals, hc, ih _ ht]
    rfl

/-- A name without capitals has its hyphens already. -/
theorem hyphenate_join (h : words.all isWord) :
    hyphenate (Text.join ['-'] words) = Text.join ['-'] words := by
  cases words with
  | nil => rfl
  | cons w words =>
    have hchars : ∀ c ∈ w ++ words.flatMap ('-' :: ·), isWordTail c ∨ c = '-' := by
      intro c hc
      have hword : ∀ v ∈ w :: words, ∀ c ∈ v, isWordTail c :=
        fun v hv => isWordTail_of_mem_word (List.all_eq_true.1 h v hv)
      rcases List.mem_append.1 hc with hc | hc
      · exact .inl (hword w List.mem_cons_self c hc)
      · obtain ⟨v, hv, hc⟩ := List.mem_flatMap.1 hc
        rcases List.mem_cons.1 hc with rfl | hc
        · exact .inr rfl
        · exact .inl (hword v (List.mem_cons_of_mem w hv) c hc)
    have hplain : ∀ c ∈ w ++ words.flatMap ('-' :: ·),
        c.isUpper = false ∧ c.toNat < 128 ∧ c.toLower = c := by
      intro c hc
      rcases hchars c hc with hc | rfl
      · obtain ⟨-, hupper, -, hlower, -⟩ := isWordTail_spec hc
        exact ⟨hupper, toNat_lt_of_isWordTail hc, hlower⟩
      · decide
    rw [join_hyphen_cons, hyphenate, markCapitals_of_not_isUpper false fun c hc => (hplain c hc).1,
      Text.lowercase, lowercaseAfter_of_ascii [] fun c hc => (hplain c hc).2.1]
    exact (List.map_congr_left fun c hc => (hplain c hc).2.2).trans (List.map_id' _)

theorem isCamelName_joinCamel (hne : words ≠ []) (h : words.all isWord) :
    isCamelName (joinCamel words) := by
  have hcapitalized : ∀ w ∈ words, ∀ d ∈ capitalize w, d.isAlphanum := by
    intro w hw
    obtain ⟨c, t, rfl, hc, ht⟩ := isWord_cons (List.all_eq_true.1 h w hw)
    exact List.forall_mem_cons.2
      ⟨(toUpper_spec hc).2.2.2.1, fun d hd => (isWordTail_spec (ht d hd)).2.2.2.2⟩
  obtain ⟨w, words, rfl⟩ := List.exists_cons_of_ne_nil hne
  obtain ⟨c, t, rfl, hc, ht⟩ := isWord_cons ((Bool.and_eq_true _ _).mp h).1
  refine (Bool.and_eq_true _ _).mpr ⟨hc, List.all_eq_true.2 (List.forall_mem_append.2 ⟨?_, ?_⟩)⟩
  · exact fun d hd => (isWordTail_spec (ht d hd)).2.2.2.2
  · intro d hd
    obtain ⟨v, hv, hd⟩ := List.mem_flatMap.1 hd
    exact hcapitalized v (List.mem_cons_of_mem _ hv) d hd

/-- Letters and digits are the rest of a word and further words, each of which starts at a
capital. -/
theorem exists_words_of_alphanum (h : ∀ c ∈ t, c.isAlphanum) :
    ∃ (tail : Text) (words : List Text), t = tail ++ words.flatMap capitalize ∧
      (∀ c ∈ tail, isWordTail c) ∧ words.all isWord := by
  induction t with
  | nil => exact ⟨[], [], rfl, by simp, rfl⟩
  | cons c t ih =>
    obtain ⟨hc, ht⟩ := List.forall_mem_cons.1 h
    obtain ⟨tail, words, rfl, htail, hwords⟩ := ih ht
    by_cases hupper : c.isUpper
    · -- the capital starts a word, and what was the rest belongs to it
      obtain ⟨hlower, hcapital⟩ := toLower_spec hupper
      refine ⟨[], (c.toLower :: tail) :: words, ?_, by simp, ?_⟩
      · rw [List.flatMap_cons, capitalize, hcapital]
        rfl
      · exact (Bool.and_eq_true _ _).mpr
          ⟨(Bool.and_eq_true _ _).mpr ⟨hlower, List.all_eq_true.2 htail⟩, hwords⟩
    · have hsmall : isWordTail c := by
        have hspec := ascii_imp (fun c => c.isAlphanum && !c.isUpper) isWordTail (by decide)
          (toNat_lt_of_isAlphanum hc)
        exact hspec (by simp [hc, hupper])
      exact ⟨c :: tail, words, rfl, List.forall_mem_cons.2 ⟨hsmall, htail⟩, hwords⟩

theorem exists_words (h : isCamelName name) :
    ∃ words : List Text, words ≠ [] ∧ words.all isWord ∧ name = joinCamel words := by
  cases name with
  | nil => cases h
  | cons c t =>
    obtain ⟨hc, ht⟩ := (Bool.and_eq_true _ _).mp h
    obtain ⟨tail, words, rfl, htail, hwords⟩ := exists_words_of_alphanum (List.all_eq_true.1 ht)
    refine ⟨(c :: tail) :: words, by simp, ?_, rfl⟩
    exact (Bool.and_eq_true _ _).mpr
      ⟨(Bool.and_eq_true _ _).mpr ⟨hc, List.all_eq_true.2 htail⟩, hwords⟩

/-- Names with hyphens and names in camel case correspond one to one: each spelling of a name leads
to a name of the other kind and from there back. A property is declared under its name in camel
case. -/
theorem spellings_correspond :
    (∀ name, isHyphenName name → hyphenate (camelize name) = name ∧
      propertyKey name = camelize name ∧ isCamelName (camelize name)) ∧
    (∀ name, isCamelName name → camelize (hyphenate name) = name ∧
      propertyKey name = name ∧ isHyphenName (hyphenate name)) := by
  constructor
  · rintro _ ⟨words, hne, hwords, rfl⟩
    rw [propertyKey, if_pos (hyphenate_join hwords), camelize_join hwords]
    exact ⟨hyphenate_joinCamel hwords, rfl, isCamelName_joinCamel hne hwords⟩
  · intro name hname
    obtain ⟨words, hne, hwords, rfl⟩ := exists_words hname
    have hback : camelize (hyphenate (joinCamel words)) = joinCamel words := by
      rw [hyphenate_joinCamel hwords, camelize_join hwords]
    refine ⟨hback, ?_, words, hne, hwords, hyphenate_joinCamel hwords⟩
    rw [propertyKey]
    split
    · next hsame => rw [hsame] at hback; exact hback
    · rfl

/-- Words of one letter, so that capitals stand side by side, and a digit before a hyphen. -/
theorem spellings_correspond_short :
    isHyphenName "x2-b-c".toList ∧ isCamelName "x2BC".toList ∧
      hyphenate (camelize "x2-b-c".toList) = "x2-b-c".toList ∧
      camelize (hyphenate "x2BC".toList) = "x2BC".toList := by
  have hhyphens : isHyphenName "x2-b-c".toList :=
    ⟨["x2".toList, "b".toList, "c".toList], by decide, by decide, by decide⟩
  have hcamel : isCamelName "x2BC".toList := by decide
  exact ⟨hhyphens, hcamel, (spellings_correspond.1 _ hhyphens).1,
    (spellings_correspond.2 _ hcamel).1⟩

end Code

end TemplateProjection
