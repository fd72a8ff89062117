import TemplateProjection.Proofs.OutlineItems

/-! Attribute lists of an outline are read as they were written. -/
namespace TemplateProjection.Outline

open Markup (isMark ne_of_isMark isAsciiBlank_of_isMark isMark_of_mem_attributeName
  ne_nil_of_isAttributeName PlainValue)

variable {c q : Char} {s t v name rest : Text}

/-- Neither a quote nor the end of the list is left open by `s`. -/
def Skips (s : Text) : Prop :=
  ∀ t, closing? 1 none false (s ++ t) =
    (closing? 1 none false t).map fun (inside, after) => (s ++ inside, after)

theorem Skips.nil : Skips [] := by
  intro t
  cases h : closing? 1 none false t <;> simp [h]

theorem Skips.append (hs : Skips s) (ht : Skips t) : Skips (s ++ t) := by
  intro u
  rw [List.append_assoc, hs, ht, Option.map_map]
  cases closing? 1 none false u <;> simp

theorem Skips.of_plain (h : ∀ c ∈ s, c ∉ "()\"'\x60".toList) : Skips s := by
  induction s with
  | nil => exact .nil
  | cons c s ih =>
    intro t
    obtain ⟨hc, hs⟩ := List.forall_mem_cons.1 h
    obtain ⟨hopen, hclose, hdouble, hsingle, hback⟩ :
        c ≠ '(' ∧ c ≠ ')' ∧ c ≠ '"' ∧ c ≠ '\'' ∧ c ≠ '\x60' := by simpa using hc
    have hrest := ih hs t
    simp only [List.cons_append, closing?, hopen, hclose, hdouble, hsingle, hback, decide_false,
      Bool.false_and, Bool.or_self, Bool.false_eq_true, if_false, hrest, Option.map_map]
    rfl

theorem closing?_quoted (hq : q ∉ v) (hescape : '\\' ∉ v) (t : Text) :
    closing? 1 (some q) false (v ++ q :: t) =
      (closing? 1 none false t).map fun (inside, after) => (v ++ q :: inside, after) := by
  induction v with
  | nil => simp [closing?]
  | cons c v ih =>
    obtain ⟨hc, hq⟩ := not_or.1 (mt List.mem_cons.2 hq)
    obtain ⟨hback, hescape⟩ := not_or.1 (mt List.mem_cons.2 hescape)
    have hplain : (c != q && c == '\\') = false := by simp [Ne.symm hback]
    have hrest := ih hq hescape
    simp only [List.cons_append, closing?, Ne.symm hc, if_false, hplain, hrest, Option.map_map]
    rfl

theorem Skips.quoted (hquote : q ∈ "\"'\x60".toList) (hq : q ∉ v) (hescape : '\\' ∉ v) :
    Skips (q :: (v ++ [q])) := by
  intro t
  have hcases : q = '"' ∨ q = '\'' ∨ q = '\x60' := by simpa using hquote
  have hclose : (decide (q = ')') && decide (1 ≤ 1)) = false := by
    rcases hcases with rfl | rfl | rfl <;> rfl
  have hopen : (decide (q = '"') || decide (q = '\'') || decide (q = '\x60')) = true := by
    rcases hcases with rfl | rfl | rfl <;> rfl
  have hdepth : (if q = '(' then 1 + 1 else if q = ')' then 1 - 1 else 1) = 1 := by
    rcases hcases with rfl | rfl | rfl <;> rfl
  have hrest := closing?_quoted hq hescape t
  simp only [List.cons_append, List.append_assoc, List.nil_append, closing?, hclose, hopen, hdepth,
    Bool.false_eq_true, if_false, if_true, hrest, Option.map_map]
  rfl

/-- How the text of a plain attribute is made up. -/
theorem attributeText_eq {a : Markup.Attribute} (h : a.Plain) :
    ∃ q v, q ∈ "\"'\x60".toList ∧ q ∉ v ∧ PlainValue v ∧
      attributeText a = a.name ++ '=' :: q :: (v ++ [q]) ∧
        attributeItem a = ⟨a.name, some v, false⟩ := by
  obtain ⟨v, hv, hplain⟩ := (attributeItem_settled h).value
  have hvalue : Text.join [' '] ((a.value.map (·.text.trimmedLines)).getD []) = v := by
    rw [← Option.some.inj hv]
    cases hw : a.value with
    | none => rfl
    | some w =>
      have hfeed : '\n' ∉ w.text :=
        fun hfeed => absurd ((h.value w hw).printable '\n' hfeed) (by decide)
      simp [Text.trimmedLines_line hfeed]
  have hitem : attributeItem a = ⟨a.name, some v, false⟩ := by
    rw [← hv]
    rfl
  obtain ⟨q, hq, hquote, hnot⟩ := Markup.exists_quote hplain.quotes
  refine ⟨q, v, by rcases hquote with rfl | rfl <;> decide, hnot, hplain, ?_, hitem⟩
  simp only [attributeText, hvalue, hq, List.append_assoc, List.cons_append, List.nil_append]

theorem Skips.attributeText {a : Markup.Attribute} (h : a.Plain) : Skips (attributeText a) := by
  obtain ⟨q, v, hquote, hq, hplain, htext, -⟩ := attributeText_eq h
  have hname : Skips a.name := by
    refine .of_plain fun c hc hmem => ?_
    have hmarks : "()\"'\x60".toList.all isMark := by decide
    exact ne_of_isMark (isMark_of_mem_attributeName h.name c hc)
      (List.all_eq_true.1 hmarks c hmem) rfl
  have hequals : Skips ['='] := .of_plain (List.forall_mem_singleton.2 (by decide))
  rw [htext]
  exact hname.append (hequals.append (.quoted hquote hq hplain.backslash))

theorem Skips.attributeTexts {attributes : List Markup.Attribute} (h : ∀ a ∈ attributes, a.Plain) :
    Skips (Text.join ", ".toList (attributes.map Outline.attributeText)) := by
  induction attributes with
  | nil => exact .nil
  | cons a attributes ih =>
    obtain ⟨ha, hattributes⟩ := List.forall_mem_cons.1 h
    cases attributes with
    | nil => simpa using Skips.attributeText ha
    | cons b attributes =>
      have hcomma : Skips ", ".toList := .of_plain (by simp)
      rw [List.map_cons, Text.join_cons _ (by simp)]
      exact ((Skips.attributeText ha).append hcomma).append (ih hattributes)

theorem readQuoted_append (hq : q ∉ v) (hescape : '\\' ∉ v) (rest : Text) :
    readQuoted q false (v ++ q :: rest) = (v, rest) := by
  induction v with
  | nil => simp [readQuoted]
  | cons c v ih =>
    obtain ⟨hc, hq⟩ := not_or.1 (mt List.mem_cons.2 hq)
    obtain ⟨hback, hescape⟩ := not_or.1 (mt List.mem_cons.2 hescape)
    have hplain : (c == '\\') = false := by simp [Ne.symm hback]
    simp only [List.cons_append, readQuoted, Ne.symm hc, if_false, hplain, ih hq hescape]

theorem readValue_quoted (hquote : q ∈ "\"'\x60".toList) (hq : q ∉ v) (hescape : '\\' ∉ v)
    (rest : Text) : readValue (q :: (v ++ q :: rest)) = (v, rest) := by
  have hcases : q = '"' ∨ q = '\'' ∨ q = '\x60' := by simpa using hquote
  have hblank : ¬ isAsciiBlank q := by rcases hcases with rfl | rfl | rfl <;> decide
  have hopen : (decide (q = '"') || decide (q = '\'') || decide (q = '\x60')) = true := by
    rcases hcases with rfl | rfl | rfl <;> rfl
  simp only [readValue, List.dropWhile_cons_of_neg hblank, hopen, if_true,
    readQuoted_append hq hescape]

/-- A name is read up to where names end. -/
theorem readName_append (hne : name ≠ []) (hchars : ∀ c ∈ name, ∀ t, endsName (c :: t) = false)
    (hquotes : ∀ c ∈ name, c ≠ '"' ∧ c ≠ '\'') (hrest : endsName rest) :
    readName (name ++ rest) = (name, rest) := by
  have hbreak : (name ++ rest).breakAt endsName = (name, rest) :=
    Text.breakAt_append_of_stop hchars (Or.inr hrest)
  obtain ⟨c, name, rfl⟩ := List.exists_cons_of_ne_nil hne
  obtain ⟨hdouble, hsingle⟩ := hquotes c List.mem_cons_self
  rw [List.cons_append] at hbreak ⊢
  simp only [readName, hdouble, hsingle, decide_false, Bool.or_self, Bool.false_eq_true, if_false,
    hbreak]

theorem endsName_of_isMark (h : isMark c = false) (t : Text) : endsName (c :: t) = false := by
  have hbang : c ≠ '!' := ne_of_isMark h (by decide)
  have hequals : c ≠ '=' := ne_of_isMark h (by decide)
  have hcomma : c ≠ ',' := ne_of_isMark h (by decide)
  unfold endsName
  split
  · next heq => exact absurd (List.cons.inj heq).1 hbang
  · next heq =>
    obtain ⟨rfl, -⟩ := List.cons.inj heq
    simp [isAsciiBlank_of_isMark h, hequals, hcomma]
  · next heq => cases heq

/-- A written attribute is read again. -/
theorem readAttribute_append {a : Markup.Attribute} (h : a.Plain) (rest : Text) :
    readAttribute (attributeText a ++ rest) = (some (attributeItem a), rest) := by
  obtain ⟨q, v, hquote, hq, hplain, htext, hitem⟩ := attributeText_eq h
  have hmark := isMark_of_mem_attributeName h.name
  have hne := ne_nil_of_isAttributeName h.name
  have hname : readName (a.name ++ '=' :: q :: (v ++ q :: rest)) =
      (a.name, '=' :: q :: (v ++ q :: rest)) := by
    refine readName_append hne (fun c hc => endsName_of_isMark (hmark c hc)) (fun c hc => ?_) rfl
    exact ⟨ne_of_isMark (hmark c hc) (by decide), ne_of_isMark (hmark c hc) (by decide)⟩
  have hvalue := readValue_quoted hquote hq hplain.backslash rest
  have hempty : a.name.isEmpty = false := by simpa using hne
  have heq : attributeText a ++ rest = a.name ++ '=' :: q :: (v ++ q :: rest) := by simp [htext]
  rw [heq, hitem, readAttribute, hname]
  simp [hvalue, hempty]

theorem readAttributes_append {a : Markup.Attribute} (h : a.Plain) (rest : Text) :
    readAttributes (attributeText a ++ rest) = attributeItem a :: readAttributes rest := by
  have hread := readAttribute_append h rest
  obtain ⟨q, v, -, -, -, htext, -⟩ := attributeText_eq h
  obtain ⟨c, name, hcons⟩ := List.exists_cons_of_ne_nil (ne_nil_of_isAttributeName h.name)
  have hc := isMark_of_mem_attributeName h.name c (by simp [hcons])
  have hblank : ¬ isAsciiBlank c := by simp [isAsciiBlank_of_isMark hc]
  have hcomma : c ≠ ',' := ne_of_isMark hc (by decide)
  rw [htext, hcons, List.cons_append, List.cons_append] at hread ⊢
  rw [readAttributes, if_neg hblank, if_neg hcomma, hread]
  rfl

theorem readAttributes_separator (t : Text) :
    readAttributes (", ".toList ++ t) = readAttributes t := by
  show readAttributes (',' :: ' ' :: t) = _
  rw [readAttributes, if_neg (by decide), if_pos rfl, readAttributes, if_pos (by decide)]

/-- A written list of attributes is read again. -/
theorem readAttributes_join {attributes : List Markup.Attribute} (h : ∀ a ∈ attributes, a.Plain) :
    readAttributes (Text.join ", ".toList (attributes.map attributeText)) =
      attributes.map attributeItem := by
  induction attributes with
  | nil =>
    rw [List.map_nil, Text.join, List.intercalate_nil, readAttributes]
    rfl
  | cons a attributes ih =>
    obtain ⟨ha, hattributes⟩ := List.forall_mem_cons.1 h
    have hrest := ih hattributes
    cases attributes with
    | nil =>
      have hread := readAttributes_append ha []
      rw [List.append_nil, readAttributes] at hread
      simpa using hread
    | cons b attributes =>
      rw [List.map_cons, Text.join_cons _ (by simp), List.append_assoc, readAttributes_append ha,
        readAttributes_separator, hrest]
      rfl

end TemplateProjection.Outline
