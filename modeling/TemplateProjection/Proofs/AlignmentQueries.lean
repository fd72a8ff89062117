import TemplateProjection.Proofs.Search
import TemplateProjection.Proofs.Words

/-!
Queries put to an alignment one after another. What it remembers changes no answer, and its answers
pair the occurrences of a needle in the two texts in their order.
-/
namespace TemplateProjection

namespace Text

variable {needle t : Text} {c : Char} {skip offset : Nat} {found found' : List Nat}

/-- The offsets at which `needle` is found in a text that starts at `offset`: the first occurrence,
then the first behind that one, and so on. An empty needle has no occurrences. -/
inductive Leftmost (needle : Text) : Nat → Text → List Nat → Prop
  | none {offset : Nat} {t : Text} (h : needle = [] ∨ ¬ needle <:+: t) : Leftmost needle offset t []
  | next {offset : Nat} {before after : Text} {found : List Nat} (hne : needle ≠ [])
      (hfirst : ∀ b a, before ++ (needle ++ after) = b ++ (needle ++ a) → before.length ≤ b.length)
      (hrest : Leftmost needle (offset + before.byteLength + needle.byteLength) after found) :
      Leftmost needle offset (before ++ (needle ++ after)) ((offset + before.byteLength) :: found)

/-- A character that starts no occurrence can be passed over. -/
theorem Leftmost.cons (hnot : ¬ needle <+: c :: t)
    (h : Leftmost needle (offset + c.utf8Size) t found) :
    Leftmost needle offset (c :: t) found := by
  cases h with
  | none h =>
    refine .none (h.imp_right fun hinside hin => ?_)
    rcases List.infix_cons_iff.1 hin with hstart | hin
    · exact hnot hstart
    · exact hinside hin
  | @next _ before after found hne hfirst hrest =>
    have hlen : offset + c.utf8Size + before.byteLength = offset + byteLength (c :: before) := by
      simp only [byteLength_cons]
      omega
    rw [hlen] at hrest ⊢
    refine @Leftmost.next needle offset (c :: before) after found hne ?_ hrest
    intro b a happ
    cases b with
    | nil => exact absurd ⟨a, happ.symm⟩ hnot
    | cons d b => exact Nat.succ_le_succ (hfirst b a (List.cons.inj happ).2)

/-- The scan finds the leftmost occurrences behind what it skips. -/
theorem leftmost_occurrencesFrom (hne : needle ≠ []) (skip offset : Nat) (t : Text) :
    Leftmost needle (offset + byteLength (t.take skip)) (t.drop skip)
      (occurrencesFrom needle skip offset t) := by
  fun_induction occurrencesFrom needle skip offset t with
  | case1 skip offset hempty => exact absurd (List.isEmpty_iff.1 hempty) hne
  | case2 skip offset hempty =>
    refine .none (Or.inr ?_)
    simpa using hne
  | case3 skip offset c t ih => simpa [Nat.add_assoc] using ih
  | case4 offset c t hsome ih =>
    obtain ⟨rest, happ⟩ := isSome_after?_iff.1 hsome
    obtain ⟨d, tail, rfl⟩ := List.exists_cons_of_ne_nil hne
    rw [List.cons_append] at happ
    obtain ⟨rfl, rfl⟩ := List.cons.inj happ
    have hlen : offset + d.utf8Size + byteLength tail = offset + 0 + byteLength (d :: tail) := by
      simp only [byteLength_cons]
      omega
    rw [List.length_cons, Nat.add_sub_cancel, List.take_left, List.drop_left, hlen] at ih
    exact @Leftmost.next (d :: tail) offset [] rest _ hne (fun _ _ _ => Nat.zero_le _) ih
  | case5 offset c t hnone ih =>
    exact .cons (fun hstart => hnone (isSome_after?_iff.2 hstart)) ih

theorem Leftmost.unique (h : Leftmost needle offset t found)
    (h' : Leftmost needle offset t found') : found = found' := by
  induction h generalizing found' with
  | @none offset t h =>
    cases h' with
    | none => rfl
    | @next _ before after _ hne =>
      rcases h with hnil | hinside
      · exact absurd hnil hne
      · exact absurd ⟨before, after, List.append_assoc _ _ _⟩ hinside
  | @next offset before after found hne hfirst hrest ih =>
    generalize htext : before ++ (needle ++ after) = t at h'
    cases h' with
    | none h =>
      rcases h with hnil | hinside
      · exact absurd hnil hne
      · exact absurd ⟨before, after, by rw [← htext, List.append_assoc]⟩ hinside
    | @next _ before' after' found' _ hfirst' hrest' =>
      -- both searches stop at the same place, for each is the first
      have hlen : before.length = before'.length :=
        Nat.le_antisymm (hfirst _ _ htext) (hfirst' _ _ htext.symm)
      obtain ⟨rfl, happ⟩ := List.append_inj htext hlen
      obtain rfl := List.append_cancel_left happ
      rw [ih hrest']

/-- Every needle has one list of leftmost occurrences. -/
theorem leftmost_iff :
    Leftmost needle 0 t found ↔ found = if needle = [] then [] else occurrences needle t := by
  have hall : Leftmost needle 0 t (if needle = [] then [] else occurrences needle t) := by
    split
    · next hnil => exact .none (Or.inl hnil)
    · next hne => exact leftmost_occurrencesFrom hne 0 0 t
  exact ⟨fun h => h.unique hall, fun h => h ▸ hall⟩

example : occurrences "aba".toList "ababa aba".toList = [0, 6] := by decide

theorem le_of_mem_occurrencesFrom {n : Nat} (h : n ∈ occurrencesFrom needle skip offset t) :
    offset ≤ n := by
  obtain ⟨before, after, -, hn⟩ := occurrencesFrom_sound h
  omega

/-- Occurrences are listed from left to right. -/
theorem occurrencesFrom_increasing (needle : Text) (skip offset : Nat) (t : Text) :
    (occurrencesFrom needle skip offset t).Pairwise (· < ·) := by
  fun_induction occurrencesFrom needle skip offset t with
  | case1 => exact List.pairwise_singleton _ _
  | case2 => exact .nil
  | case3 skip offset c t ih => exact ih
  | case4 offset c t hsome ih =>
    refine .cons (fun n hn => ?_) ih
    have hle := le_of_mem_occurrencesFrom hn
    have hpos := c.utf8Size_pos
    omega
  | case5 offset c t hnone ih => exact ih

end Text

namespace Outline

variable {o : Occurrences} {a : Alignment} {m : AlignmentMemo} {needle : Text}
  {offset offset' found found' : Nat} {queries : List (Text × Nat)}

/-- In an increasing list the order of the entries is the order of their places. -/
theorem lt_iff_index_lt {l : List Nat} (h : l.Pairwise (· < ·)) {i j x y : Nat}
    (hi : l[i]? = some x) (hj : l[j]? = some y) : x < y ↔ i < j := by
  obtain ⟨hil, rfl⟩ := List.getElem?_eq_some_iff.1 hi
  obtain ⟨hjl, rfl⟩ := List.getElem?_eq_some_iff.1 hj
  have hlt := List.pairwise_iff_getElem.1 h
  refine ⟨fun hxy => ?_, hlt i j hil hjl⟩
  by_contra hij
  rcases Nat.lt_or_eq_of_le (Nat.le_of_not_lt hij) with hji | rfl
  · have := hlt j i hjl hil hji
    omega
  · omega

/-- An answered offset has the place among the occurrences in the markup that its answer has among
those in the outline. -/
theorem Occurrences.exists_index (h : o.outlineOffset? offset = some found) :
    ∃ i : Nat, o.markup[i]? = some offset ∧ o.outline[i]? = some found := by
  simp only [Occurrences.outlineOffset?] at h
  split at h
  · obtain ⟨before, after, hzip, -⟩ := List.lookup_eq_some_iff.1 h
    have hget : (o.markup.zip o.outline)[before.length]? = some (offset, found) := by simp [hzip]
    exact ⟨before.length, List.getElem?_zip_eq_some.1 hget⟩
  · simp at h

theorem Occurrences.outlineOffset?_lt (houtline : o.outline.Pairwise (· < ·))
    (hmarkup : o.markup.Pairwise (· < ·)) (h : o.outlineOffset? offset = some found)
    (h' : o.outlineOffset? offset' = some found') (hlt : offset < offset') : found < found' := by
  obtain ⟨i, hi, hfound⟩ := Occurrences.exists_index h
  obtain ⟨j, hj, hfound'⟩ := Occurrences.exists_index h'
  have hij : i < j := (lt_iff_index_lt hmarkup hi hj).1 hlt
  exact (lt_iff_index_lt houtline hfound hfound').2 hij

theorem Occurrences.outlineOffset?_isSome (hlen : o.outline.length = o.markup.length)
    (h : offset ∈ o.markup) : (o.outlineOffset? offset).isSome := by
  have hkeys : (o.markup.zip o.outline).map Prod.fst = o.markup :=
    List.map_fst_zip (Nat.le_of_eq hlen.symm)
  rw [Occurrences.outlineOffset?, if_pos hlen]
  rw [← hkeys] at h
  obtain ⟨entry, hentry, rfl⟩ := List.mem_map.1 h
  cases hlookup : (o.markup.zip o.outline).lookup entry.1 with
  | some n => rfl
  | none =>
    have hother := List.lookup_eq_none_iff.1 hlookup entry hentry
    simp at hother

namespace Alignment

theorem locate?_of_ne_nil (hne : needle ≠ []) :
    a.locate? needle offset = (a.occurrences needle).outlineOffset? offset := by
  rw [locate?, if_neg (by simpa using hne)]

theorem ne_nil_of_locate? (h : a.locate? needle offset = some found) : needle ≠ [] := by
  rintro rfl
  cases h

theorem slice?_markup_of_locate? (h : a.locate? needle offset = some found) :
    a.markup.slice? ⟨offset, needle.byteLength⟩ = some needle := by
  rw [locate?_of_ne_nil (ne_nil_of_locate? h)] at h
  obtain ⟨i, hi, -⟩ := Occurrences.exists_index h
  exact Text.slice?_of_mem_occurrences (List.mem_of_getElem? hi)

theorem locate?_lt (h : a.locate? needle offset = some found)
    (h' : a.locate? needle offset' = some found') (hlt : offset < offset') : found < found' := by
  have hne := ne_nil_of_locate? h
  rw [locate?_of_ne_nil hne] at h h'
  exact Occurrences.outlineOffset?_lt (Text.occurrencesFrom_increasing _ _ _ _)
    (Text.occurrencesFrom_increasing _ _ _ _) h h' hlt

end Alignment

/-- A query and its answer. -/
structure Exchange where
  needle : Text
  offset : Nat
  answer : Option Nat

namespace AlignmentMemo

/-- Put queries one after another. -/
def ask (m : AlignmentMemo) : List (Text × Nat) → List Exchange
  | [] => []
  | (needle, offset) :: queries =>
    ⟨needle, offset, (m.locate needle offset).1⟩ :: (m.locate needle offset).2.ask queries

/-- What is remembered is what a search would find. -/
def Faithful (m : AlignmentMemo) : Prop :=
  ∀ needle occurrences, m.known.lookup needle = some occurrences →
    occurrences = m.alignment.occurrences needle

/-- A query is answered by the texts alone, and adds only what a search finds. -/
theorem Faithful.locate (h : m.Faithful) (needle : Text) (offset : Nat) :
    (m.locate needle offset).1 = m.alignment.locate? needle offset ∧
      (m.locate needle offset).2.alignment = m.alignment ∧
      (m.locate needle offset).2.Faithful := by
  simp only [AlignmentMemo.locate, Alignment.locate?]
  split
  · exact ⟨rfl, rfl, h⟩
  · split
    · next occurrences hknown => exact ⟨by rw [h needle occurrences hknown], rfl, h⟩
    · refine ⟨rfl, rfl, fun asked occurrences hlookup => ?_⟩
      rw [List.lookup_cons] at hlookup
      split at hlookup
      · next hsame =>
        cases hlookup
        rw [eq_of_beq hsame]
      · exact h asked occurrences hlookup

theorem Faithful.ask (h : m.Faithful) (queries : List (Text × Nat)) :
    m.ask queries = queries.map fun query =>
      ⟨query.1, query.2, m.alignment.locate? query.1 query.2⟩ := by
  induction queries generalizing m with
  | nil => rfl
  | cons query queries ih =>
    obtain ⟨needle, offset⟩ := query
    obtain ⟨hanswer, halignment, hfaithful⟩ := h.locate needle offset
    rw [AlignmentMemo.ask, ih hfaithful, hanswer, halignment, List.map_cons]

theorem faithful_ofTexts (outline markup : Text) : (ofTexts outline markup).Faithful := by
  intro needle occurrences h
  cases h

/-- Every answer to a sequence of queries is the one the texts give. -/
theorem answer_of_mem_ask {outline markup : Text} {answer : Option Nat}
    (h : ⟨needle, offset, answer⟩ ∈ (ofTexts outline markup).ask queries) :
    (Alignment.ofTexts outline markup).locate? needle offset = answer := by
  rw [(faithful_ofTexts outline markup).ask] at h
  obtain ⟨query, -, heq⟩ := List.mem_map.1 h
  cases heq
  rfl

/-- The answers to a sequence of queries are those of fresh alignments. An answered needle stands in
both texts, answers keep the order of the offsets, and a needle is answered at all its occurrences
or, if it does not occur equally often in both texts, nowhere. -/
theorem answers_pair_occurrences (outline markup : Text) (queries : List (Text × Nat)) :
    (ofTexts outline markup).ask queries =
        queries.map (fun query =>
          ⟨query.1, query.2, ((ofTexts outline markup).locate query.1 query.2).1⟩) ∧
      (∀ (needle : Text) offset found,
        ⟨needle, offset, some found⟩ ∈ (ofTexts outline markup).ask queries →
          needle ≠ [] ∧ outline.slice? ⟨found, needle.byteLength⟩ = some needle ∧
            (Markup.blankEndTags markup).slice? ⟨offset, needle.byteLength⟩ = some needle) ∧
      (∀ (needle : Text) offset offset' found found',
        ⟨needle, offset, some found⟩ ∈ (ofTexts outline markup).ask queries →
        ⟨needle, offset', some found'⟩ ∈ (ofTexts outline markup).ask queries →
          offset < offset' → found < found') ∧
      ∀ needle : Text, ∃ inOutline inMarkup,
        (∀ found, Text.Leftmost needle 0 outline found ↔ found = inOutline) ∧
        (∀ found, Text.Leftmost needle 0 (Markup.blankEndTags markup) found ↔ found = inMarkup) ∧
        (inOutline.length ≠ inMarkup.length → ∀ offset answer,
          ⟨needle, offset, answer⟩ ∈ (ofTexts outline markup).ask queries → answer = none) ∧
        (inOutline.length = inMarkup.length → ∀ offset ∈ inMarkup, ∀ answer,
          ⟨needle, offset, answer⟩ ∈ (ofTexts outline markup).ask queries → answer.isSome) := by
  have hfresh := faithful_ofTexts outline markup
  refine ⟨?_, ?_, ?_, ?_⟩
  · rw [hfresh.ask]
    refine List.map_congr_left fun query _ => ?_
    rw [(hfresh.locate query.1 query.2).1]
  · intro needle offset found hmem
    have h := answer_of_mem_ask hmem
    exact ⟨Alignment.ne_nil_of_locate? h, Alignment.slice?_of_locate? h,
      Alignment.slice?_markup_of_locate? h⟩
  · intro needle offset offset' found found' hmem hmem'
    exact Alignment.locate?_lt (answer_of_mem_ask hmem) (answer_of_mem_ask hmem')
  · intro needle
    refine ⟨_, _, fun _ => Text.leftmost_iff, fun _ => Text.leftmost_iff, ?_⟩
    by_cases hne : needle = []
    · simp [hne]
    · rw [if_neg hne, if_neg hne]
      constructor
      · intro hcount offset answer hmem
        rw [← answer_of_mem_ask hmem, Alignment.locate?_of_ne_nil hne]
        exact if_neg hcount
      · intro hcount offset hoffset answer hmem
        rw [← answer_of_mem_ask hmem, Alignment.locate?_of_ne_nil hne]
        exact Occurrences.outlineOffset?_isSome hcount hoffset

end AlignmentMemo

end Outline

end TemplateProjection
