import TemplateProjection.Text.Blank

/-! Where an excerpt stands in a text, and where its parts stand after it is divided. -/
namespace TemplateProjection

theorem Span.stop_between {start stop : Nat} (h : start ≤ stop) :
    (Span.between start stop).stop = stop := by
  simp only [Span.between, Span.stop]
  omega

theorem Span.contains_iff {s t : Span} :
    s.contains t ↔ s.start ≤ t.start ∧ t.stop ≤ s.stop := by
  simp only [contains, Bool.and_eq_true, decide_eq_true_eq]

namespace Text

variable {t u before after : Text} {n : Nat} {s : Span}

theorem cut?_byteLength (before after : Text) :
    (before ++ after).cut? before.byteLength = some (before, after) := by
  induction before with
  | nil => cases after <;> rfl
  | cons c before ih =>
    have hpos := c.utf8Size_pos
    obtain ⟨n, hn⟩ : ∃ n, byteLength (c :: before) = n + 1 :=
      ⟨c.utf8Size + byteLength before - 1, by simp only [byteLength_cons]; omega⟩
    have hle : c.utf8Size ≤ n + 1 := by simp only [byteLength_cons] at hn; omega
    have hrest : n + 1 - c.utf8Size = byteLength before := by
      simp only [byteLength_cons] at hn; omega
    rw [hn, List.cons_append, cut?, if_pos hle, hrest, ih]
    rfl

theorem append_of_cut? (h : t.cut? n = some (before, after)) :
    before ++ after = t ∧ before.byteLength = n := by
  fun_induction cut? t n generalizing before with
  | case1 t => simp_all
  | case2 => simp at h
  | case3 c t n hle ih =>
    obtain ⟨⟨a, b⟩, hab, he⟩ := Option.map_eq_some_iff.1 h
    cases he
    obtain ⟨happ, hlen⟩ := ih hab
    exact ⟨by simp [happ], by simp only [byteLength_cons, hlen]; omega⟩
  | case4 => simp at h

/-- A slice stands between a part of `s.start` bytes and the rest of the text. -/
theorem slice?_eq_some_iff :
    t.slice? s = some u ↔
      ∃ before after, t = before ++ u ++ after ∧ before.byteLength = s.start ∧
        u.byteLength = s.length := by
  constructor
  · intro h
    simp only [slice?, from?, upTo?, Option.bind_eq_bind, Option.bind_eq_some_iff,
      Option.map_eq_some_iff] at h
    obtain ⟨_, ⟨⟨before, rest⟩, hstart, rfl⟩, ⟨u, after⟩, hstop, rfl⟩ := h
    obtain ⟨happ, hbefore⟩ := append_of_cut? hstart
    obtain ⟨hrest, hlen⟩ := append_of_cut? hstop
    exact ⟨before, after, by rw [← happ, List.append_assoc, hrest], hbefore, hlen⟩
  · rintro ⟨before, after, rfl, hstart, hlen⟩
    have hcut := cut?_byteLength before (u ++ after)
    rw [hstart] at hcut
    have hstop := cut?_byteLength u after
    rw [hlen] at hstop
    simp [slice?, from?, upTo?, hcut, hstop]

theorem stop_le_of_slice? (h : t.slice? s = some u) : s.stop ≤ t.byteLength := by
  obtain ⟨before, after, rfl, hstart, hlen⟩ := slice?_eq_some_iff.1 h
  simp only [byteLength_append, Span.stop]
  omega

theorem dropTrailing_append (p : Char → Bool) (t : Text) :
    t.dropTrailing p ++ (t.reverse.takeWhile p).reverse = t := by
  rw [dropTrailing, ← List.reverse_append, List.takeWhile_append_dropWhile, List.reverse_reverse]

theorem byteLength_dropTrailing_le (p : Char → Bool) (t : Text) :
    (t.dropTrailing p).byteLength ≤ t.byteLength := by
  have happ := congrArg byteLength (dropTrailing_append p t)
  rw [byteLength_append] at happ
  omega

end Text

namespace Excerpt

variable {e : Excerpt} {source : Text}

theorem in_iff_slice? : e.In source ↔ source.slice? e.span = some e.text := by
  rw [Text.slice?_eq_some_iff]
  constructor
  · rintro ⟨before, after, h, hstart⟩
    exact ⟨before, after, h, hstart, rfl⟩
  · rintro ⟨before, after, h, hstart, _⟩
    exact ⟨before, after, h, hstart⟩

/-- The span around an excerpt and what ends where it starts. -/
theorem cover_span {span : Span} (h : span.stop = e.start) :
    span.cover e.span = .between span.start e.stop := by
  simp only [Span.stop] at h
  simp only [Span.cover, Span.between, Span.stop, Excerpt.span, Excerpt.stop, Span.mk.injEq]
  omega

/-- Every part of an excerpt stands in the source behind what precedes it in the excerpt. -/
theorem In.part {a b c : Text} (h : e.In source) (hsplit : e.text = a ++ b ++ c) :
    (Excerpt.mk (e.start + a.byteLength) b).In source := by
  obtain ⟨before, after, rfl, hstart⟩ := h
  exact ⟨before ++ a, c ++ after, by simp [hsplit], by simp [hstart]⟩

theorem In.initial {b c : Text} (h : e.In source) (hsplit : e.text = b ++ c) :
    (Excerpt.mk e.start b).In source :=
  h.part (a := []) (by simpa using hsplit)

theorem In.final {a b : Text} (h : e.In source) (hsplit : e.text = a ++ b) :
    (Excerpt.mk (e.start + a.byteLength) b).In source :=
  h.part (c := []) (by simpa using hsplit)

/-- Adjacent excerpts stand in the source as one. -/
theorem In.append {f : Excerpt} (he : e.In source) (hf : f.In source) (hstop : e.stop = f.start) :
    (Excerpt.mk e.start (e.text ++ f.text)).In source := by
  obtain ⟨before, after, hsource, hstart⟩ := he
  obtain ⟨lead, tail, hsource', hlead⟩ := hf
  have hlen : (before ++ e.text).byteLength = lead.byteLength := by
    rw [hlead, ← hstop, Excerpt.stop, Text.byteLength_append, hstart]
  have hcut := Text.cut?_byteLength (before ++ e.text) after
  rw [hlen, ← hsource, hsource', List.append_assoc, Text.cut?_byteLength] at hcut
  simp only [Option.some.injEq, Prod.mk.injEq] at hcut
  exact ⟨before, tail, by simp [hsource, ← hcut.2], hstart⟩

theorem In.take (h : e.In source) (n : Nat) : (e.take n).In source :=
  h.initial (List.take_append_drop n e.text).symm

theorem In.drop (h : e.In source) (n : Nat) : (e.drop n).In source :=
  h.final (List.take_append_drop n e.text).symm

theorem In.dropLast (h : e.In source) : (Excerpt.mk e.start e.text.dropLast).In source := by
  rw [List.dropLast_eq_take]
  exact h.take _

theorem In.takeWhile (h : e.In source) (p : Char → Bool) : (e.takeWhile p).In source :=
  h.initial List.takeWhile_append_dropWhile.symm

theorem In.dropWhile (h : e.In source) (p : Char → Bool) : (e.dropWhile p).In source :=
  h.final List.takeWhile_append_dropWhile.symm

theorem In.dropTrailing (h : e.In source) (p : Char → Bool) : (e.dropTrailing p).In source :=
  h.initial (Text.dropTrailing_append p e.text).symm

theorem In.trim (h : e.In source) : e.trim.In source :=
  (h.dropWhile isBlank).dropTrailing isBlank

theorem In.breakAt_fst (h : e.In source) (stop : Text → Bool) : (e.breakAt stop).1.In source :=
  h.initial (Text.breakAt_append stop e.text).symm

theorem In.breakAt_snd (h : e.In source) (stop : Text → Bool) : (e.breakAt stop).2.In source :=
  h.final (Text.breakAt_append stop e.text).symm

theorem In.atStart (h : e.In source) : (Excerpt.mk e.start []).In source :=
  h.initial (List.nil_append e.text).symm

/-- The place just behind an excerpt. -/
theorem In.atStop (h : e.In source) : (Excerpt.mk e.stop []).In source :=
  h.final (List.append_nil e.text).symm

end Excerpt

end TemplateProjection
