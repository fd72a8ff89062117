import TemplateProjection.Outline.Item
import TemplateProjection.Outline.OfMarkup
import TemplateProjection.Proofs.Blocks

/-! Nesting by indentation, and blocks of text below a line. -/
namespace TemplateProjection.Outline

variable {n m : Nat} {es es' : List Entry} {items items' : List Item}

/-- Entries that start at indent `n` stand for the items: what is indented more belongs to the
element before it. -/
inductive Offside : Nat → List Entry → List Item → Prop
  | nil {n : Nat} : Offside n [] []
  | leaf {n : Nat} {item : Item} {es : List Entry} {items : List Item} (h : Offside n es items) :
      Offside n (⟨n, .leaf item⟩ :: es) (item :: items)
  | parent {n m : Nat} {tag : Tag} {lead children items : List Item} {below es : List Entry}
      (hdeep : n < m) (hbelow : Offside m below children) (h : Offside n es items) :
      Offside n (⟨n, .parent tag lead⟩ :: (below ++ es)) (.element tag (lead ++ children) :: items)

namespace Offside

theorem le (h : Offside n es items) : ∀ e ∈ es, n ≤ e.indent := by
  induction h with
  | nil => simp
  | leaf _ ih => exact List.forall_mem_cons.2 ⟨Nat.le_refl _, ih⟩
  | parent hdeep _ _ ihBelow ih =>
    refine List.forall_mem_cons.2 ⟨Nat.le_refl _, fun e he => ?_⟩
    rcases List.mem_append.1 he with he | he
    · exact Nat.le_trans (Nat.le_of_lt hdeep) (ihBelow e he)
    · exact ih e he

theorem head (h : Offside n es items) : ∀ e ∈ es.head?, e.indent = n := by
  cases h with
  | nil => simp
  | leaf => simp
  | parent => simp

theorem append (h : Offside n es items) (h' : Offside n es' items') :
    Offside n (es ++ es') (items ++ items') := by
  induction h with
  | nil => exact h'
  | leaf _ ih => exact .leaf (ih h')
  | parent hdeep hbelow _ _ ih =>
    rw [List.cons_append, List.append_assoc]
    exact .parent hdeep hbelow (ih h')

/-- Nesting the entries gives the items. -/
theorem nest_eq (h : Offside n es items) : nest es = items := by
  induction h with
  | nil => rw [nest]
  | leaf _ ih => rw [nest, ih]
  | @parent n m tag lead children items below es hdeep hbelow h ihBelow ih =>
    have hall : ∀ e ∈ below, decide (n < e.indent) = true :=
      fun e he => decide_eq_true (Nat.lt_of_lt_of_le hdeep (hbelow.le e he))
    have hstop : ∀ e ∈ es.head?, ¬ decide (n < e.indent) = true :=
      fun e he => by simp [h.head e he]
    rw [nest, takeWhile_append_of_head hall hstop, dropWhile_append_of_head hall hstop,
      ihBelow, ih]

end Offside

namespace Style

variable {style : Style} {d d' : Nat}

/-- The style tells depths apart. -/
def Indents (style : Style) : Prop := style.useTabs ∨ 1 ≤ style.indentWidth

/-- The indent of a line at a depth. -/
def width (style : Style) (d : Nat) : Nat := (style.indent d).byteLength

theorem byteLength_replicate {c : Char} (h : c.utf8Size = 1) (k : Nat) :
    Text.byteLength (List.replicate k c) = k := by
  induction k with
  | zero => rfl
  | succ k ih => rw [List.replicate_succ, Text.byteLength_cons, h, ih, Nat.add_comm]

theorem width_eq (style : Style) (d : Nat) :
    style.width d = if style.useTabs then d else d * style.indentWidth := by
  rw [width, indent]
  split
  · exact byteLength_replicate rfl d
  · exact byteLength_replicate rfl _

theorem width_lt (h : style.Indents) (hd : d < d') : style.width d < style.width d' := by
  rw [width_eq, width_eq]
  split
  · exact hd
  · next htabs =>
    have hpos : 1 ≤ style.indentWidth := by simpa [Indents, htabs] using h
    exact Nat.mul_lt_mul_of_pos_right hd hpos

theorem eq_of_mem_indent (style : Style) (d : Nat) : ∀ c ∈ style.indent d, c = ' ' ∨ c = '\t' := by
  rw [indent]
  split
  · exact fun c hc => Or.inr (List.eq_of_mem_replicate hc)
  · exact fun c hc => Or.inl (List.eq_of_mem_replicate hc)

end Style

theorem isBlank_of_mem_indent (style : Style) (d : Nat) : ∀ c ∈ style.indent d, isBlank c := by
  intro c hc
  rcases style.eq_of_mem_indent d c hc with rfl | rfl <;> decide

namespace Line

theorem ofText_blank_append {w : Text} {c : Char} (hw : ∀ e ∈ w, isBlank e) (hc : ¬ isBlank c)
    (t : Text) : ofText (w ++ c :: t) = ⟨w, c :: t.trimEnd⟩ := by
  have hstop : ∀ e ∈ (c :: t.trimEnd).head?, ¬ isBlank e := by
    rintro e ⟨⟩
    exact hc
  rw [ofText, Text.trimEnd_append _ ⟨c, List.mem_cons_self, hc⟩, Text.trimEnd_cons hc,
    takeWhile_append_of_head hw hstop, dropWhile_append_of_head hw hstop]

/-- A line that is indented as far as its depth wants. -/
theorem ofText_indent (style : Style) (d : Nat) {c : Char} (hc : ¬ isBlank c) (t : Text) :
    ofText (style.indent d ++ c :: t) = ⟨style.indent d, c :: t.trimEnd⟩ :=
  ofText_blank_append (isBlank_of_mem_indent style d) hc t

/-- The line of a piece of text in a block. -/
def ofPiece (style : Style) (d : Nat) (piece : Text) : Line :=
  if piece.isEmpty then ⟨[], []⟩ else ⟨style.indent d, piece⟩

theorem ofText_piece (style : Style) (d : Nat) {piece : Text} (h : piece.Trimmed) :
    ofText (style.indent d ++ piece) = ofPiece style d piece := by
  cases piece with
  | nil =>
    have hblank := Text.trimEnd_of_blank (isBlank_of_mem_indent style d)
    simp [ofText, ofPiece, hblank]
  | cons c t =>
    have hc := h.head c rfl
    have htrim := Text.trimEnd_eq_self h.last
    rw [Text.trimEnd_cons hc] at htrim
    rw [ofText_indent style d hc, htrim]
    rfl

theorem ofText_content (style : Style) (d : Nat) {content : Text} (h : content.Trimmed)
    (hne : content ≠ []) : ofText (style.indent d ++ content) = ⟨style.indent d, content⟩ := by
  rw [ofText_piece style d h, ofPiece, if_neg (by simpa using hne)]

@[simp]
theorem isEmpty_ofPiece (style : Style) (d : Nat) (piece : Text) :
    (ofPiece style d piece).isEmpty = piece.isEmpty := by
  cases piece <;> rfl

theorem isBelow_ofPiece {style : Style} {d : Nat} (h : n < style.width d) (piece : Text) :
    (ofPiece style d piece).isBelow n := by
  cases piece with
  | nil => rfl
  | cons c t => exact (Bool.or_eq_true _ _).mpr (Or.inr (decide_eq_true h))

theorem dropBytes_ofPiece (style : Style) (d : Nat) (piece : Text) :
    (ofPiece style d piece).dropBytes (style.width d) = piece := by
  cases piece with
  | nil => cases style.width d <;> rfl
  | cons c t =>
    have hcut := Text.cut?_byteLength (style.indent d) (c :: t)
    simp only [dropBytes, ofPiece, List.isEmpty_cons, Bool.false_eq_true, if_false, text,
      Text.from?, Style.width, hcut, Option.map_some, Option.getD_some]

end Line

/-- The line that comes first is not below indent `n`. -/
def Closed (n : Nat) (lines : List Line) : Prop :=
  ∀ line ∈ lines.head?, line.isEmpty = false ∧ line.indent ≤ n

theorem Closed.not_isBelow {lines : List Line} (h : Closed n lines) :
    ∀ line ∈ lines.head?, ¬ line.isBelow n := by
  intro line hline
  obtain ⟨hempty, hindent⟩ := h line hline
  simpa [Line.isBelow, hempty] using hindent

section Blocks

variable {style : Style} {d : Nat} {tail : List Line}

theorem blockLines_pieces (pieces : List Text) (h : n < style.width d) (htail : Closed n tail) :
    blockLines n (pieces.map (Line.ofPiece style d) ++ tail) =
      (pieces.rdropWhile List.isEmpty).map (Line.ofPiece style d) := by
  have hbelow : ∀ line ∈ pieces.map (Line.ofPiece style d), line.isBelow n := by
    intro line hline
    obtain ⟨piece, -, rfl⟩ := List.mem_map.1 hline
    exact Line.isBelow_ofPiece h piece
  have hempty : Line.isEmpty ∘ Line.ofPiece style d = List.isEmpty :=
    funext fun piece => Line.isEmpty_ofPiece style d piece
  rw [blockLines, takeWhile_append_of_head hbelow htail.not_isBelow, ← List.map_reverse,
    List.dropWhile_map, hempty, ← List.map_reverse]
  rfl

/-- The empty lines at the end of a block are left over. -/
theorem afterBlock_pieces (pieces : List Text) (h : n < style.width d) (htail : Closed n tail) :
    afterBlock n (pieces.map (Line.ofPiece style d) ++ tail) =
      (pieces.rtakeWhile List.isEmpty).map (Line.ofPiece style d) ++ tail := by
  have hsplit : pieces.map (Line.ofPiece style d) ++ tail =
      (pieces.rdropWhile List.isEmpty).map (Line.ofPiece style d) ++
        ((pieces.rtakeWhile List.isEmpty).map (Line.ofPiece style d) ++ tail) := by
    rw [← List.append_assoc, ← List.map_append, List.rdropWhile_append_rtakeWhile]
  rw [afterBlock, blockLines_pieces pieces h htail, hsplit]
  exact List.drop_left

theorem commonIndent_pieces {pieces : List Text} (h : ∃ piece ∈ pieces, piece.isEmpty = false) :
    commonIndent (pieces.map (Line.ofPiece style d)) = style.width d := by
  have hall : ∀ k ∈ ((pieces.map (Line.ofPiece style d)).filter (!·.isEmpty)).map Line.indent,
      k = style.width d := by
    intro k hk
    obtain ⟨line, hline, rfl⟩ := List.mem_map.1 hk
    obtain ⟨hmem, hsolid⟩ := List.mem_filter.1 hline
    obtain ⟨piece, -, rfl⟩ := List.mem_map.1 hmem
    have hpiece : piece.isEmpty = false := by simpa using hsolid
    simp only [Line.ofPiece, hpiece, Bool.false_eq_true, if_false]
    rfl
  have hmem : style.width d ∈
      ((pieces.map (Line.ofPiece style d)).filter (!·.isEmpty)).map Line.indent := by
    obtain ⟨piece, hpiece, hsolid⟩ := h
    refine List.mem_map.2 ⟨Line.ofPiece style d piece, ?_, ?_⟩
    · exact List.mem_filter.2 ⟨List.mem_map_of_mem hpiece, by simp [hsolid]⟩
    · simp only [Line.ofPiece, hsolid, Bool.false_eq_true, if_false]
      rfl
  have hmin := List.min?_eq_some_iff.2 ⟨hmem, fun k hk => Nat.le_of_eq (hall k hk).symm⟩
  rw [commonIndent, hmin]
  rfl

/-- The text of a block is what its lines have beyond their indentation. -/
theorem blockText_pieces (pieces : List Text) (h : n < style.width d) (htail : Closed n tail) :
    blockText n (pieces.map (Line.ofPiece style d) ++ tail) =
      Text.join ['\n'] (pieces.rdropWhile List.isEmpty) := by
  rw [blockText, blockLines_pieces pieces h htail]
  by_cases hnil : pieces.rdropWhile List.isEmpty = []
  · rw [hnil]
    rfl
  · have hsolid : ∃ piece ∈ pieces.rdropWhile List.isEmpty, piece.isEmpty = false :=
      ⟨_, List.getLast_mem hnil, by simpa using List.rdropWhile_last_not _ _ hnil⟩
    rw [commonIndent_pieces hsolid, List.map_map]
    have hdrop : Line.dropBytes (style.width d) ∘ Line.ofPiece style d = id :=
      funext (Line.dropBytes_ofPiece style d)
    rw [hdrop, List.map_id]

theorem entries_empty {pieces : List Text} (h : ∀ piece ∈ pieces, piece.isEmpty) :
    entries (pieces.map (Line.ofPiece style d) ++ tail) = entries tail := by
  induction pieces with
  | nil => rfl
  | cons piece pieces ih =>
    obtain ⟨hpiece, hpieces⟩ := List.forall_mem_cons.1 h
    rw [List.map_cons, List.cons_append, entries, Line.isEmpty_ofPiece, if_pos hpiece, ih hpieces]

end Blocks

end TemplateProjection.Outline
