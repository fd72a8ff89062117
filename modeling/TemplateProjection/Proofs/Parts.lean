import TemplateProjection.Proofs.Placement
import TemplateProjection.Proofs.Search
import TemplateProjection.Template.OfMarkup

/-! What a template is made of, and where each part of it was read in the source. -/
namespace TemplateProjection.Template

variable {source : Text} {e : Excerpt} {a : Markup.Attribute}

/-- The values that a property gives to be computed. -/
def Property.values : Property → List Expression
  | .attribute _ => []
  | .directive d => d.value.toList

def LoopClause.expressions (clause : LoopClause) : List Expression :=
  clause.source :: (clause.value.toList ++ clause.key.toList ++ clause.index.toList)

/-- What the code for a template is made from. -/
inductive Part where
  | head (head : ElementHead)
  /-- An interpolation or a condition. -/
  | expression (value : Expression)
  | clause (clause : LoopClause)

/-- The expressions of a part that the code computes. -/
def Part.expressions : Part → List Expression
  | .head h => h.properties.flatMap Property.values
  | .expression x => [x]
  | .clause c => c.expressions

mutual

def Node.parts : Node → List Part
  | .element head children => .head head :: partsOfAll children
  | .text _ _ => []
  | .comment _ _ => []
  | .interpolation value _ => [.expression value]
  | .conditional branches _ => partsOfBranches branches
  | .loop clause children _ => .clause clause :: partsOfAll children
  | .other _ _ => []

def partsOfAll : List Node → List Part
  | [] => []
  | node :: nodes => node.parts ++ partsOfAll nodes

def Branch.parts : Branch → List Part
  | .mk condition children _ => condition.toList.map .expression ++ partsOfAll children

def partsOfBranches : List Branch → List Part
  | [] => []
  | branch :: branches => branch.parts ++ partsOfBranches branches

end

theorem partsOfAll_eq (nodes : List Node) : partsOfAll nodes = nodes.flatMap Node.parts := by
  induction nodes with
  | nil => rfl
  | cons node nodes ih => simp [partsOfAll, ih]

theorem partsOfBranches_eq (branches : List Branch) :
    partsOfBranches branches = branches.flatMap Branch.parts := by
  induction branches with
  | nil => rfl
  | cons branch branches ih => simp [partsOfBranches, ih]

/-- The part was read in the source. -/
inductive Part.ReadIn (source : Text) : Part → Prop
  | head {head : ElementHead} {tag : Markup.OpenTag} {stop : Nat} (htag : tag.ReadIn source)
      (hstop : (Excerpt.mk stop []).In source)
      (hend : ∀ span ∈ head.endName, Markup.EndTagIn source tag.name span)
      (hname : head.tag = tag.name)
      (hproperties : head.properties =
        (tag.attributes.filter (!isStructural ·)).map (propertyOf source))
      (hloc : head.loc = locate source (.between tag.span.start stop)) :
      ReadIn source (.head head)
  | interpolation {inner : Excerpt} (h : inner.In source) :
      ReadIn source (.expression (.ofExcerpt inner.trim))
  | condition {a : Markup.Attribute} (h : a.PlacedIn source) :
      ReadIn source (.expression (conditionOf a))
  | clause {a : Markup.Attribute} (h : a.PlacedIn source) :
      ReadIn source (.clause (.ofAttribute a))

def AllReadIn (source : Text) (parts : List Part) : Prop := ∀ part ∈ parts, part.ReadIn source

theorem AllReadIn.append {parts parts' : List Part} (h : AllReadIn source parts)
    (h' : AllReadIn source parts') : AllReadIn source (parts ++ parts') :=
  List.forall_mem_append.2 ⟨h, h'⟩

theorem allReadIn_flatMap {α : Type} {xs : List α} {f : α → List Part} :
    AllReadIn source (xs.flatMap f) ↔ ∀ x ∈ xs, AllReadIn source (f x) := by
  simp only [AllReadIn, List.mem_flatMap]
  constructor
  · intro h x hx y hy
    exact h y ⟨x, hx, hy⟩
  · rintro h y ⟨x, hx, hy⟩
    exact h x hx y hy

theorem partsOfAll_readIn {nodes : List Node} :
    AllReadIn source (partsOfAll nodes) ↔ ∀ node ∈ nodes, AllReadIn source node.parts := by
  rw [partsOfAll_eq]
  exact allReadIn_flatMap

theorem partsOfBranches_readIn {branches : List Branch} :
    AllReadIn source (partsOfBranches branches) ↔ ∀ b ∈ branches, AllReadIn source b.parts := by
  rw [partsOfBranches_eq]
  exact allReadIn_flatMap

/-- The text of a segment without braces. -/
def Segment.content : Segment → Excerpt
  | .plain text => text
  | .interpolation inner => inner

/-- A segment stands in the source with its braces and without them. -/
theorem segments_in (h : e.In source) :
    ∀ s ∈ segments e, s.content.In source ∧ s.excerpt.In source := by
  fun_induction segments e with
  | case1 e hnone =>
    intro s hs
    rw [List.mem_singleton.1 hs]
    exact ⟨h, h⟩
  | case2 e before inner after hfirst _ innerStart ih =>
    have happ := (firstInterpolation?_append hfirst).symm
    have hbraces : openBraces.byteLength = 2 ∧ closeBraces.byteLength = 2 := by decide
    have hbefore : (Excerpt.mk e.start before).In source :=
      h.initial (c := openBraces ++ inner ++ closeBraces ++ after) (by simp [happ])
    have hinner : (Excerpt.mk innerStart inner).In source := by
      have := h.part (a := before ++ openBraces) (b := inner) (by rw [happ, List.append_assoc])
      simpa [innerStart, hbraces.1, Nat.add_assoc] using this
    have hwhole : (Segment.interpolation ⟨innerStart, inner⟩).excerpt.In source := by
      have := h.part (a := before) (b := openBraces ++ inner ++ closeBraces) (c := after)
        (by simp [happ])
      simpa [Segment.excerpt, innerStart] using this
    have hafter : (Excerpt.mk (innerStart + inner.byteLength + 2) after).In source := by
      have := h.final happ
      simpa [innerStart, hbraces.1, hbraces.2, Nat.add_assoc] using this
    intro s hs
    rcases List.mem_cons.1 hs with rfl | hs
    · exact ⟨hbefore, hbefore⟩
    · rcases List.mem_cons.1 hs with rfl | hs
      · exact ⟨hinner, hwhole⟩
      · exact ih hafter s hs

/-- The nodes of a text are those of its plain segments and of its interpolations. -/
theorem mem_textNodes {node : Node} (h : node ∈ textNodes e) :
    (∃ text, .plain text ∈ segments e ∧
      node = .text (Entity.normalize text.text) text.span) ∨
      ∃ inner, .interpolation inner ∈ segments e ∧
        node = .interpolation (.ofExcerpt inner.trim) (Segment.interpolation inner).excerpt := by
  obtain ⟨s, hs, hsome⟩ := List.mem_filterMap.1 h
  cases s with
  | plain text =>
    simp only [Segment.node?] at hsome
    split at hsome
    · cases hsome
    · exact Or.inl ⟨text, hs, (Option.some.inj hsome).symm⟩
  | interpolation inner => exact Or.inr ⟨inner, hs, (Option.some.inj hsome).symm⟩

theorem textNodes_readIn (h : e.In source) :
    ∀ node ∈ textNodes e, AllReadIn source node.parts := by
  intro node hnode
  rcases mem_textNodes hnode with ⟨text, -, rfl⟩ | ⟨inner, hs, rfl⟩
  · simp [Node.parts, AllReadIn]
  · intro part hpart
    rw [Node.parts, List.mem_singleton] at hpart
    rw [hpart]
    exact .interpolation (segments_in h _ hs).1

section Gathering

variable {P : Node → Prop} {Q : Branch → Prop}

/-- What a markup node adds to its siblings is a node with one property or a branch with another. -/
def Piece.All (P : Node → Prop) (Q : Branch → Prop) : Piece → Prop
  | .node n => P n
  | .branch _ b => Q b

theorem joinBranch_forall {siblings : List Node} {b : Branch}
    (hsingle : ∀ b, Q b → P (.conditional [b] b.loc))
    (hjoin : ∀ branches loc b, P (.conditional branches loc) → Q b →
      P (.conditional (branches ++ [b]) (locate source (loc.span.cover b.loc.span))))
    (h : ∀ node ∈ siblings, P node) (hb : Q b) : ∀ node ∈ joinBranch source siblings b, P node := by
  have hkept : ∀ node ∈ (siblings.reverse.dropWhile Node.isComment).reverse, P node := by
    intro node hmem
    have := (List.dropWhile_sublist Node.isComment).subset (List.mem_reverse.1 hmem)
    exact h node (List.mem_reverse.1 this)
  simp only [joinBranch]
  split
  · next branches loc hlast =>
    refine List.forall_mem_append.2 ⟨fun n hn => hkept n (List.dropLast_subset _ hn), ?_⟩
    rw [List.forall_mem_singleton]
    exact hjoin branches loc b (hkept _ (List.mem_of_getLast? hlast)) hb
  · exact List.forall_mem_append.2 ⟨h, List.forall_mem_singleton.2 (hsingle b hb)⟩

theorem addPiece_forall {siblings : List Node} {piece : Piece}
    (hsingle : ∀ b, Q b → P (.conditional [b] b.loc))
    (hjoin : ∀ branches loc b, P (.conditional branches loc) → Q b →
      P (.conditional (branches ++ [b]) (locate source (loc.span.cover b.loc.span))))
    (h : ∀ node ∈ siblings, P node) (hpiece : piece.All P Q) :
    ∀ node ∈ addPiece source siblings piece, P node := by
  cases piece with
  | node n => exact List.forall_mem_append.2 ⟨h, List.forall_mem_singleton.2 hpiece⟩
  | branch continues b =>
    cases continues with
    | true => exact joinBranch_forall hsingle hjoin h hpiece
    | false => exact List.forall_mem_append.2 ⟨h, List.forall_mem_singleton.2 (hsingle b hpiece)⟩

/-- A property that conditionals have if their branches have another holds of all nodes that are
gathered. -/
theorem gather_forall {pieces : List Piece} (hsingle : ∀ b, Q b → P (.conditional [b] b.loc))
    (hjoin : ∀ branches loc b, P (.conditional branches loc) → Q b →
      P (.conditional (branches ++ [b]) (locate source (loc.span.cover b.loc.span))))
    (h : ∀ piece ∈ pieces, piece.All P Q) : ∀ node ∈ gather source pieces, P node := by
  have hfold : ∀ siblings : List Node, (∀ node ∈ siblings, P node) →
      ∀ node ∈ pieces.foldl (addPiece source) siblings, P node := by
    induction pieces with
    | nil => exact fun _ hs => hs
    | cons piece pieces ih =>
      obtain ⟨hpiece, hpieces⟩ := List.forall_mem_cons.1 h
      exact fun siblings hs => ih hpieces _ (addPiece_forall hsingle hjoin hs hpiece)
  exact hfold [] (by simp)

end Gathering

/-- The parts of what a markup node adds to its siblings. -/
def Piece.parts : Piece → List Part
  | .node n => n.parts
  | .branch _ b => b.parts

theorem gather_readIn {pieces : List Piece}
    (h : ∀ piece ∈ pieces, AllReadIn source piece.parts) :
    AllReadIn source (partsOfAll (gather source pieces)) := by
  refine partsOfAll_readIn.2 (gather_forall (Q := fun b => AllReadIn source b.parts) ?_ ?_ ?_)
  · exact fun b hb => partsOfBranches_readIn.2 (List.forall_mem_singleton.2 hb)
  · intro branches loc b hbranches hb
    exact partsOfBranches_readIn.2 (List.forall_mem_append.2
      ⟨partsOfBranches_readIn.1 hbranches, List.forall_mem_singleton.2 hb⟩)
  · intro piece hpiece
    cases piece with
    | node n => exact h _ hpiece
    | branch continues b => exact h _ hpiece

theorem loopClause?_readIn {attributes : List Markup.Attribute} {clause : LoopClause}
    (h : ∀ a ∈ attributes, a.PlacedIn source) (hclause : loopClause? attributes = some clause) :
    (Part.clause clause).ReadIn source := by
  obtain ⟨a, ha, rfl⟩ := Option.map_eq_some_iff.1 hclause
  have hmem := List.mem_of_getLast? ha
  exact .clause (h a (List.mem_filter.1 hmem).1)

theorem branchKind?_readIn {attributes : List Markup.Attribute} {kind : BranchKind}
    (h : ∀ a ∈ attributes, a.PlacedIn source) (hkind : branchKind? attributes = some kind) :
    AllReadIn source (kind.condition?.toList.map .expression) := by
  obtain ⟨a, ha, hsome⟩ := List.mem_filterMap.1 (List.mem_of_getLast? hkind)
  have hcondition := Part.ReadIn.condition (h a ha)
  simp only [BranchKind.ofAttribute?] at hsome
  repeat' split at hsome
  all_goals cases hsome
  · simpa [BranchKind.condition?, AllReadIn] using hcondition
  · simpa [BranchKind.condition?, AllReadIn] using hcondition
  · simp [BranchKind.condition?, AllReadIn]

theorem elementPiece_readIn {tag : Markup.OpenTag} {endName : Option Span} {stop : Nat}
    {children : List Node} (htag : tag.ReadIn source) (hstop : (Excerpt.mk stop []).In source)
    (hend : ∀ span ∈ endName, Markup.EndTagIn source tag.name span)
    (hchildren : AllReadIn source (partsOfAll children)) :
    ∀ piece ∈ elementPiece source tag (.between tag.span.start stop) endName children,
      AllReadIn source piece.parts := by
  -- an element, unless its tag only stands for the children
  have hbody : ∀ (unwraps : Bool) (head : ElementHead), (Part.head head).ReadIn source →
      AllReadIn source
        (partsOfAll (if unwraps then children else [.element head children])) := by
    intro unwraps head hhead
    cases unwraps with
    | true => exact hchildren
    | false =>
      refine List.forall_mem_append.2 ⟨List.forall_mem_cons.2 ⟨hhead, hchildren⟩, ?_⟩
      simp [partsOfAll]
  have hloop : ∀ (clause : LoopClause) (body : List Node) (loc : Excerpt),
      loopClause? tag.attributes = some clause → AllReadIn source (partsOfAll body) →
      AllReadIn source (partsOfAll [.loop clause body loc]) := by
    intro clause body loc hclause hbody
    refine List.forall_mem_append.2 ⟨List.forall_mem_cons.2 ⟨?_, hbody⟩, ?_⟩
    · exact loopClause?_readIn htag.attributes hclause
    · simp [partsOfAll]
  simp only [elementPiece]
  split
  · next kind hkind =>
    rw [List.forall_mem_singleton]
    refine (branchKind?_readIn htag.attributes hkind).append ?_
    split
    · next clause hclause =>
      exact hloop clause _ _ hclause (hbody _ _ (.head htag hstop hend rfl rfl rfl))
    · exact hbody _ _ (.head htag hstop hend rfl rfl rfl)
  · rw [List.forall_mem_map]
    refine partsOfAll_readIn.1 ?_
    split
    · next clause hclause =>
      exact hloop clause _ _ hclause (hbody _ _ (.head htag hstop hend rfl rfl rfl))
    · exact hbody _ _ (.head htag hstop hend rfl rfl rfl)

theorem piecesOfAll_eq (source : Text) (nodes : List Markup.Node) :
    piecesOfAll source nodes = nodes.flatMap (piecesOf source) := by
  induction nodes with
  | nil => rfl
  | cons node nodes ih => simp [piecesOfAll, ih]

theorem piecesOf_readIn {node : Markup.Node} (h : node.ReadIn source) :
    ∀ piece ∈ piecesOf source node, AllReadIn source piece.parts := by
  induction h with
  | element htag _ hstop hend ih =>
    refine elementPiece_readIn htag hstop hend (gather_readIn ?_)
    rw [piecesOfAll_eq]
    intro piece hpiece
    obtain ⟨child, hchild, hpiece⟩ := List.mem_flatMap.1 hpiece
    exact ih child hchild piece hpiece
  | text he =>
    intro piece hpiece
    obtain ⟨node, hnode, rfl⟩ := List.mem_map.1 hpiece
    exact textNodes_readIn he node hnode
  | comment => simp [piecesOf, Piece.parts, Node.parts, AllReadIn]
  | declaration => simp [piecesOf, Piece.parts, Node.parts, AllReadIn]

/-- Every part of a template was read in its source. -/
theorem parse_readIn (source : Text) : AllReadIn source (partsOfAll (parse source)) := by
  refine gather_readIn fun piece hpiece => ?_
  rw [piecesOfAll_eq] at hpiece
  obtain ⟨node, hnode, hpiece⟩ := List.mem_flatMap.1 hpiece
  exact piecesOf_readIn (Markup.parse_readIn source node hnode) piece hpiece

end TemplateProjection.Template
