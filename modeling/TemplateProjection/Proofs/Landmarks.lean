import TemplateProjection.Proofs.Nesting
import TemplateProjection.Template.OfMarkup

/-!
The nodes of a tree in document order, and the landmarks among them: what a template keeps of its
markup. A conditional has gaps between its branches.
-/
namespace TemplateProjection

/-- An element with the spans of its properties, a comment, or a construct that templates give no
meaning. -/
inductive Landmark where
  | element (span : Span) (properties : List Span)
  | comment (content : Text) (span : Span)
  | other (kind : Text) (loc : Excerpt)

namespace Landmark

def span : Landmark → Span
  | .element span _ => span
  | .comment _ span => span
  | .other _ loc => loc.span

def elementSpan? : Landmark → Option Span
  | .element span _ => some span
  | _ => none

def comment? : Landmark → Option (Text × Span)
  | .comment content span => some (content, span)
  | _ => none

def other? : Landmark → Option (Text × Excerpt)
  | .other kind loc => some (kind, loc)
  | _ => none

/-- A comment that lies in a gap. -/
def lostIn (gaps : List Span) : Landmark → Bool
  | .comment _ span => gaps.any (·.contains span)
  | _ => false

/-- The landmark lies between two offsets; a comment is not empty. -/
structure Within (start stop : Nat) (x : Landmark) : Prop where
  start_le : start ≤ x.span.start
  le_stop : x.span.stop ≤ stop
  filled : ∀ content span, x = .comment content span → span.start < span.stop

variable {x : Landmark} {xs : List Landmark} {gaps gaps' : List Span} {start stop : Nat}

@[simp]
theorem lostIn_nil (x : Landmark) : x.lostIn [] = false := by
  cases x <;> rfl

theorem lostIn_append (x : Landmark) (gaps gaps' : List Span) :
    x.lostIn (gaps ++ gaps') = (x.lostIn gaps || x.lostIn gaps') := by
  cases x with
  | element => rfl
  | comment => exact List.any_append
  | other => rfl

theorem lostIn_congr (h : ∀ gap, gap ∈ gaps ↔ gap ∈ gaps') : x.lostIn gaps = x.lostIn gaps' := by
  cases x with
  | element => rfl
  | comment =>
    rw [Bool.eq_iff_iff, lostIn, lostIn, List.any_eq_true, List.any_eq_true]
    simp only [h]
  | other => rfl

theorem Within.mono {start' stop' : Nat} (h : x.Within start stop) (hstart : start' ≤ start)
    (hstop : stop ≤ stop') : x.Within start' stop' :=
  ⟨Nat.le_trans hstart h.start_le, Nat.le_trans h.le_stop hstop, h.filled⟩

/-- A gap outside the offsets holds no comment between them. -/
theorem Within.not_lostIn (h : x.Within start stop)
    (hgaps : ∀ gap ∈ gaps, stop ≤ gap.start ∨ gap.stop ≤ start) : x.lostIn gaps = false := by
  cases x with
  | element => rfl
  | other => rfl
  | comment content span =>
    rw [lostIn, List.any_eq_false]
    intro gap hgap hcontains
    have hfilled := h.filled content span rfl
    have hstart : start ≤ span.start := h.start_le
    have hstop : span.stop ≤ stop := h.le_stop
    rw [Span.contains_iff] at hcontains
    rcases hgaps gap hgap with hafter | hbefore <;> omega

/-- More gaps lose more comments. -/
theorem filter_lostIn_append (xs : List Landmark) (gaps gaps' : List Span) :
    xs.filter (!·.lostIn (gaps ++ gaps')) =
      (xs.filter (!·.lostIn gaps)).filter (!·.lostIn gaps') := by
  rw [List.filter_filter]
  refine List.filter_congr fun x _ => ?_
  rw [lostIn_append, Bool.not_or, Bool.and_comm]

theorem filter_lostIn_of_apart (h : ∀ x ∈ xs, x.lostIn gaps = false) :
    xs.filter (!·.lostIn gaps) = xs :=
  List.filter_eq_self.2 fun x hx => by rw [h x hx, Bool.not_false]

theorem filterMap_lostIn {α : Type} {f : Landmark → Option α} (gaps : List Span)
    (hcomment : ∀ content span, f (.comment content span) = none) :
    (xs.filter (!·.lostIn gaps)).filterMap f = xs.filterMap f := by
  rw [List.filterMap_filter]
  refine congrArg (List.filterMap · xs) (funext fun x => ?_)
  cases x with
  | element => rfl
  | comment content span => rw [hcomment, ite_self]
  | other => rfl

theorem filterMap_comment?_lostIn (xs : List Landmark) (gaps : List Span) :
    (xs.filter (!·.lostIn gaps)).filterMap comment? =
      (xs.filterMap comment?).filter fun comment => !gaps.any (·.contains comment.2) := by
  rw [List.filterMap_filter, List.filter_filterMap]
  refine congrArg (List.filterMap · xs) (funext fun x => ?_)
  cases x <;> rfl

end Landmark

namespace Template

/-- The element stands for its children only. -/
def dissolves (tag : Markup.OpenTag) : Bool :=
  tag.name == "template".toList && tag.attributes.any isStructural

end Template

namespace Markup

mutual

/-- The node and all nodes below it, each before its children. -/
def Node.preorder : Node → List Node
  | .element tag children span endName => .element tag children span endName :: preorderOf children
  | .text t span => [.text t span]
  | .comment data span => [.comment data span]
  | .declaration t span => [.declaration t span]

def preorderOf : List Node → List Node
  | [] => []
  | node :: nodes => node.preorder ++ preorderOf nodes

end

def Node.landmark? : Node → Option Landmark
  | .element tag _ span _ =>
    if Template.dissolves tag then none
    else some (.element span ((tag.attributes.filter (!Template.isStructural ·)).map (·.span)))
  | .text _ _ => none
  | .comment data span => some (.comment data span)
  | .declaration t span => some (.other "declaration".toList ⟨span.start, t⟩)

/-- The landmarks of a tree. -/
def landmarksOf (nodes : List Node) : List Landmark :=
  (preorderOf nodes).filterMap Node.landmark?

def Node.element? : Node → Option (OpenTag × Span)
  | .element tag _ span _ => some (tag, span)
  | _ => none

def Node.comment? : Node → Option (Text × Span)
  | .comment data span => some (data, span)
  | _ => none

def Node.declaration? : Node → Option (Text × Span)
  | .declaration t span => some (t, span)
  | _ => none

/-- The elements of a tree in order, each with its opening tag. -/
def elementsOf (nodes : List Node) : List (OpenTag × Span) :=
  (preorderOf nodes).filterMap Node.element?

def commentsOf (nodes : List Node) : List (Text × Span) :=
  (preorderOf nodes).filterMap Node.comment?

def declarationsOf (nodes : List Node) : List (Text × Span) :=
  (preorderOf nodes).filterMap Node.declaration?

section Projections

variable (nodes : List Node)

theorem filterMap_elementSpan? : (landmarksOf nodes).filterMap Landmark.elementSpan? =
    ((elementsOf nodes).filter (!Template.dissolves ·.1)).map (·.2) := by
  rw [landmarksOf, elementsOf, List.filterMap_filterMap, List.filter_filterMap, List.map_filterMap]
  refine congrArg (List.filterMap · _) (funext fun node => ?_)
  cases node with
  | element tag =>
    cases h : Template.dissolves tag <;>
      simp [Node.landmark?, Node.element?, h, Landmark.elementSpan?, Option.filter_some]
  | _ => rfl

theorem filterMap_comment? :
    (landmarksOf nodes).filterMap Landmark.comment? = commentsOf nodes := by
  rw [landmarksOf, commentsOf, List.filterMap_filterMap]
  refine congrArg (List.filterMap · _) (funext fun node => ?_)
  cases node with
  | element tag =>
    cases h : Template.dissolves tag <;>
      simp [Node.landmark?, Node.comment?, h, Landmark.comment?]
  | _ => rfl

theorem filterMap_other? : (landmarksOf nodes).filterMap Landmark.other? =
    (declarationsOf nodes).map fun (t, span) => ("declaration".toList, ⟨span.start, t⟩) := by
  rw [landmarksOf, declarationsOf, List.filterMap_filterMap, List.map_filterMap]
  refine congrArg (List.filterMap · _) (funext fun node => ?_)
  cases node with
  | element tag =>
    cases h : Template.dissolves tag <;>
      simp [Node.landmark?, Node.declaration?, h, Landmark.other?]
  | _ => rfl

end Projections

theorem landmarksOf_cons (node : Node) (nodes : List Node) :
    landmarksOf (node :: nodes) = landmarksOf [node] ++ landmarksOf nodes := by
  simp [landmarksOf, preorderOf]

theorem landmarksOf_element (tag : OpenTag) (children : List Node) (span : Span)
    (endName : Option Span) :
    landmarksOf [.element tag children span endName] =
      (Node.element tag children span endName).landmark?.toList ++ landmarksOf children := by
  simp only [landmarksOf, preorderOf, Node.preorder, List.append_nil, List.filterMap_cons]
  cases (Node.element tag children span endName).landmark? <;> rfl

end Markup

namespace Template

mutual

/-- The node and all nodes below it, each before its children and its branches in order. -/
def Node.preorder : Node → List Node
  | .element head children => .element head children :: preorderOf children
  | .text content span => [.text content span]
  | .comment content span => [.comment content span]
  | .interpolation value loc => [.interpolation value loc]
  | .conditional branches loc => .conditional branches loc :: preorderOfBranches branches
  | .loop clause children loc => .loop clause children loc :: preorderOf children
  | .other kind loc => [.other kind loc]

def preorderOf : List Node → List Node
  | [] => []
  | node :: nodes => node.preorder ++ preorderOf nodes

def Branch.preorder : Branch → List Node
  | .mk _ children _ => preorderOf children

def preorderOfBranches : List Branch → List Node
  | [] => []
  | branch :: branches => branch.preorder ++ preorderOfBranches branches

end

def Node.span : Node → Span
  | .element head _ => head.loc.span
  | .text _ span => span
  | .comment _ span => span
  | .interpolation _ loc => loc.span
  | .conditional _ loc => loc.span
  | .loop _ _ loc => loc.span
  | .other _ loc => loc.span

def Node.landmark? : Node → Option Landmark
  | .element head _ => some (.element head.loc.span (head.properties.map (·.loc.span)))
  | .comment content span => some (.comment content span)
  | .other kind loc => some (.other kind loc)
  | _ => none

/-- What lies between each branch and the next. -/
def gapsBetween : List Branch → List Span
  | branch :: next :: branches =>
    .between branch.loc.stop next.loc.start :: gapsBetween (next :: branches)
  | _ => []

def Node.gaps : Node → List Span
  | .conditional branches _ => gapsBetween branches
  | _ => []

/-- The landmarks of a tree. -/
def landmarksOf (nodes : List Node) : List Landmark :=
  (preorderOf nodes).filterMap Node.landmark?

/-- The gaps of all conditionals of a tree. -/
def gapsOf (nodes : List Node) : List Span := (preorderOf nodes).flatMap Node.gaps

def Branch.children : Branch → List Node
  | .mk _ children _ => children

variable {nodes nodes' : List Node} {branches : List Branch} {branch next : Branch}

theorem preorderOf_append (nodes nodes' : List Node) :
    preorderOf (nodes ++ nodes') = preorderOf nodes ++ preorderOf nodes' := by
  induction nodes with
  | nil => rfl
  | cons node nodes ih => simp [preorderOf, ih]

theorem preorderOfBranches_eq (branches : List Branch) :
    preorderOfBranches branches = preorderOf (branches.flatMap Branch.children) := by
  induction branches with
  | nil => rfl
  | cons branch branches ih =>
    obtain ⟨condition, children, loc⟩ := branch
    rw [preorderOfBranches, ih, Branch.preorder, List.flatMap_cons, preorderOf_append]
    rfl

@[simp]
theorem landmarksOf_append (nodes nodes' : List Node) :
    landmarksOf (nodes ++ nodes') = landmarksOf nodes ++ landmarksOf nodes' := by
  rw [landmarksOf, preorderOf_append, List.filterMap_append]
  rfl

@[simp]
theorem gapsOf_append (nodes nodes' : List Node) :
    gapsOf (nodes ++ nodes') = gapsOf nodes ++ gapsOf nodes' := by
  rw [gapsOf, preorderOf_append, List.flatMap_append]
  rfl

theorem landmarksOf_cons (node : Node) (nodes : List Node) :
    landmarksOf (node :: nodes) = landmarksOf [node] ++ landmarksOf nodes :=
  landmarksOf_append [node] nodes

theorem gapsOf_cons (node : Node) (nodes : List Node) :
    gapsOf (node :: nodes) = gapsOf [node] ++ gapsOf nodes :=
  gapsOf_append [node] nodes

theorem landmarksOf_element (head : ElementHead) (children : List Node) :
    landmarksOf [.element head children] =
      .element head.loc.span (head.properties.map (·.loc.span)) :: landmarksOf children := by
  simp [landmarksOf, preorderOf, Node.preorder, Node.landmark?]

theorem gapsOf_element (head : ElementHead) (children : List Node) :
    gapsOf [.element head children] = gapsOf children := by
  simp [gapsOf, preorderOf, Node.preorder, Node.gaps]

theorem landmarksOf_loop (clause : LoopClause) (children : List Node) (loc : Excerpt) :
    landmarksOf [.loop clause children loc] = landmarksOf children := by
  simp only [landmarksOf, preorderOf, Node.preorder, List.append_nil]
  exact List.filterMap_cons_none rfl

theorem gapsOf_loop (clause : LoopClause) (children : List Node) (loc : Excerpt) :
    gapsOf [.loop clause children loc] = gapsOf children := by
  simp [gapsOf, preorderOf, Node.preorder, Node.gaps]

theorem landmarksOf_conditional (branches : List Branch) (loc : Excerpt) :
    landmarksOf [.conditional branches loc] =
      landmarksOf (branches.flatMap Branch.children) := by
  simp only [landmarksOf, preorderOf, Node.preorder, List.append_nil, preorderOfBranches_eq]
  exact List.filterMap_cons_none rfl

theorem gapsOf_conditional (branches : List Branch) (loc : Excerpt) :
    gapsOf [.conditional branches loc] =
      gapsBetween branches ++ gapsOf (branches.flatMap Branch.children) := by
  simp [gapsOf, preorderOf, Node.preorder, Node.gaps, preorderOfBranches_eq]

theorem gapsBetween_concat (branches : List Branch) (branch next : Branch) :
    gapsBetween (branches ++ [branch] ++ [next]) =
      gapsBetween (branches ++ [branch]) ++ [.between branch.loc.stop next.loc.start] := by
  induction branches with
  | nil => rfl
  | cons first branches ih =>
    cases branches with
    | nil => rfl
    | cons second branches =>
      simp only [List.cons_append, gapsBetween] at ih ⊢
      rw [ih]

end Template

end TemplateProjection
