import TemplateProjection.Markup.Tree
import TemplateProjection.Template.Directive
import TemplateProjection.Template.Interpolation
import TemplateProjection.Template.Loop

/-! The template tree of a markup text. Every text has one. -/
namespace TemplateProjection.Template

/-- How an element takes part in a conditional. -/
inductive BranchKind where
  | start (condition : Expression)
  | further (condition : Expression)
  | otherwise
deriving DecidableEq, Repr

namespace BranchKind

def condition? : BranchKind → Option Expression
  | .start condition => some condition
  | .further condition => some condition
  | .otherwise => none

/-- Whether the branch goes on with a conditional that precedes it. -/
def continues : BranchKind → Bool
  | .start _ => false
  | _ => true

def ofAttribute? (a : Markup.Attribute) : Option BranchKind :=
  if a.name = "v-if".toList then some (.start (conditionOf a))
  else if a.name = "v-else-if".toList then some (.further (conditionOf a))
  else if a.name = "v-else".toList then some .otherwise
  else none

end BranchKind

def isLoop (a : Markup.Attribute) : Bool := a.name == "v-for".toList

/-- A condition or a loop clause. -/
def isStructural (a : Markup.Attribute) : Bool := (BranchKind.ofAttribute? a).isSome || isLoop a

/-- The condition of an element; of several the last counts. -/
def branchKind? (attributes : List Markup.Attribute) : Option BranchKind :=
  (attributes.filterMap BranchKind.ofAttribute?).getLast?

/-- The loop clause of an element; of several the last counts. -/
def loopClause? (attributes : List Markup.Attribute) : Option LoopClause :=
  ((attributes.filter isLoop).getLast?).map .ofAttribute

/-- What a markup node adds to its siblings. -/
inductive Piece where
  | node (node : Node)
  | branch (continues : Bool) (branch : Branch)

def Node.isComment : Node → Bool
  | .comment _ _ => true
  | _ => false

/-- Put a branch after the siblings read so far. It joins a conditional that only comments separate
from it, and those comments belong to no branch. -/
def joinBranch (source : Text) (siblings : List Node) (b : Branch) : List Node :=
  let kept := (siblings.reverse.dropWhile Node.isComment).reverse
  match kept.getLast? with
  | some (.conditional branches loc) =>
    kept.dropLast ++ [.conditional (branches ++ [b]) (locate source (loc.span.cover b.loc.span))]
  | _ => siblings ++ [.conditional [b] b.loc]

def addPiece (source : Text) (siblings : List Node) : Piece → List Node
  | .node node => siblings ++ [node]
  | .branch true b => joinBranch source siblings b
  | .branch false b => siblings ++ [.conditional [b] b.loc]

/-- Gather branches into conditionals. -/
def gather (source : Text) (pieces : List Piece) : List Node :=
  pieces.foldl (addPiece source) []

/-- The piece of an element, given its children. A `template` that carries a structural directive
stands for its children. -/
def elementPiece (source : Text) (tag : Markup.OpenTag) (span : Span) (endName : Option Span)
    (children : List Node) : List Piece :=
  let loc := locate source span
  let head : ElementHead :=
    { tag := tag.name
      properties := (tag.attributes.filter (!isStructural ·)).map (propertyOf source)
      loc, endName
      selfClosing := tag.selfClosing }
  let unwraps := head.isTemplate && tag.attributes.any isStructural
  let body := if unwraps then children else [.element head children]
  let body := match loopClause? tag.attributes with
    | some clause => [.loop clause body loc]
    | none => body
  match branchKind? tag.attributes with
  | some kind => [.branch kind.continues (.mk kind.condition? body loc)]
  | none => body.map .node

mutual

def piecesOf (source : Text) : Markup.Node → List Piece
  | .element tag children span endName =>
    elementPiece source tag span endName (gather source (piecesOfAll source children))
  | .text text span => (textNodes ⟨span.start, text⟩).map .node
  | .comment data span => [.node (.comment data span)]
  | .declaration _ span => [.node (.other "declaration".toList (locate source span))]

def piecesOfAll (source : Text) : List Markup.Node → List Piece
  | [] => []
  | node :: nodes => piecesOf source node ++ piecesOfAll source nodes

end

/-- The template of markup nodes read from `source`. -/
def ofMarkup (source : Text) (nodes : List Markup.Node) : List Node :=
  gather source (piecesOfAll source nodes)

/-- The template of a markup text. -/
def parse (source : Text) : List Node := ofMarkup source (Markup.parse source)

end TemplateProjection.Template
