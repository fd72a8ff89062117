import TemplateProjection.Code.Element

/-!
Code for a template. Each construct stands in a block of its own, so that names declared for one
element do not meet those of another.
-/
namespace TemplateProjection.Code

open Template (Branch ElementHead Expression LoopClause Node)

/-- The construct was written on a `template`, whose children need blocks of their own. -/
def onTemplate (loc : Excerpt) : Bool := loc.text.slice? ⟨1, 8⟩ == some "template".toList

def openBlock : Emission := literal "\x7b\n"

def closeBlock : Emission := literal "\x7d\n"

/-- The code of an element before its children. -/
def elementStart (head : ElementHead) (ancestors : List Text) (next : Nat) : Output :=
  let events := listeners head.tag next head.properties
  let slot := slotBinding head events.next
  ⟨[.tag head.tag] ++ head.properties.flatMap (slotScope (slotOwner? head.tag ancestors)) ++
    head.properties.flatMap soleValueCheck ++ propertyBag head ++ events.emissions ++
    head.properties.flatMap (declarationReference head.tag) ++ slot.emissions, slot.next⟩

/-- A name bound by a loop besides its value. -/
def loopBinding (binding : Option Expression) (initial : String) : List Emission :=
  match binding with
  | some e => [literal "const ", .expression e .noFormatting, literal initial]
  | none => []

/-- The code of a loop before its body. -/
def loopStart (clause : LoopClause) (value : Expression) (next : Nat) : List Emission :=
  let source := variableName next
  [.parts ["const ", source, " = __VDS_getVforSourceType("],
    .expression clause.source .noFormatting, literal ");\nfor (__VDS_for_key in ",
    .mapped source ⟨clause.source.content, [clause.source.span]⟩ .gate .diagnosticOnly,
    literal ") \x7b\nconst ", .expression value .noFormatting,
    .parts [" = ", source, "[__VDS_for_key];\n"]] ++
    loopBinding clause.key " = 0 as any;\n" ++ loopBinding clause.index " = 0;\n"

/-- The head of a branch; `first` tells whether no branch with a condition came before. -/
def branchStart (first : Bool) : Option Expression → List Emission
  | some condition =>
    [literal (if first then "if (\n(" else "else if (\n("), .expression condition .all,
      literal ")\n) \x7b\n"]
  | none => [literal "else \x7b\n"]

mutual

/-- The code of a node below `ancestors`, the nearest of them first. If `shared`, an element uses
the block around it. -/
def lowerNode (ancestors : List Text) (shared : Bool) (next : Nat) : Node → Output
  | .element head children =>
    let start := elementStart head ancestors next
    let inner := lowerAll (head.tag :: ancestors) false start.next children
    ⟨(if shared then [] else [openBlock]) ++ start.emissions ++ inner.emissions ++
      componentReference head ++ (if shared then [] else [closeBlock]), inner.next⟩
  | .interpolation value _ => ⟨[literal "\x7b", .expression value .all, literal "\x7d;\n"], next⟩
  | .conditional branches _ => lowerBranches ancestors true next branches
  | .loop clause children loc =>
    match clause.value with
    | some value =>
      let body := lowerAll ancestors (!onTemplate loc) (next + 1) children
      ⟨loopStart clause value next ++ body.emissions ++ [closeBlock], body.next⟩
    | none => ⟨[], next⟩
  | .text _ _ => ⟨[], next⟩
  | .comment _ _ => ⟨[], next⟩
  | .other kind loc =>
    ⟨[.parts ["// Unprocessed node kind: ", kind, " at ", Nat.toDigits 10 loc.start, "..",
      Nat.toDigits 10 loc.stop, "\n"]], next⟩

def lowerAll (ancestors : List Text) (shared : Bool) (next : Nat) : List Node → Output
  | [] => ⟨[], next⟩
  | node :: nodes =>
    let first := lowerNode ancestors shared next node
    let rest := lowerAll ancestors shared first.next nodes
    ⟨first.emissions ++ rest.emissions, rest.next⟩

def lowerBranch (ancestors : List Text) (first : Bool) (next : Nat) : Branch → Output
  | .mk condition children loc =>
    let body := lowerAll ancestors (!onTemplate loc) next children
    ⟨branchStart first condition ++ body.emissions ++ [closeBlock], body.next⟩

def lowerBranches (ancestors : List Text) (first : Bool) (next : Nat) : List Branch → Output
  | [] => ⟨[], next⟩
  | branch :: branches =>
    let start := lowerBranch ancestors first next branch
    let rest := lowerBranches ancestors (first && branch.condition?.isNone) start.next branches
    ⟨start.emissions ++ rest.emissions, rest.next⟩

end

/-- The code of the nodes at the root, each in a block. -/
def lowerRoot (next : Nat) : List Node → Output
  | [] => ⟨[], next⟩
  | node :: nodes =>
    let first := lowerNode [] false next node
    let rest := lowerRoot first.next nodes
    ⟨[openBlock] ++ first.emissions ++ [closeBlock] ++ rest.emissions, rest.next⟩

end TemplateProjection.Code
