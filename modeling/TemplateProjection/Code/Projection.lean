import TemplateProjection.Code.Lowering
import TemplateProjection.Outline.Layout
import TemplateProjection.SourceMap.Query
import TemplateProjection.Template.OfMarkup

/-! The projection of a template: typed code that stands for it, and how the two are linked. -/
namespace TemplateProjection.Code

structure Projection where
  text : Text
  mappings : List Mapping
  /-- The tags of elements, in the order of their first use. -/
  tags : List Text
  /-- Slots with the variables that hold what they bind, in the order of their first use. -/
  slots : List (Text × Text)
deriving DecidableEq, Repr

def Projection.sourceMap (p : Projection) : SourceMap := ⟨p.mappings⟩

/-- Set the variable of a slot. A slot that is set again keeps its place. -/
def setSlot (slots : List (Text × Text)) (entry : Text × Text) : List (Text × Text) :=
  if slots.any (·.1 == entry.1) then
    slots.map fun s => if s.1 == entry.1 then entry else s
  else slots ++ [entry]

/-- The slots that emissions declare. -/
def slotsOf (emissions : List Emission) : List (Text × Text) :=
  (emissions.filterMap Emission.slot?).foldl setSlot []

/-- The object with the variables of the slots, which the code exports. -/
def exportCode (slots : List (Text × Text)) : List Emission :=
  [literal "export default \x7b\n"] ++
    slots.map (fun s => .parts ["'", s.1, "': ", s.2, ",\n"]) ++ [literal "\x7d;\n"]

/-- Project a template. With an alignment, mappings lead to the outline instead of the markup. -/
def project (alignment : Option Outline.Alignment) (root : List Template.Node) : Projection :=
  let emissions := (lowerRoot 0 root).emissions
  let slots := slotsOf emissions
  let code := assemble alignment (emissions ++ exportCode slots)
  ⟨code.text, code.mappings, (emissions.filterMap Emission.tag?).eraseDups, slots⟩

/-- Project a markup text. -/
def projectMarkup (markup : Text) : Projection := project none (Template.parse markup)

/-- Project a markup text that was made from an outline. -/
def projectOutline (outline markup : Text) : Projection :=
  project (some (.ofTexts outline markup)) (Template.parse markup)

end TemplateProjection.Code
