import TemplateProjection.Text.Basic

/-! Lines and columns of byte offsets. -/
namespace TemplateProjection

/-- A line and a column, both counted from zero; the column counts bytes. -/
structure Position where
  line : Nat
  column : Nat
deriving DecidableEq, Repr

/-- Shown to a reader, lines and columns count from one. -/
def Position.render (p : Position) : String := s!"{p.line + 1}:{p.column + 1}"

/-- Where the lines of a text start. -/
structure LineTable where
  starts : List Nat
  length : Nat
deriving DecidableEq, Repr

namespace LineTable

/-- The offsets just after the line feeds of a text that starts at `offset`. -/
def startsAfter : (offset : Nat) → Text → List Nat
  | _, [] => []
  | offset, c :: t =>
    if c = '\n' then (offset + 1) :: startsAfter (offset + 1) t
    else startsAfter (offset + c.utf8Size) t

/-- The first line starts at zero, each other line after a line feed. -/
def ofText (t : Text) : LineTable := ⟨0 :: startsAfter 0 t, t.byteLength⟩

def lineCount (table : LineTable) : Nat := table.starts.length

/-- The position of an offset. An offset past the end counts as the end. -/
def position (table : LineTable) (offset : Nat) : Position :=
  let offset := min offset table.length
  let line := (table.starts.takeWhile (· ≤ offset)).length - 1
  ⟨line, offset - table.starts.getD line 0⟩

/-- The span of a line, without the line feed that ends it. -/
def lineSpan? (table : LineTable) (line : Nat) : Option Span := do
  let start ← table.starts[line]?
  match table.starts[line + 1]? with
  | some next => some (.between start (next - 1))
  | none => some (.between start table.length)

end LineTable

end TemplateProjection
