import TemplateProjection.Text.Basic

/-! Messages of an analyzer about a part of a document. -/
namespace TemplateProjection

inductive Severity where
  | error
  | warning
  | info
  | hint
deriving DecidableEq, Repr

/-- The number by which editors know a severity. -/
def Severity.number : Severity → Nat
  | .error => 1
  | .warning => 2
  | .info => 3
  | .hint => 4

structure Diagnostic where
  span : Span
  severity : Severity
  code : Option String
  message : String
deriving DecidableEq, Repr

namespace Diagnostic

def error (span : Span) (message : String) : Diagnostic := ⟨span, .error, none, message⟩

def warning (span : Span) (message : String) : Diagnostic := ⟨span, .warning, none, message⟩

def withCode (d : Diagnostic) (code : String) : Diagnostic := { d with code := some code }

def isError (d : Diagnostic) : Bool := d.severity = .error

end Diagnostic

end TemplateProjection
