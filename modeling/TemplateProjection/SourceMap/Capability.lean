/-! Kinds of features, and which of them may use a mapping. -/
namespace TemplateProjection

inductive Capability where
  | basic
  | diagnostic
  | formatting
  | references
  | rename
  | completion
deriving DecidableEq, Repr

/-- The features that may trust a mapping. -/
structure Capabilities where
  basic : Bool := false
  diagnostic : Bool := false
  formatting : Bool := false
  references : Bool := false
  rename : Bool := false
  completion : Bool := false
deriving DecidableEq, Repr

namespace Capabilities

def allows (c : Capabilities) : Capability → Bool
  | .basic => c.basic
  | .diagnostic => c.diagnostic
  | .formatting => c.formatting
  | .references => c.references
  | .rename => c.rename
  | .completion => c.completion

def none : Capabilities := {}

def all : Capabilities := ⟨true, true, true, true, true, true⟩

def noFormatting : Capabilities := { all with formatting := false }

/-- The mapped value matters to error checking and completion alone. -/
def diagnosticOnly : Capabilities := { none with diagnostic := true, completion := true }

/-- Names of tags and attributes can be followed and renamed, but not formatted or completed. -/
def tagOrAttribute : Capabilities := { all with formatting := false, completion := false }

def referencesOnly : Capabilities := { none with references := true }

end Capabilities

end TemplateProjection
