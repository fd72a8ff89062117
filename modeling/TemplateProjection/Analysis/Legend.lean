import TemplateProjection.Analysis.TokenType

/-! The names of token types and modifiers that an editor is told. -/
namespace TemplateProjection

structure Legend where
  types : List String
  modifiers : List String
deriving DecidableEq, Repr

/-- A table that does not have one name for each entry. -/
inductive LegendError where
  | tokenTypes (populated declared : Nat)
  | tokenModifiers (populated declared : Nat)
deriving DecidableEq, Repr

def LegendError.message : LegendError → String
  | .tokenTypes populated declared =>
    "token type legend has " ++ populated.repr ++ " entries, expected " ++ declared.repr
  | .tokenModifiers populated declared =>
    "token modifier legend has " ++ populated.repr ++ " entries, expected " ++ declared.repr

namespace Legend

/-- The names in a table, if it has the given size and no holes. -/
def names? (size : Nat) (table : List (Option String)) : Option (List String) :=
  let names := table.filterMap id
  if names.length = size && table.length = size then some names else none

/-- Make a legend of tables that are addressed by index. -/
def ofTables (types modifiers : List (Option String)) : Except LegendError Legend :=
  let typeCount := TokenType.all.length
  let modifierCount := TokenModifier.all.length
  match names? typeCount types, names? modifierCount modifiers with
  | none, _ => .error (.tokenTypes (types.filterMap id).length typeCount)
  | _, none => .error (.tokenModifiers (modifiers.filterMap id).length modifierCount)
  | some types, some modifiers => .ok ⟨types, modifiers⟩

/-- The legend of all token types and modifiers. -/
def standard : Except LegendError Legend :=
  ofTables (TokenType.all.map (some ·.name)) (TokenModifier.all.map (some ·.name))

end Legend

end TemplateProjection
