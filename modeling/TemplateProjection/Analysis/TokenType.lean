/-! Kinds of semantic tokens, and how an analyzer encodes them. -/
namespace TemplateProjection

inductive TokenType where
  | classType
  | enumType
  | interfaceType
  | namespaceName
  | typeParameter
  | typeName
  | parameter
  | variableName
  | enumMember
  | property
  | function
  | member
deriving DecidableEq, Repr

namespace TokenType

/-- All token types, in the order of their indices. -/
def all : List TokenType :=
  [.classType, .enumType, .interfaceType, .namespaceName, .typeParameter, .typeName, .parameter,
    .variableName, .enumMember, .property, .function, .member]

def name : TokenType → String
  | .classType => "class"
  | .enumType => "enum"
  | .interfaceType => "interface"
  | .namespaceName => "namespace"
  | .typeParameter => "typeParameter"
  | .typeName => "type"
  | .parameter => "parameter"
  | .variableName => "variable"
  | .enumMember => "enumMember"
  | .property => "property"
  | .function => "function"
  | .member => "member"

def ofIndex? (index : Nat) : Option TokenType := all[index]?

/-- The index under which a token type is known to an editor. -/
def index (t : TokenType) : Nat := all.idxOf t

/-- The token types of the kinds that an analyzer reports without encoding them. -/
def ofKind? (kind : Nat) : Option TokenType :=
  if 11 ≤ kind && kind ≤ 17 then ofIndex? (kind - 11) else none

end TokenType

inductive TokenModifier where
  | declaration
  | static
  | async
  | readonly
  | defaultLibrary
  | localName
deriving DecidableEq, Repr

namespace TokenModifier

/-- All modifiers, in the order of their bits. -/
def all : List TokenModifier :=
  [.declaration, .static, .async, .readonly, .defaultLibrary, .localName]

def name : TokenModifier → String
  | .declaration => "declaration"
  | .static => "static"
  | .async => "async"
  | .readonly => "readonly"
  | .defaultLibrary => "defaultLibrary"
  | .localName => "local"

/-- The modifier's bit in a set of modifiers. -/
def bit (m : TokenModifier) : UInt32 := 1 <<< (all.idxOf m).toUInt32

end TokenModifier

/-- Where in an encoded classification the token type starts, and which bits are modifiers. -/
structure TokenEncoding where
  typeOffset : UInt32 := 8
  modifierMask : UInt32 := 255
deriving DecidableEq, Repr

/-- Decode a classification. Above the modifier mask it holds a token type, counted from one, and
modifiers; below, it is a plain kind. -/
def decodeClassification (classification : UInt32) (encoding : TokenEncoding) :
    Option (TokenType × UInt32) :=
  if encoding.modifierMask < classification then
    match (classification >>> encoding.typeOffset).toNat with
    | 0 => none
    | index + 1 =>
      (TokenType.ofIndex? index).map (·, classification &&& encoding.modifierMask)
  else (TokenType.ofKind? classification.toNat).map (·, 0)

end TemplateProjection
