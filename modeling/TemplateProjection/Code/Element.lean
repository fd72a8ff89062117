import TemplateProjection.Code.Emission
import TemplateProjection.Code.Name
import TemplateProjection.Template.Node
import TemplateProjection.Text.Search

/-! Code for an element itself: its properties, listeners, slots and the component it names. -/
namespace TemplateProjection.Code

open Template (Attribute Directive ElementHead Expression Property)

def literal (s : String) : Emission := .code s.toList

/-- The argument of a directive, unless the directive's value is a literal. -/
def boundArgument? (d : Directive) : Option Expression :=
  if d.value.any (·.isConstant) then none else d.argument

/-- The value of a directive that has no argument. -/
def soleValue? : Property → Option Expression
  | .directive d => if d.argument.isNone then d.value else none
  | .attribute _ => none

/-- The argument and the value of a directive that has both. -/
def argumentAndValue? : Property → Option (Expression × Expression)
  | .directive ⟨_, some argument, some value, _, _⟩ => some (argument, value)
  | _ => none

def isBinding (d : Directive) : Bool := d.name == "bind".toList || d.name == "model".toList

def isListener (d : Directive) : Bool := d.name == "on".toList

/-- Where the name of an attribute stands. -/
def attributeNameSpan (a : Attribute) : Span := ⟨a.loc.start, a.name.byteLength⟩

def orDefault (name : Option Text) : Text :=
  match name with
  | some (c :: t) => c :: t
  | _ => "default".toList

/-- The component whose slots an element fills: the nearest one that is no `template`. -/
def slotOwner? (tag : Text) (ancestors : List Text) : Option Text :=
  (tag :: ancestors).find? (· != "template".toList)

/-- `v-slot="scope"`: declare the scope from the owner's slot. -/
def slotScope (owner : Option Text) (p : Property) : List Emission :=
  match p, owner with
  | .directive ⟨name, argument, some value, _, _⟩, some owner =>
    if name = "slot".toList then
      [literal "let ", .expression value .all,
        .parts [" = __VDS_components['", owner, "'].__VDS_slots['",
          orDefault (argument.map (·.content)), "'];\n"]]
    else []
  | _, _ => []

/-- `v-show="value"` and other directives without an argument. -/
def soleValueCheck (p : Property) : List Emission :=
  match soleValue? p with
  | some value => [literal "(", .expression value .all, literal ");\n"]
  | none => []

/-- `'key': (value),` and, if the name is spelled differently, the same under that spelling. -/
def boundProperty (d : Directive) (argument : Expression) : List Emission :=
  let key := propertyKey argument.content
  let value := (d.value.map (·.content)).getD "undefined".toList
  let origin : Origin := ⟨argument.content, [argument.span]⟩
  let name := fun spelling => Emission.quoted spelling origin .tagOrAttribute (some .property)
  let checked := match d.value with
    | some value => Emission.expression value .all
    | none => .code value
  [.announced (['\''] ++ key ++ "': (".toList ++ value ++ [')']) ⟨d.loc.text, [d.loc.span]⟩,
    name key, literal ": (", checked, literal "),\n"] ++
    if argument.content = key then []
    else [name argument.content, .parts [": (", value, "),\n"]]

/-- Backticks are escaped, so that they do not end a template literal. -/
def escapeBackticks (t : Text) : Text :=
  t.flatMap fun c => if c = '\x60' then ['\\', c] else [c]

/-- A plain attribute as a key with a template literal. -/
def attributeProperty (a : Attribute) : List Emission :=
  let key := propertyKey a.name
  let value := ['\x60'] ++ escapeBackticks (a.value.getD []) ++ ['\x60']
  let origin : Origin := ⟨a.name, [attributeNameSpan a]⟩
  let name := fun spelling => Emission.quoted spelling origin .tagOrAttribute (some .property)
  [.announced (['\''] ++ key ++ "': ".toList ++ value) ⟨a.loc.text, [a.loc.span]⟩,
    name key, .parts [": ", value, ",\n"]] ++
    if a.name = key then [] else [name a.name, .parts [": ", value, ",\n"]]

/-- A directive that is not checked as a property is mentioned in a comment. -/
def directiveComment (d : Directive) : Emission :=
  let content := fun (e : Option Expression) => (e.map (·.content)).getD []
  .parts ["/* directive, ", d.name, ", ", content d.argument, ", ", content d.value, ", ",
    d.loc.text, " */\n"]

def propertyEntry : Property → List Emission
  | .attribute a => attributeProperty a
  | .directive d =>
    match boundArgument? d with
    | some argument => if isBinding d then boundProperty d argument else []
    | none => [directiveComment d]

/-- The properties, checked against what the component declares. -/
def propertyBag (head : ElementHead) : List Emission :=
  let tagSpans := head.tagSpan :: if head.selfClosing then [] else head.endName.toList
  [.announced ("__VDS_componentProps['".toList ++ head.tag ++ "']".toList)
      ⟨head.tag, [head.tagSpan]⟩,
    literal "__VDS_componentProps[",
    .quoted head.tag ⟨head.tag, tagSpans⟩ .tagOrAttribute (some .elementTag),
    literal "] = \x7b\n"] ++
    head.properties.flatMap propertyEntry ++ [literal "\x7d;\n"]

/-- Assign a handler to the listener variable: first read both as a value and as a statement, then
as it is written. -/
def handlerCode (var event : Text) (name : Emission) (value : Expression) (next : Nat) :
    List Emission :=
  let asValue := variableName next
  let asStatement := variableName (next + 1)
  let picked := variableName (next + 2)
  let isFunction := (Text.around? "=>".toList value.content).isSome
  [.parts ["const ", asValue, " = (() => \x7b return ", value.content, " \x7d)();\n"],
    .parts ["const ", asStatement, " = () => \x7b ", value.content, " \x7d;\n"],
    .parts ["let ", picked, "!: __VDS_PickFunc<typeof ", asValue, ", typeof ", asStatement, ">;\n"],
    .parts [var, " = \x7b\n"], name, .parts [": ", picked, ",\n\x7d;\n"],
    .parts [var, " = \x7b\n'", event, "': "],
    literal (if isFunction then "(" else "() => \x7b "), .expression value .all,
    literal (if isFunction then "),\n" else " \x7d,\n"), literal "\x7d;\n"]

/-- A listener, checked against what the component emits. -/
def listenerCode (tag var : Text) (d : Directive) (argument : Expression) (next : Nat) :
    Output :=
  let event := argument.content
  let origin : Origin := ⟨event, [argument.span]⟩
  let name := Emission.quoted event origin .tagOrAttribute none
  let declaration :=
    [.parts ["let ", var, "!: \x7b '", event,
        "': __VDS_FirstFunction<typeof __VDS_componentEmits['", tag, "']["],
      name, .parts ["], typeof __VDS_componentProps['", tag, "']["],
      .quoted (camelize ("on-".toList ++ event)) origin .tagOrAttribute none,
      literal "]> \x7d;\n"]
  match d.value with
  | some value => ⟨declaration ++ handlerCode var event name value next, next + 3⟩
  | none =>
    ⟨declaration ++ [.parts [var, " = \x7b\n"], name, literal ": undefined,\n\x7d;\n"], next⟩

/-- A variable number is taken for every property, whether it is a listener or not. -/
def propertyListener (tag : Text) (next : Nat) : Property → Output
  | .attribute _ => ⟨[], next + 1⟩
  | .directive d =>
    match boundArgument? d with
    | some argument =>
      if isListener d then listenerCode tag (variableName next) d argument (next + 1)
      else ⟨[], next + 1⟩
    | none => ⟨[], next + 1⟩

def listeners (tag : Text) : (next : Nat) → List Property → Output
  | next, [] => ⟨[], next⟩
  | next, p :: ps =>
    let first := propertyListener tag next p
    let rest := listeners tag first.next ps
    ⟨first.emissions ++ rest.emissions, rest.next⟩

/-- A mention of the declaration `option` of the component, under the key of `name`. -/
def optionReference (tag : Text) (option : String) (name : Text) (span : Span)
    (mark : Option MappingTag) : List Emission :=
  [.parts ["__VDS_components['", tag, "']['__VDS_options']['", option, "']["],
    .quoted (propertyKey name) ⟨name, [span]⟩ .tagOrAttribute mark, literal "];\n"]

/-- The mention of a declared property or event, so that references reach its declaration. -/
def declarationReference (tag : Text) : Property → List Emission
  | .attribute a => optionReference tag "props" a.name (attributeNameSpan a) (some .property)
  | .directive d =>
    match boundArgument? d with
    | some argument =>
      if isBinding d then
        optionReference tag "props" argument.content argument.span (some .property)
      else if isListener d then optionReference tag "emits" argument.content argument.span none
      else []
    | none => []

/-- `'name': (value),` for what a slot hands to its consumer. -/
def slotEntry (p : Property) : List Emission :=
  match argumentAndValue? p with
  | some (argument, value) =>
    [.quoted argument.content ⟨argument.content, [argument.span]⟩ .tagOrAttribute (some .property),
      literal ": (", .expression value .all, literal "),\n"]
  | none => []

/-- The name of a slot: its first `name` attribute that has a value. -/
def slotName (properties : List Property) : Text :=
  orDefault (properties.findSome? fun
    | .attribute a => if a.name = "name".toList then a.value else none
    | .directive _ => none)

/-- The type of what a slot hands over, if it hands over anything. -/
def slotType? (whole entries : Option Text) : Option Text :=
  match whole, entries with
  | some a, some b => some ("typeof ".toList ++ a ++ " & typeof ".toList ++ b)
  | some a, none => some ("typeof ".toList ++ a)
  | none, some b => some ("typeof ".toList ++ b)
  | none, none => none

/-- A `slot` element: an object with what it hands to its consumer. -/
def slotBinding (head : ElementHead) (next : Nat) : Output :=
  if head.tag = "slot".toList then
    let whole := variableName next
    let entries := variableName (next + 1)
    let var := variableName (next + 2)
    let wholeValue := head.properties.findSome? soleValue?
    let hasEntries := head.properties.any fun p => (argumentAndValue? p).isSome
    let wholeCode := match wholeValue with
      | some value =>
        [.parts ["const ", whole, " = ("], .expression value .all, literal ");\n"]
      | none => []
    let typeCode :=
      match slotType? (wholeValue.map fun _ => whole)
          (if hasEntries then some entries else none) with
      | some type =>
        [.parts ["var ", var, "!: ", type, ";\n"], .slot (slotName head.properties) var]
      | none => []
    ⟨wholeCode ++ [.parts ["const ", entries, " = \x7b\n"]] ++ head.properties.flatMap slotEntry ++
      [literal "\x7d;\n"] ++ typeCode, next + 3⟩
  else ⟨[], next⟩

/-- The component that the tag names. -/
def componentReference (head : ElementHead) : List Emission :=
  [.parts ["__VDS_components['", head.tag, "']["],
    .quoted "__VDS_options".toList ⟨head.tag, [head.tagSpan]⟩ .referencesOnly none,
    literal "];\n"]

end TemplateProjection.Code
