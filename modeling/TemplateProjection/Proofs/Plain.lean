import Mathlib.Data.List.Chain
import TemplateProjection.Proofs.Writing

/-! Forests that an outline can say: no declarations, and nothing that it reads otherwise. -/
namespace TemplateProjection.Markup

/-- A space or a visible ASCII character. -/
def isPrintable (c : Char) : Bool := 0x20 ≤ c.toNat && c.toNat ≤ 0x7e

structure PlainValue (v : Text) : Prop where
  printable : ∀ c ∈ v, isPrintable c
  backslash : '\\' ∉ v
  quotes : '"' ∉ v ∨ '\'' ∉ v
  reference : ¬ "&quot;".toList <:+: v

structure PlainText (t : Text) : Prop where
  printable : ∀ c ∈ t, isPrintable c ∨ c = '\n'
  lt : '<' ∉ t
  amp : '&' ∉ t

structure PlainComment (data : Text) : Prop where
  printable : ∀ c ∈ data, isPrintable c ∨ c = '\n'
  amp : '&' ∉ data
  close : ¬ "-->".toList <:+: data

structure Attribute.Plain (a : Attribute) : Prop where
  name : isAttributeName a.name
  value : ∀ v ∈ a.value, PlainValue v.text

/-- No two texts are adjacent once blank texts are left out. -/
def TextsApart (nodes : List Node) : Prop :=
  (nodes.filter Node.isContent).IsChain fun node next => ¬ (node.isText ∧ next.isText)

instance (nodes : List Node) : Decidable (TextsApart nodes) :=
  inferInstanceAs (Decidable (List.IsChain _ _))

inductive Node.Plain : Node → Prop
  | element {tag : OpenTag} {children : List Node} {span : Span} {endName : Option Span}
      (hname : isElementName tag.name) (hattributes : ∀ a ∈ tag.attributes, a.Plain)
      (hleaf : tag.selfClosing || isVoid tag.name → children = [])
      (hapart : TextsApart children) (hchildren : ∀ child ∈ children, child.Plain) :
      Plain (.element tag children span endName)
  | text {t : Text} {span : Span} (h : PlainText t) : Plain (.text t span)
  | comment {data : Text} {span : Span} (h : PlainComment data) : Plain (.comment data span)

structure PlainForest (nodes : List Node) : Prop where
  plain : ∀ node ∈ nodes, node.Plain
  apart : TextsApart nodes

end TemplateProjection.Markup
