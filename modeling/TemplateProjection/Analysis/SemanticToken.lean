import TemplateProjection.Analysis.Analyzer

/-! Semantic tokens: classifications carried back to lines and columns of a document. -/
namespace TemplateProjection

structure SemanticToken where
  line : Nat
  column : Nat
  length : Nat
  type : TokenType
  modifiers : UInt32
deriving DecidableEq, Repr

namespace SemanticToken

/-- The token comes before another, or at the same place. -/
def notAfter (s t : SemanticToken) : Bool :=
  s.line < t.line || (s.line == t.line && s.column ≤ t.column)

/-- Put a token before the first one that does not come before it. -/
def insert (t : SemanticToken) : List SemanticToken → List SemanticToken
  | [] => [t]
  | u :: us => if t.notAfter u then t :: u :: us else u :: insert t us

/-- Sort tokens by place. Those at the same place keep their order. -/
def sort (tokens : List SemanticToken) : List SemanticToken := tokens.foldr insert []

end SemanticToken

/-- The part of a span on one of its lines, as a start and an end column. -/
def lineColumns (table : LineTable) (start stop : Position) (line : Nat) : Nat × Nat :=
  let first := if line = start.line then start.column else 0
  let last :=
    if line = stop.line then stop.column
    else ((table.lineSpan? line).map (·.length)).getD first
  (first, last)

/-- One token for each line on which the span has any text. -/
def splitLines (table : LineTable) (span : Span) (type : TokenType) (modifiers : UInt32) :
    List SemanticToken :=
  let start := table.position span.start
  let stop := table.position span.stop
  (List.range' start.line (stop.line + 1 - start.line)).filterMap fun line =>
    let (first, last) := lineColumns table start stop line
    if first < last then some ⟨line, first, last - first, type, modifiers⟩ else none

/-- The tokens of a classified part of a virtual document; none if it decodes to no token, if it has
no source, or if its source lies apart from `range`. -/
def tokensOfSpan (document : VirtualDocument) (encoding : TokenEncoding) (range : Option Span)
    (part : ClassifiedSpan) : List SemanticToken :=
  match decodeClassification part.classification encoding,
      document.sourceMap.firstOriginal? part.span .basic with
  | some (type, modifiers), some source =>
    if range.any fun r => (r.inter? source.span).isNone then []
    else splitLines document.sourceLines source.span type modifiers
  | _, _ => []

namespace Analyzer

/-- The tokens of a document, or those with a source that meets `range`. -/
def tokensIn (a : Analyzer) (file : DocumentId) (range : Option Span) (c : Call) :
    Except Failure (List SemanticToken) × Call :=
  c.request file fun document c =>
    let whole : Span := ⟨0, document.text.byteLength⟩
    let (found, c) :=
      a.ask (.classify document.id whole) (a.classifications · document.id whole) c
    (SemanticToken.sort (found.flatMap (tokensOfSpan document a.encoding range)), c)

/-- The semantic tokens of a document; none at all if its text is over the limit. -/
def semanticTokens (a : Analyzer) (file : DocumentId) (c : Call) :
    Except Failure (Option (List SemanticToken)) × Call :=
  match c.session.sourceText? file with
  | none => (.error (.unknownDocument file), c)
  | some text =>
    if c.session.config.semanticTokensLimit < text.byteLength then (.ok none, c)
    else
      let (tokens, c) := a.tokensIn file none c
      (tokens.map some, c)

/-- The semantic tokens that meet a range; none at all if the range is over the limit. -/
def semanticTokensIn (a : Analyzer) (file : DocumentId) (range : Span) (c : Call) :
    Except Failure (Option (List SemanticToken)) × Call :=
  if c.session.config.semanticTokensLimit < range.length then (.ok none, c)
  else
    let (tokens, c) := a.tokensIn file (some range) c
    (tokens.map some, c)

end Analyzer

end TemplateProjection
