import TemplateProjection.Analysis.Analyzer
import TemplateProjection.Analysis.Diagnostic
import TemplateProjection.Analysis.Legend
import TemplateProjection.Analysis.References
import TemplateProjection.Analysis.Scripted
import TemplateProjection.Analysis.SemanticToken
import TemplateProjection.Analysis.TokenType
import TemplateProjection.Code.Element
import TemplateProjection.Code.Emission
import TemplateProjection.Code.Fragment
import TemplateProjection.Code.Lowering
import TemplateProjection.Code.Name
import TemplateProjection.Code.Projection
import TemplateProjection.Markup.Entity
import TemplateProjection.Markup.OpenTag
import TemplateProjection.Markup.Printer
import TemplateProjection.Markup.Token
import TemplateProjection.Markup.Tree
import TemplateProjection.Outline.Alignment
import TemplateProjection.Outline.Attribute
import TemplateProjection.Outline.Item
import TemplateProjection.Outline.Layout
import TemplateProjection.Outline.Line
import TemplateProjection.Outline.OfMarkup
import TemplateProjection.Outline.Tag
import TemplateProjection.Proofs.AlignmentQueries
import TemplateProjection.Proofs.Announcements
import TemplateProjection.Proofs.Ascii
import TemplateProjection.Proofs.Assembly
import TemplateProjection.Proofs.AttributeLists
import TemplateProjection.Proofs.AttributeLiterals
import TemplateProjection.Proofs.AttributeOrder
import TemplateProjection.Proofs.Blanking
import TemplateProjection.Proofs.BlockExpansion
import TemplateProjection.Proofs.Blocks
import TemplateProjection.Proofs.Calls
import TemplateProjection.Proofs.CamelCase
import TemplateProjection.Proofs.Convergence
import TemplateProjection.Proofs.CosmeticLayout
import TemplateProjection.Proofs.Coverage
import TemplateProjection.Proofs.DocumentOrder
import TemplateProjection.Proofs.ElementHeads
import TemplateProjection.Proofs.Encoding
import TemplateProjection.Proofs.Escaping
import TemplateProjection.Proofs.ExactMappings
import TemplateProjection.Proofs.Excerpt
import TemplateProjection.Proofs.Expressions
import TemplateProjection.Proofs.Faithfulness
import TemplateProjection.Proofs.FoundLocations
import TemplateProjection.Proofs.Gates
import TemplateProjection.Proofs.History
import TemplateProjection.Proofs.Installed
import TemplateProjection.Proofs.Interpolations
import TemplateProjection.Proofs.KeptAttributes
import TemplateProjection.Proofs.Landmarks
import TemplateProjection.Proofs.LayoutFailure
import TemplateProjection.Proofs.LinePositions
import TemplateProjection.Proofs.LineTables
import TemplateProjection.Proofs.Lists
import TemplateProjection.Proofs.Locations
import TemplateProjection.Proofs.LoopClauses
import TemplateProjection.Proofs.Loops
import TemplateProjection.Proofs.MapQueries
import TemplateProjection.Proofs.MappingBounds
import TemplateProjection.Proofs.NameMappings
import TemplateProjection.Proofs.Names
import TemplateProjection.Proofs.Nesting
import TemplateProjection.Proofs.Offside
import TemplateProjection.Proofs.OutlineBounds
import TemplateProjection.Proofs.OutlineItems
import TemplateProjection.Proofs.OutlineLines
import TemplateProjection.Proofs.OutlineReading
import TemplateProjection.Proofs.Parts
import TemplateProjection.Proofs.Placement
import TemplateProjection.Proofs.Plain
import TemplateProjection.Proofs.PrettyPrinting
import TemplateProjection.Proofs.PrintedEnds
import TemplateProjection.Proofs.PrintedText
import TemplateProjection.Proofs.Provenance
import TemplateProjection.Proofs.RangeTokens
import TemplateProjection.Proofs.Rebuild
import TemplateProjection.Proofs.References
import TemplateProjection.Proofs.Refreshing
import TemplateProjection.Proofs.Regrouping
import TemplateProjection.Proofs.Reindenting
import TemplateProjection.Proofs.RelativeIndents
import TemplateProjection.Proofs.Relocation
import TemplateProjection.Proofs.Rendering
import TemplateProjection.Proofs.Request
import TemplateProjection.Proofs.RespacedTags
import TemplateProjection.Proofs.RespacedTrees
import TemplateProjection.Proofs.Respacing
import TemplateProjection.Proofs.Retries
import TemplateProjection.Proofs.RoundTrip
import TemplateProjection.Proofs.Search
import TemplateProjection.Proofs.SessionStore
import TemplateProjection.Proofs.Shape
import TemplateProjection.Proofs.ShapeText
import TemplateProjection.Proofs.Spelling
import TemplateProjection.Proofs.Steps
import TemplateProjection.Proofs.TagText
import TemplateProjection.Proofs.TagUses
import TemplateProjection.Proofs.TextBlocks
import TemplateProjection.Proofs.Tidy
import TemplateProjection.Proofs.TidyText
import TemplateProjection.Proofs.TokenLines
import TemplateProjection.Proofs.Words
import TemplateProjection.Proofs.Writing
import TemplateProjection.Proofs.WrittenLists
import TemplateProjection.Session.Call
import TemplateProjection.Session.Document
import TemplateProjection.Session.DocumentId
import TemplateProjection.Session.Failure
import TemplateProjection.Session.Store
import TemplateProjection.SourceMap.Capability
import TemplateProjection.SourceMap.Mapping
import TemplateProjection.SourceMap.Query
import TemplateProjection.Template.Directive
import TemplateProjection.Template.Expression
import TemplateProjection.Template.Interpolation
import TemplateProjection.Template.Loop
import TemplateProjection.Template.Node
import TemplateProjection.Template.OfMarkup
import TemplateProjection.Text.Basic
import TemplateProjection.Text.Blank
import TemplateProjection.Text.CaseTable
import TemplateProjection.Text.LineTable
import TemplateProjection.Text.Lowercase
import TemplateProjection.Text.Numeral
import TemplateProjection.Text.Search
import TemplateProjection.Text.Split
