import ZigMarkup.Text.Lines
import ZigMarkup.Zig.Literal
import ZigMarkup.Syntax.Outline
import ZigMarkup.Syntax.Parser
import ZigMarkup.Template.OfTree
import ZigMarkup.Template.Resolve
import ZigMarkup.Cache
import ZigMarkup.Diagnostic.Report
import ZigMarkup.Hydration.Island
import ZigMarkup.Proofs.Lowered
import ZigMarkup.Proofs.CodeRun
import ZigMarkup.Proofs.CodeSteps
import ZigMarkup.Proofs.FlowEmission
import ZigMarkup.Proofs.Emission
import ZigMarkup.Proofs.Leaves
import ZigMarkup.Proofs.Modes
import ZigMarkup.Proofs.EscapingChange
import ZigMarkup.Proofs.Calls
import ZigMarkup.Proofs.Written
import ZigMarkup.Proofs.Escaping
import ZigMarkup.Proofs.Acceptance
import ZigMarkup.Proofs.Surface.Basic
import ZigMarkup.Proofs.Surface.Reading
import ZigMarkup.Proofs.Surface.HostCode
import ZigMarkup.Proofs.Surface.Attributes
import ZigMarkup.Proofs.Surface.Markup
import ZigMarkup.Proofs.Surface.Bodies
import ZigMarkup.Proofs.Surface.Flow
import ZigMarkup.Proofs.Surface.Nesting
import ZigMarkup.Proofs.Surface.Templates
import ZigMarkup.Proofs.Surface.Lowering
import ZigMarkup.Proofs.Surface.Nodes
import ZigMarkup.Proofs.Surface.Grammar
import ZigMarkup.Proofs.Allocators
import ZigMarkup.Proofs.Names
import ZigMarkup.Proofs.NoRoots
import ZigMarkup.Proofs.Brackets
import ZigMarkup.Proofs.Tokens
import ZigMarkup.Proofs.Boundaries
import ZigMarkup.Proofs.Arrivals
import ZigMarkup.Proofs.Sites
import ZigMarkup.Proofs.Lossless
import ZigMarkup.Proofs.SharedCache
import ZigMarkup.Proofs.Balance
import ZigMarkup.Proofs.HostPieces
import ZigMarkup.Proofs.JsonSpelling
import ZigMarkup.Proofs.Headers
import ZigMarkup.Proofs.Islands
import ZigMarkup.Proofs.CodeParts
import ZigMarkup.Proofs.PropRecords
import ZigMarkup.Proofs.Lines
import ZigMarkup.Proofs.Diagnostics
import ZigMarkup.Proofs.Agreement
import ZigMarkup.Proofs.Termination
import ZigMarkup.Proofs.GroupGrammar
import ZigMarkup.Proofs.FlowProbe
import ZigMarkup.Proofs.PropMerge
import ZigMarkup.Proofs.VisibleCode
import ZigMarkup.Proofs.FormatStrings
import ZigMarkup.Proofs.VerbatimText
import ZigMarkup.Proofs.Dedent
import ZigMarkup.Proofs.SharedIndentation
import ZigMarkup.Proofs.ErrorOrder
import ZigMarkup.Proofs.ImportScan
import ZigMarkup.Proofs.Shifting
import ZigMarkup.Proofs.AttributeWords
import ZigMarkup.Proofs.StrayWords
import ZigMarkup.Proofs.Indentation
