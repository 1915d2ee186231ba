import Reduct.Atom
import Reduct.Binary64
import Reduct.Binary64.Text
import Reduct.Bindings
import Reduct.Code
import Reduct.Code.Text
import Reduct.CommandLine
import Reduct.Compile.Construction
import Reduct.Compile.Draft
import Reduct.Compile.Matcher
import Reduct.Compile.Program
import Reduct.Diagnostic
import Reduct.Diagnostic.Explain
import Reduct.Diagnostic.Lines
import Reduct.Diagnostic.Render
import Reduct.Fault
import Reduct.Form
import Reduct.Form.Read
import Reduct.HoleRange
import Reduct.Language
import Reduct.Language.Check
import Reduct.Language.Depth
import Reduct.Language.Greedy
import Reduct.Language.Holes
import Reduct.Language.Passes
import Reduct.Language.Resolve
import Reduct.Language.Shape
import Reduct.Machine
import Reduct.Machine.Calls
import Reduct.Machine.Host
import Reduct.Machine.Primitive
import Reduct.Machine.Value
import Reduct.Main
import Reduct.Outline
import Reduct.Pattern
import Reduct.Proofs.Acceptance
import Reduct.Proofs.AliasCycles
import Reduct.Proofs.AliasOrder
import Reduct.Proofs.BalancedTokens
import Reduct.Proofs.CallFailures
import Reduct.Proofs.CallLimits
import Reduct.Proofs.CallResults
import Reduct.Proofs.CaseReads
import Reduct.Proofs.CheckPlans
import Reduct.Proofs.CheckedMatches
import Reduct.Proofs.ClauseCalls
import Reduct.Proofs.ClauseCode
import Reduct.Proofs.ClauseRuns
import Reduct.Proofs.CodeCalls
import Reduct.Proofs.CodeRules
import Reduct.Proofs.Compilations
import Reduct.Proofs.CompiledMatchers
import Reduct.Proofs.ConstructionCode
import Reduct.Proofs.ConstructionDrafts
import Reduct.Proofs.ContextAcceptance
import Reduct.Proofs.DecimalText
import Reduct.Proofs.Decomposition
import Reduct.Proofs.Derivation
import Reduct.Proofs.Disjointness
import Reduct.Proofs.DistinctNames
import Reduct.Proofs.DraftAdditions
import Reduct.Proofs.Drafts
import Reduct.Proofs.DriverChoice
import Reduct.Proofs.EllipsisCode
import Reduct.Proofs.EllipsisFolds
import Reduct.Proofs.Emission
import Reduct.Proofs.EntryIsolation
import Reduct.Proofs.FaultPlaces
import Reduct.Proofs.FinalDrafts
import Reduct.Proofs.FinishedDrafts
import Reduct.Proofs.FormDrafts
import Reduct.Proofs.FormPlaces
import Reduct.Proofs.Frontier
import Reduct.Proofs.GenerationFaults
import Reduct.Proofs.GreedySearch
import Reduct.Proofs.HoleExactness
import Reduct.Proofs.HoleFixpoint
import Reduct.Proofs.HoleTable
import Reduct.Proofs.Hygiene
import Reduct.Proofs.InHoleCode
import Reduct.Proofs.InterruptedDrafts
import Reduct.Proofs.InterruptedMatchers
import Reduct.Proofs.Introductions
import Reduct.Proofs.LeafCode
import Reduct.Proofs.LevelBuilding
import Reduct.Proofs.LevelStacks
import Reduct.Proofs.LevelUpdates
import Reduct.Proofs.Levels
import Reduct.Proofs.LineColumns
import Reduct.Proofs.LiteralVariables
import Reduct.Proofs.LoadedPrograms
import Reduct.Proofs.Loading
import Reduct.Proofs.LocalNames
import Reduct.Proofs.MatcherCalls
import Reduct.Proofs.MatcherResults
import Reduct.Proofs.Matching
import Reduct.Proofs.ModeChoice
import Reduct.Proofs.NeatDrafts
import Reduct.Proofs.NeatMatchers
import Reduct.Proofs.NeatPrograms
import Reduct.Proofs.Nesting
import Reduct.Proofs.NumberedNames
import Reduct.Proofs.Occurrences
import Reduct.Proofs.PreOrder
import Reduct.Proofs.PredicateCode
import Reduct.Proofs.PredicateFuel
import Reduct.Proofs.PreparationFaults
import Reduct.Proofs.PrintedTerms
import Reduct.Proofs.ReadingBack
import Reduct.Proofs.Recognition
import Reduct.Proofs.Reconstruction
import Reduct.Proofs.Refusals
import Reduct.Proofs.ReorderedEntries
import Reduct.Proofs.RepetitionCode
import Reduct.Proofs.Replacement
import Reduct.Proofs.Rounding
import Reduct.Proofs.SearchMatches
import Reduct.Proofs.SequenceCode
import Reduct.Proofs.ShapeComparison
import Reduct.Proofs.SlicedExpressions
import Reduct.Proofs.SlicedForms
import Reduct.Proofs.SlicedPasses
import Reduct.Proofs.SourceSlices
import Reduct.Proofs.SuiteRuns
import Reduct.Proofs.TemplateCode
import Reduct.Proofs.TemplateMeaning
import Reduct.Proofs.TemplateResults
import Reduct.Proofs.Termination
import Reduct.Proofs.TokenLayout
import Reduct.Proofs.Underlines
import Reduct.Proofs.WrittenForms
import Reduct.Proofs.WrittenSyntax
import Reduct.Sexp
import Reduct.Span
import Reduct.Suite
import Reduct.Symbol
import Reduct.Table
import Reduct.Template
import Reduct.Template.Annotated
import Reduct.Term
import Reduct.Term.Checked
import Reduct.Term.Path
import Reduct.Text
import Reduct.Text.Hidden
import Reduct.Text.Spelled
import Reduct.Token
import Reduct.Token.Number
import Reduct.Token.Scan
