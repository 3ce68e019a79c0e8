import BigCodeAnalysis.Trees.Rose
import BigCodeAnalysis.Trees.StackWalk
import BigCodeAnalysis.Spaces.Node
import BigCodeAnalysis.Spaces.FuncSpace
import BigCodeAnalysis.Spaces.Compute
import BigCodeAnalysis.Trees.Timeline
import BigCodeAnalysis.Trees.Gather
import BigCodeAnalysis.Spaces.Recursive
import BigCodeAnalysis.Spaces.WalkCorrect
import BigCodeAnalysis.Spaces.SpaceTree
import BigCodeAnalysis.Spaces.Ops
import BigCodeAnalysis.Spaces.OpsAgree
import BigCodeAnalysis.Suppression.Audit
import BigCodeAnalysis.Suppression.AuditAgree
import BigCodeAnalysis.Metrics.Loc
import BigCodeAnalysis.Metrics.LocDisjoint
import BigCodeAnalysis.Metrics.LocRows
import BigCodeAnalysis.Metrics.LocSettle
import BigCodeAnalysis.Metrics.Wmc
import BigCodeAnalysis.Metrics.WmcTree
import BigCodeAnalysis.Metrics.WmcAttribution
import BigCodeAnalysis.Spaces.Component
import BigCodeAnalysis.Metrics.LocWalk
import BigCodeAnalysis.Metrics.WmcWalk
import BigCodeAnalysis.Sequences.Chain
import BigCodeAnalysis.Vcs.Replay
import BigCodeAnalysis.Vcs.RenameHistory
import BigCodeAnalysis.Sequences.Cutoff
import BigCodeAnalysis.Vcs.Cached
import BigCodeAnalysis.Vcs.CachedAgree
import BigCodeAnalysis.Vcs.BusFactor
import BigCodeAnalysis.Baseline.PathKey
import BigCodeAnalysis.Sequences.Chunk
import BigCodeAnalysis.Sequences.Ranking
import BigCodeAnalysis.Numbers.Binary64
import BigCodeAnalysis.Sequences.Greedy
import BigCodeAnalysis.Catalog.Value
import BigCodeAnalysis.Baseline.Match
import BigCodeAnalysis.Baseline.SelfCoverage
import BigCodeAnalysis.Sequences.Group
import BigCodeAnalysis.Catalog.Metrics
import BigCodeAnalysis.Baseline.Diff
import BigCodeAnalysis.Baseline.DiffLaws
import BigCodeAnalysis.Sequences.Interleaving
import BigCodeAnalysis.Sequences.SortedMap
import BigCodeAnalysis.Walk.OrderedStdout
import BigCodeAnalysis.Walk.OrderedStdoutSpec
import BigCodeAnalysis.Walk.ConcurrentFiles
import BigCodeAnalysis.Walk.ConcurrentFilesSpec
import BigCodeAnalysis.Vcs.BusFactorRemoval
import BigCodeAnalysis.Sequences.Reordered
import BigCodeAnalysis.Vcs.BusFactorRegistry
import BigCodeAnalysis.Vcs.BusFactorLaws
import BigCodeAnalysis.Sequences.Utf8Code
import BigCodeAnalysis.Baseline.PathKeyLaws
import BigCodeAnalysis.Baseline.Encoders
import BigCodeAnalysis.DocumentDiff.Compute
import BigCodeAnalysis.DocumentDiff.Leaves
import BigCodeAnalysis.DocumentDiff.Laws
import BigCodeAnalysis.DocumentDiff.Report
import BigCodeAnalysis.Catalog.Threshold
import BigCodeAnalysis.Sequences.Fallible
import BigCodeAnalysis.Thresholds.Soft
import BigCodeAnalysis.Thresholds.Set
import BigCodeAnalysis.Sequences.Memo
import BigCodeAnalysis.Thresholds.Layers
import BigCodeAnalysis.Thresholds.Folding
import BigCodeAnalysis.Thresholds.EagerValidation
import BigCodeAnalysis.Thresholds.Evaluate
import BigCodeAnalysis.Thresholds.Layering
import BigCodeAnalysis.Sequences.Worklist
import BigCodeAnalysis.Spaces.Selection
import BigCodeAnalysis.Spaces.SelectionParity
import BigCodeAnalysis.Thresholds.NarrowedWalk
import BigCodeAnalysis.Thresholds.Rankings
import BigCodeAnalysis.Thresholds.Policy
import BigCodeAnalysis.Metrics.BoolSequence
import BigCodeAnalysis.Metrics.BoolSequenceGroups
import BigCodeAnalysis.Metrics.Ruby.Ledger
import BigCodeAnalysis.Metrics.Ruby.VisibilityCalls
import BigCodeAnalysis.Metrics.Ruby.BodyWalk
import BigCodeAnalysis.Metrics.Ruby.BodyWalkSpec
import BigCodeAnalysis.Metrics.Ruby.BodyEvents
import BigCodeAnalysis.Sequences.Occurrence
import BigCodeAnalysis.Output.OffenderRecord
import BigCodeAnalysis.Output.CodeClimate
import BigCodeAnalysis.Output.CodeClimateIssues
import BigCodeAnalysis.Uri.Reference
import BigCodeAnalysis.Output.Sarif
import BigCodeAnalysis.Output.SarifLocations
import BigCodeAnalysis.Output.Dump
import BigCodeAnalysis.Output.DumpDrawing
import BigCodeAnalysis.Walk.FileTree
import BigCodeAnalysis.Walk.Seeds
import BigCodeAnalysis.Walk.SeedFiles
import BigCodeAnalysis.Walk.Anchoring
import BigCodeAnalysis.Sequences.Search
import BigCodeAnalysis.Output.StepSummary
import BigCodeAnalysis.Output.StepSummaryText
import BigCodeAnalysis.Output.StepSummaryRuns
import BigCodeAnalysis.Metrics.LineSet
import BigCodeAnalysis.Metrics.LineSetWords
import BigCodeAnalysis.Metrics.LineSetAgree
import BigCodeAnalysis.Trees.RootPath
import BigCodeAnalysis.Spaces.FoldCache
import BigCodeAnalysis.Spaces.FoldCacheExact
import BigCodeAnalysis.Sequences.Slice
import BigCodeAnalysis.Languages.CfgPredicate
import BigCodeAnalysis.Languages.CfgPredicateNaive
import BigCodeAnalysis.Languages.CfgPredicateGrammar
import BigCodeAnalysis.Languages.CMacro
import BigCodeAnalysis.Languages.CMacroTokens
import BigCodeAnalysis.Languages.CMacroLiterals
import BigCodeAnalysis.Languages.CMacroScan
import BigCodeAnalysis.Languages.CMacroExact
import BigCodeAnalysis.Comments.Removal
import BigCodeAnalysis.Comments.RemovalWalk
import BigCodeAnalysis.Comments.RemovalRows
import BigCodeAnalysis.Comments.RemovalTokens
import BigCodeAnalysis.Xml.Reader
import BigCodeAnalysis.Output.Checkstyle
import BigCodeAnalysis.Xml.Reads
import BigCodeAnalysis.Sequences.PartitionPoint
import BigCodeAnalysis.Vcs.MidRank
import BigCodeAnalysis.Vcs.Window
import BigCodeAnalysis.Vcs.TrendTimes
import BigCodeAnalysis.Vcs.UnquotePath
import BigCodeAnalysis.Vcs.Cochange
import BigCodeAnalysis.Vcs.CochangeWeights
import BigCodeAnalysis.Vcs.Accumulator
import BigCodeAnalysis.Vcs.Stats
import BigCodeAnalysis.Vcs.Blame
import BigCodeAnalysis.Vcs.BlameLines
import BigCodeAnalysis.Metrics.FunctionMetrics
import BigCodeAnalysis.Metrics.FunctionMetricsWalk
import BigCodeAnalysis.Metrics.HalsteadTally
import BigCodeAnalysis.Spaces.Readings
import BigCodeAnalysis.Metrics.HalsteadPartition
import BigCodeAnalysis.Sequences.Strip
import BigCodeAnalysis.Suppression.Marker
import BigCodeAnalysis.Suppression.MarkerGrammar
import BigCodeAnalysis.Sequences.Rows
import BigCodeAnalysis.Metrics.BareRows
import BigCodeAnalysis.Metrics.BareRowGaps
import BigCodeAnalysis.Metrics.BareRowsCredited
import BigCodeAnalysis.Source.LineEndings
import BigCodeAnalysis.Source.ReadFile
import BigCodeAnalysis.Sequences.Words
import BigCodeAnalysis.Baseline.BodyHash
import BigCodeAnalysis.Baseline.BodyHashRename
import BigCodeAnalysis.Baseline.BodyHashExact
import BigCodeAnalysis.Sequences.Loop
import BigCodeAnalysis.Languages.Doxygen
import BigCodeAnalysis.Languages.DoxygenDeclares
import BigCodeAnalysis.Languages.DoxygenAsked
import BigCodeAnalysis.Trees.Fold
import BigCodeAnalysis.Wire.MapTree
import BigCodeAnalysis.Wire.SerializeBounded
import BigCodeAnalysis.Wire.Documents
import BigCodeAnalysis.Trees.Cursor
import BigCodeAnalysis.Ast.Export
import BigCodeAnalysis.Ast.ExportAgree
import BigCodeAnalysis.Sequences.Runs
import BigCodeAnalysis.Languages.Python.Node
import BigCodeAnalysis.Languages.Python.Documentation
import BigCodeAnalysis.Languages.Python.DocumentationRuns
import BigCodeAnalysis.Sequences.Blocks
import BigCodeAnalysis.Languages.Python.SphinxComments
import BigCodeAnalysis.Languages.Python.SaturatingFolds
import BigCodeAnalysis.Languages.Cpp.Declarators
import BigCodeAnalysis.Languages.Cpp.DeclaratorsRead
import BigCodeAnalysis.Languages.Cpp.DeclaratorsCounted
import BigCodeAnalysis.Languages.Python.BoundAttributes
import BigCodeAnalysis.Languages.Python.BoundAttributesWalk
import BigCodeAnalysis.Languages.Python.BoundAttributesAgree
import BigCodeAnalysis.Languages.Bash.ComparisonRuns
import BigCodeAnalysis.Languages.Elixir.WhenGuards
import BigCodeAnalysis.Languages.Elixir.WhenGuardsMemo
import BigCodeAnalysis.Trees.StackSteps
import BigCodeAnalysis.Spaces.SiblingCache
import BigCodeAnalysis.Spaces.SiblingCacheExact
import BigCodeAnalysis.Spaces.NestingWalk
import BigCodeAnalysis.Sequences.PartialSort
import BigCodeAnalysis.Output.Hotspots
import BigCodeAnalysis.Output.HotspotsExact
import BigCodeAnalysis.Output.FoundLayout
import BigCodeAnalysis.Output.FoundLayoutExact
import BigCodeAnalysis.Output.WorkflowCommands
import BigCodeAnalysis.Output.Annotations
import BigCodeAnalysis.Output.Gfm
import BigCodeAnalysis.Output.GfmCells
import BigCodeAnalysis.Output.MarkdownTables
import BigCodeAnalysis.Output.MarkdownDigest
import BigCodeAnalysis.Graphs.Condensation
import BigCodeAnalysis.Preproc.IncludeGraph
import BigCodeAnalysis.Preproc.IncludeCycles
import BigCodeAnalysis.Preproc.IncludeClosure
import BigCodeAnalysis.Preproc.IncludeRuns
