import SchemaGen.Main
import SchemaGen.Target.Trace
import SchemaGen.Proofs.Steps
import SchemaGen.Proofs.EventOrder
import SchemaGen.Proofs.Location
import SchemaGen.Proofs.Filling
import SchemaGen.Proofs.BuiltGraph
import SchemaGen.Proofs.Loading
import SchemaGen.Proofs.BoundedLoading
import SchemaGen.Proofs.BoundedRuns
import SchemaGen.Proofs.Dependencies
import SchemaGen.Proofs.Headers
import SchemaGen.Proofs.NameLookup
import SchemaGen.Proofs.LoadExact
import SchemaGen.Proofs.View
import SchemaGen.Proofs.LoadHistory
import SchemaGen.Proofs.Tokens
import SchemaGen.Proofs.Grammar
import SchemaGen.Proofs.Recognition
import SchemaGen.Proofs.EndlessReadings
import SchemaGen.Proofs.Parsing
import SchemaGen.Proofs.Literals
import SchemaGen.Proofs.Words
import SchemaGen.Proofs.Rendering
import SchemaGen.Proofs.ReadDocument
import SchemaGen.Proofs.RoundTrip
import SchemaGen.Proofs.Contents
import SchemaGen.Proofs.Growth
import SchemaGen.Proofs.References
import SchemaGen.Proofs.RunInvariant
import SchemaGen.Proofs.WrittenFiles
import SchemaGen.Proofs.OutputPaths
import SchemaGen.Proofs.ModuleFiles
import SchemaGen.Proofs.Collisions
import SchemaGen.Proofs.FileTree
import SchemaGen.Proofs.Resolution
import SchemaGen.Proofs.DiskChanges
import SchemaGen.Proofs.OutputStore
import SchemaGen.Proofs.RootFiles
import SchemaGen.Proofs.GeneratedFiles
import SchemaGen.Proofs.GeneratedRuns
import SchemaGen.Proofs.ModuleTree
import SchemaGen.Proofs.MissingFiles
import SchemaGen.Proofs.ParentDirectories
import SchemaGen.Proofs.RootExpansion
import SchemaGen.Proofs.IndexFiles
import SchemaGen.Proofs.SourceFiles
import SchemaGen.Proofs.OutputViews
import SchemaGen.Proofs.RootOrder
import SchemaGen.Proofs.Registration
import SchemaGen.Proofs.LaterRuns
import SchemaGen.Proofs.OutputRoot
import SchemaGen.Proofs.JavaNames
import SchemaGen.Proofs.SteadyLoading
import SchemaGen.Proofs.LaggingRuns
import SchemaGen.Proofs.WriteOrder
import SchemaGen.Proofs.SplitRuns
import SchemaGen.Proofs.LexemePattern
import SchemaGen.Proofs.TokenPlaces
import SchemaGen.Proofs.Layout
import SchemaGen.Proofs.AlikeReadings
import SchemaGen.Proofs.CommentRemoval
import SchemaGen.Proofs.RunCounts
import SchemaGen.Proofs.FileParts
import SchemaGen.Proofs.SkipPatterns
import SchemaGen.Proofs.RecordedPackages
import SchemaGen.Proofs.MarkedComments
import SchemaGen.Proofs.TrailingComments
import SchemaGen.Proofs.FieldTypes
import SchemaGen.Proofs.EnumSources
import SchemaGen.Proofs.Identifiers
import SchemaGen.Proofs.DeclaredNames
import SchemaGen.Proofs.AmbiguousModules
import SchemaGen.Proofs.QuotedStrings
import SchemaGen.Proofs.DocComments
import SchemaGen.Proofs.DirectoryWalks
import SchemaGen.Proofs.SkipNames
import SchemaGen.Proofs.HeaderLists
import SchemaGen.Proofs.JsonText
import SchemaGen.Proofs.DumpText
import SchemaGen.Proofs.BrokenBytes
import SchemaGen.Proofs.DottedNames
import SchemaGen.Proofs.SnakeCase
