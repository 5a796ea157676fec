import Dependents.Analysis
import Dependents.Cache.Basic
import Dependents.Cache.Codec
import Dependents.Cache.Entry
import Dependents.CallSite
import Dependents.CommandLine.Arguments
import Dependents.CommandLine.Run
import Dependents.Config.Basic
import Dependents.Config.Json
import Dependents.DependencyIndex
import Dependents.Digest.Content
import Dependents.Digest.SipHash
import Dependents.Edge
import Dependents.Error
import Dependents.FileSyntax
import Dependents.FileSystem.Basic
import Dependents.FileSystem.Update
import Dependents.Impact
import Dependents.Import
import Dependents.ImportTable
import Dependents.Json.Basic
import Dependents.Json.Printer
import Dependents.Json.Reader
import Dependents.Json.Record
import Dependents.Language
import Dependents.Main
import Dependents.ParseTree.Basic
import Dependents.ParseTree.Cursor
import Dependents.ParseTree.Dump
import Dependents.Path.Basic
import Dependents.Path.Digest
import Dependents.Path.Distinct
import Dependents.Path.Edit
import Dependents.Path.Normal
import Dependents.Proofs.AddressedLines
import Dependents.Proofs.Arena
import Dependents.Proofs.BucketOrder
import Dependents.Proofs.CacheLayers
import Dependents.Proofs.CacheRefinement
import Dependents.Proofs.CacheSlots
import Dependents.Proofs.CacheTransparency
import Dependents.Proofs.CallPositions
import Dependents.Proofs.CanonicalPaths
import Dependents.Proofs.CodecRoundTrip
import Dependents.Proofs.ContentEdits
import Dependents.Proofs.CountedPositions
import Dependents.Proofs.CursorLookup
import Dependents.Proofs.CutEntries
import Dependents.Proofs.Directories
import Dependents.Proofs.EntryFiles
import Dependents.Proofs.EntryIsolation
import Dependents.Proofs.FiledEdges
import Dependents.Proofs.FirstOccurrences
import Dependents.Proofs.FreshBuild
import Dependents.Proofs.GroupedReports
import Dependents.Proofs.ImportBindings
import Dependents.Proofs.ImportedCalls
import Dependents.Proofs.IncludedExtensions
import Dependents.Proofs.IndexBuckets
import Dependents.Proofs.IndexContents
import Dependents.Proofs.IndexJson
import Dependents.Proofs.IndexKeys
import Dependents.Proofs.JsonRoundTrip
import Dependents.Proofs.KeptSyntax
import Dependents.Proofs.KeptTrees
import Dependents.Proofs.LastDeclarations
import Dependents.Proofs.LexicalFolding
import Dependents.Proofs.Locations
import Dependents.Proofs.Lowering
import Dependents.Proofs.NamedReading
import Dependents.Proofs.Nesting
import Dependents.Proofs.NormalPaths
import Dependents.Proofs.Numerals
import Dependents.Proofs.Outline
import Dependents.Proofs.PathDigest
import Dependents.Proofs.PathSteps
import Dependents.Proofs.Places
import Dependents.Proofs.Policies
import Dependents.Proofs.Positions
import Dependents.Proofs.PreorderImage
import Dependents.Proofs.RemadeDirectories
import Dependents.Proofs.ResolvedPlaces
import Dependents.Proofs.RespelledPaths
import Dependents.Proofs.ScanContents
import Dependents.Proofs.Schedules
import Dependents.Proofs.Shapes
import Dependents.Proofs.SharedDirectory
import Dependents.Proofs.SourceFiles
import Dependents.Proofs.TargetLookup
import Dependents.Proofs.UnlinkedPaths
import Dependents.Proofs.Utf8RoundTrip
import Dependents.Proofs.Walk
import Dependents.Proofs.WellFormedTrees
import Dependents.Proofs.WrittenFiles
import Dependents.Proofs.WrittenSteps
import Dependents.Query
import Dependents.Report.Basic
import Dependents.Report.Json
import Dependents.Report.Text
import Dependents.Resolution
import Dependents.Scan
import Dependents.Scope
import Dependents.Source
import Dependents.SyntaxTree.Basic
import Dependents.SyntaxTree.Kind
import Dependents.SyntaxTree.Lowering
import Dependents.Text.Blank
import Dependents.Text.Decimal
import Dependents.Text.LineCol
import Dependents.Text.Position
import Dependents.Text.Utf8
