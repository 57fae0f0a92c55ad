import DocTypes.Check.Source
import DocTypes.Cli.Run
import DocTypes.Main
import DocTypes.Report.Basic
import DocTypes.TypeText.Tokenizer
import DocTypes.Proofs.BreadthFirst
import DocTypes.Proofs.SuperTypes
import DocTypes.Proofs.CanonicalTypes
import DocTypes.Proofs.Compatibility
import DocTypes.Proofs.Reading
import DocTypes.Proofs.UnionNormal
import DocTypes.Proofs.Rereading
import DocTypes.Proofs.Relexing
import DocTypes.Proofs.StyleFix
import DocTypes.Proofs.IntersectionNormal
import DocTypes.Proofs.ReturnedTypes
import DocTypes.Proofs.UnionCompatibility
import DocTypes.Proofs.UnionGrouping
import DocTypes.Proofs.UnionLaws
import DocTypes.Proofs.UnionSearches
import DocTypes.Proofs.WideReading
import DocTypes.Proofs.HintReading
import DocTypes.Proofs.NativeHints
import DocTypes.Proofs.CommentRoundTrip
import DocTypes.Proofs.WalkVerdicts
import DocTypes.Proofs.SourceEdits
import DocTypes.Proofs.EditSelection
import DocTypes.Proofs.GrammarExactness
import DocTypes.Proofs.ConstructCoverage
import DocTypes.Proofs.GatheredClasses
import DocTypes.Proofs.ClassIdentity
import DocTypes.Proofs.FileSelection
import DocTypes.Proofs.FixingRuns
import DocTypes.Proofs.EmptyParts
import DocTypes.Proofs.SignatureReading
import DocTypes.Proofs.TokenSpans
import DocTypes.Proofs.LazyTokens
import DocTypes.Proofs.ByteScanning
import DocTypes.Proofs.CommentAttachment
import DocTypes.Proofs.ExtentLevels
import DocTypes.Proofs.InnermostScopes
import DocTypes.Proofs.TagAssignment
import DocTypes.Proofs.LargerTables
import DocTypes.Proofs.LinePositions
import DocTypes.Proofs.ScriptRuns
import DocTypes.Proofs.ScriptReadings
import DocTypes.Proofs.SuperTypeSearch
import DocTypes.Proofs.NotedCorrections
