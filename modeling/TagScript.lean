import TagScript.Check.Call
import TagScript.Check.Walk
import TagScript.Command.Flag
import TagScript.Command.Request
import TagScript.Command.Run
import TagScript.Compile
import TagScript.Diagnostic.Basic
import TagScript.Diagnostic.Distance
import TagScript.Diagnostic.Report
import TagScript.Editor.Highlight
import TagScript.Editor.NetAddress
import TagScript.Editor.Notice
import TagScript.Editor.Uri
import TagScript.Editor.Workspace
import TagScript.Files.Host
import TagScript.Files.Path
import TagScript.Files.Tree
import TagScript.Main
import TagScript.Project.Build
import TagScript.Project.Config
import TagScript.Release
import TagScript.Rule.Basic
import TagScript.Rule.Declaring
import TagScript.Rule.Stripping
import TagScript.Rule.TagMap
import TagScript.Session
import TagScript.Source.Mode
import TagScript.Source.Position
import TagScript.Tag.Argument
import TagScript.Tag.Declaration
import TagScript.Tag.Lexeme
import TagScript.Tag.Parameter
import TagScript.Text.Bytes
import TagScript.Text.CaseFold
import TagScript.Text.CaseTable
import TagScript.Text.Duration
import TagScript.Text.Fixed
import TagScript.Text.Integer
import TagScript.Text.Json
import TagScript.Text.Lowercase
import TagScript.Text.Printable
import TagScript.Text.Quoted
import TagScript.Text.Space
import TagScript.Text.Style
import TagScript.Text.Utf8
import TagScript.Text.Word
import TagScript.Token.Basic
import TagScript.Token.Listing
import TagScript.Token.Render
import TagScript.Token.Scan
import TagScript.Toml.Read
import TagScript.Toml.Scalar
import TagScript.Toml.Table
import TagScript.Proofs.Reading
import TagScript.Proofs.Whitespace
import TagScript.Proofs.Pairing
import TagScript.Proofs.Layout
import TagScript.Proofs.Lossless
import TagScript.Proofs.BracketMatching
import TagScript.Proofs.Rendering
import TagScript.Proofs.Marks
import TagScript.Proofs.CommentSafety
import TagScript.Proofs.Scannable
import TagScript.Proofs.Rereading
import TagScript.Proofs.RoundTrip
import TagScript.Proofs.LoopClauses
import TagScript.Proofs.Settled
import TagScript.Proofs.Recompile
import TagScript.Proofs.Visits
import TagScript.Proofs.CallChecking
import TagScript.Proofs.Rewriting
import TagScript.Proofs.TagRemoval
import TagScript.Proofs.OptionEffects
import TagScript.Proofs.RecordingOrder
import TagScript.Proofs.KeyedLists
import TagScript.Proofs.OpenDocuments
import TagScript.Proofs.LiteralWords
import TagScript.Proofs.CleanPaths
import TagScript.Proofs.FileTrees
import TagScript.Proofs.Saving
import TagScript.Proofs.BuildSteps
import TagScript.Proofs.BuildContainment
import TagScript.Proofs.BuildOrder
import TagScript.Proofs.SessionReplay
import TagScript.Proofs.SessionBrackets
import TagScript.Proofs.LexemeTexts
import TagScript.Proofs.TypeTexts
import TagScript.Proofs.TagCutting
import TagScript.Proofs.ParameterReading
import TagScript.Proofs.ParameterTags
import TagScript.Proofs.LexemeContexts
import TagScript.Proofs.QuoteClosing
import TagScript.Proofs.TaggedTexts
import TagScript.Proofs.TagStripping
import TagScript.Proofs.ArgumentSplitting
import TagScript.Proofs.Arity
import TagScript.Proofs.ParameterLocality
import TagScript.Proofs.Initialisers
import TagScript.Proofs.ArgumentPlaces
import TagScript.Proofs.DiagnosticSpans
import TagScript.Proofs.NestingLimit
import TagScript.Proofs.LineJoining
import TagScript.Proofs.TagPieces
import TagScript.Proofs.HighlightWire
import TagScript.Proofs.LinePositions
import TagScript.Proofs.RefusedBuilds
import TagScript.Proofs.Completions
import TagScript.Proofs.HighlightOverlaps
import TagScript.Proofs.EditDistance
import TagScript.Proofs.QuotedTexts
import TagScript.Proofs.Listings
import TagScript.Proofs.ScanRecords
import TagScript.Proofs.SearchInStep
