import CodeSurvey.Cache.Audit
import CodeSurvey.Cache.Basic
import CodeSurvey.Cache.Directory
import CodeSurvey.Cache.Recent
import CodeSurvey.Comment.Span
import CodeSurvey.Comment.Text
import CodeSurvey.Config.Call
import CodeSurvey.Config.Settings
import CodeSurvey.Decimal.Shortest
import CodeSurvey.Dict
import CodeSurvey.Digest.Base64
import CodeSurvey.Digest.Hex
import CodeSurvey.Digest.Sha256
import CodeSurvey.Double
import CodeSurvey.Engine.Basic
import CodeSurvey.Engine.Pass
import CodeSurvey.Engine.Survey
import CodeSurvey.Engine.Totals
import CodeSurvey.Engine.Walk
import CodeSurvey.Error
import CodeSurvey.Export.Gather
import CodeSurvey.Export.Reexport
import CodeSurvey.Fact.Basic
import CodeSurvey.Fact.Location
import CodeSurvey.Fact.Set
import CodeSurvey.Fact.Wire
import CodeSurvey.FileSystem
import CodeSurvey.Glob.Basic
import CodeSurvey.Glob.Match
import CodeSurvey.Interpretation.Basic
import CodeSurvey.Interpretation.Derive
import CodeSurvey.Json.Basic
import CodeSurvey.Json.Printer
import CodeSurvey.Json.Reader
import CodeSurvey.Json.Record
import CodeSurvey.Language.All
import CodeSurvey.Language.Basic
import CodeSurvey.Language.CFamily
import CodeSurvey.Language.CSharp
import CodeSurvey.Language.Go
import CodeSurvey.Language.Java
import CodeSurvey.Language.Kotlin
import CodeSurvey.Language.Php
import CodeSurvey.Language.Python
import CodeSurvey.Language.Ruby
import CodeSurvey.Language.Rust
import CodeSurvey.Language.Scala
import CodeSurvey.Language.Script
import CodeSurvey.Language.Swift
import CodeSurvey.Path
import CodeSurvey.Pattern.Basic
import CodeSurvey.Pattern.Chars
import CodeSurvey.Plugin.Basic
import CodeSurvey.Plugin.Extractors
import CodeSurvey.Plugin.Interpreters
import CodeSurvey.Plugin.Registry
import CodeSurvey.Plugin.Report
import CodeSurvey.Plugin.Scripted
import CodeSurvey.Proofs.Decimal.Rounding
import CodeSurvey.Proofs.Decimal.Text
import CodeSurvey.Proofs.JsonText
import CodeSurvey.Proofs.Utf8
import CodeSurvey.Provider.Basic
import CodeSurvey.Provider.Registry
import CodeSurvey.Resolver
import CodeSurvey.Roster
import CodeSurvey.Scan.Block
import CodeSurvey.Scan.Facts
import CodeSurvey.Scan.Keyword
import CodeSurvey.Scan.Split
import CodeSurvey.Surveyor.All
import CodeSurvey.Surveyor.Basic
import CodeSurvey.Surveyor.Go
import CodeSurvey.Surveyor.Java
import CodeSurvey.Surveyor.Python
import CodeSurvey.Surveyor.Rust
import CodeSurvey.Surveyor.Script
import CodeSurvey.Syntax.Complexity
import CodeSurvey.Syntax.Node
import CodeSurvey.Syntax.Tree
import CodeSurvey.Text.Basic
import CodeSurvey.Text.Blank
import CodeSurvey.Text.Letter
import CodeSurvey.Text.LineIndex
import CodeSurvey.Text.Utf8
import CodeSurvey.Text.Word
import CodeSurvey.Yaml.Basic
import CodeSurvey.Yaml.Reader
import CodeSurvey.Proofs.CacheKey
import CodeSurvey.Proofs.FileSystem
import CodeSurvey.Proofs.Directory
import CodeSurvey.Proofs.CacheDirectory
import CodeSurvey.Proofs.CacheRefinement
import CodeSurvey.Proofs.Provenance
import CodeSurvey.Proofs.Extraction
import CodeSurvey.Proofs.Surface
import CodeSurvey.Proofs.Pipeline
import CodeSurvey.Proofs.Ownership
import CodeSurvey.Proofs.Execution
import CodeSurvey.Proofs.WireFormat
import CodeSurvey.Proofs.JsonReading
import CodeSurvey.Proofs.Calls
import CodeSurvey.Engine.Traffic
import CodeSurvey.Proofs.Recency
import CodeSurvey.Proofs.Slots
import CodeSurvey.Proofs.Leaving
import CodeSurvey.Proofs.Traffic
import CodeSurvey.Proofs.Sharing
import CodeSurvey.Proofs.Staleness
import CodeSurvey.Proofs.Bookkeeping
import CodeSurvey.Proofs.Gathering
import CodeSurvey.Proofs.NormalPath
import CodeSurvey.Proofs.Resolution
import CodeSurvey.Proofs.Literals
import CodeSurvey.Proofs.CommentSearch
import CodeSurvey.Proofs.Masking
import CodeSurvey.Proofs.ScannedNames
import CodeSurvey.Proofs.Statements
import CodeSurvey.Proofs.Reexports
import CodeSurvey.Proofs.Destructuring
import CodeSurvey.Proofs.PublicNames
import CodeSurvey.Proofs.DefaultExports
import CodeSurvey.Proofs.UseTrees
import CodeSurvey.Proofs.Remasking
import CodeSurvey.Proofs.FileTree
import CodeSurvey.Proofs.Repair
import CodeSurvey.Proofs.Lines
import CodeSurvey.Proofs.Detection
import CodeSurvey.Proofs.Walk
import CodeSurvey.Proofs.DirectoryScan
import CodeSurvey.Proofs.MarkerLines
import CodeSurvey.Proofs.Positions
import CodeSurvey.Proofs.Conservation
import CodeSurvey.Proofs.Invalidation
import CodeSurvey.Proofs.Balance
import CodeSurvey.Proofs.Braces
import CodeSurvey.Proofs.Indentation
import CodeSurvey.Proofs.Placement
import CodeSurvey.Proofs.Parameters
import CodeSurvey.Proofs.Identifiers
import CodeSurvey.Proofs.CommentText
import CodeSurvey.Proofs.Summaries
import CodeSurvey.Proofs.SourceLists
