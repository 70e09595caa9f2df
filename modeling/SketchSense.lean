import SketchSense.Analysis.Core
import SketchSense.Analysis.Request
import SketchSense.Cache.Arguments
import SketchSense.Cache.Builder
import SketchSense.Cache.Project
import SketchSense.Cache.Units
import SketchSense.Collation
import SketchSense.Completion.Complete
import SketchSense.Completion.Ranking
import SketchSense.Config
import SketchSense.Cursor.Basic
import SketchSense.Cursor.FunctionKey
import SketchSense.Cursor.Tree
import SketchSense.Diagnostic.Basic
import SketchSense.Diagnostic.Change
import SketchSense.Diagnostic.Collect
import SketchSense.Engine.Basic
import SketchSense.Engine.Prepared
import SketchSense.Fault
import SketchSense.FilePath.Basic
import SketchSense.FilePath.Kind
import SketchSense.FilePath.Octets
import SketchSense.FilePath.Root
import SketchSense.FilePath.Sibling
import SketchSense.FilePath.Sketch
import SketchSense.Hash.Content
import SketchSense.Hash.Xxh3
import SketchSense.Location
import SketchSense.Model.Build
import SketchSense.Model.Declaration
import SketchSense.Model.Engine
import SketchSense.Model.Entity
import SketchSense.Model.Failure
import SketchSense.Model.Lexer
import SketchSense.Proofs.Analysis.Announcing
import SketchSense.Proofs.Analysis.Ending
import SketchSense.Proofs.Analysis.Held
import SketchSense.Proofs.Analysis.Likeness
import SketchSense.Proofs.Analysis.Listing
import SketchSense.Proofs.Analysis.Occurrences
import SketchSense.Proofs.Analysis.Questions
import SketchSense.Proofs.Analysis.Reached
import SketchSense.Proofs.Analysis.Scope
import SketchSense.Proofs.Analysis.Searches
import SketchSense.Proofs.Analysis.Session
import SketchSense.Proofs.Analysis.Synthetic
import SketchSense.Proofs.Analysis.Union
import SketchSense.Proofs.ByPosition.Arena
import SketchSense.Proofs.ByPosition.Blocks
import SketchSense.Proofs.ByPosition.Building
import SketchSense.Proofs.ByPosition.Entities
import SketchSense.Proofs.ByPosition.Heads
import SketchSense.Proofs.ByPosition.Lexing
import SketchSense.Proofs.ByPosition.Nesting
import SketchSense.Proofs.ByPosition.OpenBlock
import SketchSense.Proofs.ByPosition.Operations
import SketchSense.Proofs.ByPosition.Scanning
import SketchSense.Proofs.ByPosition.Stopping
import SketchSense.Proofs.ByPosition.Texts
import SketchSense.Proofs.ByPosition.Words
import SketchSense.Proofs.Cache.Agreeing
import SketchSense.Proofs.Cache.Building
import SketchSense.Proofs.Cache.Completing
import SketchSense.Proofs.Cache.Enumeration
import SketchSense.Proofs.Cache.Headers
import SketchSense.Proofs.Cache.Hits
import SketchSense.Proofs.Cache.Keys
import SketchSense.Proofs.Cache.Likeness
import SketchSense.Proofs.Cache.OctetHeaders
import SketchSense.Proofs.Cache.Passes
import SketchSense.Proofs.Cache.Presenting
import SketchSense.Proofs.Cache.Project
import SketchSense.Proofs.Cache.Reading
import SketchSense.Proofs.Cache.Recovering
import SketchSense.Proofs.Cache.Refreshing
import SketchSense.Proofs.Cache.Reparsing
import SketchSense.Proofs.Cache.Reuse
import SketchSense.Proofs.Cache.Units
import SketchSense.Proofs.Collation
import SketchSense.Proofs.Completion.Choosing
import SketchSense.Proofs.Completion.Typed
import SketchSense.Proofs.Cursor.Forest
import SketchSense.Proofs.Cursor.Walk
import SketchSense.Proofs.Diagnostic.Change
import SketchSense.Proofs.Diagnostic.Collecting
import SketchSense.Proofs.Diagnostic.Merging
import SketchSense.Proofs.Diagnostic.Repeats
import SketchSense.Proofs.Diagnostic.Scoping
import SketchSense.Proofs.Engine.Keeping
import SketchSense.Proofs.Engine.Likeness
import SketchSense.Proofs.Engine.Run
import SketchSense.Proofs.Engine.Trace
import SketchSense.Proofs.Enumeration
import SketchSense.Proofs.FilePath.Composition
import SketchSense.Proofs.FilePath.Faithful
import SketchSense.Proofs.FilePath.Inside
import SketchSense.Proofs.FilePath.Kinds
import SketchSense.Proofs.FilePath.Names
import SketchSense.Proofs.FilePath.Normal
import SketchSense.Proofs.FilePath.OctetNames
import SketchSense.Proofs.FilePath.OctetOrder
import SketchSense.Proofs.FilePath.Octets
import SketchSense.Proofs.FilePath.Prefix
import SketchSense.Proofs.FilePath.Spelling
import SketchSense.Proofs.Hash.Fields
import SketchSense.Proofs.Model.Bodies
import SketchSense.Proofs.Model.Declarations
import SketchSense.Proofs.Model.Entities
import SketchSense.Proofs.Model.Extents
import SketchSense.Proofs.Model.Heads
import SketchSense.Proofs.Model.Lexemes
import SketchSense.Proofs.Model.Linking
import SketchSense.Proofs.Model.Matching
import SketchSense.Proofs.Model.Naming
import SketchSense.Proofs.Model.Numbering
import SketchSense.Proofs.Model.Pieces
import SketchSense.Proofs.Model.Places
import SketchSense.Proofs.Model.Relexing
import SketchSense.Proofs.Model.Relocation
import SketchSense.Proofs.Model.Resolution
import SketchSense.Proofs.Model.Scan
import SketchSense.Proofs.Model.Spans
import SketchSense.Proofs.Query.Definition
import SketchSense.Proofs.Query.Ending
import SketchSense.Proofs.Query.Occurrence
import SketchSense.Proofs.Service.Announcing
import SketchSense.Proofs.Service.Issuing
import SketchSense.Proofs.Service.Protocol
import SketchSense.Proofs.Service.Queues
import SketchSense.Proofs.Service.Supersession
import SketchSense.Proofs.Skeleton
import SketchSense.Proofs.Sketch.Coordinates
import SketchSense.Proofs.Sketch.Decoding
import SketchSense.Proofs.Sketch.Documented
import SketchSense.Proofs.Sketch.Editing
import SketchSense.Proofs.Sketch.EntryPoints
import SketchSense.Proofs.Sketch.FailedScan
import SketchSense.Proofs.Sketch.FileScope
import SketchSense.Proofs.Sketch.Handover
import SketchSense.Proofs.Sketch.Header
import SketchSense.Proofs.Sketch.HeaderCache
import SketchSense.Proofs.Sketch.Making
import SketchSense.Proofs.Sketch.Memory
import SketchSense.Proofs.Sketch.Placement
import SketchSense.Proofs.Sketch.Presented
import SketchSense.Proofs.Sketch.Prototypes
import SketchSense.Proofs.Sketch.Quiet
import SketchSense.Proofs.Sketch.Rewriting
import SketchSense.Proofs.Sketch.Site
import SketchSense.Proofs.Sketch.Translating
import SketchSense.Proofs.Symbol.Collect
import SketchSense.Proofs.Symbol.Rewriting
import SketchSense.Proofs.Symbol.Staleness
import SketchSense.Proofs.Table
import SketchSense.Proofs.Text.Comment
import SketchSense.Proofs.Text.Indent
import SketchSense.Proofs.Text.Lines
import SketchSense.Proofs.Text.Lossy
import SketchSense.Proofs.Text.Offsets
import SketchSense.Proofs.Text.Positions
import SketchSense.Proofs.Text.Search
import SketchSense.Proofs.Text.Snippet
import SketchSense.Query.Definition
import SketchSense.Query.Hover
import SketchSense.Query.Occurrence
import SketchSense.Query.Sibling
import SketchSense.Query.Texts
import SketchSense.Service.Basic
import SketchSense.Service.Client
import SketchSense.Service.Token
import SketchSense.Settings
import SketchSense.Skeleton
import SketchSense.Sketch.Definition
import SketchSense.Sketch.Injection
import SketchSense.Sketch.Sources
import SketchSense.Symbol.Cache
import SketchSense.Symbol.Collect
import SketchSense.Symbol.Kind
import SketchSense.Table
import SketchSense.Text.Blank
import SketchSense.Text.Bytes
import SketchSense.Text.Comment
import SketchSense.Text.Lines
import SketchSense.Text.Lossy
import SketchSense.Text.Search
import SketchSense.Text.Snippet
import SketchSense.Toml.Document
import SketchSense.Toml.Number
import SketchSense.Toml.Quoted
import SketchSense.Toml.Reader
import SketchSense.Toml.Value
