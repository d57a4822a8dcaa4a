import SchemaGraph.Catalog
import SchemaGraph.Catalog.Json
import SchemaGraph.Diagram
import SchemaGraph.Distinct
import SchemaGraph.Document
import SchemaGraph.Graph.Basic
import SchemaGraph.Graph.Build
import SchemaGraph.Graph.Id
import SchemaGraph.Graph.Json
import SchemaGraph.Graph.Link
import SchemaGraph.Graph.Relay
import SchemaGraph.Json.Basic
import SchemaGraph.Json.Reader
import SchemaGraph.Json.Value
import SchemaGraph.Options
import SchemaGraph.Report
import SchemaGraph.Requests
import SchemaGraph.Schema.Basic
import SchemaGraph.Schema.Build
import SchemaGraph.Schema.Fault
import SchemaGraph.Schema.Merge
import SchemaGraph.Schema.Order
import SchemaGraph.Schema.Roots
import SchemaGraph.Sdl.BlockString
import SchemaGraph.Sdl.Definition
import SchemaGraph.Sdl.Grammar
import SchemaGraph.Sdl.Lexeme
import SchemaGraph.Sdl.Operation
import SchemaGraph.Sdl.Reader
import SchemaGraph.Sdl.StringLiteral
import SchemaGraph.Sdl.Token
import SchemaGraph.Sdl.TypeExpr
import SchemaGraph.Sdl.Value
import SchemaGraph.Source
import SchemaGraph.Source.Excerpt
import SchemaGraph.Text.Bytes
import SchemaGraph.Text.Escape
import SchemaGraph.Text.Lines
import SchemaGraph.Text.Number
import SchemaGraph.Text.Quoted
import SchemaGraph.Text.Visible
import SchemaGraph.Proofs.Lists
import SchemaGraph.Proofs.Changing
import SchemaGraph.Proofs.Derivation
import SchemaGraph.Proofs.ReaderSteps
import SchemaGraph.Proofs.ReaderSound
import SchemaGraph.Proofs.ReaderComplete
import SchemaGraph.Proofs.Merging
import SchemaGraph.Proofs.Reading
import SchemaGraph.Proofs.Resolution
import SchemaGraph.Proofs.Lookups
import SchemaGraph.Proofs.Linking
import SchemaGraph.Proofs.Image
import SchemaGraph.Proofs.Names
import SchemaGraph.Proofs.Identifiers
import SchemaGraph.Proofs.Addresses
import SchemaGraph.Proofs.Relexing
import SchemaGraph.Proofs.Defaults
import SchemaGraph.Proofs.Fitting
import SchemaGraph.Proofs.Canonical
import SchemaGraph.Proofs.Inlining
import SchemaGraph.Proofs.Outcomes
import SchemaGraph.Proofs.Relocation
import SchemaGraph.Proofs.Reordering
import SchemaGraph.Proofs.Sorting
import SchemaGraph.Proofs.Superseding
import SchemaGraph.Proofs.Presentation
import SchemaGraph.Proofs.Foresight
import SchemaGraph.Proofs.Lookahead
import SchemaGraph.Proofs.Spans
import SchemaGraph.Proofs.Offences
import SchemaGraph.Proofs.Places
import SchemaGraph.Proofs.Sites
import SchemaGraph.Proofs.Links
import SchemaGraph.Proofs.Kinds
import SchemaGraph.Proofs.Rewriting
import SchemaGraph.Proofs.Omissions
import SchemaGraph.Proofs.TokenRules
import SchemaGraph.Proofs.LongestMatch
import SchemaGraph.Proofs.Remarking
import SchemaGraph.Proofs.Seams
import SchemaGraph.Proofs.Joining
import SchemaGraph.Proofs.Growth
import SchemaGraph.Proofs.Padding
import SchemaGraph.Proofs.Writing
import SchemaGraph.Proofs.Lossless
import SchemaGraph.Proofs.Slices
import SchemaGraph.Proofs.Scanning
import SchemaGraph.Proofs.Advancing
import SchemaGraph.Proofs.Pinpointing
import SchemaGraph.Proofs.Offsets
import SchemaGraph.Proofs.Ways
import SchemaGraph.Proofs.Collapsing
import SchemaGraph.Proofs.Stripping
import SchemaGraph.Proofs.Blanking
import SchemaGraph.Proofs.Acceptance
import SchemaGraph.Proofs.Dangling
import SchemaGraph.Proofs.Relations
import SchemaGraph.Proofs.Hidden
import SchemaGraph.Proofs.Literals
import SchemaGraph.Proofs.Unwrapping
import SchemaGraph.Proofs.Overriding
import SchemaGraph.Proofs.Extending
import SchemaGraph.Proofs.Enclosing
import SchemaGraph.Proofs.Dedenting
import SchemaGraph.Proofs.Causes
import SchemaGraph.Proofs.Excerpts
import SchemaGraph.Proofs.Indexing
import SchemaGraph.Proofs.Trials
import SchemaGraph.Proofs.Registering
import SchemaGraph.Proofs.Drafting
