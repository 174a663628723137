import RepoAtlas.Checkpoint
import RepoAtlas.CommandLine.Arguments
import RepoAtlas.CommandLine.Session
import RepoAtlas.Decimal.Shortest
import RepoAtlas.Decimal.Text
import RepoAtlas.Digest.Fingerprint
import RepoAtlas.Digest.Sha256
import RepoAtlas.Embedding.Breaker
import RepoAtlas.Embedding.Embedder
import RepoAtlas.Embedding.Policy
import RepoAtlas.Embedding.Provider
import RepoAtlas.Engine.Basic
import RepoAtlas.Engine.Error
import RepoAtlas.Engine.Ingest
import RepoAtlas.Engine.Linking
import RepoAtlas.Engine.Report
import RepoAtlas.Engine.Sync
import RepoAtlas.Engine.World
import RepoAtlas.Extraction.Basic
import RepoAtlas.Extraction.Go
import RepoAtlas.Extraction.Literal
import RepoAtlas.Extraction.Python
import RepoAtlas.Extraction.Registry
import RepoAtlas.Extraction.Rust
import RepoAtlas.Extraction.TypeScript
import RepoAtlas.Extraction.Walk
import RepoAtlas.Graph.Admission
import RepoAtlas.Graph.Basic
import RepoAtlas.Graph.Batch
import RepoAtlas.Graph.Edge
import RepoAtlas.Graph.Key
import RepoAtlas.Graph.Node
import RepoAtlas.Graph.Query
import RepoAtlas.Graph.Snapshot
import RepoAtlas.Graph.Store
import RepoAtlas.Graph.Vector
import RepoAtlas.History.Git
import RepoAtlas.History.Order
import RepoAtlas.History.Record
import RepoAtlas.History.Sync
import RepoAtlas.Ignore.Glob
import RepoAtlas.Ignore.Rules
import RepoAtlas.Json.Basic
import RepoAtlas.Json.Parser
import RepoAtlas.Json.Printer
import RepoAtlas.Links.Calls
import RepoAtlas.Links.Imports
import RepoAtlas.Main
import RepoAtlas.Paths
import RepoAtlas.Proofs.Checkpoint.Atomicity
import RepoAtlas.Proofs.Digest.Framing
import RepoAtlas.Proofs.Embedding.Attempts
import RepoAtlas.Proofs.Embedding.Flights
import RepoAtlas.Proofs.Embedding.Requests
import RepoAtlas.Proofs.Embedding.Spacing
import RepoAtlas.Proofs.Embedding.Steady
import RepoAtlas.Proofs.Engine.Acceptance
import RepoAtlas.Proofs.Engine.Act
import RepoAtlas.Proofs.Engine.Advancing
import RepoAtlas.Proofs.Engine.Contents
import RepoAtlas.Proofs.Engine.Convergence
import RepoAtlas.Proofs.Engine.CurrentCalls
import RepoAtlas.Proofs.Engine.CurrentImports
import RepoAtlas.Proofs.Engine.Document
import RepoAtlas.Proofs.Engine.EventRun
import RepoAtlas.Proofs.Engine.Evolution
import RepoAtlas.Proofs.Engine.FileRun
import RepoAtlas.Proofs.Engine.FullRun
import RepoAtlas.Proofs.Engine.InSync
import RepoAtlas.Proofs.Engine.Intact
import RepoAtlas.Proofs.Engine.Interruption
import RepoAtlas.Proofs.Engine.LinkRun
import RepoAtlas.Proofs.Engine.Links
import RepoAtlas.Proofs.Engine.Mirror
import RepoAtlas.Proofs.Engine.Preparing
import RepoAtlas.Proofs.Engine.Progress
import RepoAtlas.Proofs.Engine.Recording
import RepoAtlas.Proofs.Engine.Relinking
import RepoAtlas.Proofs.Engine.Reordering
import RepoAtlas.Proofs.Engine.Repetition
import RepoAtlas.Proofs.Engine.Running
import RepoAtlas.Proofs.Engine.Sending
import RepoAtlas.Proofs.Engine.Skipping
import RepoAtlas.Proofs.Engine.Storing
import RepoAtlas.Proofs.Engine.Trails
import RepoAtlas.Proofs.Engine.Unchanged
import RepoAtlas.Proofs.Engine.Undivided
import RepoAtlas.Proofs.Engine.Uploads
import RepoAtlas.Proofs.Engine.Worklist
import RepoAtlas.Proofs.Extraction.Naming
import RepoAtlas.Proofs.Extraction.Numbering
import RepoAtlas.Proofs.Extraction.Scopes
import RepoAtlas.Proofs.Extraction.Traversal
import RepoAtlas.Proofs.Graph.Accounting
import RepoAtlas.Proofs.Graph.Admission
import RepoAtlas.Proofs.Graph.Arrivals
import RepoAtlas.Proofs.Graph.Changes
import RepoAtlas.Proofs.Graph.Clearing
import RepoAtlas.Proofs.Graph.Domains
import RepoAtlas.Proofs.Graph.Durability
import RepoAtlas.Proofs.Graph.Edges
import RepoAtlas.Proofs.Graph.Entries
import RepoAtlas.Proofs.Graph.Insertion
import RepoAtlas.Proofs.Graph.Integrity
import RepoAtlas.Proofs.Graph.Nearest
import RepoAtlas.Proofs.Graph.Orphans
import RepoAtlas.Proofs.Graph.Ownership
import RepoAtlas.Proofs.Graph.Reachability
import RepoAtlas.Proofs.Graph.Reapplying
import RepoAtlas.Proofs.Graph.Removal
import RepoAtlas.Proofs.Graph.Replacement
import RepoAtlas.Proofs.Graph.Retention
import RepoAtlas.Proofs.Graph.Snapshots
import RepoAtlas.Proofs.Graph.Ties
import RepoAtlas.Proofs.Graph.Unnumbered
import RepoAtlas.Proofs.Graph.Versions
import RepoAtlas.Proofs.Graph.WellFormed
import RepoAtlas.Proofs.History.Commits
import RepoAtlas.Proofs.History.Cycles
import RepoAtlas.Proofs.History.Following
import RepoAtlas.Proofs.History.Gathering
import RepoAtlas.Proofs.History.Order
import RepoAtlas.Proofs.History.Parents
import RepoAtlas.Proofs.History.Printing
import RepoAtlas.Proofs.History.Reading
import RepoAtlas.Proofs.History.Recordable
import RepoAtlas.Proofs.History.Resuming
import RepoAtlas.Proofs.History.Sparing
import RepoAtlas.Proofs.Links.Index
import RepoAtlas.Proofs.Links.Resolution
import RepoAtlas.Proofs.Retrieval.Impact
import RepoAtlas.Proofs.Retrieval.Ranking
import RepoAtlas.Proofs.Retrieval.Window
import RepoAtlas.Proofs.Scan.Agreement
import RepoAtlas.Proofs.Scan.Parts
import RepoAtlas.Proofs.Text.Bytes
import RepoAtlas.Proofs.Text.Cutting
import RepoAtlas.Proofs.Text.Lowering
import RepoAtlas.Proofs.Time.Calendar
import RepoAtlas.Proofs.Watch.Conservation
import RepoAtlas.Proofs.Watch.Debouncing
import RepoAtlas.Proofs.Watch.Ledger
import RepoAtlas.Proofs.Watch.Turns
import RepoAtlas.Retrieval.Basic
import RepoAtlas.Retrieval.Hybrid
import RepoAtlas.Retrieval.Impact
import RepoAtlas.Scan.Changes
import RepoAtlas.Scan.Collect
import RepoAtlas.Scan.FileTree
import RepoAtlas.Scan.Filter
import RepoAtlas.Settings.Basic
import RepoAtlas.Settings.Layers
import RepoAtlas.Settings.Lenient
import RepoAtlas.Syntax.Go
import RepoAtlas.Syntax.Parser
import RepoAtlas.Syntax.Python
import RepoAtlas.Syntax.Rust
import RepoAtlas.Syntax.Scan
import RepoAtlas.Syntax.Tree
import RepoAtlas.Syntax.TypeScript
import RepoAtlas.Text.Blank
import RepoAtlas.Text.CaseTable
import RepoAtlas.Text.Lower
import RepoAtlas.Text.Quoted
import RepoAtlas.Text.Split
import RepoAtlas.Text.Symbol
import RepoAtlas.Text.Utf8
import RepoAtlas.Time.Duration
import RepoAtlas.Time.Instant
import RepoAtlas.Toml.Parser
import RepoAtlas.Toml.Printer
import RepoAtlas.Toml.Scalar
import RepoAtlas.Toml.Table
import RepoAtlas.Watch.Debounce
import RepoAtlas.Watch.Synchronizer
import RepoAtlas.Watch.Watcher
