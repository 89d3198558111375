import CodeGraph.Build.Construction
import CodeGraph.Build.Diagnostic
import CodeGraph.Build.Inputs
import CodeGraph.Build.Report
import CodeGraph.Build.Resolution
import CodeGraph.Command.Arguments
import CodeGraph.Command.Run
import CodeGraph.Decimal.Layout
import CodeGraph.Decimal.Shortest
import CodeGraph.Digest.Sha256
import CodeGraph.Environment
import CodeGraph.Exclude.Glob
import CodeGraph.Exclude.Layer
import CodeGraph.Exclude.Rule
import CodeGraph.Exclude.Survey
import CodeGraph.Export
import CodeGraph.Fact.Basic
import CodeGraph.Fact.Record
import CodeGraph.Fact.Stream
import CodeGraph.Files.Basic
import CodeGraph.Files.Tree
import CodeGraph.Graph.Error
import CodeGraph.Graph.Frozen
import CodeGraph.Graph.Kind
import CodeGraph.Graph.Node
import CodeGraph.Graph.Record
import CodeGraph.Graph.Statistics
import CodeGraph.Graph.Store
import CodeGraph.Graph.Update
import CodeGraph.Impact.Analysis
import CodeGraph.Impact.Dependencies
import CodeGraph.Impact.Target
import CodeGraph.Json.Basic
import CodeGraph.Json.Numeral
import CodeGraph.Json.Parser
import CodeGraph.Json.Printer
import CodeGraph.Json.Record
import CodeGraph.Json.Shape
import CodeGraph.Main
import CodeGraph.Module.Index
import CodeGraph.Module.Path
import CodeGraph.Module.Specifier
import CodeGraph.Moment
import CodeGraph.Proofs.Build.Balance
import CodeGraph.Proofs.Build.Calls
import CodeGraph.Proofs.Build.Choice
import CodeGraph.Proofs.Build.Collision
import CodeGraph.Proofs.Build.Coverage
import CodeGraph.Proofs.Build.Directories
import CodeGraph.Proofs.Build.Gathering
import CodeGraph.Proofs.Build.Imports
import CodeGraph.Proofs.Build.Leaders
import CodeGraph.Proofs.Build.Locality
import CodeGraph.Proofs.Build.Order
import CodeGraph.Proofs.Build.Origins
import CodeGraph.Proofs.Build.Ownership
import CodeGraph.Proofs.Build.Paths
import CodeGraph.Proofs.Build.Proposals
import CodeGraph.Proofs.Build.Resolution
import CodeGraph.Proofs.Build.Schema
import CodeGraph.Proofs.Build.Siblings
import CodeGraph.Proofs.Build.Soundness
import CodeGraph.Proofs.Decimal.Shortest
import CodeGraph.Proofs.Fact.Record
import CodeGraph.Proofs.Fact.RoundTrip
import CodeGraph.Proofs.Fact.Stream
import CodeGraph.Proofs.Files.Tree
import CodeGraph.Proofs.Float.Range
import CodeGraph.Proofs.Graph.Adjacency
import CodeGraph.Proofs.Graph.Chain
import CodeGraph.Proofs.Graph.Determined
import CodeGraph.Proofs.Graph.Frame
import CodeGraph.Proofs.Graph.Reachable
import CodeGraph.Proofs.Graph.Record
import CodeGraph.Proofs.Graph.Scan
import CodeGraph.Proofs.Impact.Affected
import CodeGraph.Proofs.Impact.Classification
import CodeGraph.Proofs.Impact.Completeness
import CodeGraph.Proofs.Impact.Containment
import CodeGraph.Proofs.Impact.Depth
import CodeGraph.Proofs.Impact.Duality
import CodeGraph.Proofs.Impact.EntryPoints
import CodeGraph.Proofs.Impact.Growth
import CodeGraph.Proofs.Impact.Levels
import CodeGraph.Proofs.Impact.Marking
import CodeGraph.Proofs.Json.Exact
import CodeGraph.Proofs.Json.Injective
import CodeGraph.Proofs.Json.Number
import CodeGraph.Proofs.Json.Numeral
import CodeGraph.Proofs.Json.Plain
import CodeGraph.Proofs.Json.Reprint
import CodeGraph.Proofs.Module.Index
import CodeGraph.Proofs.Module.Naming
import CodeGraph.Proofs.Module.NormalForm
import CodeGraph.Proofs.Module.Specifier
import CodeGraph.Proofs.Path
import CodeGraph.Proofs.Retrieval.Attachment
import CodeGraph.Proofs.Retrieval.Configured
import CodeGraph.Proofs.Retrieval.Connected
import CodeGraph.Proofs.Retrieval.Ranking
import CodeGraph.Proofs.Retrieval.Seeds
import CodeGraph.Proofs.Retrieval.Spelling
import CodeGraph.Proofs.Retrieval.Token
import CodeGraph.Proofs.Snapshot.Admission
import CodeGraph.Proofs.Snapshot.Alike
import CodeGraph.Proofs.Snapshot.Document
import CodeGraph.Proofs.Snapshot.Rebuild
import CodeGraph.Proofs.Snapshot.Return
import CodeGraph.Proofs.Snapshot.RoundTrip
import CodeGraph.Proofs.Snapshot.Seal
import CodeGraph.Proofs.Sorting
import CodeGraph.Proofs.Text.Lines
import CodeGraph.Proofs.Text.Split
import CodeGraph.Proofs.Text.Utf8
import CodeGraph.Proofs.Uuid
import CodeGraph.Proofs.Walk.Agreement
import CodeGraph.Proofs.Walk.BreadthFirst
import CodeGraph.Proofs.Walk.Budget
import CodeGraph.Proofs.Walk.DepthFirst
import CodeGraph.Proofs.Walk.Discovery
import CodeGraph.Proofs.Walk.Distance
import CodeGraph.Proofs.Walk.Effort
import CodeGraph.Proofs.Walk.Hybrid
import CodeGraph.Proofs.Walk.Linked
import CodeGraph.Proofs.Walk.Path
import CodeGraph.Proofs.Walk.Preorder
import CodeGraph.Proofs.Walk.Seeding
import CodeGraph.Proofs.Walk.Trace
import CodeGraph.Proofs.Walk.Trail
import CodeGraph.Proofs.Walk.Union
import CodeGraph.Retrieval.Embedder
import CodeGraph.Retrieval.Query
import CodeGraph.Retrieval.Similarity
import CodeGraph.Retrieval.Token
import CodeGraph.Session
import CodeGraph.Settings.Basic
import CodeGraph.Settings.Loading
import CodeGraph.Snapshot.Document
import CodeGraph.Snapshot.Storage
import CodeGraph.SortedMap
import CodeGraph.Text.Blank
import CodeGraph.Text.Digits
import CodeGraph.Text.Lines
import CodeGraph.Text.Reader
import CodeGraph.Text.Split
import CodeGraph.Text.Utf8
import CodeGraph.Toml.DateTime
import CodeGraph.Toml.Parser
import CodeGraph.Toml.Printer
import CodeGraph.Toml.Quoted
import CodeGraph.Toml.Scalar
import CodeGraph.Toml.Table
import CodeGraph.Uuid
import CodeGraph.Walk.Basic
import CodeGraph.Walk.BreadthFirst
import CodeGraph.Walk.DepthFirst
import CodeGraph.Walk.Hybrid
import CodeGraph.Walk.Path
