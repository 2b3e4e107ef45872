import Betweenness.Centrality
import Betweenness.CommandLine.Session
import Betweenness.Document.Request
import Betweenness.Document.Scores
import Betweenness.Document.Settings
import Betweenness.Main
import Betweenness.Proofs.Ambiguity
import Betweenness.Proofs.Centrality
import Betweenness.Proofs.Checked.Centrality
import Betweenness.Proofs.ChosenSources
import Betweenness.Proofs.Complaints
import Betweenness.Proofs.Conservation
import Betweenness.Proofs.Dependency.Frame
import Betweenness.Proofs.ExactMemory
import Betweenness.Proofs.Graph.Appending
import Betweenness.Proofs.Graph.Arcs
import Betweenness.Proofs.Graph.Embedding
import Betweenness.Proofs.Graph.Loading
import Betweenness.Proofs.Graph.Naming
import Betweenness.Proofs.Graph.Repeats
import Betweenness.Proofs.Lookup
import Betweenness.Proofs.NumberingModes
import Betweenness.Proofs.Ranking
import Betweenness.Proofs.Registration
import Betweenness.Proofs.Rejection
import Betweenness.Proofs.Renaming
import Betweenness.Proofs.Requests
import Betweenness.Proofs.Rewriting
import Betweenness.Proofs.ShortestPaths.Agreement
import Betweenness.Proofs.Symmetry
import Betweenness.Proofs.Tables
import Betweenness.Proofs.Unbiased
import Betweenness.Proofs.UnitInterval
import Betweenness.Proofs.WorkingSpace
import Betweenness.Proofs.Workload.Chance
import Betweenness.Proofs.Workload.Growth
import Betweenness.Proofs.Workload.Scatter
import Betweenness.Proofs.Workload.VertexCount
import Betweenness.Proofs.Workload.Tree
import Betweenness.Proofs.Workload.Connected
import Betweenness.Proofs.Graph.Bridge
import Betweenness.Proofs.Workload.Barbell
import Betweenness.Proofs.Workload.Safety
import Betweenness.Proofs.Json.Grammar
import Betweenness.Proofs.Json.Lexemes
import Betweenness.Proofs.Json.Scanning
import Betweenness.Proofs.Json.Reading
import Betweenness.Proofs.Json.Printing
import Betweenness.Proofs.Json.Fields
import Betweenness.Proofs.Document.Settings
import Betweenness.Proofs.Document.Requests
import Betweenness.Proofs.FixedWidth.Space
import Betweenness.Proofs.FixedWidth.Search
import Betweenness.Proofs.FixedWidth.LevelSearch
