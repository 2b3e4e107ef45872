import Betweenness.Document.Settings
import Betweenness.Sources
import Betweenness.Strategy
import Betweenness.Table

/-!
# Betweenness centrality

The two entry points of the library, `vertexCentrality` and `edgeCentrality`. Before anything is
computed, the settings, the options, the sources and the estimate of memory are checked, in this
order, and the first complaint is the answer. Otherwise the answer is a table with a row for every
vertex or every edge of the graph.

With every vertex as a source scores are exact; with fewer they are estimates.

Where settings leave the number of threads open, or options the seed of a sample, the host decides.
-/

namespace Betweenness

/-! ### Estimates of memory

Before a computation is started, the bytes that it needs are estimated. For every vertex, this is
its distance (4), path count and dependency (8 each), place in the order (4) and list of
predecessors (24); there are 8 for each arc that can be a predecessor, and the scores.

Source by source, every worker has all of this and its own scores, and the sum of the scores is
kept besides. Level by level, there is one such space, with 8 more bytes for each vertex and
scores of 4 bytes.

Estimates are 64-bit words, as sizes in memory are, and wrap around as such. -/

/-- The number of workers among which sources are shared: one for each thread, at least one. -/
def Settings.workers (s : Settings) (host : Host := .repeatable) : Nat :=
  max (s.threads.getD host.threads) 1

/-- The bytes of the space for searches in a graph. -/
def searchBytes (g : Graph) : UInt64 :=
  let arcs := UInt64.ofNat g.edgeCount * UInt64.ofNat g.kind.arcsPerEdge
  UInt64.ofNat g.nodeCount * 48 + arcs * 8

/-- The number of workers that find a source to take. -/
def busyWorkers (s : Settings) (sourceCount : Nat) (host : Host) : Nat :=
  min (s.workers host) (max sourceCount 1)

/-- The bytes that a computation with the given number of scores and sources needs. -/
def Strategy.estimate (strategy : Strategy) (g : Graph) (scoreCount sourceCount : Nat)
    (s : Settings) (host : Host := .repeatable) : UInt64 :=
  let scores := UInt64.ofNat scoreCount
  match strategy with
  | .sourceBySource =>
    UInt64.ofNat (busyWorkers s sourceCount host) * (searchBytes g + scores * 8) + scores * 8
  | .levelByLevel => searchBytes g + UInt64.ofNat g.nodeCount * 4 * 2 + scores * 4

/-- Refuse a computation whose estimate, in whole MiB, exceeds the limit. -/
def Strategy.checkMemory (strategy : Strategy) (g : Graph) (scoreCount sourceCount : Nat)
    (s : Settings) (host : Host := .repeatable) : Except Error Unit :=
  let required := mebibytes (strategy.estimate g scoreCount sourceCount s host).toNat
  if s.memoryLimit < required then .error (.memoryExceeded required s.memoryLimit) else .ok ()

/-! ### Scaling of raw scores

Raw scores are sums of dependencies. `Scaling.factor` is the number by which they are multiplied:

* in an undirected graph every pair of vertices is seen from both ends, which a half undoes;
* normalized scores are divided by the number of pairs that a vertex or an edge could lie
  between, unless the graph is too small for any;
* normalized scores that were summed over `k` of `n` sources are enlarged by `n / k`. -/

/-- What scores are attached to. -/
inductive Scored where
  | vertices
  | edges
  deriving DecidableEq, Repr

/-- What the scaling of raw scores depends on. -/
structure Scaling where
  kind : Kind
  scored : Scored
  vertexCount : Nat
  normalized : Bool
  /-- The number of sources, if they are a subset of the vertices. -/
  sampled : Option Nat

namespace Scaling

open Scalar (ofNat isOne)

variable {α : Type} [Scalar α]

/-- The share of a raw score that counts every pair once. -/
def pairFactor (α : Type) [Scalar α] : Kind → α
  | .directed => 1
  | .undirected => 1 / (1 + 1)

/-- How often a pair counts when scores are divided by the number of pairs. -/
def pairScale (α : Type) [Scalar α] : Kind → α
  | .directed => 1
  | .undirected => 1 + 1

/-- Divide a factor by the number of pairs of `n` vertices that a vertex (but not as an end) or
an edge could lie between, if there are any. -/
def perPair (s : Scaling) (factor : α) : α :=
  let n := s.vertexCount
  match s.scored with
  | .vertices =>
    if 2 < n then factor * (pairScale α s.kind / (ofNat (n - 1) * ofNat (n - 2)))
    else factor
  | .edges =>
    if 1 < n then factor * (pairScale α s.kind / (ofNat n * ofNat (n - 1)))
    else factor

/-- Enlarge a factor by the number of vertices for each source, if only some are sources. -/
def perSource (s : Scaling) (factor : α) : α :=
  match s.sampled with
  | some (k + 1) => factor * (ofNat s.vertexCount / ofNat (k + 1))
  | _ => factor

/-- The number by which raw scores are multiplied. -/
def factor (α : Type) [Scalar α] (s : Scaling) : α :=
  if s.normalized then s.perSource (s.perPair (pairFactor α s.kind)) else pairFactor α s.kind

/-- The scaled scores; a factor of one leaves them as they are. -/
def apply (s : Scaling) (scores : Array α) : Array α :=
  let factor := s.factor α
  if isOne factor then scores else scores.map (· * factor)

/-- The scaled scores, for scores that are kept in a storage type. -/
def applyStored {β : Type} (α : Type) [Scalar α] [Storage α β] (s : Scaling)
    (scores : Array β) : Array β :=
  let factor := s.factor α
  if isOne factor then scores
  else scores.map fun score => Storage.store ((Storage.load score : α) * factor)

end Scaling

/-! ### Scores of a graph -/

variable (α β : Type) [Scalar α] [Scalar β] [Storage α β]

/-- The scores of the vertices of a graph by index, as the plan has it. -/
def vertexColumn (g : Graph) (plan : Plan) (scaling : Scaling) (sources : List Nat) :
    ScoreColumn α β :=
  match plan.strategy with
  | .sourceBySource => .ofScores (scaling.apply (vertexScores α g sources)) plan.precision
  | .levelByLevel => .single (scaling.applyStored α (storedVertexScores α β g sources))

/-- The scores of the edges of a graph by edge number, as the plan has it. -/
def edgeColumn (g : Graph) (plan : Plan) (scaling : Scaling) (sources : List Nat) :
    ScoreColumn α β :=
  .ofScores (scaling.apply (edgeScores α g sources)) plan.precision

/-- The betweenness centrality of the vertices of a graph. -/
def vertexCentrality (g : Graph) (options : VertexOptions) (settings : Settings)
    (host : Host := .repeatable) : Except Error (VertexTable α β) := do
  settings.validate
  let plan ← options.plan
  let sources ← options.sources.resolve g options.seed host
  plan.strategy.checkMemory g g.nodeCount sources.size settings host
  let scaling : Scaling :=
    { kind := g.kind
      scored := .vertices
      vertexCount := g.nodeCount
      normalized := options.normalized
      sampled := sources.sampled }
  return { vertices := g.vertexIds, scores := vertexColumn α β g plan scaling sources.indices }

/-- The betweenness centrality of the edges of a graph. -/
def edgeCentrality (g : Graph) (options : EdgeOptions) (settings : Settings)
    (host : Host := .repeatable) : Except Error (EdgeTable α β) := do
  settings.validate
  let plan ← options.plan
  let sources ← options.sources.resolve g options.seed host
  plan.strategy.checkMemory g g.edgeCount sources.size settings host
  let scaling : Scaling :=
    { kind := g.kind
      scored := .edges
      vertexCount := g.nodeCount
      normalized := options.normalized
      sampled := sources.sampled }
  let ends := g.edgeIds
  return {
    sources := ends.map Prod.fst
    targets := ends.map Prod.snd
    scores := edgeColumn α β g plan scaling sources.indices
    directed := g.isDirected }

end Betweenness
