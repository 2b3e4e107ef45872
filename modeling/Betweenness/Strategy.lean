import Betweenness.Dependency
import Betweenness.ShortestPaths.Search

/-!
# Raw scores

Two strategies sum up the dependencies of the sources: source by source, where the sources can be
shared among workers, and level by level, where the vertices of a level can be.
-/

namespace Betweenness

/-! ### Source by source

A `Worker` takes sources in turn: it searches from a source, adds the dependencies to its scores
and uses its space again for the next one. The sources may be cut into blocks with a worker each;
the scores of the workers are then added up entry by entry (`merge`).

`blockLength` is the least length of a block when the sources are shared among several threads.
Float addition does not associate, so the scores of a graph are defined with all sources in one
block, which gives the same digits on every machine. -/

section SourceBySource

/-- The space that is used again from source to source, and the scores so far. -/
structure Worker (α : Type) where
  paths : ShortestPaths α
  ledger : Ledger α α

/-- A way to add the dependencies of the source of a search to running scores. -/
abbrev Accumulate (α : Type) := ShortestPaths α → Ledger α α → Ledger α α

variable {α : Type} [Scalar α]

namespace Worker

/-- A worker that has not seen a source. -/
def fresh (α : Type) [Scalar α] (nodeCount scoreCount : Nat) : Worker α where
  paths := .blank α nodeCount
  ledger := .zero α α nodeCount scoreCount

/-- Add the dependencies of one source. -/
def visit (g : Graph) (accumulate : Accumulate α) (w : Worker α) (source : Nat) : Worker α :=
  let paths := w.paths.search g source
  { paths, ledger := accumulate paths w.ledger }

end Worker

/-- The least number of sources in a block, so that there are no more blocks than workers. -/
def blockLength (sourceCount workers : Nat) : Nat :=
  let workers := max workers 1
  max ((sourceCount + workers - 1) / workers) 1

/-- A block for each worker has room for all sources. -/
theorem le_workers_mul_blockLength (sourceCount workers : Nat) (h : 0 < workers) :
    sourceCount ≤ workers * blockLength sourceCount workers := by
  have hmax : max workers 1 = workers := by omega
  have hceil : sourceCount ≤ workers * ((sourceCount + workers - 1) / workers) := by
    have hsplit := Nat.div_add_mod (sourceCount + workers - 1) workers
    have hlt := Nat.mod_lt (sourceCount + workers - 1) h
    omega
  rw [blockLength, hmax]
  exact Nat.le_trans hceil (Nat.mul_le_mul_left workers (Nat.le_max_left _ _))

/-- The entrywise sum of two lists of scores. An entry without a counterpart in the second list
stays as it is. -/
def merge (a b : Array α) : Array α :=
  a.mapIdx fun i x =>
    match b[i]? with
    | some y => x + y
    | none => x

/-- The scores that one worker sums up over a block of sources. -/
def blockScores (g : Graph) (accumulate : Accumulate α) (scoreCount : Nat)
    (sources : List Nat) : Array α :=
  (sources.foldl (Worker.visit g accumulate) (Worker.fresh α g.nodeCount scoreCount)).ledger.scores

/-- The scores summed up over blocks of sources, a worker for each. -/
def scoresOfBlocks (g : Graph) (accumulate : Accumulate α) (scoreCount : Nat)
    (blocks : List (List Nat)) : Array α :=
  (blocks.map (blockScores g accumulate scoreCount)).foldl merge (Array.replicate scoreCount 0)

/-- The raw scores of the vertices, by index. -/
def vertexScores (α : Type) [Scalar α] (g : Graph) (sources : List Nat) : Array α :=
  scoresOfBlocks g Ledger.addVertices g.nodeCount [sources]

/-- The raw scores of the edges, by edge number. -/
def edgeScores (α : Type) [Scalar α] (g : Graph) (sources : List Nat) : Array α :=
  scoresOfBlocks g Ledger.addEdges g.edgeCount [sources]

end SourceBySource

/-! ### Level by level

The sources are taken one after another; within a source, the vertices of a level do not depend
on each other, neither in the search nor on the way back. Scores are kept in a storage type. -/

section LevelByLevel

variable {α β : Type} [Scalar α] [Scalar β] [Storage α β]

/-- Search from a source and add its dependencies to the scores. -/
def visitLevels (g : Graph) (state : ShortestPaths α × Ledger α β) (source : Nat) :
    ShortestPaths α × Ledger α β :=
  let paths := state.1.levelSearch g source
  (paths, state.2.addLevels g paths)

/-- The raw scores of the vertices, by index, as they are stored. -/
def storedVertexScores (α β : Type) [Scalar α] [Scalar β] [Storage α β] (g : Graph)
    (sources : List Nat) : Array β :=
  let blank : ShortestPaths α × Ledger α β :=
    (.blank α g.nodeCount, .zero α β g.nodeCount g.nodeCount)
  (sources.foldl (visitLevels g) blank).2.scores

end LevelByLevel

end Betweenness
