import Betweenness.ShortestPaths.Basic

/-!
# Dependencies

The dependency of a source on a vertex `v` is the sum, over the vertices `t` that the source
reaches, of the share of shortest paths to `t` that pass through `v`. Dependencies are found from
the farthest vertices back to the source: a vertex `w` passes `(1 + δ w) / σ w` on for every
shortest path that leads to it, so that a predecessor `v` receives `σ v` times as much.

Three ways to add the dependencies of one source to running scores:

* `Ledger.addVertices` credits every vertex but the source with its dependency;
* `Ledger.addEdges` credits every edge with what flows back over it;
* `Ledger.addLevels` credits vertices as well, but lets each of them pull its dependency from its
  successors, level by level, and keeps the scores in a storage type.

A `Ledger` carries the dependencies between sources, all zero, so that its array is made once.
-/

namespace Betweenness

/-- Running scores of type `β`, with space for the dependencies of one source. -/
structure Ledger (α β : Type) where
  /-- The dependency of the current source on each vertex; all zero between sources. -/
  dependency : Array α
  /-- The scores summed up so far. -/
  scores : Array β

namespace Ledger

variable {α β : Type}

/-- The ledger with all scores zero. -/
def zero (α β : Type) [Scalar α] [Scalar β] (nodeCount scoreCount : Nat) : Ledger α β where
  dependency := Array.replicate nodeCount 0
  scores := Array.replicate scoreCount 0

/-- Increase a score. -/
def addScore [Scalar β] (l : Ledger α β) (i : Nat) (amount : β) : Ledger α β :=
  { l with scores := l.scores.modify i (· + amount) }

/-- Enter the dependency on a vertex and credit the vertex with it, unless it is the source. -/
def enter [Scalar β] [Storage α β] (paths : ShortestPaths α) (l : Ledger α β) (v : Nat)
    (amount : α) : Ledger α β :=
  let l := { l with dependency := l.dependency.setIfInBounds v amount }
  if v = paths.source then l else l.addScore v (Storage.store amount)

variable [Scalar α]

/-- The dependency on a vertex. -/
def dependencyOf (l : Ledger α β) (v : Nat) : α := l.dependency.getD v 0

/-- Increase the dependency on a vertex. -/
def addDependency (l : Ledger α β) (v : Nat) (amount : α) : Ledger α β :=
  { l with dependency := l.dependency.modify v (· + amount) }

/-- Set the dependencies on the reached vertices to zero. -/
def settle (l : Ledger α β) (paths : ShortestPaths α) : Ledger α β :=
  { l with dependency := paths.order.foldl (fun a v => a.setIfInBounds v 0) l.dependency }

/-- What a vertex passes back for each shortest path that leads to it. -/
def shareOf (l : Ledger α β) (paths : ShortestPaths α) (w : Nat) : α :=
  (1 + l.dependencyOf w) / paths.countOf w

/-- Pass the dependency of a vertex back to its predecessors and credit the vertex with it, unless
it is the source. -/
def creditVertex (paths : ShortestPaths α) (l : Ledger α α) (w : Nat) : Ledger α α :=
  let share := l.shareOf paths w
  let l := (paths.predecessorsOf w).foldl
    (fun l p => l.addDependency p.vertex (paths.countOf p.vertex * share)) l
  if w = paths.source then l else l.addScore w (l.dependencyOf w)

/-- Add the dependencies of the source of a search to the vertices. -/
def addVertices (paths : ShortestPaths α) (l : Ledger α α) : Ledger α α :=
  (paths.order.toList.reverse.foldl (creditVertex paths) l).settle paths

/-- Pass the dependency of a vertex back to its predecessors and credit each edge with what goes
over it. -/
def creditEdges (paths : ShortestPaths α) (l : Ledger α α) (w : Nat) : Ledger α α :=
  let share := l.shareOf paths w
  (paths.predecessorsOf w).foldl
    (fun l p =>
      let flow := paths.countOf p.vertex * share
      (l.addDependency p.vertex flow).addScore p.edge flow) l

/-- Add the dependencies of the source of a search to the edges. -/
def addEdges (paths : ShortestPaths α) (l : Ledger α α) : Ledger α α :=
  (paths.order.toList.reverse.foldl (creditEdges paths) l).settle paths

/-- The dependency on a vertex, pulled from the vertices at the given distance over the arcs that
leave it. -/
def pulled (g : Graph) (paths : ShortestPaths α) (l : Ledger α β) (depth v : Nat) : α :=
  (g.out v).foldl
    (fun sum arc =>
      if paths.isAt arc.target depth then
        sum + paths.countOf v / paths.countOf arc.target * (1 + l.dependencyOf arc.target)
      else sum)
    0

/-- Credit the vertices of the level at a distance, once those beyond it are done. -/
def creditLevel [Scalar β] [Storage α β] (g : Graph) (paths : ShortestPaths α) (l : Ledger α β)
    (depth : Nat) : Ledger α β :=
  let amounts := ((paths.level? depth).getD #[]).toList.map fun v =>
    (v, l.pulled g paths (depth + 1) v)
  amounts.foldl (fun l (v, amount) => l.enter paths v amount) l

/-- Add the dependencies of the source of a search to the vertices, level by level. -/
def addLevels [Scalar β] [Storage α β] (g : Graph) (paths : ShortestPaths α) (l : Ledger α β) :
    Ledger α β :=
  ((List.range paths.depth).reverse.foldl (creditLevel g paths) l).settle paths

end Ledger

end Betweenness
