import Betweenness.Graph.Basic
import Betweenness.Scalar

/-!
# Shortest paths from one source

A `ShortestPaths α` holds what a search from one source leaves behind: the distance of every
vertex, the number of shortest paths that lead to it (counted in the arithmetic `α`), the arcs
over which those paths arrive, and the reached vertices level by level.

The arrays have one entry per vertex and are used again for the next source: `clear` undoes the
marks of the last search and touches no other entry. The invariant behind it is that every vertex
outside `order` has no distance, the count zero and no predecessors.
-/

namespace Betweenness

/-- The last step of a shortest path: the vertex it comes from and the edge it takes. -/
structure Predecessor where
  vertex : Nat
  edge : Nat
  deriving DecidableEq, Repr, Inhabited

/-- The outcome of a search from one source, and the space for the next one. -/
structure ShortestPaths (α : Type) where
  source : Nat
  /-- The number of hops from the source, for the vertices that can be reached. -/
  distance : Array (Option Nat)
  /-- The number of shortest paths from the source. -/
  pathCount : Array α
  /-- The last steps of the shortest paths to each vertex. -/
  predecessors : Array (Array Predecessor)
  /-- The reached vertices, nearest first. -/
  order : Array Nat
  /-- Where each level starts in `order`, and at last where `order` ends. -/
  levelOffsets : Array Nat

namespace ShortestPaths

/-- Space for searches in graphs with the given number of vertices. -/
def blank (α : Type) [Scalar α] (nodeCount : Nat) : ShortestPaths α where
  source := 0
  distance := Array.replicate nodeCount none
  pathCount := Array.replicate nodeCount 0
  predecessors := Array.replicate nodeCount #[]
  order := #[]
  levelOffsets := #[]

variable {α : Type}

/-- The distance of a vertex; an index that is no vertex has none. -/
def distanceOf (s : ShortestPaths α) (v : Nat) : Option Nat := s.distance.getD v none

/-- The number of shortest paths to a vertex. -/
def countOf [Scalar α] (s : ShortestPaths α) (v : Nat) : α := s.pathCount.getD v 0

/-- The last steps of the shortest paths to a vertex. -/
def predecessorsOf (s : ShortestPaths α) (v : Nat) : Array Predecessor :=
  s.predecessors.getD v #[]

/-- Whether an index is a vertex that has not been reached. -/
def isUnreached (s : ShortestPaths α) (v : Nat) : Bool :=
  match s.distance[v]? with
  | some none => true
  | _ => false

/-- Whether an index is a vertex at the given distance. -/
def isAt (s : ShortestPaths α) (v depth : Nat) : Bool :=
  match s.distance[v]? with
  | some (some d) => d == depth
  | _ => false

/-- Whether a vertex has been reached. -/
def isReachable (s : ShortestPaths α) (v : Nat) : Bool := (s.distanceOf v).isSome

/-- The number of vertices that have been reached, with the source. -/
def reached (s : ShortestPaths α) : Nat := s.order.size

/-- The number of levels, with that of the source. -/
def depth (s : ShortestPaths α) : Nat := s.levelOffsets.size - 1

/-- The vertices at a distance, if the distance is less than the depth. -/
def level? (s : ShortestPaths α) (d : Nat) : Option (Array Nat) := do
  let start ← s.levelOffsets[d]?
  let stop ← s.levelOffsets[d + 1]?
  return s.order.extract start stop

/-- Undo the marks of the last search, vertex by vertex of its order. -/
def clear [Scalar α] (s : ShortestPaths α) : ShortestPaths α :=
  { s with
    distance := s.order.foldl (fun a v => a.setIfInBounds v none) s.distance
    pathCount := s.order.foldl (fun a v => a.setIfInBounds v 0) s.pathCount
    predecessors := s.order.foldl (fun a v => a.setIfInBounds v #[]) s.predecessors
    order := #[]
    levelOffsets := #[] }

/-- Reach the source, by the empty path. -/
def start [Scalar α] (s : ShortestPaths α) : ShortestPaths α :=
  { s with
    distance := s.distance.setIfInBounds s.source (some 0)
    pathCount := s.pathCount.setIfInBounds s.source 1
    order := s.order.push s.source
    levelOffsets := s.levelOffsets.push 0 }

/-- Prepare a search: no marks but those of the source, and none at all if the source is no vertex
of the graph. -/
def prepare [Scalar α] (s : ShortestPaths α) (g : Graph) (source : Nat) : ShortestPaths α :=
  let s := { s.clear with source }
  if source < g.nodeCount then s.start else s

/-- Close the level that ends with the last reached vertex. -/
def closeLevel (s : ShortestPaths α) : ShortestPaths α :=
  { s with levelOffsets := s.levelOffsets.push s.order.size }

end ShortestPaths

end Betweenness
