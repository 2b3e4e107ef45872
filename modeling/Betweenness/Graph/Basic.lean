import Betweenness.Numbering

/-!
# Graphs

A `Graph` is a list of edges between indices together with the arcs that leave and enter each
vertex. An arc names the vertex at its far end and the number of the edge that it belongs to, so
that an edge of an undirected graph, which is an arc of both its ends, keeps one number.

`out` and `into` are the only views that searches use. In an undirected graph they agree, and
only the arcs leaving a vertex are stored.
-/

namespace Betweenness

/-- Whether edges are followed in one direction or in both. -/
inductive Kind where
  | directed
  | undirected
  deriving DecidableEq, Repr

/-- An edge as seen from one of its ends. -/
structure Arc where
  /-- The vertex at the far end. -/
  target : Nat
  /-- The number of the edge. -/
  edge : Nat
  deriving DecidableEq, Repr, Inhabited

/-- A graph over the indices `0, …, n - 1`. -/
structure Graph where
  kind : Kind
  numbering : Numbering
  /-- The ends of each edge, as it was loaded. -/
  edges : Array (Nat × Nat)
  /-- The arcs leaving each vertex. -/
  outgoing : Array (Array Arc)
  /-- The arcs entering each vertex, for directed graphs. -/
  incoming : Array (Array Arc)

namespace Kind

/-- The number of adjacency lists that a vertex has. -/
def sides : Kind → Nat
  | directed => 2
  | undirected => 1

/-- The number of arcs that an edge is stored as, counting those that leave a vertex. -/
def arcsPerEdge : Kind → Nat
  | directed => 1
  | undirected => 2

end Kind

namespace Graph

/-- The number of vertices. -/
def nodeCount (g : Graph) : Nat := g.outgoing.size

/-- The end of the range of indices: the number of vertices as a 32-bit word. -/
def indexCount (g : Graph) : Nat := g.nodeCount % (maxIndex + 1)

/-- Fewer than `2 ^ 32` vertices are all in the range. -/
theorem indexCount_eq {g : Graph} (h : g.nodeCount ≤ maxIndex) : g.indexCount = g.nodeCount :=
  Nat.mod_eq_of_lt (Nat.lt_succ_of_le h)

/-- Nothing but vertices is in the range. -/
theorem indexCount_le (g : Graph) : g.indexCount ≤ g.nodeCount := Nat.mod_le _ _

/-- The number of edges. -/
def edgeCount (g : Graph) : Nat := g.edges.size

/-- Whether the edges have a direction. -/
def isDirected (g : Graph) : Bool := g.kind = .directed

/-- The arcs leaving a vertex; none leave an index that is not a vertex. -/
def out (g : Graph) (v : Nat) : Array Arc := g.outgoing.getD v #[]

/-- The arcs entering a vertex, pointing back to where they come from. -/
def into (g : Graph) (v : Nat) : Array Arc :=
  match g.kind with
  | .directed => g.incoming.getD v #[]
  | .undirected => g.outgoing.getD v #[]

/-- The two ends of an edge, as it was loaded. -/
def endpoints? (g : Graph) (e : Nat) : Option (Nat × Nat) := g.edges[e]?

/-- The id of a vertex. -/
def idOf? (g : Graph) (v : Nat) : Option Nat := g.numbering.idOf? v

/-- The ids of the vertices in index order. -/
def vertexIds (g : Graph) : List Nat := (List.range g.indexCount).filterMap g.idOf?

/-- The ids of the two ends of an edge. -/
def endpointIds? (g : Graph) (ends : Nat × Nat) : Option (Nat × Nat) := do
  return (← g.idOf? ends.1, ← g.idOf? ends.2)

/-- The ids of the ends of every edge, in edge order. -/
def edgeIds (g : Graph) : List (Nat × Nat) := g.edges.toList.filterMap g.endpointIds?

/-- The bytes that the graph occupies: 8 for an arc, 24 for the list that holds arcs, 8 for an
edge and 32 for an id of a table. -/
def footprint (g : Graph) : Nat :=
  let adjacency := (g.outgoing ++ g.incoming).foldl (fun sum arcs => sum + (arcs.size * 8 + 24)) 0
  let ids := match g.numbering with
    | .identity _ => 0
    | .table ids => ids.size * 32
  adjacency + g.edges.size * 8 + ids

end Graph

end Betweenness
