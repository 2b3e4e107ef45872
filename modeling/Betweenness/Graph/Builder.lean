import Std.Data.HashSet
import Betweenness.Graph.Basic

/-!
# Building graphs

A `Builder` collects declared vertices and edge rows in terms of ids. `Builder.build` turns them
into a `Graph` in four steps, each a definition of its own:

* `Builder.numbering` gives every id an index, or refuses the ids;
* `Builder.checkMemory` compares the adjacency headers with the limit;
* `distinctRows` drops every row that repeats an earlier one;
* `adjacency` sorts the arcs of the remaining rows by the vertex at which they start.

Edge numbers are positions in the list of distinct rows, and every adjacency list is in the order
of edge numbers.
-/

namespace Betweenness

/-- The number of whole MiB that hold the given number of bytes. -/
def mebibytes (bytes : Nat) : Nat := (bytes + 1048575) / 1048576

/-- Declared vertices and edge rows, from which a graph is built. -/
structure Builder where
  kind : Kind
  /-- Whether ids are numbered by a table; otherwise every id is an index. -/
  renumber : Bool := true
  /-- The limit on the adjacency headers, in MiB. -/
  memoryLimit : Nat := 4096
  /-- The declared vertex ids. -/
  vertices : Array Nat := #[]
  /-- The edge rows. -/
  rows : Array (Nat × Nat) := #[]

namespace Builder

/-- Declare a vertex, so that it belongs to the graph even without edges. -/
def addVertex (b : Builder) (id : Nat) : Builder := { b with vertices := b.vertices.push id }

/-- Add an edge row; its ends become vertices if they are not declared. -/
def addEdge (b : Builder) (source target : Nat) : Builder :=
  { b with rows := b.rows.push (source, target) }

/-- Add edge rows in turn. -/
def addEdges (b : Builder) (rows : List (Nat × Nat)) : Builder :=
  { b with rows := rows.foldl Array.push b.rows }

/-- The ends of all rows, in order. -/
def rowIds (b : Builder) : List Nat := b.rows.toList.flatMap fun row => [row.1, row.2]

end Builder

/-- The first element that repeats an earlier one. -/
def firstRepeat? (seen : Std.HashSet Nat) : List Nat → Option Nat
  | [] => none
  | id :: ids => if seen.contains id then some id else firstRepeat? (seen.insert id) ids

namespace Builder

/-- The table of the declared ids in order, then of the ends of the rows in order. A vertex that
is declared twice is refused. -/
def idTable (b : Builder) : Except Error IdTable := do
  (← IdTable.ofIds b.vertices.toList).insertAll b.rowIds

/-- The number of indices that make every id an index. A vertex that is declared twice is
refused, and so is an id that is no index. -/
def identityCount (b : Builder) : Except Error Nat :=
  match firstRepeat? ∅ b.vertices.toList with
  | some id => .error (.duplicateVertex id)
  | none =>
    match (b.vertices.toList ++ b.rowIds).max? with
    | none => .ok 0
    | some id => if id < maxIndex then .ok (id + 1) else .error (.idOutsideDenseRange id)

/-- The numbering of the graph to be built. -/
def numbering (b : Builder) : Except Error Numbering :=
  if b.renumber then Numbering.table <$> b.idTable
  else Numbering.identity <$> b.identityCount

/-- Refuse a graph whose adjacency headers, 24 bytes for each list, exceed the limit. -/
def checkMemory (b : Builder) (vertexCount : Nat) : Except Error Unit :=
  let required := mebibytes (vertexCount * (b.kind.sides * 24))
  if b.memoryLimit < required then .error (.memoryExceeded required b.memoryLimit) else .ok ()

end Builder

/-- The ends of an edge in the form in which repeated edges agree: as they are if the edge has a
direction, the smaller one first otherwise. -/
def Kind.edgeKey (kind : Kind) (ends : Nat × Nat) : Nat × Nat :=
  match kind with
  | .directed => ends
  | .undirected => (min ends.1 ends.2, max ends.1 ends.2)

/-- The rows whose key is not among the ones seen, each key once: where rows agree, the first
stays. -/
def distinctRows (key : Nat × Nat → Nat × Nat) (seen : Std.HashSet (Nat × Nat)) :
    List (Nat × Nat) → List (Nat × Nat)
  | [] => []
  | row :: rows =>
    if seen.contains (key row) then distinctRows key seen rows
    else row :: distinctRows key (seen.insert (key row)) rows

/-- What is left of the rows stands in their order. -/
theorem distinctRows_sublist (key : Nat × Nat → Nat × Nat) (seen : Std.HashSet (Nat × Nat))
    (rows : List (Nat × Nat)) : (distinctRows key seen rows).Sublist rows := by
  induction rows generalizing seen with
  | nil => exact .slnil
  | cons row rows ih =>
    rw [distinctRows]
    split
    · exact (ih seen).cons row
    · exact (ih _).cons_cons row

/-- The arcs that an edge contributes to the lists of leaving arcs, each with the vertex that it
leaves. A loop of an undirected graph leaves its vertex once. -/
def Kind.leavingArcs (kind : Kind) : (Nat × Nat) × Nat → List (Nat × Arc)
  | ((a, b), e) =>
    match kind with
    | .directed => [(a, ⟨b, e⟩)]
    | .undirected => if a = b then [(a, ⟨b, e⟩)] else [(a, ⟨b, e⟩), (b, ⟨a, e⟩)]

/-- The arc that an edge contributes to the lists of entering arcs, with the vertex that it
enters. -/
def enteringArcs : (Nat × Nat) × Nat → List (Nat × Arc)
  | ((a, b), e) => [(b, ⟨a, e⟩)]

/-- The lists of arcs by the vertex that each is given with, in the order of the arcs. -/
def adjacency (vertexCount : Nat) (arcs : List (Nat × Arc)) : Array (Array Arc) :=
  arcs.foldl (fun lists arc => lists.modify arc.1 (·.push arc.2))
    (Array.replicate vertexCount #[])

/-- Every vertex has a list of arcs, and no other index has one. -/
@[simp] theorem size_adjacency (vertexCount : Nat) (arcs : List (Nat × Arc)) :
    (adjacency vertexCount arcs).size = vertexCount := by
  suffices h : ∀ lists : Array (Array Arc),
      (arcs.foldl (fun lists arc => lists.modify arc.1 (·.push arc.2)) lists).size
        = lists.size by
    rw [adjacency, h, Array.size_replicate]
  induction arcs with
  | nil => exact fun _ => rfl
  | cons arc arcs ih => exact fun lists => by rw [List.foldl_cons, ih, Array.size_modify]

/-- The graph whose edges are the given rows, without those that repeat an earlier one. -/
def Graph.ofRows (kind : Kind) (numbering : Numbering) (rows : List (Nat × Nat)) : Graph :=
  let edges := distinctRows kind.edgeKey ∅ rows
  let numbered := edges.zipIdx
  { kind
    numbering
    edges := edges.toArray
    outgoing := adjacency numbering.vertexCount (numbered.flatMap kind.leavingArcs)
    incoming :=
      match kind with
      | .directed => adjacency numbering.vertexCount (numbered.flatMap enteringArcs)
      | .undirected => #[] }

/-- The graph of the declared vertices and the rows. -/
def Builder.build (b : Builder) : Except Error Graph := do
  let numbering ← b.numbering
  b.checkMemory numbering.vertexCount
  if maxIndex < b.rows.size then throw .tooManyEdges
  let rows ← b.rows.toList.mapM fun row =>
    return (← numbering.indexOf row.1, ← numbering.indexOf row.2)
  return Graph.ofRows b.kind numbering rows

/-- The graph of a list of edge rows. -/
def Graph.ofEdges (kind : Kind) (rows : List (Nat × Nat)) (renumber : Bool) :
    Except Error Graph :=
  Builder.build { kind, renumber, rows := rows.toArray }

end Betweenness
