import Betweenness.Graph.Builder

/-!
# Workloads

The kinds of synthetic graphs, three that grow vertex by vertex and three with edges scattered
among vertices that are there from the start, and the draws that they are made of.
-/

namespace Betweenness

/-! ## Reproducible chance

Synthetic graphs are drawn with a linear congruential generator on 64-bit words, so that the same
graph comes out every time. The high bits of a word are the better ones: draws use the top 31,
fractions the top 53. A computation that draws does not depend on where its words come from
(`WordSupply`), so that what is said of it can be said of all words that there might be.

A draw below zero has no outcome. In the generators this is a failure, as are a look-up in a list at
a place that is not there (`Chance.pick`), a remainder of a division by zero and a difference below
zero; that none of them happens is a fact about them. -/

/-- The number below a bound that a word stands for, if there is any. -/
def numberBelow? (bound : Nat) (word : UInt64) : Option Nat :=
  if bound = 0 then none else some ((word >>> 33).toNat % bound)

/-- The fraction that a word stands for, from zero to less than one. -/
def fractionOf (word : UInt64) : Float := (word >>> 11).toFloat / 9007199254740992.0

/-! ### Supplies of words -/

/-- A state that yields 64-bit words. -/
class WordSupply (σ : Type) where
  /-- The next word, and the state after it. -/
  next : σ → UInt64 × σ

/-- A linear congruential generator. -/
structure Congruential where
  state : UInt64
  deriving DecidableEq, Repr

namespace Congruential

/-- The next state. -/
def advance (g : Congruential) : Congruential := ⟨g.state * 6364136223846793005 + 1⟩

/-- A number below a bound, if there is any, and the next state. -/
def below? (g : Congruential) (bound : Nat) : Option Nat × Congruential :=
  (numberBelow? bound g.advance.state, g.advance)

/-- A fraction from zero to less than one, and the next state. -/
def fraction (g : Congruential) : Float × Congruential :=
  (fractionOf g.advance.state, g.advance)

/-- The words of a generator are its states, from the next one on. -/
instance : WordSupply Congruential := ⟨fun g => (g.advance.state, g.advance)⟩

end Congruential

/-! ### Draws -/

/-- A computation that draws numbers. -/
abbrev Chance (σ : Type) := StateT σ Option

namespace Chance

/-- The outcome of a computation that starts from a seed of the generator. -/
def outcome {α : Type} (chance : Chance Congruential α) (seed : UInt64) : Option α :=
  (chance.run ⟨seed⟩).map Prod.fst

variable {σ : Type}

/-- A difference, if it is not below zero. -/
def difference (a b : Nat) : Chance σ Nat := if b ≤ a then return a - b else failure

/-- The remainder of a division, if it is not by zero. -/
def remainder (a b : Nat) : Chance σ Nat := if b = 0 then failure else return a % b

variable [WordSupply σ]

/-- Draw a number below a bound. -/
def below (bound : Nat) : Chance σ Nat := fun s =>
  let (word, s) := WordSupply.next s
  match numberBelow? bound word with
  | some n => some (n, s)
  | none => none

/-- Draw a fraction. -/
def fraction : Chance σ Float := fun s =>
  let (word, s) := WordSupply.next s
  some (fractionOf word, s)

/-- Draw an entry of an array. -/
def pick (entries : Array Nat) : Chance σ Nat := do
  let place ← below entries.size
  match entries[place]? with
  | some entry => return entry
  | none => failure

end Chance

/-! ## Graphs that grow

Three generators that add vertices one after another, each joined to vertices that were there
before:

* `treeBuilder`, in which every vertex has three children as long as vertices are left;
* `scaleFreeBuilder`, which grows from a clique and prefers vertices that have many edges;
* `aggregationBuilder`, in which a vertex settles next to one of the latest thousand.

All of them declare the vertices `0, …, n - 1` first and number vertices by themselves. -/

namespace Workload

variable {σ : Type} [WordSupply σ]

/-- A builder with the vertices `0, …, n - 1`, which are their own indices. -/
def dense (kind : Kind) (n : Nat) : Builder :=
  { kind, renumber := false, vertices := Array.range n }

/-! ### Trees -/

/-- A tree of which a level is growing. -/
structure Branching where
  builder : Builder
  /-- The id of the next vertex. -/
  next : Nat
  /-- The vertices of the level so far. -/
  level : Array Nat

/-- Add a child of a vertex. -/
def Branching.addChild (t : Branching) (parent : Nat) : Branching where
  builder := t.builder.addEdge parent t.next
  next := t.next + 1
  level := t.level.push t.next

/-- Add three children of a vertex, or as many as there are vertices left below `n`. -/
def Branching.branch (n : Nat) (t : Branching) (parent : Nat) : Branching :=
  (min 3 (n - t.next)).fold (fun _ _ t => t.addChild parent) t

/-- Grow the levels beyond the given one until there are `n` vertices; every level has a vertex,
so `budget` levels are enough if so many vertices are missing. -/
def growLevels (n : Nat) : (budget : Nat) → Branching → Branching
  | 0, t => t
  | budget + 1, t =>
    if t.next < n ∧ ¬t.level.isEmpty then
      growLevels n budget (t.level.foldl (Branching.branch n) { t with level := #[] })
    else t

/-- A tree in which every vertex has three children, filled level by level. -/
def treeBuilder (n : Nat) (kind : Kind) : Builder :=
  (growLevels n n { builder := dense kind n, next := 1, level := #[0] }).builder

/-! ### Preferential attachment -/

/-- A graph together with the ends of its edges, each vertex as often as it has edges. -/
structure Attachment where
  builder : Builder
  ends : Array Nat

/-- Add an edge. -/
def Attachment.addEdge (a : Attachment) (source target : Nat) : Attachment where
  builder := a.builder.addEdge source target
  ends := (a.ends.push source).push target

/-- Join a vertex to the end of a random edge, unless that is the vertex itself. -/
def Attachment.attach (vertex : Nat) (a : Attachment) : Chance σ Attachment := do
  let target ← Chance.pick a.ends
  return if target = vertex then a else a.addEdge vertex target

/-- All pairs of the first `n` vertices, the smaller one first. -/
def cliqueRows (n : Nat) : List (Nat × Nat) :=
  (List.range n).flatMap fun i => (List.range' (i + 1) (n - (i + 1))).map (i, ·)

/-- The clique that a scale-free graph grows from. -/
def seedClique (n : Nat) (kind : Kind) : Attachment :=
  (cliqueRows 5).foldl (fun a row => a.addEdge row.1 row.2) ⟨dense kind n, #[]⟩

/-- A clique of five vertices to which the others are attached, five times each, by ends of random
edges. -/
def scaleFreeBuilder (n : Nat) (kind : Kind) : Chance σ Builder := do
  let a ← (List.range' 5 (n - 5)).foldlM
    (fun a vertex => (List.range (min 5 vertex)).foldlM (fun a _ => a.attach vertex) a)
    (seedClique n kind)
  return a.builder

/-! ### Aggregation -/

/-- A graph together with the vertices next to which new ones settle, the latest last. -/
structure Cluster where
  builder : Builder
  surface : Array Nat

/-- The number of vertices next to which new ones settle. -/
def surfaceSize : Nat := 1000

/-- Add a vertex to the surface, from which the earliest one drops out if there are too many. -/
def Cluster.expose (c : Cluster) (vertex : Nat) : Cluster :=
  let surface := c.surface.push vertex
  { c with surface := if surfaceSize < surface.size then surface.extract 1 else surface }

/-- Join a vertex to one of the surface and, one time in ten, to an earlier vertex as well. -/
def Cluster.settle (c : Cluster) (vertex : Nat) : Chance σ Cluster := do
  let place ← Chance.pick c.surface
  let c := { c with builder := c.builder.addEdge vertex place }
  if (← Chance.below 10) = 0 ∧ 1 < vertex then
    let other ← Chance.below vertex
    let c := if other = place then c else { c with builder := c.builder.addEdge vertex other }
    return c.expose vertex
  else return c.expose vertex

/-- A cluster that grows at its surface, with occasional loops. -/
def aggregationBuilder (n : Nat) (kind : Kind) : Chance σ Builder := do
  let c ← (List.range' 1 (n - 1)).foldlM Cluster.settle ⟨dense kind n, #[0]⟩
  return c.builder

/-! ## Graphs with scattered edges

Three generators that throw edges among vertices that are all there from the start:

* `smallWorldBuilder`, a ring in which some edges are led elsewhere;
* `uniformBuilder`, with edges between random vertices;
* `barbellBuilder`, two clusters of random edges with a chain of ten vertices between them. -/

/-! ### Small worlds -/

/-- The share of ring edges that are led elsewhere. -/
def rewireShare : Float := 0.05

/-- The far end of a ring edge, which is sometimes led to a random vertex other than its near
end. -/
def rewire (n vertex neighbor : Nat) : Chance σ Nat := do
  if (← Chance.fraction) < rewireShare then
    let other ← Chance.below n
    return if other = vertex then neighbor else other
  else return neighbor

/-- A ring in which every vertex is joined to the four after it, some edges led elsewhere. -/
def smallWorldBuilder (n : Nat) (kind : Kind) : Chance σ Builder :=
  (List.range n).foldlM
    (fun b vertex =>
      [1, 2, 3, 4].foldlM
        (fun b hops => do
          let neighbor ← Chance.remainder (vertex + hops) n
          return b.addEdge vertex (← rewire n vertex neighbor)) b)
    (dense kind n)

/-! ### Random edges -/

/-- Add an edge between random vertices, unless they are the same. -/
def addRandomEdge (n : Nat) (b : Builder) : Chance σ Builder := do
  let source ← Chance.below n
  let target ← Chance.below n
  return if source = target then b else b.addEdge source target

/-- A graph with five random edges for every vertex. -/
def uniformBuilder (n : Nat) (kind : Kind) : Chance σ Builder :=
  (List.range (n * 5)).foldlM (fun b _ => addRandomEdge n b) (dense kind n)

/-! ### Barbells -/

/-- The number of vertices between the clusters of a barbell. -/
def bridgeLength : Nat := 10

/-- Join a vertex of a cluster to a random one of the same cluster, unless it is the same. The
cluster consists of `size` vertices from `offset` on. -/
def addClusterEdge (size offset member : Nat) (b : Builder) : Chance σ Builder := do
  let other ← Chance.below size
  return if other = member then b else b.addEdge (offset + member) (offset + other)

/-- Add the edges of a cluster, up to `degree` from each vertex. -/
def addCluster (size degree : Nat) (b : Builder) (offset : Nat) : Chance σ Builder :=
  (List.range size).foldlM
    (fun b member =>
      (List.range degree).foldlM (fun b _ => addClusterEdge size offset member b) b) b

/-- Join the vertices of the bridge in a chain, from the last vertex of the one cluster to the first
of the other. The clusters consist of `size` vertices each. -/
def addBridge (size : Nat) (b : Builder) : Chance σ Builder := do
  let b := b.addEdge (← Chance.difference size 1) size
  let b ← (List.range' (size + 1) (bridgeLength - 1)).foldlM
    (fun b id => return b.addEdge (← Chance.difference id 1) id) b
  return b.addEdge (← Chance.difference (size + bridgeLength) 1) (size + bridgeLength)

/-- Two clusters of equal size, joined by a chain. There is none with fewer than twelve
vertices. -/
def barbellBuilder (n : Nat) (kind : Kind) : Chance σ Builder := do
  let size := (← Chance.difference n bridgeLength) / 2
  let degree := min 10 (← Chance.difference size 1)
  let b ← [0, size + bridgeLength].foldlM (addCluster size degree)
    (dense kind (size * 2 + bridgeLength))
  addBridge size b

end Workload

/-! ## The kinds of workloads

The kinds of synthetic graphs, each with the name by which it is chosen, its title in reports and
the seed that it is always drawn with. -/

/-- A kind of synthetic graph. -/
inductive Workload where
  | tree
  | scaleFree
  | smallWorld
  | uniform
  | barbell
  | aggregation
  deriving DecidableEq, Repr

namespace Workload

/-- Every kind, in the order of reports. -/
def list : List Workload := [tree, scaleFree, smallWorld, uniform, barbell, aggregation]

/-- The name by which a kind is chosen. -/
def name : Workload → String
  | tree => "lsystem"
  | scaleFree => "scalefree"
  | smallWorld => "smallworld"
  | uniform => "random"
  | barbell => "barbell"
  | aggregation => "dla"

/-- The kind that goes by a name. -/
def ofName? (name : String) : Option Workload := list.find? (·.name = name)

/-- The title of a kind in reports. -/
def title : Workload → String
  | tree => "L-system tree"
  | scaleFree => "Scale-free (edge sampling)"
  | smallWorld => "Small-world (Watts-Strogatz)"
  | uniform => "Erdos-Renyi random"
  | barbell => "Barbell (clique-bridge-clique)"
  | aggregation => "DLA (organic branching)"

/-- The builder of a graph of a kind with `n` vertices, unless there is none. -/
def generate (w : Workload) (n : Nat) (kind : Kind) : Option Builder :=
  match w with
  | tree => some (treeBuilder n kind)
  | scaleFree => (scaleFreeBuilder n kind).outcome 12345
  | smallWorld => (smallWorldBuilder n kind).outcome 67890
  | uniform => (uniformBuilder n kind).outcome 54321
  | barbell => (barbellBuilder n kind).outcome 99999
  | aggregation => (aggregationBuilder n kind).outcome 77777

end Workload

end Betweenness
