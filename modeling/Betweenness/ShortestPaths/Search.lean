import Betweenness.ShortestPaths.Basic

/-!
# Two searches for shortest paths

`ShortestPaths.search` and `ShortestPaths.levelSearch` find the same paths. The first pushes path
counts forward along arcs; the second pulls them in, level by level, in a form in which the
vertices of a level do not depend on each other.
-/

namespace Betweenness.ShortestPaths

/-! ### Searching by pushing counts forward

`ShortestPaths.search` visits the graph level by level. Every vertex of a level hands its path
count on to the vertices one hop further: an arc to an unreached vertex reaches it, and an arc to
a vertex of the next level, just reached or not, adds to its count and its predecessors. A level
is complete before the next one is begun, so counts are final when they are handed on.

Every level but the last reaches a new vertex, so as many levels as there are vertices are enough:
`levels` counts down from the number of vertices. -/

section Push

variable {α : Type}

/-- Reach a vertex at a distance, if it has not been reached. -/
def reach (s : ShortestPaths α) (w depth : Nat) : ShortestPaths α :=
  if s.isUnreached w then
    { s with
      distance := s.distance.setIfInBounds w (some depth)
      order := s.order.push w }
  else s

variable [Scalar α]

/-- Count the paths that arrive over an arc, if its target is at the given distance. -/
def credit (s : ShortestPaths α) (v : Nat) (count : α) (arc : Arc) (depth : Nat) :
    ShortestPaths α :=
  if s.isAt arc.target depth then
    { s with
      pathCount := s.pathCount.modify arc.target (· + count)
      predecessors := s.predecessors.modify arc.target (·.push ⟨v, arc.edge⟩) }
  else s

/-- Follow the arcs that leave a vertex; `depth` is the distance one hop further. -/
def expand (g : Graph) (depth : Nat) (s : ShortestPaths α) (v : Nat) : ShortestPaths α :=
  let count := s.countOf v
  (g.out v).foldl (fun s arc => (s.reach arc.target depth).credit v count arc depth) s

/-- Visit the levels from the one that starts at a position of `order`, at most `budget` many. -/
def levels (g : Graph) : (budget start depth : Nat) → ShortestPaths α → ShortestPaths α
  | 0, _, _, s => s
  | budget + 1, start, depth, s =>
    if start < s.order.size then
      let stop := s.order.size
      let frontier := s.order.extract start stop
      levels g budget stop (depth + 1) (frontier.foldl (expand g (depth + 1)) s.closeLevel)
    else s

/-- The shortest paths from a source, in the space of an earlier search. -/
def search (s : ShortestPaths α) (g : Graph) (source : Nat) : ShortestPaths α :=
  levels g g.nodeCount 0 0 (s.prepare g source)

/-- The shortest paths from a source. -/
def ofSource (α : Type) [Scalar α] (g : Graph) (source : Nat) : ShortestPaths α :=
  (blank α g.nodeCount).search g source

end Push

/-! ### Searching by pulling counts level by level

`ShortestPaths.levelSearch` finds the same paths as `ShortestPaths.search` in a form in which the
vertices of a level do not depend on each other. A level is first collected as a whole: the
unreached targets of the arcs that leave the level before, in increasing order and each once.
Then every vertex of it adds up the counts that arrive over its entering arcs from the level
before.

So levels are sorted by index, and predecessors are in the order of entering arcs. -/

section Pull

variable {α : Type}

/-- The vertices one hop beyond a level, in increasing order. -/
def nextLevel (g : Graph) (s : ShortestPaths α) (frontier : Array Nat) : List Nat :=
  let targets := frontier.toList.flatMap fun v => (g.out v).toList.map Arc.target
  ((targets.filter s.isUnreached).mergeSort (· ≤ ·)).eraseReps

variable [Scalar α]

/-- The paths that arrive at a vertex from the vertices at a distance. -/
def arriving (g : Graph) (s : ShortestPaths α) (depth w : Nat) : α × Array Predecessor :=
  (g.into w).foldl
    (fun (count, steps) arc =>
      if s.isAt arc.target depth then
        (count + s.countOf arc.target, steps.push ⟨arc.target, arc.edge⟩)
      else (count, steps))
    (0, #[])

/-- Reach the vertices of a level, one hop beyond the given distance. -/
def reachLevel (g : Graph) (depth : Nat) (s : ShortestPaths α) (level : List Nat) :
    ShortestPaths α :=
  let s := { s with
    distance := level.foldl (fun a w => a.setIfInBounds w (some (depth + 1))) s.distance }
  let arrivals := level.map fun w => (w, s.arriving g depth w)
  { s with
    pathCount := arrivals.foldl (fun a (w, count, _) => a.setIfInBounds w count) s.pathCount
    predecessors :=
      arrivals.foldl (fun a (w, _, steps) => a.setIfInBounds w steps) s.predecessors
    order := level.foldl Array.push s.order }

/-- Reach the levels beyond the one that starts at a position of `order`, at most `budget` many. -/
def levelsBeyond (g : Graph) : (budget start depth : Nat) → ShortestPaths α → ShortestPaths α
  | 0, _, _, s => s
  | budget + 1, start, depth, s =>
    let stop := s.order.size
    let next := s.nextLevel g (s.order.extract start stop)
    let s := s.closeLevel
    if next.isEmpty then s
    else levelsBeyond g budget stop (depth + 1) (reachLevel g depth s next)

/-- The shortest paths from a source, in the space of an earlier search. -/
def levelSearch (s : ShortestPaths α) (g : Graph) (source : Nat) : ShortestPaths α :=
  let s := s.prepare g source
  if source < g.nodeCount then levelsBeyond g g.nodeCount 0 0 s else s

end Pull

end Betweenness.ShortestPaths
