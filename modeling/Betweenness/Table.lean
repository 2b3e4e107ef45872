import Betweenness.Options
import Betweenness.Scalar

/-!
# Tables of scores

What a computation answers: scores in a column, next to the ids that they belong to.
-/

namespace Betweenness

/-! ### Columns of scores

Scores are computed in an arithmetic `α` and returned in the precision that was asked for: as they
are, or in a storage type `β`. Whoever reads a column sees scores of type `α` in both cases. -/

/-- The scores of a table, in one of the two precisions. -/
inductive ScoreColumn (α β : Type) where
  | single (scores : Array β)
  | double (scores : Array α)
  deriving Repr

namespace ScoreColumn

variable {α β : Type}

/-- A column of computed scores in the given precision. -/
def ofScores [Storage α β] (scores : Array α) : Precision → ScoreColumn α β
  | .single => single (scores.map Storage.store)
  | .double => double scores

/-- The precision of a column. -/
def precision : ScoreColumn α β → Precision
  | single _ => .single
  | double _ => .double

/-- The number of scores. -/
def size : ScoreColumn α β → Nat
  | single scores => scores.size
  | double scores => scores.size

/-- Whether there are no scores. -/
def isEmpty (c : ScoreColumn α β) : Bool := c.size = 0

/-- The score of a row. -/
def get? [Storage α β] (c : ScoreColumn α β) (row : Nat) : Option α :=
  match c with
  | single scores => scores[row]?.map Storage.load
  | double scores => scores[row]?

/-- The scores in row order. -/
def toList [Storage α β] : ScoreColumn α β → List α
  | single scores => scores.toList.map Storage.load
  | double scores => scores.toList

end ScoreColumn

/-! ### Tables of scores

A `VertexTable` has a row for each vertex and an `EdgeTable` one for each edge. Both consist of
columns: ids, and scores. Where columns differ in length, the rows are those that are complete.

`top` lists rows by falling score. Scores are compared by rank (`Ranked`), and rows of one rank
are listed by rising ids, so that the list does not depend on the order of rows as long as no ids
are repeated. -/

/-- The score of a vertex. -/
structure VertexRow (α : Type) where
  vertex : Nat
  score : α
  deriving DecidableEq, Repr

/-- The score of an edge. -/
structure EdgeRow (α : Type) where
  source : Nat
  target : Nat
  score : α
  deriving DecidableEq, Repr

/-- The scores of vertices. -/
structure VertexTable (α β : Type) where
  vertices : List Nat
  scores : ScoreColumn α β

/-- The scores of edges. -/
structure EdgeTable (α β : Type) where
  sources : List Nat
  targets : List Nat
  scores : ScoreColumn α β
  /-- Whether an edge is found only by its ends in their order. -/
  directed : Bool

/-- The first elements of a list, or all of them if the number is zero. -/
def takeOrAll {ρ : Type} (count : Nat) (rows : List ρ) : List ρ :=
  if count = 0 then rows else rows.take count

/-- How many rows are taken. -/
theorem length_takeOrAll {ρ : Type} (count : Nat) (rows : List ρ) :
    (takeOrAll count rows).length = if count = 0 then rows.length else min count rows.length := by
  rw [takeOrAll]
  split
  · rfl
  · exact List.length_take

variable {α β : Type}

/-- The order of a report: the higher score first, then the smaller id. -/
def VertexRow.order [Ranked α] (a b : VertexRow α) : Ordering :=
  (compare (Ranked.rank b.score) (Ranked.rank a.score)).then (compare a.vertex b.vertex)

/-- The order of a report: the higher score first, then the smaller ids. -/
def EdgeRow.order [Ranked α] (a b : EdgeRow α) : Ordering :=
  ((compare (Ranked.rank b.score) (Ranked.rank a.score)).then
    (compare a.source b.source)).then (compare a.target b.target)

namespace VertexTable

/-- The number of vertices. -/
def size (t : VertexTable α β) : Nat := t.vertices.length

/-- Whether there are no vertices. -/
def isEmpty (t : VertexTable α β) : Bool := t.vertices.isEmpty

/-- The rows. -/
def rows [Storage α β] (t : VertexTable α β) : List (VertexRow α) :=
  t.vertices.zipWith VertexRow.mk t.scores.toList

/-- The score of a vertex: that of the first row with its id. -/
def scoreOf? [Storage α β] (t : VertexTable α β) (vertex : Nat) : Option α := do
  t.scores.get? (← t.vertices.findIdx? (· = vertex))

/-- The given number of rows with the highest scores; all rows, if the number is zero. -/
def top [Storage α β] [Ranked α] (t : VertexTable α β) (count : Nat) : List (VertexRow α) :=
  takeOrAll count (t.rows.mergeSort fun a b => (a.order b).isLE)

end VertexTable

namespace EdgeTable

/-- The number of edges. -/
def size (t : EdgeTable α β) : Nat := t.sources.length

/-- Whether there are no edges. -/
def isEmpty (t : EdgeTable α β) : Bool := t.sources.isEmpty

/-- The ends of the edges, where both are there. -/
def ends (t : EdgeTable α β) : List (Nat × Nat) := t.sources.zip t.targets

/-- The rows. -/
def rows [Storage α β] (t : EdgeTable α β) : List (EdgeRow α) :=
  t.ends.zipWith (fun ends score => ⟨ends.1, ends.2, score⟩) t.scores.toList

/-- Whether a row is found by the given ends: in their order or, if edges have no direction, in
the opposite one. -/
def isBetween (t : EdgeTable α β) (source target : Nat) (ends : Nat × Nat) : Bool :=
  ends = (source, target) || (!t.directed && ends = (target, source))

/-- The score of an edge: that of the first row found by its ends. -/
def scoreOf? [Storage α β] (t : EdgeTable α β) (source target : Nat) : Option α := do
  t.scores.get? (← t.ends.findIdx? (t.isBetween source target))

/-- The given number of rows with the highest scores; all rows, if the number is zero. -/
def top [Storage α β] [Ranked α] (t : EdgeTable α β) (count : Nat) : List (EdgeRow α) :=
  takeOrAll count (t.rows.mergeSort fun a b => (a.order b).isLE)

end EdgeTable

end Betweenness
