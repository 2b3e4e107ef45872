import Betweenness.Decimal
import Betweenness.Json.Basic
import Betweenness.Table

/-!
# Scores as documents

Tables and rows as JSON values. A score is written with the fewest digits that read back in its
own precision, and as `null` if it is not finite. Doubles are written in positional form from
`0.00001` up to sixteen places before the point, single precision floats from `0.000001` up to
thirteen.
-/

namespace Betweenness

/-- The form of double precision scores. -/
def doubleStyle : PointStyle := ⟨-5, 16⟩

/-- The form of single precision scores. -/
def singleStyle : PointStyle := ⟨-6, 13⟩

/-- The JSON value of a double precision float. -/
def Json.ofDouble (x : Float) : Json :=
  .orNull (((FloatValue.ofDouble x).write? doubleStyle).map .number)

/-- The JSON value of a single precision float. -/
def Json.ofSingle (x : Float32) : Json :=
  .orNull (((FloatValue.ofSingle x).write? singleStyle).map .number)

/-- The JSON value of a column. -/
def ScoreColumn.toJson : ScoreColumn Float Float32 → Json
  | single scores => .array (scores.toList.map .ofSingle)
  | double scores => .array (scores.toList.map .ofDouble)

/-- The JSON value of a table of vertices, column by column. -/
def VertexTable.toJson (t : VertexTable Float Float32) : Json :=
  .record [
    ("vertex", .array (t.vertices.map .ofNat)),
    ("betweenness_centrality", t.scores.toJson)]

/-- The JSON value of a table of edges, column by column. -/
def EdgeTable.toJson (t : EdgeTable Float Float32) : Json :=
  .record [
    ("src", .array (t.sources.map .ofNat)),
    ("dst", .array (t.targets.map .ofNat)),
    ("edge_betweenness_centrality", t.scores.toJson)]

/-- The JSON value of a row, its members in alphabetical order. -/
def VertexRow.toJson (r : VertexRow Float) : Json :=
  .record [("betweenness_centrality", .ofDouble r.score), ("vertex", .ofNat r.vertex)]

/-- The JSON value of a row, its members in alphabetical order. -/
def EdgeRow.toJson (r : EdgeRow Float) : Json :=
  .record [
    ("dst", .ofNat r.target),
    ("edge_betweenness_centrality", .ofDouble r.score),
    ("src", .ofNat r.source)]

end Betweenness
