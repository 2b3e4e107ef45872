import Betweenness.Proofs.Centrality

/-!
# Looking scores up

A table finds the score of a vertex by its id, and that of an edge by the ids of its ends: in their
order and, if edges have no direction, in the opposite one. In the tables of a built graph there is
one row for an id and for a pair of ends, since a numbering is one-to-one and no two edges join the
same vertices. So what is found is the score of the vertex or the edge itself, whatever the strategy
and the precision, and nothing is found exactly if there is no such vertex or edge.

## Main results

* `Graph.getElem?_edgeIds_iff`: the rows of the ends of edges.
* `VertexTable.scoreOf?_eq_some_iff`, `EdgeTable.scoreOf?_eq_some_iff`: what is found in the tables
  of a graph.
-/

namespace Betweenness

/-- Where no two entries of a list have a property, the one that has it is found. -/
theorem findIdx?_eq_some_iff_of_unique {α : Type} {p : α → Bool} {l : List α}
    (hunique : ∀ (i j : ℕ) (x y : α), l[i]? = some x → l[j]? = some y → p x = true →
      p y = true → i = j) {i : ℕ} : l.findIdx? p = some i ↔ ∃ x, l[i]? = some x ∧ p x = true := by
  rw [List.findIdx?_eq_some_iff_getElem]
  constructor
  · rintro ⟨hi, hp, -⟩
    exact ⟨l[i], List.getElem?_eq_getElem hi, hp⟩
  · rintro ⟨x, hx, hp⟩
    obtain ⟨hi, rfl⟩ := List.getElem?_eq_some_iff.mp hx
    refine ⟨hi, hp, fun j hj hpj => Nat.ne_of_lt hj ?_⟩
    exact hunique j i _ _ (List.getElem?_eq_getElem (Nat.lt_trans hj hi)) hx hpj hp

/-! ### Columns -/

/-- The score of a vertex for some sources, scaled. -/
noncomputable def Graph.vertexScore (g : Graph) (normalized : Bool) (sources : SourceSet)
    (v : ℕ) : ℚ :=
  vertexFactor g.kind g.nodeCount normalized (sources.sampled.getD 0) *
    g.vertexSum sources.indices v

/-- The score of an edge for some sources, scaled. -/
noncomputable def Graph.edgeScore (g : Graph) (normalized : Bool) (sources : SourceSet)
    (e : ℕ) : ℚ :=
  edgeFactor g.kind g.nodeCount normalized (sources.sampled.getD 0) * g.edgeSum sources.indices e

/-- The scores in row order are those of the rows. -/
theorem ScoreColumn.getElem?_toList {α β : Type} [Storage α β] (c : ScoreColumn α β) (row : ℕ) :
    c.toList[row]? = c.get? row := by
  cases c <;> simp [toList, get?]

theorem ScoreColumn.length_toList {α β : Type} [Storage α β] (c : ScoreColumn α β) :
    c.toList.length = c.size := by
  cases c <;> simp [toList, size]

/-- There is a score for every row. -/
theorem ScoreColumn.exists_get? {α β : Type} [Storage α β] (c : ScoreColumn α β) {row : ℕ}
    (h : row < c.size) : ∃ x, c.get? row = some x := by
  rw [← length_toList] at h
  exact ⟨_, (c.getElem?_toList row).symm.trans (List.getElem?_eq_getElem h)⟩

/-- A score as it is read from a column of a precision. -/
def Precision.kept {α : Type} (β : Type) [Storage α β] (x : α) : Precision → α
  | .single => Storage.load (Storage.store x : β)
  | .double => x

/-- What a column has for a row, in any arithmetic. -/
theorem ScoreColumn.get?_ofScores_eq {α β : Type} [Storage α β] (scores : Array α)
    (precision : Precision) (i : ℕ) : (ofScores scores precision : ScoreColumn α β).get? i =
      scores[i]?.map fun x => precision.kept β x := by
  cases precision with
  | single => simp [ofScores, get?, Precision.kept, Function.comp_def]
  | double => simp [ofScores, get?, Precision.kept]

/-- What a column of exact scores has for a row, whatever its precision. -/
theorem ScoreColumn.get?_ofScores (n : ℕ) (f : ℕ → ℚ) (precision : Precision) (i : ℕ) :
    (ofScores ((Array.range n).map f) precision : ScoreColumn ℚ ℚ).get? i =
      if i < n then some (f i) else none := by
  have hkept : ∀ x : ℚ, precision.kept ℚ x = x := fun x => by cases precision <;> rfl
  simp only [get?_ofScores_eq, hkept, Array.getElem?_map, Array.getElem?_range]
  split <;> rfl

section Columns

variable {g : Graph} {plan : Plan} {normalized : Bool} {sources : SourceSet}

theorem get?_vertexColumn (hg : g.Consistent) (v : ℕ) :
    (vertexColumn ℚ ℚ g plan ⟨g.kind, .vertices, g.nodeCount, normalized, sources.sampled⟩
      sources.indices).get? v =
        if v < g.nodeCount then some (g.vertexScore normalized sources v) else none := by
  have hscores : (vertexScores ℚ g sources.indices).map
      (· * Scaling.factor ℚ ⟨g.kind, .vertices, g.nodeCount, normalized, sources.sampled⟩) =
        (Array.range g.nodeCount).map (g.vertexScore normalized sources) := by
    rw [vertexScores_eq hg, Scaling.factor_vertices, Array.map_map]
    exact Array.map_congr_left fun v _ => mul_comm _ _
  rw [vertexColumn]
  cases plan.strategy with
  | sourceBySource =>
      dsimp only
      rw [Scaling.apply_eq, hscores, ScoreColumn.get?_ofScores]
  | levelByLevel =>
      -- What is stored is the score itself, as it is in a column of single precision.
      have hsame := ScoreColumn.get?_ofScores g.nodeCount (g.vertexScore normalized sources)
        .single v
      dsimp only
      rw [Scaling.applyStored_eq, storedVertexScores_eq hg, ← vertexScores_eq hg, hscores]
      rwa [ScoreColumn.ofScores, (Array.map_id _ : Array.map Storage.store _ = _)] at hsame

theorem get?_edgeColumn (hg : g.Consistent) (e : ℕ) :
    (edgeColumn ℚ ℚ g plan ⟨g.kind, .edges, g.nodeCount, normalized, sources.sampled⟩
      sources.indices).get? e =
        if e < g.edgeCount then some (g.edgeScore normalized sources e) else none := by
  have hscores : (edgeScores ℚ g sources.indices).map
      (· * Scaling.factor ℚ ⟨g.kind, .edges, g.nodeCount, normalized, sources.sampled⟩) =
        (Array.range g.edgeCount).map (g.edgeScore normalized sources) := by
    rw [edgeScores_eq hg, Scaling.factor_edges, Array.map_map]
    exact Array.map_congr_left fun e _ => mul_comm _ _
  rw [edgeColumn, Scaling.apply_eq, hscores, ScoreColumn.get?_ofScores]

end Columns

/-! ### Rows of ids -/

namespace Graph

variable {g : Graph} {v w e id a c : ℕ} {row : ℕ × ℕ} (hg : g.Consistent)

include hg

/-- The ids of the ends of an edge stand in the row of its number. -/
theorem getElem?_edgeIds_iff : g.edgeIds[e]? = some row ↔
    ∃ ends, g.endpoints? e = some ends ∧ g.numbering.Translates row ends := by
  have hids : ∀ ends, g.endpoints? e = some ends →
      (g.endpointIds? ends = some row ↔ g.numbering.Translates row ends) := by
    rintro ⟨v, w⟩ hends
    obtain ⟨hv, hw⟩ := hg.endpoints_lt e v w hends
    rw [Numbering.Translates, ← idOf_eq_some_iff hg hv, ← idOf_eq_some_iff hg hw]
    obtain ⟨a, ha⟩ := exists_idOf hg hv
    obtain ⟨c, hc⟩ := exists_idOf hg hw
    obtain ⟨a', c'⟩ := row
    simp [endpointIds?, ha, hc]
  rw [getElem?_edgeIds hg, Option.bind_eq_some_iff]
  constructor
  · rintro ⟨ends, hends, hrow⟩
    exact ⟨ends, hends, (hids ends hends).mp hrow⟩
  · rintro ⟨ends, hends, hrow⟩
    exact ⟨ends, hends, (hids ends hends).mpr hrow⟩

/-- The row of an edge has two ids as its ends, in an order that fits the kind, if the edge leads
from the vertex of the one to that of the other. -/
theorem exists_edgeIds_iff :
    (∃ row, g.edgeIds[e]? = some row ∧ g.kind.edgeKey row = g.kind.edgeKey (a, c)) ↔
      ∃ v w, g.numbering.Translates (a, c) (v, w) ∧ g.Joins e v w := by
  simp only [getElem?_edgeIds_iff hg, joins_iff]
  constructor
  · rintro ⟨⟨a', c'⟩, ⟨⟨v, w⟩, hends, hv, hw⟩, hkey⟩
    rcases Kind.edgeKey_eq_iff.mp hkey with heq | ⟨hkind, heq⟩
    · obtain ⟨rfl, rfl⟩ := Prod.mk.inj heq
      exact ⟨v, w, ⟨hv, hw⟩, _, hends, rfl⟩
    · obtain ⟨rfl, rfl⟩ := Prod.mk.inj heq
      exact ⟨w, v, ⟨hw, hv⟩, _, hends, Kind.edgeKey_eq_iff.mpr (.inr ⟨hkind, rfl⟩)⟩
  · rintro ⟨v, w, ⟨hv, hw⟩, ends, hends, hkey⟩
    rcases Kind.edgeKey_eq_iff.mp hkey with rfl | ⟨hkind, rfl⟩
    · exact ⟨(a, c), ⟨_, hends, hv, hw⟩, rfl⟩
    · exact ⟨(c, a), ⟨_, hends, hw, hv⟩, Kind.edgeKey_eq_iff.mpr (.inr ⟨hkind, rfl⟩)⟩

end Graph

/-! ### Rows of tables -/

section Rows

variable {α β : Type} [Scalar α] [Storage α β] {g : Graph} {settings : Settings} {host : Host}
  {id a c e : ℕ}

section Vertices

variable [Scalar β] {options : VertexOptions} {table : VertexTable α β} (hg : g.Consistent)
  (hsize : g.nodeCount ≤ maxIndex)
  (htable : vertexCentrality α β g options settings host = .ok table)

include hg hsize htable

/-- The rows of a table are the ids of vertices. -/
theorem VertexTable.mem_vertices_iff :
    id ∈ table.vertices ↔ ∃ v, g.numbering.indexOf id = .ok v := by
  obtain ⟨-, plan, sources, -, -, -, rfl⟩ := vertexCentrality_eq_ok_iff.mp htable
  simp only [List.mem_iff_getElem?, Graph.getElem?_vertexIds_iff hg hsize]

/-- An id is found in the row of its vertex. -/
theorem VertexTable.findIdx?_vertices_iff {v : ℕ} :
    table.vertices.findIdx? (· = id) = some v ↔ g.numbering.indexOf id = .ok v := by
  obtain ⟨-, plan, sources, -, -, -, rfl⟩ := vertexCentrality_eq_ok_iff.mp htable
  rw [findIdx?_eq_some_iff_of_unique]
  · simp only [decide_eq_true_eq, exists_eq_right, Graph.getElem?_vertexIds_iff hg hsize]
  · intro i j y z hi hj hy hz
    obtain rfl := of_decide_eq_true hy
    obtain rfl := of_decide_eq_true hz
    rw [Graph.getElem?_vertexIds_iff hg hsize] at hi hj
    exact Except.ok.inj (hi.symm.trans hj)

end Vertices

section Edges

variable {options : EdgeOptions} {table : EdgeTable α β} (hg : g.Consistent)
  (htable : edgeCentrality α β g options settings host = .ok table)

include htable

/-- The rows of a table are those of the edges. -/
theorem EdgeTable.ends_eq : table.ends = g.edgeIds := by
  obtain ⟨-, plan, sources, -, -, -, rfl⟩ := edgeCentrality_eq_ok_iff.mp htable
  rw [ends, List.zip_map']
  exact List.map_id _

/-- A row is found by two ids if its own agree with them. -/
theorem EdgeTable.isBetween_iff {row : ℕ × ℕ} :
    table.isBetween a c row = true ↔ g.kind.edgeKey row = g.kind.edgeKey (a, c) := by
  obtain ⟨-, plan, sources, -, -, -, rfl⟩ := edgeCentrality_eq_ok_iff.mp htable
  rw [Kind.edgeKey_eq_iff]
  cases hkind : g.kind <;> simp [isBetween, Graph.isDirected, hkind]

include hg

/-- Two ids are found in the row of the edge between their vertices. -/
theorem EdgeTable.findIdx?_ends_iff :
    table.ends.findIdx? (table.isBetween a c) = some e ↔
      ∃ v w, g.numbering.Translates (a, c) (v, w) ∧ g.Joins e v w := by
  rw [ends_eq htable, findIdx?_eq_some_iff_of_unique]
  · simp only [isBetween_iff htable, Graph.exists_edgeIds_iff hg]
  · intro i j y z hi hj hy hz
    rw [isBetween_iff htable] at hy hz
    obtain ⟨v, w, hvw, hjoins⟩ := (Graph.exists_edgeIds_iff hg).mp ⟨y, hi, hy⟩
    obtain ⟨v', w', hvw', hjoins'⟩ := (Graph.exists_edgeIds_iff hg).mp ⟨z, hj, hz⟩
    obtain rfl : v = v' := Except.ok.inj (hvw.1.symm.trans hvw'.1)
    obtain rfl : w = w' := Except.ok.inj (hvw.2.symm.trans hvw'.2)
    exact hg.edge_unique i j v w hjoins hjoins'

end Edges

end Rows

/-! ### Exact scores -/

section Tables

variable {g : Graph} {sources : SourceSet} {settings : Settings} {host : Host} {x : ℚ}
  {id a c e : ℕ}

section Vertices

variable {options : VertexOptions} {table : VertexTable ℚ ℚ} (hg : g.Consistent)
  (hsize : g.nodeCount ≤ maxIndex)
  (htable : vertexCentrality ℚ ℚ g options settings host = .ok table)

include hg hsize htable

/-- What is found for an id is the score of its vertex. -/
theorem VertexTable.scoreOf?_eq_some_iff
    (hsources : options.sources.resolve g options.seed host = .ok sources) :
    table.scoreOf? id = some x ↔ ∃ v, g.numbering.indexOf id = .ok v ∧
      g.vertexScore options.normalized sources v = x := by
  simp only [scoreOf?, bind, Option.bind_eq_some_iff, findIdx?_vertices_iff hg hsize htable]
  obtain ⟨-, plan, sources', -, hsources', -, rfl⟩ := vertexCentrality_eq_ok_iff.mp htable
  obtain rfl : sources = sources' := Except.ok.inj (hsources.symm.trans hsources')
  refine exists_congr fun v => and_congr_right fun hv => ?_
  rw [get?_vertexColumn hg, if_pos (hg.lt_of_indexOf hv), Option.some.injEq]

/-- A score is found for the ids of vertices. -/
theorem VertexTable.exists_scoreOf?_iff :
    (∃ x, table.scoreOf? id = some x) ↔ ∃ v, g.numbering.indexOf id = .ok v := by
  obtain ⟨-, plan, sources, -, hsources, -, -⟩ := vertexCentrality_eq_ok_iff.mp htable
  simp only [scoreOf?_eq_some_iff hg hsize htable hsources]
  constructor
  · rintro ⟨-, v, hv, -⟩
    exact ⟨v, hv⟩
  · rintro ⟨v, hv⟩
    exact ⟨_, v, hv, rfl⟩

end Vertices

section Edges

variable {options : EdgeOptions} {table : EdgeTable ℚ ℚ} (hg : g.Consistent)
  (htable : edgeCentrality ℚ ℚ g options settings host = .ok table)

include hg htable

/-- What is found for two ids is the score of the edge between their vertices. -/
theorem EdgeTable.scoreOf?_eq_some_iff
    (hsources : options.sources.resolve g options.seed host = .ok sources) :
    table.scoreOf? a c = some x ↔ ∃ e v w, g.numbering.Translates (a, c) (v, w) ∧
      g.Joins e v w ∧ g.edgeScore options.normalized sources e = x := by
  simp only [scoreOf?, bind, Option.bind_eq_some_iff, findIdx?_ends_iff hg htable]
  obtain ⟨-, plan, sources', -, hsources', -, rfl⟩ := edgeCentrality_eq_ok_iff.mp htable
  obtain rfl : sources = sources' := Except.ok.inj (hsources.symm.trans hsources')
  refine exists_congr fun e => ?_
  dsimp only
  rw [get?_edgeColumn hg]
  constructor
  · rintro ⟨⟨v, w, hvw, hjoins⟩, hx⟩
    rw [if_pos hjoins.lt_edgeCount, Option.some.injEq] at hx
    exact ⟨v, w, hvw, hjoins, hx⟩
  · rintro ⟨v, w, hvw, hjoins, hx⟩
    refine ⟨⟨v, w, hvw, hjoins⟩, ?_⟩
    rw [if_pos hjoins.lt_edgeCount, hx]

/-- A score is found for the ids of vertices that are linked. -/
theorem EdgeTable.exists_scoreOf?_iff : (∃ x, table.scoreOf? a c = some x) ↔
    ∃ v w, g.numbering.Translates (a, c) (v, w) ∧ g.Linked v w := by
  obtain ⟨-, plan, sources, -, hsources, -, -⟩ := edgeCentrality_eq_ok_iff.mp htable
  simp only [scoreOf?_eq_some_iff hg htable hsources]
  constructor
  · rintro ⟨-, e, v, w, hvw, he, -⟩
    exact ⟨v, w, hvw, e, he⟩
  · rintro ⟨v, w, hvw, e, he⟩
    exact ⟨_, e, v, w, hvw, he, rfl⟩

end Edges

end Tables

end Betweenness
