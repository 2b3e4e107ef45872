import Betweenness.Proofs.Complaints
import Betweenness.Proofs.Graph.Naming
import Betweenness.Proofs.Graph.Repeats

/-!
# Tables without gaps and repeats

A table is looked up in two steps: the first row with an id is found in the column of ids, and its
score is read from the column of scores. Rows end with the shorter column, and a score that is read
beyond the end is none. So a look-up finds the score of the first row that fits, whatever the
columns are.

The tables of a built graph have the rows of its vertices or edges, each once, since neither ids nor
links repeat. In them a look-up finds what was accumulated for the index of an id, or for the number
of the edge between two ids, and finds nothing for ids that have not been loaded. Nothing is asked
of the arithmetic here.

## Main results

* `VertexTable.scoreOf?_eq_find?`, `EdgeTable.scoreOf?_eq_find?`: look-ups in any tables.
* `VertexTable.Complete`, `EdgeTable.Complete`: what tables of built graphs are like.
* `tables_complete`: the tables of successful calls.
-/

namespace Betweenness

/-! ### The first row that fits -/

/-- Of two lists in line, what goes with the first entry that fits is found in the second list. -/
theorem map_find?_zipWith {ι σ ρ : Type} {f : ι → σ → ρ} {p : ι → Bool} {q : ρ → Bool} {s : ρ → σ}
    (hq : ∀ a b, q (f a b) = p a) (hs : ∀ a b, s (f a b) = b) (l : List ι) (m : List σ) :
    ((l.zipWith f m).find? q).map s = (l.findIdx? p).bind (m[·]?) := by
  induction l generalizing m with
  | nil => rfl
  | cons a l ih =>
      cases m with
      | nil => simp
      | cons b m =>
          rw [List.zipWith_cons_cons, List.find?_cons, List.findIdx?_cons, hq]
          cases p a with
          | true => simp [hs]
          | false => simp [ih, Option.bind_map]

section Tables

variable {α β : Type} [Storage α β]

/-- What is found for an id is the score of the first row with this id. -/
theorem VertexTable.scoreOf?_eq_find? (t : VertexTable α β) (id : ℕ) :
    t.scoreOf? id = (t.rows.find? fun row => row.vertex = id).map VertexRow.score := by
  rw [rows, map_find?_zipWith (p := (· = id)) (fun _ _ => rfl) (fun _ _ => rfl)]
  simp only [ScoreColumn.getElem?_toList]
  rfl

/-- What is found for two ids is the score of the first row that has them as its ends: in their
order or, if edges have no direction, in the opposite one. -/
theorem EdgeTable.scoreOf?_eq_find? (t : EdgeTable α β) (a c : ℕ) :
    t.scoreOf? a c = (t.rows.find? fun row => row.source = a ∧ row.target = c ∨
      t.directed = false ∧ row.source = c ∧ row.target = a).map EdgeRow.score := by
  rw [rows, map_find?_zipWith (p := t.isBetween a c) (fun ends x => ?_) (fun _ _ => rfl)]
  · simp only [ScoreColumn.getElem?_toList]
    rfl
  · simp [isBetween, Prod.ext_iff]

end Tables

/-! ### What was accumulated -/

section Results

variable {α β : Type} [Scalar α] [Storage α β]

namespace Scaling

open Scalar (isOne)

/-- A score, scaled. -/
def scaled (s : Scaling) (x : α) : α :=
  if isOne (s.factor α) then x else x * s.factor α

/-- A score that is kept in a storage type, scaled. -/
def scaledStored (α : Type) {β : Type} [Scalar α] [Storage α β] (s : Scaling) (x : β) : β :=
  if isOne (s.factor α) then x else Storage.store ((Storage.load x : α) * s.factor α)

omit [Storage α β] in
theorem getElem?_apply (s : Scaling) (scores : Array α) (i : ℕ) :
    (s.apply scores)[i]? = scores[i]?.map s.scaled := by
  cases h : isOne (s.factor α) <;> cases hx : scores[i]? <;> simp [apply, scaled, h, hx]

theorem getElem?_applyStored (s : Scaling) (scores : Array β) (i : ℕ) :
    (s.applyStored α scores)[i]? = scores[i]?.map (s.scaledStored α) := by
  cases h : isOne (s.factor α) <;> cases hx : scores[i]? <;>
    simp [applyStored, scaledStored, h, hx]

end Scaling

namespace Graph

variable (α β)

/-- What was accumulated for the index of a vertex, scaled and in the precision asked for. -/
def vertexResult? [Scalar β] (g : Graph) (options : VertexOptions) (sources : SourceSet) (v : ℕ) :
    Option α :=
  let scaling : Scaling :=
    ⟨g.kind, .vertices, g.nodeCount, options.normalized, sources.sampled⟩
  match options.strategy.forPrecision options.precision with
  | .sourceBySource => (vertexScores α g sources.indices)[v]?.map fun x =>
      options.precision.kept β (scaling.scaled x)
  | .levelByLevel => (storedVertexScores α β g sources.indices)[v]?.map fun x =>
      Storage.load (scaling.scaledStored α x)

/-- What was accumulated for the number of an edge, scaled and in the precision asked for. -/
def edgeResult? (g : Graph) (options : EdgeOptions) (sources : SourceSet) (e : ℕ) : Option α :=
  let scaling : Scaling := ⟨g.kind, .edges, g.nodeCount, options.normalized, sources.sampled⟩
  (edgeScores α g sources.indices)[e]?.map fun x => options.precision.kept β (scaling.scaled x)

end Graph

section Columns

variable (α β) (g : Graph) (sources : SourceSet) {plan : Plan}

/-- The column of a table has what was accumulated for the index of a vertex in its row, and it is
of the precision asked for. -/
theorem get?_vertexColumn_eq [Scalar β] {options : VertexOptions}
    (hplan : options.plan = .ok plan) :
    let column := vertexColumn α β g plan
      ⟨g.kind, .vertices, g.nodeCount, options.normalized, sources.sampled⟩ sources.indices
    column.precision = options.precision ∧
      ∀ v, column.get? v = g.vertexResult? α β options sources v := by
  obtain rfl := VertexOptions.plan_eq hplan
  dsimp only [vertexColumn, Graph.vertexResult?]
  cases hstrategy : options.strategy.forPrecision options.precision with
  | sourceBySource =>
      refine ⟨?_, fun v => ?_⟩
      · cases options.precision <;> rfl
      · dsimp only
        rw [ScoreColumn.get?_ofScores_eq, Scaling.getElem?_apply, Option.map_map]
        rfl
  | levelByLevel =>
      refine ⟨?_, fun v => ?_⟩
      · -- Scores of double precision are computed source by source.
        cases hprecision : options.precision with
        | single => rfl
        | double =>
            rw [hprecision] at hstrategy
            cases hstrategy
      · dsimp only [ScoreColumn.get?]
        rw [Scaling.getElem?_applyStored, Option.map_map]
        rfl

/-- The column of a table has what was accumulated for the number of an edge in its row, and it is
of the precision asked for. -/
theorem get?_edgeColumn_eq {options : EdgeOptions} (hplan : options.plan = .ok plan) :
    let column := edgeColumn α β g plan
      ⟨g.kind, .edges, g.nodeCount, options.normalized, sources.sampled⟩ sources.indices
    column.precision = options.precision ∧
      ∀ e, column.get? e = g.edgeResult? α β options sources e := by
  obtain rfl := EdgeOptions.plan_eq hplan
  dsimp only [edgeColumn, Graph.edgeResult?]
  refine ⟨?_, fun e => ?_⟩
  · cases options.precision <;> rfl
  · rw [ScoreColumn.get?_ofScores_eq, Scaling.getElem?_apply, Option.map_map]
    rfl

end Columns

end Results

/-! ### Complete tables -/

section Complete

variable {α β : Type} [Storage α β]

/-- A table has every vertex of a built graph in one row, under its id and with the result for its
index, in a precision. -/
structure VertexTable.Complete (b : Builder) (g : Graph) (precision : Precision)
    (result? : ℕ → Option α) (t : VertexTable α β) : Prop where
  length_rows : t.rows.length = g.nodeCount
  /-- The ids of the rows are those that were loaded. -/
  map_vertex_rows : t.rows.map VertexRow.vertex = b.loadedIds
  /-- None of them stands in two rows. -/
  nodup_loadedIds : b.loadedIds.Nodup
  size_scores : t.scores.size = t.vertices.length
  precision_scores : t.scores.precision = precision
  scoreOf?_of_indexOf : ∀ v id, g.numbering.indexOf id = .ok v →
    ∃ x, result? v = some x ∧ t.scoreOf? id = some x
  scoreOf?_of_notMem : ∀ id, id ∉ b.loadedIds → t.scoreOf? id = none

/-- A table has every edge of a built graph in one row, under the ids of its ends and with the
result for its number, in a precision. -/
structure EdgeTable.Complete (b : Builder) (g : Graph) (precision : Precision)
    (result? : ℕ → Option α) (t : EdgeTable α β) : Prop where
  length_rows : t.rows.length = g.edgeCount
  /-- No two rows have the same ends, and neither have they opposite ones if edges have no
  direction. -/
  pairwise_rows : t.rows.Pairwise fun row row' =>
    ¬ g.kind.SameEnds (row.source, row.target) (row'.source, row'.target)
  size_scores : t.scores.size = t.sources.length ∧ t.scores.size = t.targets.length
  precision_scores : t.scores.precision = precision
  /-- A row is that of the edge with its number. -/
  row_eq : ∀ e row, t.rows[e]? = some row → ∃ ends, g.endpoints? e = some ends ∧
    g.numbering.Translates (row.source, row.target) ends ∧ result? e = some row.score
  /-- By the ends of a row, the score of this row is found. -/
  scoreOf?_of_mem : ∀ row ∈ t.rows, t.scoreOf? row.source row.target = some row.score
  /-- If edges have no direction, the order of the ends does not matter. -/
  scoreOf?_swap : g.kind = .undirected → ∀ a c, t.scoreOf? c a = t.scoreOf? a c
  /-- By the ends of a loaded edge, the score of the row with these ends is found. -/
  scoreOf?_of_loads : ∀ a c, b.Loads a c → ∃ row ∈ t.rows,
    g.kind.SameEnds (row.source, row.target) (a, c) ∧ t.scoreOf? a c = some row.score
  scoreOf?_of_not_loads : ∀ a c, ¬ b.Loads a c → t.scoreOf? a c = none

/-- Where edges have no direction, the order of the ends does not matter. -/
theorem EdgeTable.scoreOf?_swap {t : EdgeTable α β} (h : t.directed = false) {a c : ℕ} :
    t.scoreOf? c a = t.scoreOf? a c := by
  have hsame : t.isBetween c a = t.isBetween a c := by
    funext ends
    simp only [isBetween, h, Bool.not_false, Bool.true_and]
    exact Bool.or_comm ..
  rw [scoreOf?, scoreOf?, hsame]

/-- A row is made of the ends and the score in its place. -/
theorem EdgeTable.getElem?_rows_iff {t : EdgeTable α β} {e : ℕ} {row : EdgeRow α} :
    t.rows[e]? = some row ↔
      t.ends[e]? = some (row.source, row.target) ∧ t.scores.get? e = some row.score := by
  rw [rows, List.getElem?_zipWith_eq_some, ← ScoreColumn.getElem?_toList]
  constructor
  · rintro ⟨ends, x, hends, hx, rfl⟩
    exact ⟨hends, hx⟩
  · rintro ⟨hends, hx⟩
    exact ⟨_, _, hends, hx, rfl⟩

/-- The rows of lists in line have the entries of the first list. -/
theorem map_zipWith_left {ι σ ρ : Type} {f : ι → σ → ρ} {k : ρ → ι} (hk : ∀ a b, k (f a b) = a)
    {l : List ι} {m : List σ} (h : l.length = m.length) : (l.zipWith f m).map k = l := by
  refine List.ext_getElem (by simp [h]) fun i _ _ => ?_
  rw [List.getElem_map, List.getElem_zipWith, hk]

end Complete

section Calls

variable {α β : Type} [Scalar α] [Storage α β] {b : Builder} {g : Graph} {settings : Settings}
  {host : Host} (hb : b.build = .ok g)

include hb

/-- No id is loaded twice. -/
theorem Builder.nodup_loadedIds (hsize : g.nodeCount ≤ maxIndex) : b.loadedIds.Nodup := by
  have hg := build_consistent hb
  rw [← vertexIds_eq_loadedIds hb hsize, List.nodup_iff_getElem?_ne_getElem?]
  intro v w hvw hw hsame
  rw [List.getElem?_eq_getElem hw, Graph.getElem?_vertexIds_iff hg hsize] at hsame
  have hindex := (Graph.getElem?_vertexIds_iff hg hsize).mp (List.getElem?_eq_getElem hw)
  exact absurd (Except.ok.inj (hsame.symm.trans hindex)) (Nat.ne_of_lt hvw)

/-- No two edges have the same ids at their ends. -/
theorem Builder.pairwise_edgeIds :
    g.edgeIds.Pairwise fun ends ends' => ¬ g.kind.SameEnds ends ends' := by
  rw [edgeIds_eq hb, (numbering_of_build hb).2]
  exact distinctRows_pairwise.imp fun h hsame => h (Kind.sameEnds_iff.mp hsame)

/-- The table of a successful call for vertex scores is complete. -/
theorem VertexTable.complete_of_ok [Scalar β] (hsize : g.nodeCount ≤ maxIndex)
    {options : VertexOptions} {table : VertexTable α β}
    (htable : vertexCentrality α β g options settings host = .ok table) :
    ∃ sources, options.sources.resolve g options.seed host = .ok sources ∧
      table.Complete b g options.precision (g.vertexResult? α β options sources) := by
  have hg := Builder.build_consistent hb
  obtain ⟨-, plan, sources, hplan, hsources, -, htable'⟩ := vertexCentrality_eq_ok_iff.mp htable
  obtain ⟨hprecision, hcolumn⟩ := get?_vertexColumn_eq α β g sources hplan
  have hfull : table.IsFull g := htable' ▸ VertexTable.isFull hg hsize ..
  have hids : table.vertices = b.loadedIds := by
    rw [htable', Builder.vertexIds_eq_loadedIds hb hsize]
  have hlength : table.vertices.length = table.scores.toList.length := by
    rw [ScoreColumn.length_toList, hfull.size_scores, hfull.length_vertices]
  refine ⟨sources, hsources, {
    length_rows := ?length_rows
    map_vertex_rows := (map_zipWith_left (fun _ _ => rfl) hlength).trans hids
    nodup_loadedIds := Builder.nodup_loadedIds hb hsize
    size_scores := hfull.size_scores.trans hfull.length_vertices.symm
    precision_scores := htable' ▸ hprecision
    scoreOf?_of_indexOf := fun v id hv => ?scoreOf?_of_indexOf
    scoreOf?_of_notMem := fun id hid => ?scoreOf?_of_notMem }⟩
  case length_rows =>
    rw [rows, List.length_zipWith, ← hlength, Nat.min_self, hfull.length_vertices]
  case scoreOf?_of_indexOf =>
    obtain ⟨x, hx⟩ := table.scores.exists_get? (hfull.size_scores ▸ hg.lt_of_indexOf hv)
    refine ⟨x, ?_, ?_⟩
    · rw [← hcolumn, ← hx, htable']
    · rw [scoreOf?, (VertexTable.findIdx?_vertices_iff hg hsize htable).mpr hv]
      exact hx
  case scoreOf?_of_notMem =>
    have hnone : table.vertices.findIdx? (· = id) = none := by
      rw [List.findIdx?_eq_none_iff, hids]
      exact fun a ha => decide_eq_false (ne_of_mem_of_not_mem ha hid)
    rw [scoreOf?, hnone]
    rfl

section Edges

variable {options : EdgeOptions} {table : EdgeTable α β} {e v w a c : ℕ} {row : EdgeRow α}
  (htable : edgeCentrality α β g options settings host = .ok table)

include htable

theorem EdgeTable.isFull_of_ok : table.IsFull g := by
  obtain ⟨-, plan, sources, -, -, -, rfl⟩ := edgeCentrality_eq_ok_iff.mp htable
  exact EdgeTable.isFull (Builder.build_consistent hb) ..

/-- The rows are those of the edges. -/
theorem EdgeTable.map_ends_rows :
    table.rows.map (fun row => (row.source, row.target)) = g.edgeIds := by
  have hends : table.ends = g.edgeIds := EdgeTable.ends_eq htable
  have hlength : table.ends.length = table.scores.toList.length := by
    rw [ScoreColumn.length_toList, (EdgeTable.isFull_of_ok hb htable).size_scores, hends,
      Graph.length_edgeIds (Builder.build_consistent hb)]
  exact (map_zipWith_left (fun _ _ => rfl) hlength).trans hends

/-- A row has the ids of the ends of the edge with its number. -/
theorem EdgeTable.translates_of_row (he : table.rows[e]? = some row) :
    ∃ ends, g.endpoints? e = some ends ∧
      g.numbering.Translates (row.source, row.target) ends := by
  refine (Graph.getElem?_edgeIds_iff (Builder.build_consistent hb)).mp ?_
  rw [← EdgeTable.map_ends_rows hb htable, List.getElem?_map, he]
  rfl

/-- By the ids of two vertices, the row of the edge between them is found. -/
theorem EdgeTable.exists_row_of_joins (hids : g.numbering.Translates (a, c) (v, w))
    (hjoins : g.Joins e v w) : ∃ row, table.rows[e]? = some row ∧
      g.kind.SameEnds (row.source, row.target) (a, c) ∧ table.scoreOf? a c = some row.score := by
  have hg := Builder.build_consistent hb
  have hsize := (EdgeTable.isFull_of_ok hb htable).size_scores
  obtain ⟨ends, hends, hkey⟩ := (Graph.exists_edgeIds_iff hg).mpr ⟨v, w, hids, hjoins⟩
  obtain ⟨x, hx⟩ := table.scores.exists_get? (hsize ▸ hjoins.lt_edgeCount)
  refine ⟨⟨ends.1, ends.2, x⟩, getElem?_rows_iff.mpr ⟨EdgeTable.ends_eq htable ▸ hends, hx⟩,
    Kind.sameEnds_iff.mpr hkey, ?_⟩
  rw [scoreOf?, (EdgeTable.findIdx?_ends_iff hg htable).mpr ⟨v, w, hids, hjoins⟩]
  exact hx

/-- Two ids between which no edge is loaded are not found. -/
theorem EdgeTable.scoreOf?_of_not_loads (hloads : ¬ b.Loads a c) : table.scoreOf? a c = none := by
  rw [scoreOf?]
  cases hfound : table.ends.findIdx? (table.isBetween a c) with
  | none => rfl
  | some e =>
      obtain ⟨v, w, ⟨hv, hw⟩, hjoins⟩ :=
        (EdgeTable.findIdx?_ends_iff (Builder.build_consistent hb) htable).mp hfound
      exact absurd ((Builder.linked_iff hb hv hw).mp ⟨e, hjoins⟩) hloads

/-- The table of a successful call for edge scores is complete. -/
theorem EdgeTable.complete_of_ok :
    ∃ sources, options.sources.resolve g options.seed host = .ok sources ∧
      table.Complete b g options.precision (g.edgeResult? α β options sources) := by
  have hmap := EdgeTable.map_ends_rows hb htable
  have hfull := EdgeTable.isFull_of_ok hb htable
  obtain ⟨-, plan, sources, hplan, hsources, -, htable'⟩ := edgeCentrality_eq_ok_iff.mp htable
  obtain ⟨hprecision, hcolumn⟩ := get?_edgeColumn_eq α β g sources hplan
  refine ⟨sources, hsources, {
    length_rows := ?length_rows
    pairwise_rows := ?pairwise_rows
    size_scores := ⟨hfull.size_scores.trans hfull.length_sources.symm,
      hfull.size_scores.trans hfull.length_targets.symm⟩
    precision_scores := htable' ▸ hprecision
    row_eq := fun e row he => ?row_eq
    scoreOf?_of_mem := fun row hmem => ?scoreOf?_of_mem
    scoreOf?_swap := fun hkind a c => EdgeTable.scoreOf?_swap ?directed
    scoreOf?_of_loads := fun a c hloads => ?scoreOf?_of_loads
    scoreOf?_of_not_loads := fun a c => EdgeTable.scoreOf?_of_not_loads hb htable }⟩
  case length_rows =>
    rw [← Graph.length_edgeIds (Builder.build_consistent hb), ← hmap, List.length_map]
  case pairwise_rows =>
    have hdistinct := Builder.pairwise_edgeIds hb
    rwa [← hmap, List.pairwise_map] at hdistinct
  case row_eq =>
    obtain ⟨ends, hends, htranslates⟩ := EdgeTable.translates_of_row hb htable he
    refine ⟨ends, hends, htranslates, ?_⟩
    rw [← hcolumn, ← (getElem?_rows_iff.mp he).2, htable']
  case scoreOf?_of_mem =>
    obtain ⟨e, he⟩ := List.mem_iff_getElem?.mp hmem
    obtain ⟨⟨v, w⟩, hends, htranslates⟩ := EdgeTable.translates_of_row hb htable he
    obtain ⟨row', he', -, hscore⟩ :=
      EdgeTable.exists_row_of_joins hb htable htranslates (.inl hends)
    rw [hscore, Option.some.inj (he'.symm.trans he)]
  case directed =>
    rw [hfull.directed_eq, Graph.isDirected, hkind]
    rfl
  case scoreOf?_of_loads =>
    obtain ⟨v, w, hv, hw, e, hjoins⟩ := hloads.exists_indexOf hb
    obtain ⟨row, he, hsame, hscore⟩ := EdgeTable.exists_row_of_joins hb htable ⟨hv, hw⟩ hjoins
    exact ⟨row, List.mem_of_getElem? he, hsame, hscore⟩

end Edges

end Calls

section Tables

variable (α β : Type) [Scalar α] [Scalar β] [Storage α β] {b : Builder} {g : Graph}

/-- Look-ups find the score of the first row that fits, in any table. The tables of successful calls
for a built graph are complete: they have every vertex or edge in one row, with what was accumulated
for it from the sources, in the precision that was asked for, and nothing else is found in them.
This holds on every host, and for every sample that is drawn on it. -/
theorem tables_complete (hb : b.build = .ok g) (hsize : g.nodeCount ≤ maxIndex)
    (settings : Settings) (host : Host) :
    (∀ (t : VertexTable α β) (id : ℕ), t.scoreOf? id =
      (t.rows.find? fun row => row.vertex = id).map VertexRow.score) ∧
    (∀ (t : EdgeTable α β) (a c : ℕ), t.scoreOf? a c =
      (t.rows.find? fun row => row.source = a ∧ row.target = c ∨
        t.directed = false ∧ row.source = c ∧ row.target = a).map EdgeRow.score) ∧
    (∀ (options : VertexOptions) (t : VertexTable α β),
      vertexCentrality α β g options settings host = .ok t →
        ∃ sources, options.sources.resolve g options.seed host = .ok sources ∧
          t.Complete b g options.precision (g.vertexResult? α β options sources)) ∧
    ∀ (options : EdgeOptions) (t : EdgeTable α β),
      edgeCentrality α β g options settings host = .ok t →
        ∃ sources, options.sources.resolve g options.seed host = .ok sources ∧
          t.Complete b g options.precision (g.edgeResult? α β options sources) :=
  ⟨VertexTable.scoreOf?_eq_find?, EdgeTable.scoreOf?_eq_find?,
    fun _ _ => VertexTable.complete_of_ok hb hsize, fun _ _ => EdgeTable.complete_of_ok hb⟩

end Tables

/-- The tables of the square: of its vertices level by level in single precision, and of its edges
for one source. The edge of two ids is found in either direction, and there is none between
opposite corners. -/
theorem tables_complete_square : Builder.square.build = .ok Graph.square ∧
    Graph.square.nodeCount ≤ maxIndex ∧
    (∃ t : VertexTable ℚ ℚ, vertexCentrality ℚ ℚ Graph.square
        { strategy := .levelByLevel, precision := .single } {} .repeatable = .ok t ∧
      t.rows.map VertexRow.vertex = [0, 1, 2, 3, 4] ∧ t.scores.precision = .single ∧
      t.scoreOf? 5 = none) ∧
    ∃ t : EdgeTable ℚ ℚ,
      edgeCentrality ℚ ℚ Graph.square { sources := .list [3] } {} .repeatable = .ok t ∧
      t.rows.length = 5 ∧ (∃ x, t.scoreOf? 0 3 = some x ∧ t.scoreOf? 3 0 = some x) ∧
      t.scoreOf? 1 3 = none := by
  have hnodes : Graph.square.nodeCount ≤ 1000 := by simp
  have hcount : Graph.square.edgeCount ≤ 1000 := by simp
  have hids : Builder.square.loadedIds = [0, 1, 2, 3, 4] := by decide
  obtain ⟨-, -, hvertices, hedges⟩ :=
    tables_complete ℚ ℚ Builder.build_square Graph.nodeCount_square_le {} .repeatable
  obtain ⟨vertices, hvertex⟩ : ∃ table : VertexTable ℚ ℚ, vertexCentrality ℚ ℚ Graph.square
      { strategy := .levelByLevel, precision := .single } {} .repeatable = .ok table :=
    exists_vertexCentrality_of_small hnodes hcount rfl rfl
  obtain ⟨edges, hedge⟩ : ∃ table : EdgeTable ℚ ℚ,
      edgeCentrality ℚ ℚ Graph.square { sources := .list [3] } {} .repeatable = .ok table :=
    exists_edgeCentrality_of_small hnodes hcount rfl rfl
  obtain ⟨_, _, hfullVertices⟩ := hvertices _ vertices hvertex
  obtain ⟨_, _, hfullEdges⟩ := hedges _ edges hedge
  refine ⟨Builder.build_square, Graph.nodeCount_square_le,
    ⟨vertices, hvertex, ?_, hfullVertices.precision_scores, ?_⟩, edges, hedge, ?_, ?_, ?_⟩
  · exact hfullVertices.map_vertex_rows.trans hids
  · exact hfullVertices.scoreOf?_of_notMem 5 (by simp [hids])
  · exact hfullEdges.length_rows.trans Graph.edgeCount_square
  · obtain ⟨row, -, -, hscore⟩ := hfullEdges.scoreOf?_of_loads 3 0 (.inl (by decide))
    exact ⟨row.score, (hfullEdges.scoreOf?_swap rfl 3 0).trans hscore, hscore⟩
  · exact hfullEdges.scoreOf?_of_not_loads 1 3 (by simp [Builder.Loads, Builder.square])

end Betweenness
