import Betweenness.Centrality
import Betweenness.Proofs.Graph.Ids
import Betweenness.Proofs.Graph.Reversal
import Betweenness.Proofs.Scaling
import Betweenness.Proofs.Scores

/-!
# Betweenness centrality in exact arithmetic

What the two entry points return when scores are computed in rational arithmetic: for every vertex
or edge of a built graph a row with its id, and with the shares of shortest paths that the sources
have of it, scaled.

## Main results

* `vertexCentrality_eq`: the scores of vertices. With all vertices as sources they are the
  betweenness of the graph.
* `edgeCentrality_eq`: the scores of edges, in the rows of their ends as first loaded.
* `vertexCentrality_levelByLevel`: the two strategies agree.
-/

namespace Betweenness

/-! ### Successful calls -/

section Calls

variable {α β : Type} [Scalar α] [Storage α β] {g : Graph} {settings : Settings}
  {host : Host}

/-- A call for vertex scores succeeds when all its checks do, and what it then returns. -/
theorem vertexCentrality_eq_ok_iff [Scalar β] {options : VertexOptions}
    {table : VertexTable α β} :
    vertexCentrality α β g options settings host = .ok table ↔
      settings.validate = .ok () ∧ ∃ plan sources,
        options.plan = .ok plan ∧
        options.sources.resolve g options.seed host = .ok sources ∧
        plan.strategy.checkMemory g g.nodeCount sources.size settings host = .ok () ∧
        table =
          { vertices := g.vertexIds
            scores := vertexColumn α β g plan
              ⟨g.kind, .vertices, g.nodeCount, options.normalized, sources.sampled⟩
              sources.indices } := by
  simp only [vertexCentrality, bind_eq_ok_iff, pure, Except.pure, Except.ok.injEq]
  constructor
  · rintro ⟨⟨⟩, hsettings, plan, hplan, sources, hsources, ⟨⟩, hmemory, rfl⟩
    exact ⟨hsettings, plan, sources, hplan, hsources, hmemory, rfl⟩
  · rintro ⟨hsettings, plan, sources, hplan, hsources, hmemory, rfl⟩
    exact ⟨(), hsettings, plan, hplan, sources, hsources, (), hmemory, rfl⟩

/-- A call for edge scores succeeds when all its checks do, and what it then returns. -/
theorem edgeCentrality_eq_ok_iff {options : EdgeOptions} {table : EdgeTable α β} :
    edgeCentrality α β g options settings host = .ok table ↔
      settings.validate = .ok () ∧ ∃ plan sources,
        options.plan = .ok plan ∧
        options.sources.resolve g options.seed host = .ok sources ∧
        plan.strategy.checkMemory g g.edgeCount sources.size settings host = .ok () ∧
        table =
          { sources := g.edgeIds.map Prod.fst
            targets := g.edgeIds.map Prod.snd
            scores := edgeColumn α β g plan
              ⟨g.kind, .edges, g.nodeCount, options.normalized, sources.sampled⟩
              sources.indices
            directed := g.isDirected } := by
  simp only [edgeCentrality, bind_eq_ok_iff, pure, Except.pure, Except.ok.injEq]
  constructor
  · rintro ⟨⟨⟩, hsettings, plan, hplan, sources, hsources, ⟨⟩, hmemory, rfl⟩
    exact ⟨hsettings, plan, sources, hplan, hsources, hmemory, rfl⟩
  · rintro ⟨hsettings, plan, sources, hplan, hsources, hmemory, rfl⟩
    exact ⟨(), hsettings, plan, hplan, sources, hsources, (), hmemory, rfl⟩

theorem exists_vertexCentrality_iff [Scalar β] {options : VertexOptions} :
    (∃ table : VertexTable α β, vertexCentrality α β g options settings host = .ok table) ↔
      settings.validate = .ok () ∧ ∃ plan, options.plan = .ok plan ∧
        ∃ sources, options.sources.resolve g options.seed host = .ok sources ∧
          plan.strategy.checkMemory g g.nodeCount sources.size settings host = .ok () := by
  constructor
  · rintro ⟨table, htable⟩
    obtain ⟨hsettings, plan, sources, hplan, hsources, hmemory, -⟩ :=
      vertexCentrality_eq_ok_iff.mp htable
    exact ⟨hsettings, plan, hplan, sources, hsources, hmemory⟩
  · rintro ⟨hsettings, plan, hplan, sources, hsources, hmemory⟩
    exact ⟨_, vertexCentrality_eq_ok_iff.mpr
      ⟨hsettings, plan, sources, hplan, hsources, hmemory, rfl⟩⟩

theorem exists_edgeCentrality_iff {options : EdgeOptions} :
    (∃ table : EdgeTable α β, edgeCentrality α β g options settings host = .ok table) ↔
      settings.validate = .ok () ∧ ∃ plan, options.plan = .ok plan ∧
        ∃ sources, options.sources.resolve g options.seed host = .ok sources ∧
          plan.strategy.checkMemory g g.edgeCount sources.size settings host = .ok () := by
  constructor
  · rintro ⟨table, htable⟩
    obtain ⟨hsettings, plan, sources, hplan, hsources, hmemory, -⟩ :=
      edgeCentrality_eq_ok_iff.mp htable
    exact ⟨hsettings, plan, hplan, sources, hsources, hmemory⟩
  · rintro ⟨hsettings, plan, hplan, sources, hsources, hmemory⟩
    exact ⟨_, edgeCentrality_eq_ok_iff.mpr
      ⟨hsettings, plan, sources, hplan, hsources, hmemory, rfl⟩⟩

end Calls

/-- Whether a computation fits into the limit depends on the sizes of the graph only. -/
theorem Strategy.checkMemory_congr {g g' : Graph} {scoreCount sourceCount : ℕ} {s : Settings}
    {host : Host} (strategy : Strategy) (hkind : g'.kind = g.kind)
    (hnodes : g'.nodeCount = g.nodeCount) (hedges : g'.edgeCount = g.edgeCount) :
    strategy.checkMemory g' scoreCount sourceCount s host =
      strategy.checkMemory g scoreCount sourceCount s host := by
  have hsearch : searchBytes g' = searchBytes g := by
    rw [searchBytes, searchBytes, hkind, hnodes, hedges]
  have hestimate : strategy.estimate g' scoreCount sourceCount s host =
      strategy.estimate g scoreCount sourceCount s host := by
    simp only [estimate, hsearch, hnodes]
  rw [checkMemory, checkMemory, hestimate]

/-- Small graphs fit into the default limit. -/
theorem Strategy.checkMemory_of_small {g : Graph} {scoreCount sourceCount : ℕ}
    (strategy : Strategy) (hnodes : g.nodeCount ≤ 1000) (hedges : g.edgeCount ≤ 1000)
    (hscores : scoreCount ≤ 1000) :
    strategy.checkMemory g scoreCount sourceCount {} = .ok () := by
  -- Words stand for these numbers, and no operation on them wraps around.
  have hwords : ∀ n ≤ 1000, (UInt64.ofNat n).toNat = n := fun n hn =>
    UInt64.toNat_ofNat_of_lt' (Nat.lt_of_le_of_lt hn (by decide))
  have hsides : g.kind.arcsPerEdge ≤ 2 := by cases g.kind <;> decide
  have harcs : g.edgeCount * g.kind.arcsPerEdge ≤ 1000 * 2 := Nat.mul_le_mul hedges hsides
  have hsearch : (searchBytes g).toNat =
      g.nodeCount * 48 + g.edgeCount * g.kind.arcsPerEdge * 8 := by
    simp only [searchBytes, UInt64.toNat_add, UInt64.toNat_mul, hwords _ hnodes, hwords _ hedges,
      hwords _ (Nat.le_trans hsides (by decide)), UInt64.reduceToNat]
    simp (disch := omega) only [Nat.mod_eq_of_lt]
  have hestimate : (strategy.estimate g scoreCount sourceCount {}).toNat ≤ 80000 := by
    cases strategy with
    | sourceBySource =>
        have hworkers : busyWorkers {} sourceCount .repeatable = 1 :=
          Nat.min_eq_left (Nat.le_max_right _ _)
        simp only [estimate, hworkers, UInt64.toNat_add, UInt64.toNat_mul, hsearch,
          hwords _ hscores, UInt64.reduceToNat, UInt64.reduceOfNat]
        simp (disch := omega) only [Nat.mod_eq_of_lt]
        omega
    | levelByLevel =>
        simp only [estimate, UInt64.toNat_add, UInt64.toNat_mul, hsearch, hwords _ hscores,
          hwords _ hnodes, UInt64.reduceToNat]
        simp (disch := omega) only [Nat.mod_eq_of_lt]
        omega
  refine if_neg ?_
  simp only [mebibytes]
  omega

section Small

variable {α β : Type} [Scalar α] [Storage α β] {g : Graph} {plan : Plan} {sources : SourceSet}
  (hnodes : g.nodeCount ≤ 1000) (hedges : g.edgeCount ≤ 1000)

include hnodes hedges

/-- Whatever is planned for sources of a small graph can be carried out. -/
theorem exists_vertexCentrality_of_small [Scalar β] {options : VertexOptions}
    (hplan : options.plan = .ok plan)
    (hsources : options.sources.resolve g options.seed = .ok sources) :
    ∃ table : VertexTable α β, vertexCentrality α β g options {} = .ok table :=
  exists_vertexCentrality_iff.mpr ⟨rfl, plan, hplan, sources, hsources,
    plan.strategy.checkMemory_of_small hnodes hedges hnodes⟩

theorem exists_edgeCentrality_of_small {options : EdgeOptions} (hplan : options.plan = .ok plan)
    (hsources : options.sources.resolve g options.seed = .ok sources) :
    ∃ table : EdgeTable α β, edgeCentrality α β g options {} = .ok table :=
  exists_edgeCentrality_iff.mpr ⟨rfl, plan, hplan, sources, hsources,
    plan.strategy.checkMemory_of_small hnodes hedges hedges⟩

end Small

/-- All vertices of the square, as sources, fit into the default limit. -/
theorem Strategy.checkMemory_square (strategy : Strategy) :
    strategy.checkMemory Graph.square 5 (SourceSet.all Graph.square).size {} = .ok () :=
  strategy.checkMemory_of_small (by simp) (by simp) (by decide)

/-- What a plan for vertex scores is made of. -/
theorem VertexOptions.plan_eq {options : VertexOptions} {plan : Plan}
    (h : options.plan = .ok plan) :
    plan = ⟨options.strategy.forPrecision options.precision, options.precision⟩ := by
  obtain ⟨-, -, h⟩ := bind_eq_ok_iff.mp h
  obtain ⟨-, -, h⟩ := bind_eq_ok_iff.mp h
  simp only [pure, Except.pure, Except.ok.injEq] at h
  exact h.symm

/-- What a plan for edge scores is made of. -/
theorem EdgeOptions.plan_eq {options : EdgeOptions} {plan : Plan} (h : options.plan = .ok plan) :
    plan = ⟨.sourceBySource, options.precision⟩ := by
  obtain ⟨-, -, h⟩ := bind_eq_ok_iff.mp h
  simp only [pure, Except.pure, Except.ok.injEq] at h
  exact h.symm

/-! ### Vertices -/

/-- Whatever is planned for all vertices can be carried out in the square. -/
theorem exists_vertexCentrality_square (options : VertexOptions) {plan : Plan}
    (hplan : options.plan = .ok plan) (hall : options.sources = .all) :
    ∃ table : VertexTable ℚ ℚ, vertexCentrality ℚ ℚ Graph.square options {} = .ok table := by
  refine ⟨_, vertexCentrality_eq_ok_iff.mpr
    ⟨rfl, plan, SourceSet.all Graph.square, hplan, by rw [hall]; rfl, ?_, rfl⟩⟩
  rw [Graph.nodeCount_square]
  exact Strategy.checkMemory_square plan.strategy

/-- Scores that are neither normalized nor estimated are the betweenness of the graph. -/
theorem vertexFactor_mul_vertexSum {g : Graph} (hg : g.Consistent) (v : ℕ) :
    vertexFactor g.kind g.nodeCount false 0 * g.vertexSum (List.range g.nodeCount) v =
      g.betweenness v := by
  simp [vertexFactor, halving, Graph.betweenness_eq hg]

variable {β : Type} [Storage ℚ β] {b : Builder} {g : Graph} {sources : SourceSet}
  {settings : Settings} {host : Host}

/-- The score of every vertex of a built graph, source by source and on any host: its row has its
id, and its score is the sum of the shares that the sources have of it, scaled. With all vertices
as sources and without normalization this is its betweenness. -/
theorem vertexCentrality_eq [Scalar β] {options : VertexOptions} {table : VertexTable ℚ β}
    (hb : b.build = .ok g) (hsize : g.nodeCount ≤ maxIndex)
    (hstrategy : options.strategy.forPrecision options.precision = .sourceBySource)
    (hsources : options.sources.resolve g options.seed host = .ok sources)
    (htable : vertexCentrality ℚ β g options settings host = .ok table) :
    table.vertices.length = g.nodeCount ∧
    (∀ v < g.nodeCount, ∃ id, g.idOf? v = some id ∧ table.vertices[v]? = some id) ∧
    table.scores = .ofScores ((Array.range g.nodeCount).map fun v =>
      vertexFactor g.kind g.nodeCount options.normalized (options.sources.chosen sources) *
        g.vertexSum sources.indices v) options.precision ∧
    (options.sources = .all → options.normalized = false →
      table.scores = .ofScores ((Array.range g.nodeCount).map g.betweenness)
        options.precision) := by
  have hg := Builder.build_consistent hb
  obtain ⟨-, plan, sources', hplan, hsources', -, rfl⟩ := vertexCentrality_eq_ok_iff.mp htable
  obtain rfl : sources = sources' := Except.ok.inj (hsources.symm.trans hsources')
  obtain rfl := VertexOptions.plan_eq hplan
  have hscores : vertexColumn ℚ β g
      ⟨options.strategy.forPrecision options.precision, options.precision⟩
      ⟨g.kind, .vertices, g.nodeCount, options.normalized, sources.sampled⟩ sources.indices =
      .ofScores ((Array.range g.nodeCount).map fun v =>
        vertexFactor g.kind g.nodeCount options.normalized (options.sources.chosen sources) *
          g.vertexSum sources.indices v) options.precision := by
    rw [hstrategy, vertexColumn, Scaling.apply_eq, Scaling.factor_vertices,
      SourceSpec.sampled_of_resolve hsources, vertexScores_eq hg, Array.map_map]
    simp only [Function.comp_def, mul_comm]
  refine ⟨Graph.length_vertexIds hg hsize, fun v hv => ?_, hscores, fun hall hraw => ?_⟩
  · obtain ⟨id, hid⟩ := Graph.exists_idOf hg hv
    exact ⟨id, hid, (Graph.getElem?_vertexIds hg hsize hv).trans hid⟩
  · rw [hall] at hsources
    refine hscores.trans ?_
    simp only [hraw, hall, SourceSpec.indices_of_resolve_all hsize hsources]
    exact congrArg (ScoreColumn.ofScores · options.precision)
      (Array.map_congr_left fun v _ => vertexFactor_mul_vertexSum hg v)

/-- A corner of the square is on one of the two shortest paths between its neighbours. -/
theorem vertexCentrality_eq_square : Builder.square.build = .ok Graph.square ∧
    Graph.square.nodeCount ≤ maxIndex ∧ ∃ table : VertexTable ℚ ℚ,
      vertexCentrality ℚ ℚ Graph.square { normalized := false } {} = .ok table ∧
      table.vertices.length = 5 ∧
      table.scores = .double ((Array.range 5).map Graph.square.betweenness) ∧
      table.scores = .double #[1 / 2, 1 / 2, 1 / 2, 1 / 2, 0] := by
  obtain ⟨table, htable⟩ := exists_vertexCentrality_square { normalized := false } rfl rfl
  obtain ⟨hlength, -, -, hscores⟩ :=
    vertexCentrality_eq Builder.build_square Graph.nodeCount_square_le rfl rfl htable
  rw [Graph.nodeCount_square] at hlength hscores
  refine ⟨Builder.build_square, Graph.nodeCount_square_le, table, htable, hlength,
    hscores rfl rfl, ?_⟩
  obtain ⟨-, plan, sources, hplan, hsources, -, rfl⟩ := vertexCentrality_eq_ok_iff.mp htable
  cases hplan
  cases hsources
  rw [SourceSet.indices_all Graph.nodeCount_square_le, Graph.nodeCount_square, Graph.square_eq]
  exact congrArg ScoreColumn.double (by decide +kernel)

/-- Sources are shared level by level only if they are all vertices. -/
theorem VertexOptions.sources_eq_all {options : VertexOptions} {plan : Plan}
    (h : options.plan = .ok plan) (hstrategy : options.strategy = .levelByLevel) :
    options.sources = .all := by
  obtain ⟨-, -, h⟩ := bind_eq_ok_iff.mp h
  obtain ⟨-, h, -⟩ := bind_eq_ok_iff.mp h
  rw [hstrategy, Strategy.checkSources] at h
  cases hsources : options.sources with
  | all => rfl
  | sample k =>
      rw [hsources] at h
      cases h
  | list ids =>
      rw [hsources] at h
      cases h

/-- Level by level, the scores of a built graph are those computed source by source: raw ones for
any sources, and tables for any options that ask for it, each on a host of its own. -/
theorem vertexCentrality_levelByLevel (hb : b.build = .ok g) :
    (∀ sources, storedVertexScores ℚ ℚ g sources = vertexScores ℚ g sources) ∧
    ∀ (options : VertexOptions) (plan : Plan) (settings settings' : Settings) (host host' : Host)
      (table table' : VertexTable ℚ ℚ), options.plan = .ok plan → plan.strategy = .levelByLevel →
      vertexCentrality ℚ ℚ g options settings host = .ok table →
      vertexCentrality ℚ ℚ g { options with strategy := .sourceBySource } settings' host' =
        .ok table' →
      table = table' := by
  have hg := Builder.build_consistent hb
  have hraw : ∀ sources, storedVertexScores ℚ ℚ g sources = vertexScores ℚ g sources :=
    fun sources => (storedVertexScores_eq hg sources).trans (vertexScores_eq hg sources).symm
  refine ⟨hraw, fun options plan settings settings' host host' table table' hplan hstrategy h h' =>
    ?_⟩
  obtain ⟨-, plan₁, sources, hplan₁, hsources, -, rfl⟩ := vertexCentrality_eq_ok_iff.mp h
  obtain ⟨-, plan₂, sources₂, hplan₂, hsources₂, -, rfl⟩ := vertexCentrality_eq_ok_iff.mp h'
  obtain rfl : plan₁ = plan := Except.ok.inj (hplan₁.symm.trans hplan)
  obtain rfl := VertexOptions.plan_eq hplan
  obtain rfl := VertexOptions.plan_eq hplan₂
  -- Only single precision is computed level by level.
  cases hprecision : options.precision with
  | double =>
      rw [hprecision] at hstrategy
      cases hstrategy
  | single =>
      rw [hprecision] at hstrategy
      have hlevels : options.strategy = .levelByLevel := hstrategy
      have hall : options.sources = .all := VertexOptions.sources_eq_all hplan hlevels
      simp only [hall] at hsources hsources₂
      obtain rfl : sources₂ = sources := Except.ok.inj (hsources₂.symm.trans hsources)
      refine congrArg (VertexTable.mk g.vertexIds) ?_
      simp only [hlevels, vertexColumn, Strategy.forPrecision, ScoreColumn.ofScores]
      rw [Scaling.applyStored_eq, Scaling.apply_eq, hraw]
      exact congrArg ScoreColumn.single (Array.map_id _).symm

/-- The two strategies agree on the square. -/
theorem vertexCentrality_levelByLevel_square : Builder.square.build = .ok Graph.square ∧
    ∃ table : VertexTable ℚ ℚ,
      vertexCentrality ℚ ℚ Graph.square
        { strategy := .levelByLevel, precision := .single } {} = .ok table ∧
      vertexCentrality ℚ ℚ Graph.square
        { strategy := .sourceBySource, precision := .single } {} = .ok table := by
  obtain ⟨table, htable⟩ := exists_vertexCentrality_square
    { strategy := .levelByLevel, precision := .single } rfl rfl
  obtain ⟨table', htable'⟩ := exists_vertexCentrality_square
    { strategy := .sourceBySource, precision := .single } rfl rfl
  obtain rfl : table = table' := (vertexCentrality_levelByLevel Builder.build_square).2
    { strategy := .levelByLevel, precision := .single } _ {} {} _ _ table table' rfl rfl htable
    htable'
  exact ⟨Builder.build_square, table, htable, htable'⟩

/-! ### Edges -/

/-- The score of every edge of a built graph, on any host: its row has the ids of its ends as they
were first loaded, and its score is the sum of the shares that the sources have of it, scaled. A
loop has none. -/
theorem edgeCentrality_eq {options : EdgeOptions} {table : EdgeTable ℚ β}
    (hb : b.build = .ok g) (hsources : options.sources.resolve g options.seed host = .ok sources)
    (htable : edgeCentrality ℚ β g options settings host = .ok table) :
    table.sources.length = g.edgeCount ∧ table.targets.length = g.edgeCount ∧
    (∀ e < g.edgeCount, ∃ ends row, g.endpoints? e = some ends ∧
      g.endpointIds? ends = some row ∧
      b.rows.toList.find? (fun r => b.kind.edgeKey r = b.kind.edgeKey row) = some row ∧
      table.sources[e]? = some row.1 ∧ table.targets[e]? = some row.2) ∧
    table.scores = .ofScores ((Array.range g.edgeCount).map fun e =>
      edgeFactor g.kind g.nodeCount options.normalized (options.sources.chosen sources) *
        g.edgeSum sources.indices e) options.precision ∧
    ∀ e v, g.endpoints? e = some (v, v) →
      edgeFactor g.kind g.nodeCount options.normalized (options.sources.chosen sources) *
        g.edgeSum sources.indices e = 0 := by
  have hg := Builder.build_consistent hb
  obtain ⟨-, plan, sources', hplan, hsources', -, rfl⟩ := edgeCentrality_eq_ok_iff.mp htable
  obtain rfl : sources = sources' := Except.ok.inj (hsources.symm.trans hsources')
  obtain rfl := EdgeOptions.plan_eq hplan
  refine ⟨?_, ?_, fun e he => ?_, ?_, fun e v he => ?_⟩
  · rw [List.length_map, Graph.length_edgeIds hg]
  · rw [List.length_map, Graph.length_edgeIds hg]
  · obtain ⟨ends, hends⟩ : ∃ ends, g.endpoints? e = some ends :=
      ⟨_, Array.getElem?_eq_getElem he⟩
    obtain ⟨row, hrow, hfirst⟩ := Builder.find?_rows hb hends
    have hget : g.edgeIds[e]? = some row := by
      rw [Graph.getElem?_edgeIds hg, hends, Option.bind_some, hrow]
    refine ⟨ends, row, hends, hrow, hfirst, ?_, ?_⟩
    · rw [List.getElem?_map, hget]
      rfl
    · rw [List.getElem?_map, hget]
      rfl
  · dsimp only
    rw [edgeColumn, Scaling.apply_eq, Scaling.factor_edges, SourceSpec.sampled_of_resolve hsources,
      edgeScores_eq hg, Array.map_map]
    simp only [Function.comp_def, mul_comm]
  · have hzero : g.edgeSum sources.indices e = 0 := by
      refine List.sum_eq_zero fun x hx => ?_
      obtain ⟨s, -, rfl⟩ := List.mem_map.mp hx
      exact Graph.edgeShare_loop he
    rw [hzero, mul_zero]

/-- Of the ten pairs of vertices, a side of the square joins one and carries half of two more. The
loop, the last edge, has no score. -/
theorem edgeCentrality_eq_square : Builder.square.build = .ok Graph.square ∧
    Graph.square.endpoints? 4 = some (4, 4) ∧
    ∃ table : EdgeTable ℚ ℚ, edgeCentrality ℚ ℚ Graph.square {} {} = .ok table ∧
      table.sources.length = 5 ∧
      table.scores = .double ((Array.range 5).map fun e =>
        edgeFactor .undirected 5 true 0 * Graph.square.edgeSum (List.range 5) e) ∧
      table.scores = .double #[1 / 5, 1 / 5, 1 / 5, 1 / 5, 0] ∧
      edgeFactor .undirected 5 true 0 * Graph.square.edgeSum (List.range 5) 4 = 0 := by
  have hloop : Graph.square.endpoints? 4 = some (4, 4) := by
    rw [Graph.square_eq]
    rfl
  have hall : (SourceSet.all Graph.square).indices = List.range 5 := by
    rw [SourceSet.indices_all Graph.nodeCount_square_le, Graph.nodeCount_square]
  obtain ⟨table, htable⟩ : ∃ table : EdgeTable ℚ ℚ,
      edgeCentrality ℚ ℚ Graph.square {} {} = .ok table := by
    refine ⟨_, edgeCentrality_eq_ok_iff.mpr ⟨rfl, _, _, rfl, rfl, ?_, rfl⟩⟩
    rw [Graph.edgeCount_square]
    exact Strategy.checkMemory_square _
  obtain ⟨hlength, -, -, hscores, hzero⟩ := edgeCentrality_eq Builder.build_square rfl htable
  rw [Graph.nodeCount_square, hall] at hscores hzero
  rw [Graph.edgeCount_square] at hlength hscores
  refine ⟨Builder.build_square, hloop, table, htable, hlength, hscores, ?_, hzero 4 4 hloop⟩
  obtain ⟨-, plan, sources, hplan, hsources, -, rfl⟩ := edgeCentrality_eq_ok_iff.mp htable
  cases hplan
  cases hsources
  rw [hall, Graph.square_eq]
  exact congrArg ScoreColumn.double (by decide +kernel)

end Betweenness
