import Betweenness.Proofs.Renaming

/-!
# The two numberings of one graph

The ids of a builder can be numbered in the order in which they are mentioned, or every id can be an
index of its own. In the second case the graph also has a vertex for every number below the greatest
id that is never mentioned: a gap (`Builder.IsGap`). A gap is linked to nothing, so it is the only
vertex that no path touches, and as a source it depends on nothing. It matters to normalized scores
only, as these are divided by the number of pairs of vertices.

## Main results

* `Builder.exists_renames_identity`: every vertex of the smaller graph is one of the larger.
* `Builder.nodeCount_eq_of_gapless`: without gaps, the two graphs are of one size.
* `Builder.notMem_vertices_of_isGap`, `Builder.scoreOf?_of_isGap`: what becomes of gaps.
* `centrality_numberingModes`: what is found in the tables of the two graphs.
-/

namespace Betweenness

namespace Builder

/-- An id below the greatest one that is not mentioned. -/
def IsGap (b : Builder) (id : ℕ) : Prop := id ∉ b.mentioned ∧ ∃ last ∈ b.mentioned, id < last

/-- The ids that are mentioned are those up to the greatest one. -/
def Gapless (b : Builder) : Prop := ∀ id, ¬ b.IsGap id

variable {b : Builder} {limit a : ℕ} {g g' : Graph}
  (hb : build { b with renumber := true } = .ok g)
  (hb' : build { b with renumber := false, memoryLimit := limit } = .ok g')

section Identity

include hb'

/-- Without a table, the indices are the ids that are mentioned and the gaps. -/
theorem lt_nodeCount_iff_of_identity : a < g'.nodeCount ↔ a ∈ b.mentioned ∨ b.IsGap a := by
  rw [← (build_consistent hb').vertexCount_eq,
    lt_vertexCount_iff_of_identity rfl (numbering_of_build hb').1]
  constructor
  · rintro ⟨last, hlast, hle⟩
    by_cases ha : a ∈ b.mentioned
    · exact .inl ha
    · refine .inr ⟨ha, last, hlast, Nat.lt_of_le_of_ne hle ?_⟩
      rintro rfl
      exact ha hlast
  · rintro (ha | ⟨-, last, hlast, hlt⟩)
    · exact ⟨a, ha, Nat.le_refl a⟩
    · exact ⟨last, hlast, hlt.le⟩

/-- Ids that are indices of their own leave no graph of `2 ^ 32` vertices. -/
theorem nodeCount_le_of_identity : g'.nodeCount ≤ maxIndex := by
  obtain ⟨count, hcount, hnumbering⟩ := map_eq_ok_iff.mp (numbering_of_build hb').1
  rw [← (build_consistent hb').vertexCount_eq, ← hnumbering]
  exact identityCount_le hcount

theorem indexOf_eq_self_of_identity (ha : a < g'.nodeCount) : g'.numbering.indexOf a = .ok a := by
  rw [← (build_consistent hb').vertexCount_eq] at ha
  exact (indexOf_iff_of_identity rfl (numbering_of_build hb').1).mpr ⟨rfl, ha⟩

end Identity

section Table

include hb

theorem nodeCount_eq_of_table : g.nodeCount = b.mentioned.toFinset.card :=
  nodeCount_of_build (b := { b with renumber := true }) rfl hb

theorem exists_indexOf_iff_mentioned :
    (∃ v, g.numbering.indexOf a = .ok v) ↔ a ∈ b.mentioned :=
  exists_indexOf_iff_of_build (b := { b with renumber := true }) rfl hb

end Table

include hb hb'

/-- Every vertex of the graph with a table is a vertex of the graph without, under its own id. -/
theorem exists_renames_identity : ∃ φ, g.Renames id φ g' := by
  refine exists_renames Function.injective_id hb hb' (fun a v ha => ?_) fun x y => ?_
  · exact exists_indexOf_of_mentioned (numbering_of_build hb').1
      ((exists_indexOf_iff_mentioned hb).mp ⟨v, ha⟩)
  · constructor
    · intro h
      exact ⟨x, y, rfl, rfl, h⟩
    · rintro ⟨a, c, rfl, rfl, h⟩
      exact h

/-- Gaps are no vertices of the graph with a table. -/
theorem notMem_range_of_isGap {φ : ℕ → ℕ} (h : g.Renames id φ g') (hgap : b.IsGap a) :
    a ∉ Set.range φ := by
  rintro ⟨v, rfl⟩
  have hlt : φ v < g'.nodeCount := (lt_nodeCount_iff_of_identity hb').mpr (.inr hgap)
  obtain ⟨c, hc⟩ := (build_consistent hb).exists_id ((h.lt_iff v).mp hlt)
  have hsame : c = φ v := (build_consistent hb').id_unique (h.indexOf_eq c v hc)
    (indexOf_eq_self_of_identity hb' hlt)
  exact hgap.1 (hsame ▸ (exists_indexOf_iff_mentioned hb).mp ⟨v, hc⟩)

/-- The graph with a table is not the larger one. -/
theorem nodeCount_le_nodeCount : g.nodeCount ≤ g'.nodeCount := by
  rw [nodeCount_eq_of_table hb, ← Finset.card_range g'.nodeCount]
  refine Finset.card_le_card fun a ha => ?_
  rw [Finset.mem_range, lt_nodeCount_iff_of_identity hb']
  exact .inl (List.mem_toFinset.mp ha)

/-- Without gaps, the two graphs are of one size. -/
theorem nodeCount_eq_of_gapless (hgapless : b.Gapless) : g'.nodeCount = g.nodeCount := by
  have hrange : b.mentioned.toFinset = Finset.range g'.nodeCount := by
    ext a
    rw [List.mem_toFinset, Finset.mem_range, lt_nodeCount_iff_of_identity hb',
      or_iff_left (hgapless a)]
  rw [nodeCount_eq_of_table hb, hrange, Finset.card_range]

section Gaps

variable {options : VertexOptions} {settings : Settings} {host : Host} {table : VertexTable ℚ ℚ}
  (hgap : b.IsGap a)

include hgap

/-- A gap is in no table of scores of the graph that numbers ids by a table. -/
theorem notMem_vertices_of_isGap
    (htable : vertexCentrality ℚ ℚ g options settings host = .ok table) : a ∉ table.vertices := by
  have hsize := (nodeCount_le_nodeCount hb hb').trans (nodeCount_le_of_identity hb')
  intro hmem
  have hindex := (VertexTable.mem_vertices_iff (build_consistent hb) hsize htable).mp hmem
  exact hgap.1 ((exists_indexOf_iff_mentioned hb).mp hindex)

/-- In those of the other graph, its score is zero. -/
theorem scoreOf?_of_isGap (htable : vertexCentrality ℚ ℚ g' options settings host = .ok table) :
    table.scoreOf? a = some 0 := by
  obtain ⟨-, -, sources, -, hsources, -, -⟩ := vertexCentrality_eq_ok_iff.mp htable
  obtain ⟨φ, hφ⟩ := exists_renames_identity hb hb'
  have hlt := (lt_nodeCount_iff_of_identity hb').mpr (.inr hgap)
  refine (VertexTable.scoreOf?_eq_some_iff (build_consistent hb') (nodeCount_le_of_identity hb')
    htable hsources).mpr ⟨a, indexOf_eq_self_of_identity hb' hlt, ?_⟩
  rw [Graph.vertexScore, hφ.vertexSum_eq_zero (notMem_range_of_isGap hb hb' hφ hgap), mul_zero]

end Gaps

end Builder

/-- Sources that are all vertices or listed ids which the builder mentions. -/
def SourceSpec.AmongMentioned (b : Builder) : SourceSpec → Prop
  | all => True
  | sample _ => False
  | list ids => ∀ id ∈ ids, id ∈ b.mentioned

namespace SourceSpec.AmongMentioned

variable {b : Builder} {spec : SourceSpec} (h : spec.AmongMentioned b)

include h

theorem ne_sample (k : ℕ) : spec ≠ .sample k := by
  rintro rfl
  exact h

/-- Such sources are found in both graphs. -/
theorem exists_resolve {limit : ℕ} {g g' : Graph} {φ : ℕ → ℕ}
    (hb : Builder.build { b with renumber := true } = .ok g)
    (hb' : Builder.build { b with renumber := false, memoryLimit := limit } = .ok g')
    (hφ : g.Renames id φ g') (seed : Option ℕ) (host host' : Host) :
    ∃ sources sources', spec.resolve g seed host = .ok sources ∧
      spec.resolve g' seed host' = .ok sources' := by
  have hsize' := Builder.nodeCount_le_of_identity hb'
  have hsize := (Builder.nodeCount_le_nodeCount hb hb').trans hsize'
  obtain ⟨sources, hsources⟩ : ∃ sources, spec.resolve g seed host = .ok sources := by
    cases spec with
    | all => exact ⟨SourceSet.all g, rfl⟩
    | sample k => exact h.elim
    | list ids =>
        exact exists_resolve_list_iff.mpr fun id hid =>
          (Builder.exists_indexOf_iff_mentioned hb).mpr (h id hid)
  obtain ⟨sources', hsources', -⟩ := hφ.exists_resolve hsize hsize' h.ne_sample hsources
  rw [relabel_id] at hsources'
  exact ⟨sources, sources', hsources, hsources' seed host'⟩

end SourceSpec.AmongMentioned

/-- A computation has the same results whichever way the ids of a graph are numbered. All vertices
and ids that are mentioned are found as sources in both graphs, and if neither is too large for the
limits, then every id that is mentioned has the same score in both tables, and so has every edge,
provided that scores are not normalized or there are no gaps. A gap is missing in the one table and
has the score zero in the other. -/
theorem centrality_numberingModes {b : Builder} {limit : ℕ} {g g' : Graph}
    (hb : Builder.build { b with renumber := true } = .ok g)
    (hb' : Builder.build { b with renumber := false, memoryLimit := limit } = .ok g') :
    (∀ (options : VertexOptions) (plan : Plan) (settings settings' : Settings)
      (host host' : Host),
      options.sources.AmongMentioned b → options.plan = .ok plan →
      settings.validate = .ok () → settings'.validate = .ok () →
      ∃ sources sources', options.sources.resolve g options.seed host = .ok sources ∧
        options.sources.resolve g' options.seed host' = .ok sources' ∧
        (plan.strategy.checkMemory g g.nodeCount sources.size settings host = .ok () →
          plan.strategy.checkMemory g' g'.nodeCount sources'.size settings' host' = .ok () →
          ∃ table table' : VertexTable ℚ ℚ,
            vertexCentrality ℚ ℚ g options settings host = .ok table ∧
            vertexCentrality ℚ ℚ g' options settings' host' = .ok table' ∧
            (options.normalized = false ∨ b.Gapless → ∀ a ∈ b.mentioned,
              ∃ x, table.scoreOf? a = some x ∧ table'.scoreOf? a = some x) ∧
            ∀ a, b.IsGap a → a ∉ table.vertices ∧ table'.scoreOf? a = some 0)) ∧
    ∀ (options : EdgeOptions) (plan : Plan) (settings settings' : Settings)
      (host host' : Host),
      options.sources.AmongMentioned b → options.plan = .ok plan →
      settings.validate = .ok () → settings'.validate = .ok () →
      ∃ sources sources', options.sources.resolve g options.seed host = .ok sources ∧
        options.sources.resolve g' options.seed host' = .ok sources' ∧
        (plan.strategy.checkMemory g g.edgeCount sources.size settings host = .ok () →
          plan.strategy.checkMemory g' g'.edgeCount sources'.size settings' host' = .ok () →
          ∃ table table' : EdgeTable ℚ ℚ,
            edgeCentrality ℚ ℚ g options settings host = .ok table ∧
            edgeCentrality ℚ ℚ g' options settings' host' = .ok table' ∧
            (options.normalized = false ∨ b.Gapless → ∀ a c, b.Loads a c →
              ∃ x, table.scoreOf? a c = some x ∧ table'.scoreOf? a c = some x)) := by
  have hg := Builder.build_consistent hb
  have hg' := Builder.build_consistent hb'
  have hsize' := Builder.nodeCount_le_of_identity hb'
  have hsize := (Builder.nodeCount_le_nodeCount hb hb').trans hsize'
  have hkind : g'.kind = g.kind :=
    (Builder.numbering_of_build hb').2.trans (Builder.numbering_of_build hb).2.symm
  obtain ⟨φ, hφ⟩ := Builder.exists_renames_identity hb hb'
  have hn : ∀ normalized : Bool, normalized = false ∨ b.Gapless → normalized = true →
      g'.nodeCount = g.nodeCount := by
    rintro normalized (rfl | hgapless) hnormalized
    · cases hnormalized
    · exact Builder.nodeCount_eq_of_gapless hb hb' hgapless
  constructor
  · intro options plan settings settings' host host' hamong hplan hsettings hsettings'
    obtain ⟨sources, sources', hsources, hsources'⟩ :=
      hamong.exists_resolve hb hb' hφ options.seed host host'
    refine ⟨sources, sources', hsources, hsources', fun hmemory hmemory' => ?_⟩
    obtain ⟨table, htable⟩ : ∃ table : VertexTable ℚ ℚ,
        vertexCentrality ℚ ℚ g options settings host = .ok table :=
      exists_vertexCentrality_iff.mpr ⟨hsettings, plan, hplan, sources, hsources, hmemory⟩
    obtain ⟨table', htable'⟩ : ∃ table' : VertexTable ℚ ℚ,
        vertexCentrality ℚ ℚ g' options settings' host' = .ok table' :=
      exists_vertexCentrality_iff.mpr ⟨hsettings', plan, hplan, sources', hsources', hmemory'⟩
    refine ⟨table, table', htable, htable', fun hraw a ha => ?_, fun a hgap =>
      ⟨Builder.notMem_vertices_of_isGap hb hb' hgap htable,
        Builder.scoreOf?_of_isGap hb hb' hgap htable'⟩⟩
    obtain ⟨x, hx⟩ := (VertexTable.exists_scoreOf?_iff hg hsize htable).mpr
      ((Builder.exists_indexOf_iff_mentioned hb).mpr ha)
    exact ⟨x, hx, hφ.scoreOf?_vertex hg hg' hsize hsize' hkind htable htable' hamong.ne_sample
      (SourceSpec.relabel_id _).symm rfl (hn _ hraw) hx⟩
  · intro options plan settings settings' host host' hamong hplan hsettings hsettings'
    obtain ⟨sources, sources', hsources, hsources'⟩ :=
      hamong.exists_resolve hb hb' hφ options.seed host host'
    refine ⟨sources, sources', hsources, hsources', fun hmemory hmemory' => ?_⟩
    obtain ⟨table, htable⟩ : ∃ table : EdgeTable ℚ ℚ,
        edgeCentrality ℚ ℚ g options settings host = .ok table :=
      exists_edgeCentrality_iff.mpr ⟨hsettings, plan, hplan, sources, hsources, hmemory⟩
    obtain ⟨table', htable'⟩ : ∃ table' : EdgeTable ℚ ℚ,
        edgeCentrality ℚ ℚ g' options settings' host' = .ok table' :=
      exists_edgeCentrality_iff.mpr ⟨hsettings', plan, hplan, sources', hsources', hmemory'⟩
    refine ⟨table, table', htable, htable', fun hraw a c hload => ?_⟩
    obtain ⟨v, w, hv, hw, hlink⟩ := hload.exists_indexOf (b := { b with renumber := true }) hb
    obtain ⟨x, hx⟩ := (EdgeTable.exists_scoreOf?_iff hg htable).mpr ⟨v, w, ⟨hv, hw⟩, hlink⟩
    exact ⟨x, hx, hφ.scoreOf?_edge hg hg' hsize hsize' hkind htable htable' hamong.ne_sample
      (SourceSpec.relabel_id _).symm rfl (hn _ hraw) hx⟩

/-- A path over three of the numbers up to five. -/
def Builder.sparse : Builder where
  kind := .directed
  renumber := false
  rows := #[(5, 2), (2, 0)]

/-- The middle of the path and one of its edges, with a table and without; one is a gap. -/
theorem centrality_numberingModes_sparse : ∃ g g',
    Builder.build { Builder.sparse with renumber := true } = .ok g ∧
    Builder.build { Builder.sparse with renumber := false, memoryLimit := 1 } = .ok g' ∧
    Builder.sparse.IsGap 1 ∧
    (∃ table table' : VertexTable ℚ ℚ,
      vertexCentrality ℚ ℚ g { normalized := false } {} .repeatable = .ok table ∧
      vertexCentrality ℚ ℚ g' { normalized := false } {} .repeatable = .ok table' ∧
      (∃ x, table.scoreOf? 2 = some x ∧ table'.scoreOf? 2 = some x) ∧
      1 ∉ table.vertices ∧ table'.scoreOf? 1 = some 0) ∧
    ∃ table table' : EdgeTable ℚ ℚ,
      edgeCentrality ℚ ℚ g { normalized := false } {} .repeatable = .ok table ∧
      edgeCentrality ℚ ℚ g' { normalized := false } {} .repeatable = .ok table' ∧
      ∃ x, table.scoreOf? 5 2 = some x ∧ table'.scoreOf? 5 2 = some x := by
  obtain ⟨g, hb⟩ := (Builder.exists_build_iff_of_table
    (b := { Builder.sparse with renumber := true }) rfl).mpr
    ⟨by decide, by decide, by decide, by decide⟩
  obtain ⟨g', hb'⟩ := (Builder.exists_build_iff
    (b := { Builder.sparse with renumber := false, memoryLimit := 1 })).mpr
    ⟨.identity 6, rfl, by decide, by decide⟩
  obtain ⟨hvertices, hedges⟩ := centrality_numberingModes hb hb'
  have hnodes : g.nodeCount ≤ 1000 := by
    rw [Builder.nodeCount_eq_of_table hb]
    decide
  have hnodes' : g'.nodeCount ≤ 1000 := by
    have hn : Except.ok (.identity 6) = Except.ok g'.numbering :=
      (Builder.numbering_of_build hb').1
    rw [← (Builder.build_consistent hb').vertexCount_eq, ← Except.ok.inj hn]
    decide
  have hcount : g.edgeCount ≤ 1000 := by
    rw [Builder.edgeCount_eq hb]
    decide
  have hcount' : g'.edgeCount ≤ 1000 := by
    rw [Builder.edgeCount_eq hb']
    decide
  have hgap : Builder.sparse.IsGap 1 := by
    rw [Builder.IsGap]
    decide
  refine ⟨g, g', hb, hb', hgap, ?_, ?_⟩
  · obtain ⟨sources, sources', -, -, hcalls⟩ :=
      hvertices { normalized := false } _ {} {} .repeatable .repeatable trivial rfl rfl rfl
    obtain ⟨table, table', htable, htable', hsame, hgaps⟩ := hcalls
      (Strategy.checkMemory_of_small _ hnodes hcount hnodes)
      (Strategy.checkMemory_of_small _ hnodes' hcount' hnodes')
    exact ⟨table, table', htable, htable', hsame (.inl rfl) 2 (by decide), hgaps 1 hgap⟩
  · obtain ⟨sources, sources', -, -, hcalls⟩ :=
      hedges { normalized := false } _ {} {} .repeatable .repeatable trivial rfl rfl rfl
    obtain ⟨table, table', htable, htable', hsame⟩ := hcalls
      (Strategy.checkMemory_of_small _ hnodes hcount hcount)
      (Strategy.checkMemory_of_small _ hnodes' hcount' hcount')
    exact ⟨table, table', htable, htable', hsame (.inl rfl) 5 2 (.inl (by decide))⟩

end Betweenness
