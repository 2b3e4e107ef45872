import Betweenness.Proofs.Centrality
import Betweenness.Proofs.Sampling
import Mathlib.Data.List.Perm.Basic

/-!
# Every vertex chosen

Sources can be all vertices because nothing was chosen, or because the choice happens to come to all
of them: a sample may be as large as the graph, and a list may have every id. In exact arithmetic
the scores are the same. The chosen indices are an arrangement of all of them, which does not matter
to sums over sources; and the number of vertices for each source, by which normalized estimates are
enlarged, is one.

## Main results

* `SourceSpec.ChoosesAll.perm_range`: whatever the stream, such a choice has every index once.
* `Scaling.factor_choosesAll`: the factor of estimates from all vertices is that of exact scores.
* `centrality_choosesAll`: so tables are the same, for vertices and for edges.
-/

namespace Betweenness

/-! ### The sources -/

/-- The choices of sources that come to every vertex of a graph once: as large a sample as there
are vertices, and a list of their ids in any order. -/
inductive SourceSpec.ChoosesAll (g : Graph) : SourceSpec → Prop where
  | sample : ChoosesAll g (.sample g.nodeCount)
  | list {ids : List ℕ} (hperm : ids.Perm g.vertexIds) : ChoosesAll g (.list ids)

/-- Lists of ids that are rearrangements of each other have indices that are. -/
theorem Numbering.perm_of_translate {n : Numbering} {ids ids' indices indices' : List ℕ}
    (hperm : ids.Perm ids') (h : n.translate ids = .ok indices)
    (h' : n.translate ids' = .ok indices') : indices.Perm indices' := by
  have hunique : Relator.RightUnique fun id index => n.indexOf id = .ok index := by
    intro id index index' hindex hindex'
    exact Except.ok.inj (hindex.symm.trans hindex')
  exact List.rel_perm_imp hunique (mapM_eq_ok_iff.mp h) (mapM_eq_ok_iff.mp h') hperm

namespace SourceSpec.ChoosesAll

variable {g : Graph} {spec : SourceSpec} {seed : Option ℕ} {host : Host} {sources : SourceSet}

theorem isSubset (h : spec.ChoosesAll g) : spec.isSubset = true := by
  cases h with
  | sample => rfl
  | list hperm => rfl

/-- Whatever the seed and the host, every index is a source once. -/
theorem perm_range (h : spec.ChoosesAll g) (hg : g.Consistent) (hsize : g.nodeCount ≤ maxIndex)
    (hsources : spec.resolve g seed host = .ok sources) :
    sources.indices.Perm (List.range g.nodeCount) := by
  cases h with
  | sample =>
      obtain ⟨indices, hindices, rfl⟩ := map_eq_ok_iff.mp hsources
      exact (isSample_of_sampleIndices (Nat.le_succ_of_le hsize) hindices).perm_range
  | list hperm =>
      obtain ⟨indices, hindices, rfl⟩ := map_eq_ok_iff.mp hsources
      exact Numbering.perm_of_translate hperm hindices (Graph.translate_vertexIds hg hsize)

/-- Scores are scaled as those of a choice that is as large as the graph. -/
theorem sampled_eq (h : spec.ChoosesAll g) (hg : g.Consistent) (hsize : g.nodeCount ≤ maxIndex)
    (hsources : spec.resolve g seed host = .ok sources) : sources.sampled = some g.nodeCount := by
  have hlength : sources.size = g.nodeCount :=
    (h.perm_range hg hsize hsources).length_eq.trans List.length_range
  have hsubset : sources.isSubset = true := (isSubset_of_resolve hsources).trans h.isSubset
  rw [SourceSet.sampled, if_pos hsubset, hlength]

end SourceSpec.ChoosesAll

/-! ### Raw scores and their factor -/

section Raw

variable {g : Graph} {sources sources' : List ℕ}

theorem vertexScores_perm (hg : g.Consistent) (hperm : sources.Perm sources') :
    vertexScores ℚ g sources = vertexScores ℚ g sources' := by
  rw [vertexScores_eq hg, vertexScores_eq hg]
  exact Array.map_congr_left fun v _ => (hperm.map _).sum_eq

theorem edgeScores_perm (hg : g.Consistent) (hperm : sources.Perm sources') :
    edgeScores ℚ g sources = edgeScores ℚ g sources' := by
  rw [edgeScores_eq hg, edgeScores_eq hg]
  exact Array.map_congr_left fun e _ => (hperm.map _).sum_eq

end Raw

namespace Scaling

variable {kind : Kind} {scored : Scored} {n : ℕ} {normalized : Bool}

/-- As many sources as vertices enlarge no factor. -/
theorem perSource_choosesAll {x : ℚ} : perSource ⟨kind, scored, n, normalized, some n⟩ x = x := by
  rw [perSource_rat, Option.getD_some]
  split
  · rename_i hn
    have hne : (n : ℚ) ≠ 0 := Nat.cast_ne_zero.mpr hn.ne'
    rw [div_self hne, mul_one]
  · exact mul_one x

/-- The factor of estimates from all vertices is that of exact scores. -/
theorem factor_choosesAll : factor ℚ ⟨kind, scored, n, normalized, some n⟩ =
    factor ℚ ⟨kind, scored, n, normalized, none⟩ := by
  cases normalized with
  | false => rfl
  | true => exact perSource_choosesAll

theorem apply_choosesAll (scores : Array ℚ) :
    apply ⟨kind, scored, n, normalized, some n⟩ scores =
      apply ⟨kind, scored, n, normalized, none⟩ scores := by
  rw [apply_eq, apply_eq, factor_choosesAll]

end Scaling

/-! ### Columns of scores -/

section Columns

variable {β : Type} [Storage ℚ β] {g : Graph} {spec : SourceSpec} {seed : Option ℕ}
  {host : Host} {sources : SourceSet} {plan : Plan} {normalized : Bool}

theorem vertexColumn_choosesAll [Scalar β] (hg : g.Consistent) (hsize : g.nodeCount ≤ maxIndex)
    (hspec : spec.ChoosesAll g) (hsources : spec.resolve g seed host = .ok sources)
    (hplan : plan.strategy = .sourceBySource) :
    vertexColumn ℚ β g plan ⟨g.kind, .vertices, g.nodeCount, normalized, sources.sampled⟩
        sources.indices =
      vertexColumn ℚ β g plan ⟨g.kind, .vertices, g.nodeCount, normalized, none⟩
        (List.range g.nodeCount) := by
  simp only [vertexColumn, hplan]
  rw [hspec.sampled_eq hg hsize hsources, Scaling.apply_choosesAll,
    vertexScores_perm hg (hspec.perm_range hg hsize hsources)]

theorem edgeColumn_choosesAll (hg : g.Consistent) (hsize : g.nodeCount ≤ maxIndex)
    (hspec : spec.ChoosesAll g) (hsources : spec.resolve g seed host = .ok sources) :
    edgeColumn ℚ β g plan ⟨g.kind, .edges, g.nodeCount, normalized, sources.sampled⟩
        sources.indices =
      edgeColumn ℚ β g plan ⟨g.kind, .edges, g.nodeCount, normalized, none⟩
        (List.range g.nodeCount) := by
  rw [edgeColumn, edgeColumn, hspec.sampled_eq hg hsize hsources, Scaling.apply_choosesAll,
    edgeScores_perm hg (hspec.perm_range hg hsize hsources)]

end Columns

/-- Sources that are a choice are only taken source by source. -/
theorem VertexOptions.strategy_of_plan {options : VertexOptions} {plan : Plan}
    (h : options.plan = .ok plan) (hsubset : options.sources.isSubset = true) :
    plan.strategy = .sourceBySource := by
  obtain rfl := plan_eq h
  obtain ⟨-, -, h⟩ := bind_eq_ok_iff.mp h
  obtain ⟨⟨⟩, hcheck, -⟩ := bind_eq_ok_iff.mp h
  cases hstrategy : options.strategy with
  | sourceBySource => cases options.precision <;> rfl
  | levelByLevel =>
      rw [hstrategy, Strategy.checkSources, if_pos hsubset] at hcheck
      cases hcheck

/-! ### Tables -/

/-- A choice of sources that comes to every vertex of a built graph makes the same tables as all
vertices do, row by row: for every seed and, without a seed, whatever words the host has for it;
with and without normalization, whatever the precision and the limits. -/
theorem centrality_choosesAll {β : Type} [Scalar β] [Storage ℚ β] {b : Builder} {g : Graph}
    {spec : SourceSpec} (hb : b.build = .ok g) (hsize : g.nodeCount ≤ maxIndex)
    (hspec : spec.ChoosesAll g) :
    (∀ (options : VertexOptions) (seed : Option ℕ) (settings settings' : Settings)
      (host host' : Host) (all chosen : VertexTable ℚ β),
      vertexCentrality ℚ β g { options with sources := .all } settings host = .ok all →
      vertexCentrality ℚ β g { options with sources := spec, seed } settings' host' = .ok chosen →
      chosen = all) ∧
    ∀ (options : EdgeOptions) (seed : Option ℕ) (settings settings' : Settings)
      (host host' : Host) (all chosen : EdgeTable ℚ β),
      edgeCentrality ℚ β g { options with sources := .all } settings host = .ok all →
      edgeCentrality ℚ β g { options with sources := spec, seed } settings' host' = .ok chosen →
      chosen = all := by
  have hg := Builder.build_consistent hb
  constructor
  · intro options seed settings settings' host host' all chosen hall hchosen
    obtain ⟨-, plan, sources, hplan, hsources, -, rfl⟩ := vertexCentrality_eq_ok_iff.mp hall
    obtain ⟨-, plan', sources', hplan', hsources', -, rfl⟩ :=
      vertexCentrality_eq_ok_iff.mp hchosen
    have hstrategy := VertexOptions.strategy_of_plan hplan' hspec.isSubset
    obtain rfl : plan = plan' :=
      (VertexOptions.plan_eq hplan).trans (VertexOptions.plan_eq hplan').symm
    cases hsources
    rw [SourceSet.indices_all hsize]
    exact congrArg (VertexTable.mk g.vertexIds)
      (vertexColumn_choosesAll hg hsize hspec hsources' hstrategy)
  · intro options seed settings settings' host host' all chosen hall hchosen
    obtain ⟨-, plan, sources, hplan, hsources, -, rfl⟩ := edgeCentrality_eq_ok_iff.mp hall
    obtain ⟨-, plan', sources', hplan', hsources', -, rfl⟩ := edgeCentrality_eq_ok_iff.mp hchosen
    obtain rfl : plan = plan' :=
      (EdgeOptions.plan_eq hplan).trans (EdgeOptions.plan_eq hplan').symm
    cases hsources
    dsimp only
    rw [edgeColumn_choosesAll hg hsize hspec hsources', SourceSet.indices_all hsize]
    rfl

/-- A sample of the square that has all of its vertices. -/
theorem SourceSpec.resolve_sample_square :
    (sample 5).resolve Graph.square (some 7) = .ok ⟨[3, 1, 2, 4, 0], true⟩ := by
  have hstream : Host.repeatable.stream (some 7) = Sampling.ChaCha.ofSeed 7 := rfl
  rw [resolve, resolveWith, Graph.nodeCount_square, hstream, sampleIndices_five]
  rfl

/-- A list of all vertices of the square. -/
theorem SourceSpec.resolve_list_square :
    (list [3, 1, 4, 0, 2]).resolve Graph.square none = .ok ⟨[3, 1, 4, 0, 2], true⟩ := by
  have hnumbering : Graph.square.numbering = .identity 5 := rfl
  rw [resolve, resolveWith, hnumbering]
  rfl

/-- A sample of the square that has all of its vertices, and a list of them. -/
theorem centrality_choosesAll_square : Builder.square.build = .ok Graph.square ∧
    Graph.square.nodeCount ≤ maxIndex ∧
    (SourceSpec.sample 5).ChoosesAll Graph.square ∧
    (SourceSpec.sample 5).resolve Graph.square (some 7) = .ok ⟨[3, 1, 2, 4, 0], true⟩ ∧
    (∃ table : VertexTable ℚ ℚ, vertexCentrality ℚ ℚ Graph.square {} {} = .ok table ∧
      vertexCentrality ℚ ℚ Graph.square { sources := .sample 5, seed := some 7 } {} =
        .ok table) ∧
    (SourceSpec.list [3, 1, 4, 0, 2]).ChoosesAll Graph.square ∧
    ∃ table : EdgeTable ℚ ℚ, edgeCentrality ℚ ℚ Graph.square {} {} = .ok table ∧
      edgeCentrality ℚ ℚ Graph.square { sources := .list [3, 1, 4, 0, 2] } {} = .ok table := by
  have hsize := Graph.nodeCount_square_le
  have hsample : (SourceSpec.sample 5).ChoosesAll Graph.square := by
    rw [← Graph.nodeCount_square]
    exact .sample
  have hlist : (SourceSpec.list [3, 1, 4, 0, 2]).ChoosesAll Graph.square := by
    refine .list ?_
    rw [Graph.square_eq]
    decide
  have hmemory : ∀ strategy : Strategy,
      strategy.checkMemory Graph.square 5 5 {} = .ok () := by
    intro strategy
    have h := strategy.checkMemory_square
    rwa [SourceSet.size, SourceSet.indices_all hsize, List.length_range,
      Graph.nodeCount_square] at h
  obtain ⟨table, htable⟩ := exists_vertexCentrality_square {} rfl rfl
  obtain ⟨sampled, hsampled⟩ : ∃ sampled : VertexTable ℚ ℚ, vertexCentrality ℚ ℚ Graph.square
      { sources := .sample 5, seed := some 7 } {} = .ok sampled := by
    refine ⟨_, vertexCentrality_eq_ok_iff.mpr
      ⟨rfl, _, _, rfl, SourceSpec.resolve_sample_square, ?_, rfl⟩⟩
    rw [Graph.nodeCount_square]
    exact hmemory _
  obtain ⟨edges, hedges⟩ : ∃ edges : EdgeTable ℚ ℚ,
      edgeCentrality ℚ ℚ Graph.square {} {} = .ok edges := by
    refine ⟨_, edgeCentrality_eq_ok_iff.mpr ⟨rfl, _, _, rfl, rfl, ?_, rfl⟩⟩
    rw [Graph.edgeCount_square]
    exact Strategy.checkMemory_square _
  obtain ⟨listed, hlisted⟩ : ∃ listed : EdgeTable ℚ ℚ, edgeCentrality ℚ ℚ Graph.square
      { sources := .list [3, 1, 4, 0, 2] } {} = .ok listed := by
    refine ⟨_, edgeCentrality_eq_ok_iff.mpr
      ⟨rfl, _, _, rfl, SourceSpec.resolve_list_square, ?_, rfl⟩⟩
    rw [Graph.edgeCount_square]
    exact hmemory _
  obtain rfl : sampled = table := (centrality_choosesAll Builder.build_square hsize hsample).1
    {} (some 7) {} {} _ _ table sampled htable hsampled
  obtain rfl : listed = edges := (centrality_choosesAll Builder.build_square hsize hlist).2
    {} none {} {} _ _ edges listed hedges hlisted
  exact ⟨Builder.build_square, hsize, hsample, SourceSpec.resolve_sample_square,
    ⟨sampled, htable, hsampled⟩, hlist, listed, hedges, hlisted⟩

end Betweenness
