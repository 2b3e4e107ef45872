import Betweenness.Proofs.Lookup

/-!
# Normalized scores lie in the unit interval

With all vertices as sources, every ordered pair of vertices adds at most one to a score: the share
of its shortest paths that pass through the vertex or take the edge. There are `(n - 1) (n - 2)`
pairs beside a vertex and `n (n - 1)` pairs in all, and normalized scores are divided by just these
numbers. That every pair is seen from both ends in an undirected graph is undone by the half in the
factor, and graphs too small for any pair, which are not normalized, have scores of zero.

## Main results

* `Graph.vertexSum_range_le`, `Graph.edgeSum_range_le`: raw scores are at most the number of pairs.
* `centrality_mem_unitInterval`: the scores of the tables of a built graph.
-/

namespace Betweenness

/-! ### Raw scores -/

/-- Shares of wholes are not negative. -/
theorem sum_shares_nonneg {ι : Type} (I : Finset ι) (part whole : ι → ℕ) :
    0 ≤ ∑ i ∈ I, (part i : ℚ) / whole i :=
  Finset.sum_nonneg fun _ _ => div_nonneg (Nat.cast_nonneg _) (Nat.cast_nonneg _)

/-- Shares of wholes are at most as many as there are wholes. -/
theorem sum_shares_le_card {ι : Type} {I : Finset ι} {part whole : ι → ℕ}
    (h : ∀ i ∈ I, part i ≤ whole i) : ∑ i ∈ I, (part i : ℚ) / whole i ≤ I.card := by
  have hone : ∀ i ∈ I, (part i : ℚ) / whole i ≤ 1 := fun i hi =>
    div_le_one_of_le₀ (Nat.cast_le.mpr (h i hi)) (Nat.cast_nonneg _)
  simpa using Finset.sum_le_card_nsmul I _ 1 hone

namespace Graph

variable {g : Graph} (hg : g.Consistent)

include hg

/-- The shortest paths through a vertex are some of them all. -/
theorem pathCountThrough_le (s t v : ℕ) : g.pathCountThrough s t v ≤ g.pathCount s t :=
  Set.ncard_le_ncard (Set.sep_subset _ _) (hg.finite_shortestPaths s t)

/-- The shortest paths over an edge are some of them all. -/
theorem pathCountOver_le (s t e : ℕ) : g.pathCountOver s t e ≤ g.pathCount s t :=
  Set.ncard_le_ncard (Set.sep_subset _ _) (hg.finite_shortestPaths s t)

omit hg in
/-- The pairs beside a vertex are ordered pairs of two of the other vertices. -/
theorem card_pairsBeside_le {v : ℕ} (hv : v < g.nodeCount) :
    ((g.pairsBeside v).card : ℚ) ≤ ((g.nodeCount : ℚ) - 1) * (g.nodeCount - 2) := by
  have hsub : g.pairsBeside v ⊆ ((Finset.range g.nodeCount).erase v).offDiag := by
    rintro ⟨s, t⟩ hpair
    simp only [pairsBeside, Finset.mem_filter, Finset.mem_product, Finset.mem_range] at hpair
    obtain ⟨⟨hs, ht⟩, hst, hsv, htv, -⟩ := hpair
    simp [hs, ht, hst, hsv, htv]
  have hcard := Finset.card_le_card hsub
  rw [Finset.offDiag_card, Finset.card_erase_of_mem (Finset.mem_range.mpr hv),
    Finset.card_range] at hcard
  obtain ⟨n, hn⟩ : ∃ n, g.nodeCount = n + 1 := ⟨_, (Nat.succ_pred_eq_of_pos (by omega)).symm⟩
  rw [hn, Nat.add_sub_cancel] at hcard
  have hpairs : ((n * n - n : ℕ) : ℚ) = (n : ℚ) * n - n := by
    rw [Nat.cast_sub (Nat.le_mul_self n), Nat.cast_mul]
  calc ((g.pairsBeside v).card : ℚ) ≤ (n * n - n : ℕ) := Nat.cast_le.mpr hcard
    _ = ((g.nodeCount : ℚ) - 1) * (g.nodeCount - 2) := by
        rw [hpairs, hn]
        push_cast
        ring

omit hg in
theorem vertexSum_range_nonneg (v : ℕ) : 0 ≤ g.vertexSum (List.range g.nodeCount) v := by
  simp only [vertexSum_range, pairShare]
  exact sum_shares_nonneg _ _ _

/-- Every pair beside a vertex adds at most one to its raw score. -/
theorem vertexSum_range_le {v : ℕ} (hv : v < g.nodeCount) :
    g.vertexSum (List.range g.nodeCount) v ≤ ((g.nodeCount : ℚ) - 1) * (g.nodeCount - 2) := by
  simp only [vertexSum_range, pairShare]
  refine le_trans ?_ (card_pairsBeside_le hv)
  exact sum_shares_le_card fun x _ => pathCountThrough_le hg x.1 x.2 v

/-- A vertex has at most the whole of the shortest paths to each of the others. -/
theorem edgeShare_le {s : ℕ} (hs : s < g.nodeCount) (e : ℕ) :
    g.edgeShare s e ≤ (g.nodeCount : ℚ) - 1 := by
  have hsub : g.reached s \ {s} ⊆ (Finset.range g.nodeCount).erase s := by
    intro t ht
    simp only [Finset.mem_sdiff, mem_reached, Finset.mem_singleton] at ht
    simp [ht.1.1, ht.2]
  have hcard := Finset.card_le_card hsub
  rw [Finset.card_erase_of_mem (Finset.mem_range.mpr hs), Finset.card_range] at hcard
  calc g.edgeShare s e ≤ (g.reached s \ {s}).card :=
        sum_shares_le_card fun t _ => pathCountOver_le hg s t e
    _ ≤ (g.nodeCount - 1 : ℕ) := Nat.cast_le.mpr hcard
    _ = (g.nodeCount : ℚ) - 1 := Nat.cast_pred (by omega)

omit hg in
theorem edgeSum_range_nonneg (e : ℕ) : 0 ≤ g.edgeSum (List.range g.nodeCount) e := by
  refine List.sum_nonneg fun x hx => ?_
  obtain ⟨s, -, rfl⟩ := List.mem_map.mp hx
  exact sum_shares_nonneg _ _ _

/-- Every pair of vertices adds at most one to the raw score of an edge. -/
theorem edgeSum_range_le (e : ℕ) :
    g.edgeSum (List.range g.nodeCount) e ≤ (g.nodeCount : ℚ) * (g.nodeCount - 1) := by
  rw [edgeSum, ← List.sum_toFinset _ List.nodup_range, List.toFinset_range]
  refine (Finset.sum_le_card_nsmul _ _ _ fun s hs =>
    edgeShare_le hg (Finset.mem_range.mp hs) e).trans_eq ?_
  rw [Finset.card_range, nsmul_eq_mul]

end Graph

/-! ### The factor for all sources -/

theorem halving_mul_pairWeight (kind : Kind) : halving kind * pairWeight kind = 1 := by
  cases kind with
  | directed => exact mul_one 1
  | undirected => norm_num [halving, pairWeight]

/-- Scores of vertices are divided by the number of pairs beside a vertex. With one or two vertices
there is no such pair, and the factor does not matter. -/
theorem vertexFactor_all (kind : Kind) (n : ℕ) : vertexFactor kind n true 0 =
    if 2 < n then 1 / (((n : ℚ) - 1) * (n - 2)) else halving kind := by
  simp only [vertexFactor, true_and, lt_self_iff_false, if_false, mul_one]
  split
  · rw [mul_div_assoc', halving_mul_pairWeight]
  · exact mul_one _

/-- Scores of edges are divided by the number of pairs. With one vertex there is none, and the
factor does not matter. -/
theorem edgeFactor_all (kind : Kind) (n : ℕ) : edgeFactor kind n true 0 =
    if 1 < n then 1 / ((n : ℚ) * (n - 1)) else halving kind := by
  simp only [edgeFactor, true_and, lt_self_iff_false, if_false, mul_one]
  split
  · rw [mul_div_assoc', halving_mul_pairWeight]
  · exact mul_one _

/-- What is at most the number of pairs is brought into the unit interval by its factor. -/
theorem mul_mem_unitInterval {enough : Prop} [Decidable enough] {pairs half x : ℚ}
    (hpos : enough → 0 < pairs) (hsmall : ¬ enough → pairs = 0) (hx : 0 ≤ x) (hle : x ≤ pairs) :
    (if enough then 1 / pairs else half) * x ∈ Set.Icc (0 : ℚ) 1 := by
  split
  · rename_i h
    rw [one_div_mul_eq_div]
    exact ⟨div_nonneg hx (hpos h).le, div_le_one_of_le₀ hle (hpos h).le⟩
  · rename_i h
    obtain rfl : x = 0 := le_antisymm (hsmall h ▸ hle) hx
    simp

variable {g : Graph}

theorem Graph.vertexScore_mem_unitInterval (hg : g.Consistent) (hsize : g.nodeCount ≤ maxIndex)
    {v : ℕ} (hv : v < g.nodeCount) :
    g.vertexScore true (SourceSet.all g) v ∈ Set.Icc (0 : ℚ) 1 := by
  have hle := g.vertexSum_range_le hg hv
  rw [vertexScore, show (SourceSet.all g).sampled.getD 0 = 0 from rfl, vertexFactor_all,
    SourceSet.indices_all hsize]
  refine mul_mem_unitInterval (fun hn => ?_) (fun hn => ?_) (g.vertexSum_range_nonneg v) hle
  · have htwo : (2 : ℚ) < g.nodeCount := by exact_mod_cast hn
    exact mul_pos (by linarith) (by linarith)
  · obtain hn | hn : g.nodeCount = 1 ∨ g.nodeCount = 2 := by omega
    · simp [hn]
    · simp [hn]

theorem Graph.edgeScore_mem_unitInterval (hg : g.Consistent) (hsize : g.nodeCount ≤ maxIndex)
    (e : ℕ) : g.edgeScore true (SourceSet.all g) e ∈ Set.Icc (0 : ℚ) 1 := by
  have hle := g.edgeSum_range_le hg e
  rw [edgeScore, show (SourceSet.all g).sampled.getD 0 = 0 from rfl, edgeFactor_all,
    SourceSet.indices_all hsize]
  refine mul_mem_unitInterval (fun hn => ?_) (fun hn => ?_) (g.edgeSum_range_nonneg e) hle
  · have hone : (1 : ℚ) < g.nodeCount := by exact_mod_cast hn
    exact mul_pos (by linarith) (by linarith)
  · obtain hn | hn : g.nodeCount = 0 ∨ g.nodeCount = 1 := by omega
    · simp [hn]
    · simp [hn]

/-! ### Tables -/

namespace ScoreColumn

/-- A column of scores by index. -/
theorem toList_eq_map_range {c : ScoreColumn ℚ ℚ} {n : ℕ} {f : ℕ → ℚ}
    (h : ∀ i, c.get? i = if i < n then some (f i) else none) :
    c.toList = (List.range n).map f := by
  refine List.ext_getElem? fun i => ?_
  rw [getElem?_toList, h, List.getElem?_map]
  split
  · rename_i hi
    rw [List.getElem?_range hi, Option.map_some]
  · rename_i hi
    rw [List.getElem?_eq_none (by simpa using hi), Option.map_none]

end ScoreColumn

theorem toList_vertexColumn (hg : g.Consistent) (plan : Plan) (normalized : Bool)
    (sources : SourceSet) : (vertexColumn ℚ ℚ g plan
      ⟨g.kind, .vertices, g.nodeCount, normalized, sources.sampled⟩ sources.indices).toList =
        (List.range g.nodeCount).map (g.vertexScore normalized sources) :=
  ScoreColumn.toList_eq_map_range (get?_vertexColumn hg)

theorem toList_edgeColumn (hg : g.Consistent) (plan : Plan) (normalized : Bool)
    (sources : SourceSet) : (edgeColumn ℚ ℚ g plan
      ⟨g.kind, .edges, g.nodeCount, normalized, sources.sampled⟩ sources.indices).toList =
        (List.range g.edgeCount).map (g.edgeScore normalized sources) :=
  ScoreColumn.toList_eq_map_range (get?_edgeColumn hg)

/-- Whatever is planned, normalized scores of vertices for all sources lie in the unit interval. -/
theorem vertexColumn_mem_unitInterval (hg : g.Consistent) (hsize : g.nodeCount ≤ maxIndex)
    (plan : Plan) :
    ∀ x ∈ (vertexColumn ℚ ℚ g plan ⟨g.kind, .vertices, g.nodeCount, true, none⟩
      (List.range g.nodeCount)).toList, x ∈ Set.Icc (0 : ℚ) 1 := by
  intro x hx
  rw [← SourceSet.indices_all hsize] at hx
  have hcolumn := congrArg (x ∈ ·) (toList_vertexColumn hg plan true (SourceSet.all g))
  obtain ⟨v, hv, rfl⟩ := List.mem_map.mp (hcolumn.mp hx)
  exact Graph.vertexScore_mem_unitInterval hg hsize (List.mem_range.mp hv)

/-- So do those of edges. -/
theorem edgeColumn_mem_unitInterval (hg : g.Consistent) (hsize : g.nodeCount ≤ maxIndex)
    (plan : Plan) :
    ∀ x ∈ (edgeColumn ℚ ℚ g plan ⟨g.kind, .edges, g.nodeCount, true, none⟩
      (List.range g.nodeCount)).toList, x ∈ Set.Icc (0 : ℚ) 1 := by
  intro x hx
  rw [← SourceSet.indices_all hsize] at hx
  have hcolumn := congrArg (x ∈ ·) (toList_edgeColumn hg plan true (SourceSet.all g))
  obtain ⟨e, -, rfl⟩ := List.mem_map.mp (hcolumn.mp hx)
  exact Graph.edgeScore_mem_unitInterval hg hsize e

/-- With all vertices as sources, the normalized scores of every vertex and every edge of a built
graph lie in the unit interval, by either strategy and in both precisions: as they are computed,
whatever memory that takes, and in every table that is returned. -/
theorem centrality_mem_unitInterval {b : Builder} (hb : b.build = .ok g)
    (hsize : g.nodeCount ≤ maxIndex) :
    (∀ plan : Plan, ∀ x ∈ (vertexColumn ℚ ℚ g plan
      ⟨g.kind, .vertices, g.nodeCount, true, none⟩ (List.range g.nodeCount)).toList,
        x ∈ Set.Icc (0 : ℚ) 1) ∧
    (∀ plan : Plan, ∀ x ∈ (edgeColumn ℚ ℚ g plan
      ⟨g.kind, .edges, g.nodeCount, true, none⟩ (List.range g.nodeCount)).toList,
        x ∈ Set.Icc (0 : ℚ) 1) ∧
    (∀ (options : VertexOptions) (settings : Settings) (host : Host) (table : VertexTable ℚ ℚ),
      options.sources = .all → options.normalized = true →
      vertexCentrality ℚ ℚ g options settings host = .ok table →
      table.scores.toList.length = g.nodeCount ∧
        ∀ x ∈ table.scores.toList, x ∈ Set.Icc (0 : ℚ) 1) ∧
    ∀ (options : EdgeOptions) (settings : Settings) (host : Host) (table : EdgeTable ℚ ℚ),
      options.sources = .all → options.normalized = true →
      edgeCentrality ℚ ℚ g options settings host = .ok table →
      table.scores.toList.length = g.edgeCount ∧
        ∀ x ∈ table.scores.toList, x ∈ Set.Icc (0 : ℚ) 1 := by
  have hg := Builder.build_consistent hb
  refine ⟨vertexColumn_mem_unitInterval hg hsize, edgeColumn_mem_unitInterval hg hsize, ?_, ?_⟩
  · intro options settings host table hall hnormalized htable
    obtain ⟨-, plan, sources, -, hsources, -, rfl⟩ := vertexCentrality_eq_ok_iff.mp htable
    rw [hall] at hsources
    obtain rfl : SourceSet.all g = sources := Except.ok.inj hsources
    have hunit := vertexColumn_mem_unitInterval hg hsize plan
    rw [← SourceSet.indices_all hsize] at hunit
    rw [hnormalized]
    refine ⟨?_, hunit⟩
    rw [toList_vertexColumn hg, List.length_map, List.length_range]
  · intro options settings host table hall hnormalized htable
    obtain ⟨-, plan, sources, -, hsources, -, rfl⟩ := edgeCentrality_eq_ok_iff.mp htable
    rw [hall] at hsources
    obtain rfl : SourceSet.all g = sources := Except.ok.inj hsources
    have hunit := edgeColumn_mem_unitInterval hg hsize plan
    rw [← SourceSet.indices_all hsize] at hunit
    rw [hnormalized]
    refine ⟨?_, hunit⟩
    rw [toList_edgeColumn hg, List.length_map, List.length_range]

/-- The normalized scores of the square, level by level, and those of its edges. -/
theorem centrality_mem_unitInterval_square : Builder.square.build = .ok Graph.square ∧
    Graph.square.nodeCount ≤ maxIndex ∧
    (∃ table : VertexTable ℚ ℚ, vertexCentrality ℚ ℚ Graph.square
        { strategy := .levelByLevel, precision := .single } {} = .ok table ∧
      table.scores.toList.length = Graph.square.nodeCount ∧
      ∀ x ∈ table.scores.toList, x ∈ Set.Icc (0 : ℚ) 1) ∧
    ∃ table : EdgeTable ℚ ℚ, edgeCentrality ℚ ℚ Graph.square {} {} = .ok table ∧
      table.scores.toList.length = Graph.square.edgeCount ∧
      ∀ x ∈ table.scores.toList, x ∈ Set.Icc (0 : ℚ) 1 := by
  have hnodes : Graph.square.nodeCount ≤ 1000 := by simp
  have hcount : Graph.square.edgeCount ≤ 1000 := by simp
  obtain ⟨-, -, hvertices, hedges⟩ :=
    centrality_mem_unitInterval Builder.build_square Graph.nodeCount_square_le
  obtain ⟨vertices, hvertex⟩ : ∃ table : VertexTable ℚ ℚ, vertexCentrality ℚ ℚ Graph.square
      { strategy := .levelByLevel, precision := .single } {} = .ok table :=
    exists_vertexCentrality_of_small hnodes hcount rfl rfl
  obtain ⟨edges, hedge⟩ : ∃ table : EdgeTable ℚ ℚ,
      edgeCentrality ℚ ℚ Graph.square {} {} = .ok table :=
    exists_edgeCentrality_of_small hnodes hcount rfl rfl
  exact ⟨Builder.build_square, Graph.nodeCount_square_le,
    ⟨vertices, hvertex, hvertices _ {} _ vertices rfl rfl hvertex⟩, edges, hedge,
    hedges _ {} _ edges rfl rfl hedge⟩

end Betweenness
