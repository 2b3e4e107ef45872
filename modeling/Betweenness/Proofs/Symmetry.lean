import Betweenness.Proofs.Graph.Embedding
import Betweenness.Proofs.Graph.Loading
import Betweenness.Proofs.Lookup

/-!
# Edges in both directions

A graph without direction can be turned into one with direction: every row is loaded in both
directions (`Builder.symmetrized`). The reversed rows mention no new ids, so vertices keep their
indices, and they are linked as before. What changes is how scores are counted. Without direction
every pair of vertices is seen from both ends and one edge collects what two edges do with
direction, so raw scores are halved and the number of pairs, by which normalized scores are divided,
is half as large.

## Main results

* `Builder.numbering_symmetrized`, `Builder.embeds_symmetrized`: vertices and links stay.
* `edgeSum_symmetrized`: an edge without direction collects what two edges with direction do.
* `vertexFactor_undirected`, `edgeFactor_undirected`: how the factors differ.
* `centrality_symmetrized`: what is found in the tables of the two graphs.
-/

namespace Betweenness

/-! ### The graphs -/

namespace Builder

/-- The builder of a graph with direction that loads every row in both. -/
def symmetrized (b : Builder) : Builder :=
  { b with
    kind := .directed
    rows := (b.rows.toList ++ b.rows.toList.map Prod.swap).toArray }

variable {b : Builder} {limit a c : ℕ} {g g' : Graph}

theorem rowIds_symmetrized : b.symmetrized.rowIds =
    b.rowIds ++ (b.rows.toList.map Prod.swap).flatMap fun row => [row.1, row.2] :=
  List.flatMap_append

theorem loads_symmetrized (hkind : b.kind = .undirected) :
    b.symmetrized.Loads a c ↔ b.Loads a c := by
  rw [Loads, Loads, hkind]
  simp [symmetrized]

/-- The reversed rows mention no new ids. -/
theorem mem_rowIds_symmetrized (hkind : b.kind = .undirected) :
    a ∈ b.symmetrized.rowIds ↔ a ∈ b.rowIds := by
  simp only [mem_rowIds_iff, loads_symmetrized hkind]

theorem mem_mentioned_symmetrized (hkind : b.kind = .undirected) :
    a ∈ b.symmetrized.mentioned ↔ a ∈ b.mentioned := by
  rw [mentioned, mentioned, List.mem_append, List.mem_append, mem_rowIds_symmetrized hkind]
  rfl

/-- Ids keep their numbers. -/
theorem idTable_symmetrized {t : IdTable} (hkind : b.kind = .undirected) (h : b.idTable = .ok t) :
    b.symmetrized.idTable = .ok t := by
  have hsound := (ids_of_idTable h).1
  obtain ⟨declared, hdeclared, hall⟩ := bind_eq_ok_iff.mp h
  refine bind_eq_ok_iff.mpr ⟨declared, hdeclared, ?_⟩
  have hregistered : ∀ id ∈ (b.rows.toList.map Prod.swap).flatMap fun row => [row.1, row.2],
      id ∈ t.ids.toList := by
    intro id hid
    have hmem : id ∈ b.symmetrized.rowIds := by
      rw [rowIds_symmetrized]
      exact List.mem_append_right _ hid
    rw [mem_ids_of_idTable h]
    exact List.mem_append_right _ ((mem_rowIds_symmetrized hkind).mp hmem)
  rw [rowIds_symmetrized, IdTable.insertAll_append, hall]
  exact IdTable.insertAll_of_registered hsound hregistered

theorem numbering_symmetrized {n n' : Numbering} (hkind : b.kind = .undirected)
    (h : b.numbering = .ok n) (h' : b.symmetrized.numbering = .ok n') : n' = n := by
  cases hmode : b.renumber with
  | true =>
      have hmode' : b.symmetrized.renumber = true := hmode
      rw [numbering, if_pos hmode] at h
      rw [numbering, if_pos hmode'] at h'
      obtain ⟨t, ht, rfl⟩ := map_eq_ok_iff.mp h
      obtain ⟨t', ht', rfl⟩ := map_eq_ok_iff.mp h'
      rw [idTable_symmetrized hkind ht] at ht'
      rw [Except.ok.inj ht']
  | false =>
      have hmode' : b.symmetrized.renumber = false := hmode
      rw [numbering, if_neg (by simp [hmode])] at h
      rw [numbering, if_neg (by simp [hmode'])] at h'
      obtain ⟨count, hcount, rfl⟩ := map_eq_ok_iff.mp h
      obtain ⟨count', hcount', rfl⟩ := map_eq_ok_iff.mp h'
      have hsame : ∀ id, id < count' ↔ id < count := fun id => by
        simp only [lt_identityCount_iff hcount, lt_identityCount_iff hcount',
          mem_mentioned_symmetrized hkind]
      have hle := (hsame count).mp.mt (Nat.lt_irrefl count)
      have hle' := (hsame count').mpr.mt (Nat.lt_irrefl count')
      rw [Nat.le_antisymm (Nat.le_of_not_lt hle) (Nat.le_of_not_lt hle')]

section Build

variable (hkind : b.kind = .undirected) (hb : b.build = .ok g)
  (hb' : Builder.build { b.symmetrized with memoryLimit := limit } = .ok g')

include hkind hb hb'

theorem numbering_build_symmetrized : g'.numbering = g.numbering :=
  numbering_symmetrized hkind (numbering_of_build hb).1 (numbering_of_build hb').1

theorem nodeCount_symmetrized : g'.nodeCount = g.nodeCount := by
  rw [← (build_consistent hb').vertexCount_eq, numbering_build_symmetrized hkind hb hb',
    (build_consistent hb).vertexCount_eq]

/-- The same vertices are linked. -/
theorem embeds_symmetrized : g.Embeds id g' where
  injective := Function.injective_id
  lt_iff v := by rw [id, nodeCount_symmetrized hkind hb hb']
  linked_iff x y := by
    have hnumbering := numbering_build_symmetrized hkind hb hb'
    constructor
    · intro h
      obtain ⟨a, c, ha, hc, hload⟩ := exists_loads hb' h
      rw [hnumbering] at ha hc
      exact ⟨x, y, rfl, rfl, (linked_iff hb ha hc).mpr ((loads_symmetrized hkind).mp hload)⟩
    · rintro ⟨v, w, rfl, rfl, h⟩
      obtain ⟨a, c, ha, hc, hload⟩ := exists_loads hb h
      rw [← hnumbering] at ha hc
      exact (linked_iff hb' ha hc).mpr ((loads_symmetrized hkind).mpr hload)

end Build

end Builder

/-- Sources depend on the numbering of a graph only, and samples on the stream besides. -/
theorem SourceSpec.resolve_congr {g g' : Graph} {spec : SourceSpec} {seed : Option ℕ}
    {host host' : Host} (hnumbering : g'.numbering = g.numbering)
    (hn : g'.nodeCount = g.nodeCount)
    (hstream : ∀ k, spec = .sample k → host'.stream seed = host.stream seed) :
    spec.resolve g' seed host' = spec.resolve g seed host := by
  cases spec with
  | all => simp only [resolve, resolveWith, SourceSet.all, Graph.indexCount, hn]
  | sample k => simp only [resolve, resolveWith, hn, hstream k rfl]
  | list ids => simp only [resolve, resolveWith, hnumbering]

/-! ### Scores -/

section Scores

variable {g g' : Graph} {sources : List ℕ} {v w e e₁ e₂ : ℕ} (h : g.Embeds id g')

include h

theorem vertexSum_symmetrized : g'.vertexSum sources v = g.vertexSum sources v := by
  have hcarries : Graph.CarriesSources id sources sources := by
    refine ⟨[], ?_, fun s hs => ?_⟩
    · rw [List.map_id, List.append_nil]
    · cases hs
  exact h.vertexSum_eq hcarries v

/-- An edge without direction collects what two edges with direction do. -/
theorem edgeSum_symmetrized (hkind : g.kind = .undirected) (hkind' : g'.kind = .directed)
    (he : g.Joins e v w) (he₁ : g'.Joins e₁ v w) (he₂ : g'.Joins e₂ w v) :
    g.edgeSum sources e = g'.edgeSum sources e₁ + g'.edgeSum sources e₂ := by
  have hdirected : ∀ {e' v' w'}, g'.Joins e' v' w' → ∀ s,
      g'.edgeShare s e' = g.stepShare s v' w' := by
    intro e' v' w' he' s
    rw [Graph.edgeShare_eq_linkShare he', Graph.linkShare, hkind', if_neg (by decide), add_zero]
    exact h.stepShare_eq
  simp only [Graph.edgeSum]
  rw [← List.sum_map_add]
  refine congrArg List.sum (List.map_congr_left fun s _ => ?_)
  rw [Graph.edgeShare_eq_linkShare he, Graph.linkShare, if_pos hkind, hdirected he₁, hdirected he₂]

end Scores

/-- What is divided by half as many pairs is not halved, and the rest is. -/
theorem halving_mul_pairs {P : Prop} [Decidable P] (pairs enlarged : ℚ) :
    halving .undirected * (if P then pairWeight .undirected / pairs else 1) * enlarged =
      halving .directed * (if P then pairWeight .directed / pairs else 1) * enlarged *
        if P then 1 else 1 / 2 := by
  have hhalf : halving .undirected = 1 / 2 := rfl
  have hwhole : halving .directed = 1 := rfl
  have htwo : pairWeight .undirected = 2 := rfl
  have hone : pairWeight .directed = 1 := rfl
  rw [hhalf, hwhole, htwo, hone]
  split <;> ring

/-- Vertex scores without direction are halved, unless they are divided by half as many pairs. -/
theorem vertexFactor_undirected (n : ℕ) (normalized : Bool) (chosen : ℕ) :
    vertexFactor .undirected n normalized chosen =
      vertexFactor .directed n normalized chosen * if normalized ∧ 2 < n then 1 else 1 / 2 :=
  halving_mul_pairs _ _

/-- Edge scores without direction are halved, unless they are divided by half as many pairs. -/
theorem edgeFactor_undirected (n : ℕ) (normalized : Bool) (chosen : ℕ) :
    edgeFactor .undirected n normalized chosen =
      edgeFactor .directed n normalized chosen * if normalized ∧ 1 < n then 1 else 1 / 2 :=
  halving_mul_pairs _ _

section ScaledScores

variable {g g' : Graph} {sources : SourceSet} {normalized : Bool} {v w e e₁ e₂ : ℕ}
  (h : g.Embeds id g') (hkind : g.kind = .undirected) (hkind' : g'.kind = .directed)
  (hn : g'.nodeCount = g.nodeCount)

include h hkind hkind' hn

theorem vertexScore_symmetrized : g.vertexScore normalized sources v =
    g'.vertexScore normalized sources v * if normalized ∧ 2 < g.nodeCount then 1 else 1 / 2 := by
  rw [Graph.vertexScore, Graph.vertexScore, hkind, hkind', hn, vertexSum_symmetrized h,
    vertexFactor_undirected, mul_right_comm]

theorem edgeScore_symmetrized (he : g.Joins e v w) (he₁ : g'.Joins e₁ v w)
    (he₂ : g'.Joins e₂ w v) : g.edgeScore normalized sources e =
      (g'.edgeScore normalized sources e₁ + g'.edgeScore normalized sources e₂) *
        if normalized ∧ 1 < g.nodeCount then 1 else 1 / 2 := by
  rw [Graph.edgeScore, Graph.edgeScore, Graph.edgeScore, ← mul_add,
    ← edgeSum_symmetrized h hkind hkind' he he₁ he₂, hkind, hkind', hn, edgeFactor_undirected,
    mul_right_comm]

end ScaledScores

/-- A graph without direction has the scores of the graph with direction that has its edges in both
directions, whatever the sources, the strategy, the precision and the limits: the score of a vertex
is half as large, or as large if scores are normalized and there are pairs beside a vertex, and the
score of an edge is half the sum of the scores of the edges in both directions, or their sum if
scores are normalized. A sample has to be the same for both graphs, so it is drawn from one stream,
as it is with a seed on any two hosts. -/
theorem centrality_symmetrized {b : Builder} {limit : ℕ} {g g' : Graph}
    (hkind : b.kind = .undirected) (hb : b.build = .ok g) (hsize : g.nodeCount ≤ maxIndex)
    (hb' : Builder.build { b.symmetrized with memoryLimit := limit } = .ok g') :
    (∀ (options : VertexOptions) (settings settings' : Settings) (host host' : Host)
        (table table' : VertexTable ℚ ℚ),
      (∀ k, options.sources = .sample k →
        host'.stream options.seed = host.stream options.seed) →
      vertexCentrality ℚ ℚ g options settings host = .ok table →
      vertexCentrality ℚ ℚ g' options settings' host' = .ok table' →
      ∀ id ∈ g.vertexIds, ∃ x y, table.scoreOf? id = some x ∧ table'.scoreOf? id = some y ∧
        (options.normalized = false → x = y / 2) ∧
        (options.normalized = true → 2 < g.nodeCount → x = y)) ∧
    ∀ (options : EdgeOptions) (settings settings' : Settings) (host host' : Host)
        (table table' : EdgeTable ℚ ℚ),
      (∀ k, options.sources = .sample k →
        host'.stream options.seed = host.stream options.seed) →
      edgeCentrality ℚ ℚ g options settings host = .ok table →
      edgeCentrality ℚ ℚ g' options settings' host' = .ok table' →
      ∀ a c, b.Loads a c → a ≠ c → ∃ x y z, table.scoreOf? a c = some x ∧
        table'.scoreOf? a c = some y ∧ table'.scoreOf? c a = some z ∧
        (options.normalized = false → x = (y + z) / 2) ∧
        (options.normalized = true → x = y + z) := by
  have hg := Builder.build_consistent hb
  have hg' := Builder.build_consistent hb'
  have hembeds := Builder.embeds_symmetrized hkind hb hb'
  have hn := Builder.nodeCount_symmetrized hkind hb hb'
  have hsize' : g'.nodeCount ≤ maxIndex := hn ▸ hsize
  have hnumbering := Builder.numbering_build_symmetrized hkind hb hb'
  have hkindU : g.kind = .undirected := (Builder.numbering_of_build hb).2.trans hkind
  have hkindD : g'.kind = .directed := (Builder.numbering_of_build hb').2
  constructor
  · intro options settings settings' host host' table table' hstream htable htable' id hid
    obtain ⟨-, -, sources, -, hsources, -, -⟩ := vertexCentrality_eq_ok_iff.mp htable
    have hsources' : options.sources.resolve g' options.seed host' = .ok sources :=
      (SourceSpec.resolve_congr hnumbering hn hstream).trans hsources
    obtain ⟨v, hv⟩ := List.mem_iff_getElem?.mp hid
    rw [Graph.getElem?_vertexIds_iff hg hsize] at hv
    refine ⟨_, _, (VertexTable.scoreOf?_eq_some_iff hg hsize htable hsources).mpr ⟨v, hv, rfl⟩,
      (VertexTable.scoreOf?_eq_some_iff hg' hsize' htable' hsources').mpr
        ⟨v, hnumbering ▸ hv, rfl⟩, ?_⟩
    rw [vertexScore_symmetrized hembeds hkindU hkindD hn]
    constructor
    · intro hnormalized
      rw [if_neg (by simp [hnormalized]), mul_one_div]
    · intro hnormalized hpairs
      rw [if_pos ⟨hnormalized, hpairs⟩, mul_one]
  · intro options settings settings' host host' table table' hstream htable htable' a c hload hne
    obtain ⟨-, -, sources, -, hsources, -, -⟩ := edgeCentrality_eq_ok_iff.mp htable
    have hsources' : options.sources.resolve g' options.seed host' = .ok sources :=
      (SourceSpec.resolve_congr hnumbering hn hstream).trans hsources
    obtain ⟨v, w, hv, hw, e, he⟩ := hload.exists_indexOf hb
    obtain ⟨e₁, he₁⟩ := hembeds.linked_map_iff.mpr ⟨e, he⟩
    obtain ⟨e₂, he₂⟩ := hembeds.linked_map_iff.mpr ⟨e, he.symm hkindU⟩
    have hv' : g'.numbering.indexOf a = .ok v := hnumbering ▸ hv
    have hw' : g'.numbering.indexOf c = .ok w := hnumbering ▸ hw
    -- The ends are two vertices, so there is a pair to divide by.
    have hpairs : 1 < g.nodeCount := by
      obtain ⟨hlt, hlt'⟩ := hg.lt_of_linked ⟨e, he⟩
      have hvw : v ≠ w := fun heq => hne (hg.id_unique hv (heq ▸ hw))
      omega
    refine ⟨_, _, _,
      (EdgeTable.scoreOf?_eq_some_iff hg htable hsources).mpr ⟨e, v, w, ⟨hv, hw⟩, he, rfl⟩,
      (EdgeTable.scoreOf?_eq_some_iff hg' htable' hsources').mpr
        ⟨e₁, v, w, ⟨hv', hw'⟩, he₁, rfl⟩,
      (EdgeTable.scoreOf?_eq_some_iff hg' htable' hsources').mpr
        ⟨e₂, w, v, ⟨hw', hv'⟩, he₂, rfl⟩, ?_⟩
    rw [edgeScore_symmetrized hembeds hkindU hkindD hn he he₁ he₂]
    constructor
    · intro hnormalized
      rw [if_neg (by simp [hnormalized]), mul_one_div]
    · intro hnormalized
      rw [if_pos ⟨hnormalized, hpairs⟩, mul_one]

/-- A corner of the square, and one of its sides for two sources. -/
theorem centrality_symmetrized_square : Builder.square.kind = .undirected ∧
    Builder.square.build = .ok Graph.square ∧ Graph.square.nodeCount ≤ maxIndex ∧
    ∃ g', Builder.build { Builder.square.symmetrized with memoryLimit := 1 } = .ok g' ∧
      (∃ table table' : VertexTable ℚ ℚ,
        vertexCentrality ℚ ℚ Graph.square {} {} .repeatable = .ok table ∧
        vertexCentrality ℚ ℚ g' {} {} .repeatable = .ok table' ∧
        ∃ x, table.scoreOf? 2 = some x ∧ table'.scoreOf? 2 = some x) ∧
      ∃ table table' : EdgeTable ℚ ℚ,
        edgeCentrality ℚ ℚ Graph.square { sources := .list [3, 1], normalized := false } {}
          .repeatable = .ok table ∧
        edgeCentrality ℚ ℚ g' { sources := .list [3, 1], normalized := false } {} .repeatable =
          .ok table' ∧
        ∃ y z, table.scoreOf? 0 1 = some ((y + z) / 2) ∧ table'.scoreOf? 0 1 = some y ∧
          table'.scoreOf? 1 0 = some z := by
  have hkind : Builder.square.kind = .undirected := rfl
  have hb := Builder.build_square
  obtain ⟨g', hb'⟩ := (Builder.exists_build_iff
    (b := { Builder.square.symmetrized with memoryLimit := 1 })).mpr
    ⟨.identity 5, rfl, by decide, by decide⟩
  obtain ⟨hvertices, hedges⟩ := centrality_symmetrized hkind hb Graph.nodeCount_square_le hb'
  have hn := Builder.nodeCount_symmetrized hkind hb hb'
  have hnumbering := Builder.numbering_build_symmetrized hkind hb hb'
  have hnodes : Graph.square.nodeCount ≤ 1000 := by simp
  have hcount : Graph.square.edgeCount ≤ 1000 := by simp
  have hcount' : g'.edgeCount ≤ 1000 := by
    rw [Builder.edgeCount_eq hb']
    decide
  refine ⟨hkind, hb, Graph.nodeCount_square_le, g', hb', ?_, ?_⟩
  · obtain ⟨table, htable⟩ : ∃ table : VertexTable ℚ ℚ,
        vertexCentrality ℚ ℚ Graph.square {} {} .repeatable = .ok table :=
      exists_vertexCentrality_of_small hnodes hcount rfl rfl
    obtain ⟨table', htable'⟩ : ∃ table' : VertexTable ℚ ℚ,
        vertexCentrality ℚ ℚ g' {} {} .repeatable = .ok table' :=
      exists_vertexCentrality_of_small (hn ▸ hnodes) hcount' rfl rfl
    obtain ⟨x, y, hx, hy, -, hsame⟩ :=
      hvertices _ _ _ _ _ table table' (fun _ _ => rfl) htable htable' 2 (by
        rw [Graph.square_eq]
        decide)
    have hxy : x = y := hsame rfl (by simp)
    exact ⟨table, table', htable, htable', x, hx, hxy ▸ hy⟩
  · have hsources : (SourceSpec.list [3, 1]).resolve Graph.square none .repeatable =
        .ok ⟨[3, 1], true⟩ := rfl
    have hsources' : (SourceSpec.list [3, 1]).resolve g' none .repeatable = .ok ⟨[3, 1], true⟩ :=
      (SourceSpec.resolve_congr hnumbering hn fun _ _ => rfl).trans hsources
    obtain ⟨table, htable⟩ : ∃ table : EdgeTable ℚ ℚ, edgeCentrality ℚ ℚ Graph.square
        { sources := .list [3, 1], normalized := false } {} .repeatable = .ok table :=
      exists_edgeCentrality_of_small hnodes hcount rfl hsources
    obtain ⟨table', htable'⟩ : ∃ table' : EdgeTable ℚ ℚ, edgeCentrality ℚ ℚ g'
        { sources := .list [3, 1], normalized := false } {} .repeatable = .ok table' :=
      exists_edgeCentrality_of_small (hn ▸ hnodes) hcount' rfl hsources'
    obtain ⟨x, y, z, hx, hy, hz, hhalf, -⟩ :=
      hedges _ _ _ _ _ table table' (fun _ _ => rfl) htable htable' 0 1 (.inl (by decide))
        (by decide)
    exact ⟨table, table', htable, htable', y, z, hhalf rfl ▸ hx, hy, hz⟩

end Betweenness
