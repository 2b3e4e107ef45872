import Betweenness.Proofs.Graph.Embedding
import Betweenness.Proofs.Graph.Loading
import Betweenness.Proofs.Lookup

/-!
# The same graph under other names

Two builders may load the same graph in different ways. The graphs that they build differ in the
indices of vertices, the numbers of edges and the order of arcs. If their ids and links correspond
nevertheless (`Graph.Renames`), then whatever is found under an id in a table of the one graph is
found under its new name in a table of the other.

A sample is drawn over indices, so it does not take part in this. All vertices and listed ids do.

## Main results

* `Builder.exists_renames`: where ids and what is loaded between them correspond, so do the vertices
  of the graphs.
* `Graph.Renames.exists_resolve`: so do the sources.
* `Graph.Renames.scoreOf?_vertex`, `Graph.Renames.scoreOf?_edge`: so do the scores that are found.
-/

namespace Betweenness

/-! ### Graphs whose ids correspond -/

/-- A graph is taken into another in such a way that an id `a` of the one is the id `f a` of the
other. -/
structure Graph.Renames (g : Graph) (f φ : ℕ → ℕ) (g' : Graph) : Prop extends
    g.Embeds φ g' where
  /-- The new name of an id belongs to the renamed vertex. -/
  indexOf_eq : ∀ id v, g.numbering.indexOf id = .ok v → g'.numbering.indexOf (f id) = .ok (φ v)

section Correspondence

variable {b b' : Builder} {g g' : Graph} {f : ℕ → ℕ}

/-- If the new names of ids are ids, and what is loaded between ids is loaded between their new
names and nothing else is, then the vertices of the two graphs correspond. -/
theorem Builder.exists_renames (hf : Function.Injective f) (hb : b.build = .ok g)
    (hb' : b'.build = .ok g')
    (hids : ∀ id v, g.numbering.indexOf id = .ok v → ∃ v', g'.numbering.indexOf (f id) = .ok v')
    (hloads : ∀ x y, b'.Loads x y ↔ ∃ a c, f a = x ∧ f c = y ∧ b.Loads a c) :
    ∃ φ, g.Renames f φ g' := by
  have hg := Builder.build_consistent hb
  have hg' := Builder.build_consistent hb'
  have htarget : ∀ v < g.nodeCount, ∃ v', ∀ id, g.numbering.indexOf id = .ok v →
      g'.numbering.indexOf (f id) = .ok v' := by
    intro v hv
    obtain ⟨id, hid⟩ := hg.exists_id hv
    obtain ⟨v', hv'⟩ := hids id v hid
    refine ⟨v', fun a ha => ?_⟩
    rwa [hg.id_unique ha hid]
  choose! ψ hψ using htarget
  -- Numbers that are no vertices of the one graph become numbers that are none of the other.
  let φ : ℕ → ℕ := fun v => if v < g.nodeCount then ψ v else g'.nodeCount + v
  have hindex : ∀ id v, g.numbering.indexOf id = .ok v →
      g'.numbering.indexOf (f id) = .ok (φ v) := by
    intro id v hid
    have hv := hg.lt_of_indexOf hid
    simp only [φ, if_pos hv]
    exact hψ v hv id hid
  have hlt : ∀ v, φ v < g'.nodeCount ↔ v < g.nodeCount := by
    intro v
    constructor
    · intro h
      by_contra hv
      simp only [φ, if_neg hv] at h
      omega
    · intro hv
      obtain ⟨id, hid⟩ := hg.exists_id hv
      exact hg'.lt_of_indexOf (hindex id v hid)
  refine ⟨φ, ⟨?injective, hlt, ?linked⟩, hindex⟩
  case injective =>
    intro v w heq
    have hboth : v < g.nodeCount ↔ w < g.nodeCount := by rw [← hlt v, ← hlt w, heq]
    by_cases hv : v < g.nodeCount
    · obtain ⟨a, ha⟩ := hg.exists_id hv
      obtain ⟨c, hc⟩ := hg.exists_id (hboth.mp hv)
      have hsame : f a = f c := hg'.id_unique (hindex a v ha) (heq ▸ hindex c w hc)
      obtain rfl := hf hsame
      exact Except.ok.inj (ha.symm.trans hc)
    · simp only [φ, if_neg hv, if_neg fun hw => hv (hboth.mpr hw)] at heq
      omega
  case linked =>
    intro x y
    constructor
    · intro h
      obtain ⟨x', y', hx, hy, hload⟩ := Builder.exists_loads hb' h
      obtain ⟨a, c, rfl, rfl, hloaded⟩ := (hloads x' y').mp hload
      obtain ⟨v, w, hv, hw, hlink⟩ := hloaded.exists_indexOf hb
      exact ⟨v, w, Except.ok.inj ((hindex a v hv).symm.trans hx),
        Except.ok.inj ((hindex c w hw).symm.trans hy), hlink⟩
    · rintro ⟨v, w, rfl, rfl, h⟩
      obtain ⟨a, c, ha, hc, hload⟩ := Builder.exists_loads hb h
      exact (Builder.linked_iff hb' (hindex a v ha) (hindex c w hc)).mpr
        ((hloads _ _).mpr ⟨a, c, rfl, rfl, hload⟩)

end Correspondence

/-! ### Sources -/

/-- Listed sources under their new names. -/
def SourceSpec.relabel (f : ℕ → ℕ) : SourceSpec → SourceSpec
  | all => all
  | sample count => sample count
  | list ids => list (ids.map f)

@[simp] theorem SourceSpec.relabel_id (spec : SourceSpec) : spec.relabel id = spec := by
  cases spec with
  | all => rfl
  | sample k => rfl
  | list ids => exact congrArg list (List.map_id ids)

/-- New names change nothing about what is planned. -/
theorem VertexOptions.plan_relabel (f : ℕ → ℕ) (options : VertexOptions) :
    plan { options with sources := options.sources.relabel f } = options.plan := by
  have hsubset : (options.sources.relabel f).isSubset = options.sources.isSubset := by
    cases options.sources <;> rfl
  simp only [plan, Strategy.checkSources, hsubset]

/-- Listed ids are found as sources if all of them have an index. -/
theorem SourceSpec.exists_resolve_list_iff {g : Graph} {ids : List ℕ} {seed : Option ℕ}
    {host : Host} : (∃ sources, (list ids).resolve g seed host = .ok sources) ↔
      ∀ id ∈ ids, ∃ v, g.numbering.indexOf id = .ok v := by
  rw [← Numbering.exists_translate_iff]
  constructor
  · rintro ⟨sources, h⟩
    obtain ⟨indices, hindices, -⟩ := map_eq_ok_iff.mp h
    exact ⟨indices, hindices⟩
  · rintro ⟨indices, hindices⟩
    exact ⟨⟨indices, true⟩, map_eq_ok_iff.mpr ⟨indices, hindices, rfl⟩⟩

namespace Graph.Renames

variable {g g' : Graph} {f φ : ℕ → ℕ} (h : g.Renames f φ g')

include h

/-- The sources of the one graph are carried over to the other, whatever the seeds and hosts. -/
theorem exists_resolve {spec : SourceSpec} {seed : Option ℕ} {host : Host} {sources : SourceSet}
    (hsize : g.nodeCount ≤ maxIndex) (hsize' : g'.nodeCount ≤ maxIndex)
    (hspec : ∀ k, spec ≠ .sample k) (hsources : spec.resolve g seed host = .ok sources) :
    ∃ sources', (∀ seed' host', (spec.relabel f).resolve g' seed' host' = .ok sources') ∧
      Graph.CarriesSources φ sources.indices sources'.indices ∧
      sources'.sampled = sources.sampled ∧
      (g'.nodeCount = g.nodeCount → sources'.size = sources.size) := by
  cases spec with
  | all =>
      cases hsources
      refine ⟨SourceSet.all g', fun _ _ => rfl, ?_, rfl, fun hn => ?_⟩
      · rw [SourceSet.indices_all hsize, SourceSet.indices_all hsize']
        exact h.carriesSources_range
      · simp only [SourceSet.size, SourceSet.indices_all hsize, SourceSet.indices_all hsize', hn]
  | sample k => exact absurd rfl (hspec k)
  | list ids =>
      obtain ⟨indices, hindices, rfl⟩ := map_eq_ok_iff.mp hsources
      have htranslate : g'.numbering.translate (ids.map f) = .ok (indices.map φ) := by
        refine mapM_eq_ok_iff.mpr (List.forall₂_map_left_iff.mpr
          (List.forall₂_map_right_iff.mpr ((mapM_eq_ok_iff.mp hindices).imp ?_)))
        exact fun id v hv => h.indexOf_eq id v hv
      have hlength : (indices.map φ).length = indices.length := List.length_map φ
      refine ⟨⟨indices.map φ, true⟩, fun _ _ => map_eq_ok_iff.mpr ⟨_, htranslate, rfl⟩,
        ⟨[], ?_, ?_⟩, ?_, fun _ => hlength⟩
      · rw [List.append_nil]
      · intro s hs
        cases hs
      · exact congrArg some hlength

/-! ### Scores -/

section Scores

variable {normalized : Bool} {sources sources' : SourceSet} (hkind : g'.kind = g.kind)
  (hn : normalized = true → g'.nodeCount = g.nodeCount)
  (hsources : Graph.CarriesSources φ sources.indices sources'.indices)
  (hsampled : sources'.sampled = sources.sampled)

include hkind hn hsources hsampled

theorem vertexScore_eq (v : ℕ) :
    g'.vertexScore normalized sources' (φ v) = g.vertexScore normalized sources v := by
  rw [vertexScore, vertexScore, h.vertexSum_eq hsources, hkind, hsampled]
  cases normalized with
  | false => simp [vertexFactor]
  | true => rw [hn rfl]

theorem edgeScore_eq {e e' v w : ℕ} (he : g.Joins e v w) (he' : g'.Joins e' (φ v) (φ w)) :
    g'.edgeScore normalized sources' e' = g.edgeScore normalized sources e := by
  rw [edgeScore, edgeScore, h.edgeSum_eq hkind hsources he he', hkind, hsampled]
  cases normalized with
  | false => simp [edgeFactor]
  | true => rw [hn rfl]

end Scores

variable {settings settings' : Settings} {host host' : Host} {x : ℚ} (hg : g.Consistent)
  (hg' : g'.Consistent) (hsize : g.nodeCount ≤ maxIndex) (hsize' : g'.nodeCount ≤ maxIndex)
  (hkind : g'.kind = g.kind)

include hg hg' hsize hsize' hkind

/-- What is found for an id in a table of the one graph is found for its new name in a table of the
other. -/
theorem scoreOf?_vertex {options options' : VertexOptions} {table table' : VertexTable ℚ ℚ} {id : ℕ}
    (htable : vertexCentrality ℚ ℚ g options settings host = .ok table)
    (htable' : vertexCentrality ℚ ℚ g' options' settings' host' = .ok table')
    (hspec : ∀ k, options.sources ≠ .sample k)
    (hrelabel : options'.sources = options.sources.relabel f)
    (hnormalized : options'.normalized = options.normalized)
    (hn : options.normalized = true → g'.nodeCount = g.nodeCount)
    (hx : table.scoreOf? id = some x) : table'.scoreOf? (f id) = some x := by
  obtain ⟨-, -, sources, -, hsources, -, -⟩ := vertexCentrality_eq_ok_iff.mp htable
  obtain ⟨sources', hsources', hcarries, hsampled, -⟩ :=
    h.exists_resolve hsize hsize' hspec hsources
  obtain ⟨v, hv, rfl⟩ := (VertexTable.scoreOf?_eq_some_iff hg hsize htable hsources).mp hx
  have hresolve : options'.sources.resolve g' options'.seed host' = .ok sources' :=
    hrelabel ▸ hsources' options'.seed host'
  refine (VertexTable.scoreOf?_eq_some_iff hg' hsize' htable' hresolve).mpr
    ⟨φ v, h.indexOf_eq id v hv, ?_⟩
  rw [hnormalized, h.vertexScore_eq hkind hn hcarries hsampled]

/-- What is found for two ids in a table of the one graph is found for their new names in a table
of the other. -/
theorem scoreOf?_edge {options options' : EdgeOptions} {table table' : EdgeTable ℚ ℚ} {a c : ℕ}
    (htable : edgeCentrality ℚ ℚ g options settings host = .ok table)
    (htable' : edgeCentrality ℚ ℚ g' options' settings' host' = .ok table')
    (hspec : ∀ k, options.sources ≠ .sample k)
    (hrelabel : options'.sources = options.sources.relabel f)
    (hnormalized : options'.normalized = options.normalized)
    (hn : options.normalized = true → g'.nodeCount = g.nodeCount)
    (hx : table.scoreOf? a c = some x) : table'.scoreOf? (f a) (f c) = some x := by
  obtain ⟨-, -, sources, -, hsources, -, -⟩ := edgeCentrality_eq_ok_iff.mp htable
  obtain ⟨sources', hsources', hcarries, hsampled, -⟩ :=
    h.exists_resolve hsize hsize' hspec hsources
  obtain ⟨e, v, w, ⟨hv, hw⟩, he, rfl⟩ :=
    (EdgeTable.scoreOf?_eq_some_iff hg htable hsources).mp hx
  obtain ⟨e', he'⟩ := h.linked_map_iff.mpr ⟨e, he⟩
  have hresolve : options'.sources.resolve g' options'.seed host' = .ok sources' :=
    hrelabel ▸ hsources' options'.seed host'
  refine (EdgeTable.scoreOf?_eq_some_iff hg' htable' hresolve).mpr
    ⟨e', φ v, φ w, ⟨h.indexOf_eq a v hv, h.indexOf_eq c w hw⟩, he', ?_⟩
  rw [hnormalized, h.edgeScore_eq hkind hn hcarries hsampled he he']

end Graph.Renames

end Betweenness
