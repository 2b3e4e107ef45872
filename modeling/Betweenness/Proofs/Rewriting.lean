import Betweenness.Proofs.Renaming

/-!
# One graph written down in two ways

`b.Rewrites f b'` says that two builders with tables of ids mention the same vertices and rows, up
to names and order: ids are replaced by way of `f`, declared vertices and rows come in any order,
and rows of a graph without direction may be turned round. The first mention of an id gives it its
index and the first of several equal rows gives an edge its number, so the two graphs have little in
common but their links. That is enough for the scores.

## Main results

* `Builder.Rewrites.exists_build_iff`: the two builds succeed together.
* `Builder.Rewrites.exists_renames`: their graphs correspond.
* `centrality_rewrites`: so do computations, and what is found in their tables.
-/

namespace Betweenness

/-! ### Builders -/

/-- A row is rewritten if its ends are renamed and, where edges have no direction, perhaps
exchanged. -/
def Kind.RewritesRow (kind : Kind) (f : ℕ → ℕ) (row row' : ℕ × ℕ) : Prop :=
  row' = (f row.1, f row.2) ∨ kind = .undirected ∧ row' = (f row.2, f row.1)

/-- Two builders with tables of ids are given the same graph under other names and in another
order. -/
structure Builder.Rewrites (f : ℕ → ℕ) (b b' : Builder) : Prop where
  renumber : b.renumber = true
  renumber' : b'.renumber = true
  kind_eq : b'.kind = b.kind
  memoryLimit_eq : b'.memoryLimit = b.memoryLimit
  vertices_perm : b'.vertices.toList.Perm (b.vertices.toList.map f)
  rows_perm : ∃ rows, List.Forall₂ (b.kind.RewritesRow f) b.rows.toList rows ∧
    b'.rows.toList.Perm rows

namespace Builder.Rewrites

variable {f : ℕ → ℕ} {b b' : Builder} {g g' : Graph} {x y id : ℕ} {row : ℕ × ℕ}
  (h : b.Rewrites f b')

include h

theorem exists_row_of_mem (hrow : row ∈ b'.rows.toList) :
    ∃ a c, (a, c) ∈ b.rows.toList ∧ b.kind.RewritesRow f (a, c) row := by
  obtain ⟨rows, hrows, hperm⟩ := h.rows_perm
  obtain ⟨⟨a, c⟩, hmem, hrewrites⟩ := exists_of_mem_of_forall₂ hrows (hperm.mem_iff.mp hrow)
  exact ⟨a, c, hmem, hrewrites⟩

theorem exists_mem_of_row (hrow : row ∈ b.rows.toList) :
    ∃ row' ∈ b'.rows.toList, b.kind.RewritesRow f row row' := by
  obtain ⟨rows, hrows, hperm⟩ := h.rows_perm
  obtain ⟨row', hmem, hrewrites⟩ := exists_of_mem_of_forall₂ hrows.flip hrow
  exact ⟨row', hperm.mem_iff.mpr hmem, hrewrites⟩

/-- What leads from one end to the other are the rows under their new names. -/
theorem loads_iff : b'.Loads x y ↔ ∃ a c, f a = x ∧ f c = y ∧ b.Loads a c := by
  rw [Loads, h.kind_eq]
  constructor
  · rintro (hrow | ⟨hkind, hrow⟩)
    · obtain ⟨a, c, hmem, heq | ⟨hkind, heq⟩⟩ := h.exists_row_of_mem hrow
      · obtain ⟨rfl, rfl⟩ := Prod.mk.inj heq
        exact ⟨a, c, rfl, rfl, .inl hmem⟩
      · obtain ⟨rfl, rfl⟩ := Prod.mk.inj heq
        exact ⟨c, a, rfl, rfl, .inr ⟨hkind, hmem⟩⟩
    · obtain ⟨a, c, hmem, heq | ⟨-, heq⟩⟩ := h.exists_row_of_mem hrow
      · obtain ⟨rfl, rfl⟩ := Prod.mk.inj heq
        exact ⟨c, a, rfl, rfl, .inr ⟨hkind, hmem⟩⟩
      · obtain ⟨rfl, rfl⟩ := Prod.mk.inj heq
        exact ⟨a, c, rfl, rfl, .inl hmem⟩
  · rintro ⟨a, c, rfl, rfl, hmem | ⟨hkind, hmem⟩⟩
    · obtain ⟨row', hrow', rfl | ⟨hkind, rfl⟩⟩ := h.exists_mem_of_row hmem
      · exact .inl hrow'
      · exact .inr ⟨hkind, hrow'⟩
    · obtain ⟨row', hrow', rfl | ⟨-, rfl⟩⟩ := h.exists_mem_of_row hmem
      · exact .inr ⟨hkind, hrow'⟩
      · exact .inl hrow'

/-- The ids at the ends of rows are the renamed ones. -/
theorem mem_rowIds_iff : x ∈ b'.rowIds ↔ ∃ id ∈ b.rowIds, f id = x := by
  simp only [Builder.mem_rowIds_iff]
  constructor
  · rintro ⟨y, hload' | hload'⟩
    · obtain ⟨a, c, rfl, -, hload⟩ := h.loads_iff.mp hload'
      exact ⟨a, ⟨c, .inl hload⟩, rfl⟩
    · obtain ⟨a, c, -, rfl, hload⟩ := h.loads_iff.mp hload'
      exact ⟨c, ⟨a, .inr hload⟩, rfl⟩
  · rintro ⟨id, ⟨y, hload | hload⟩, rfl⟩
    · exact ⟨f y, .inl (h.loads_iff.mpr ⟨id, y, rfl, rfl, hload⟩)⟩
    · exact ⟨f y, .inr (h.loads_iff.mpr ⟨y, id, rfl, rfl, hload⟩)⟩

/-- The ids that are mentioned are the renamed ones. -/
theorem mem_mentioned_iff : x ∈ b'.mentioned ↔ ∃ id ∈ b.mentioned, f id = x := by
  rw [mentioned, List.mem_append, h.vertices_perm.mem_iff, List.mem_map, h.mem_rowIds_iff]
  simp only [mentioned, List.mem_append, or_and_right, exists_or]

theorem card_mentioned (hf : Function.Injective f) :
    b'.mentioned.toFinset.card = b.mentioned.toFinset.card := by
  have himage : b'.mentioned.toFinset = b.mentioned.toFinset.image f := by
    ext x
    simp only [List.mem_toFinset, Finset.mem_image, h.mem_mentioned_iff]
  rw [himage, Finset.card_image_of_injective _ hf]

theorem kind_of_build (hb : b.build = .ok g) (hb' : b'.build = .ok g') : g'.kind = g.kind := by
  rw [(numbering_of_build hb').2, (numbering_of_build hb).2, h.kind_eq]

theorem size_rows : b'.rows.size = b.rows.size := by
  obtain ⟨rows, hrows, hperm⟩ := h.rows_perm
  rw [← Array.length_toList, ← Array.length_toList, hperm.length_eq, hrows.length_eq]

/-! ### Graphs -/

variable (hf : Function.Injective f)

include hf

/-- The two builds succeed together. -/
theorem exists_build_iff : (∃ g', b'.build = .ok g') ↔ ∃ g, b.build = .ok g := by
  rw [exists_build_iff_of_table h.renumber', exists_build_iff_of_table h.renumber,
    h.vertices_perm.nodup_iff, List.nodup_map_iff hf, h.card_mentioned hf, h.size_rows, checkMemory,
    checkMemory, h.kind_eq, h.memoryLimit_eq]

variable (hb : b.build = .ok g) (hb' : b'.build = .ok g')

include hb hb'

theorem nodeCount_eq : g'.nodeCount = g.nodeCount := by
  rw [nodeCount_of_build h.renumber' hb', nodeCount_of_build h.renumber hb, h.card_mentioned hf]

/-- An id has an index if its new name has one. -/
theorem exists_indexOf_iff : (∃ v, g'.numbering.indexOf (f id) = .ok v) ↔
    ∃ v, g.numbering.indexOf id = .ok v := by
  rw [exists_indexOf_iff_of_build h.renumber' hb', exists_indexOf_iff_of_build h.renumber hb,
    h.mem_mentioned_iff]
  constructor
  · rintro ⟨a, ha, heq⟩
    rwa [← hf heq]
  · intro hid
    exact ⟨id, hid, rfl⟩

/-- The graphs correspond. -/
theorem exists_renames : ∃ φ, g.Renames f φ g' := by
  refine Builder.exists_renames hf hb hb' (fun id v hid => ?_) fun x y => h.loads_iff
  exact (h.exists_indexOf_iff hf hb hb').mpr ⟨v, hid⟩

/-- The same links are loaded. -/
theorem exists_linked_iff {a c : ℕ} :
    (∃ v w, g'.numbering.Translates (f a, f c) (v, w) ∧ g'.Linked v w) ↔
      ∃ v w, g.numbering.Translates (a, c) (v, w) ∧ g.Linked v w := by
  constructor
  · rintro ⟨v', w', ⟨hv, hw⟩, hlink⟩
    obtain ⟨a', c', ha, hc, hload⟩ := h.loads_iff.mp ((linked_iff hb' hv hw).mp hlink)
    obtain rfl := hf ha
    obtain rfl := hf hc
    obtain ⟨v, w, hv, hw, hlink⟩ := hload.exists_indexOf hb
    exact ⟨v, w, ⟨hv, hw⟩, hlink⟩
  · rintro ⟨v, w, ⟨hv, hw⟩, hlink⟩
    have hload := h.loads_iff.mpr ⟨a, c, rfl, rfl, (linked_iff hb hv hw).mp hlink⟩
    obtain ⟨v', w', hv', hw', hlink'⟩ := hload.exists_indexOf hb'
    exact ⟨v', w', ⟨hv', hw'⟩, hlink'⟩

/-! ### Computations -/

theorem checkMemory_eq (strategy : Strategy) (scoreCount sourceCount : ℕ) (settings : Settings)
    (host : Host) : strategy.checkMemory g' scoreCount sourceCount settings host =
      strategy.checkMemory g scoreCount sourceCount settings host := by
  obtain ⟨φ, hφ⟩ := h.exists_renames hf hb hb'
  have hkind : g'.kind = g.kind := h.kind_of_build hb hb'
  exact strategy.checkMemory_congr hkind (h.nodeCount_eq hf hb hb')
    (hφ.edgeCount_eq (build_consistent hb) (build_consistent hb') hkind)

variable (hsize : g.nodeCount ≤ maxIndex)

include hsize

/-- Sources are found together, and as many of them. -/
theorem exists_resolve_iff {spec : SourceSpec} {seed : Option ℕ} {host : Host}
    (hspec : ∀ k, spec ≠ .sample k) (P : ℕ → Prop) :
    (∃ sources', (spec.relabel f).resolve g' seed host = .ok sources' ∧ P sources'.size) ↔
      ∃ sources, spec.resolve g seed host = .ok sources ∧ P sources.size := by
  obtain ⟨φ, hφ⟩ := h.exists_renames hf hb hb'
  have hn := h.nodeCount_eq hf hb hb'
  have hcarry : ∀ sources, spec.resolve g seed host = .ok sources →
      ∃ sources', (spec.relabel f).resolve g' seed host = .ok sources' ∧
        sources'.size = sources.size := by
    intro sources hsources
    obtain ⟨sources', hsources', -, -, hcount⟩ :=
      hφ.exists_resolve hsize (hn ▸ hsize) hspec hsources
    exact ⟨sources', hsources' seed host, hcount hn⟩
  -- `f` has no inverse to carry sources back by, but an id whose new name is found is found itself.
  have hback : ∀ sources', (spec.relabel f).resolve g' seed host = .ok sources' →
      ∃ sources, spec.resolve g seed host = .ok sources := by
    intro sources' hsources'
    cases spec with
    | all => exact ⟨SourceSet.all g, rfl⟩
    | sample k => exact absurd rfl (hspec k)
    | list ids =>
        have hall := SourceSpec.exists_resolve_list_iff.mp ⟨sources', hsources'⟩
        refine SourceSpec.exists_resolve_list_iff.mpr fun id hid => ?_
        exact (h.exists_indexOf_iff hf hb hb').mp (hall (f id) (List.mem_map_of_mem hid))
  constructor
  · rintro ⟨sources', hsources', hP⟩
    obtain ⟨sources, hsources⟩ := hback sources' hsources'
    obtain ⟨sources'', hsources'', hcount⟩ := hcarry sources hsources
    obtain rfl : sources' = sources'' := Except.ok.inj (hsources'.symm.trans hsources'')
    exact ⟨sources, hsources, hcount ▸ hP⟩
  · rintro ⟨sources, hsources, hP⟩
    obtain ⟨sources', hsources', hcount⟩ := hcarry sources hsources
    exact ⟨sources', hsources', hcount.symm ▸ hP⟩

/-- Vertex scores are computed together. -/
theorem exists_vertexCentrality_iff {options : VertexOptions} {settings : Settings} {host : Host}
    (hspec : ∀ k, options.sources ≠ .sample k) :
    (∃ table : VertexTable ℚ ℚ, vertexCentrality ℚ ℚ g'
        { options with sources := options.sources.relabel f } settings host = .ok table) ↔
      ∃ table : VertexTable ℚ ℚ, vertexCentrality ℚ ℚ g options settings host = .ok table := by
  rw [Betweenness.exists_vertexCentrality_iff, Betweenness.exists_vertexCentrality_iff]
  refine and_congr_right fun _ => exists_congr fun plan => ?_
  rw [VertexOptions.plan_relabel, h.nodeCount_eq hf hb hb']
  simp only [h.checkMemory_eq hf hb hb']
  exact and_congr_right fun _ => h.exists_resolve_iff hf hb hb' hsize hspec
    fun size => plan.strategy.checkMemory g g.nodeCount size settings host = .ok ()

/-- Edge scores are computed together. -/
theorem exists_edgeCentrality_iff {options : EdgeOptions} {settings : Settings} {host : Host}
    (hspec : ∀ k, options.sources ≠ .sample k) :
    (∃ table : EdgeTable ℚ ℚ, edgeCentrality ℚ ℚ g'
        { options with sources := options.sources.relabel f } settings host = .ok table) ↔
      ∃ table : EdgeTable ℚ ℚ, edgeCentrality ℚ ℚ g options settings host = .ok table := by
  obtain ⟨φ, hφ⟩ := h.exists_renames hf hb hb'
  rw [Betweenness.exists_edgeCentrality_iff, Betweenness.exists_edgeCentrality_iff,
    hφ.edgeCount_eq (build_consistent hb) (build_consistent hb') (h.kind_of_build hb hb')]
  refine and_congr_right fun _ => exists_congr fun plan => ?_
  simp only [h.checkMemory_eq hf hb hb']
  exact and_congr_right fun _ => h.exists_resolve_iff hf hb hb' hsize hspec
    fun size => plan.strategy.checkMemory g g.edgeCount size settings host = .ok ()

end Builder.Rewrites

/-- Two results are the same if one has what the other has, and the other has something if the one
does. -/
theorem eq_of_forall_eq_some {α : Type} {o o' : Option α} (h : ∀ x, o = some x → o' = some x)
    (h' : (∃ x, o' = some x) → ∃ x, o = some x) : o' = o := by
  cases o with
  | some x => exact h x rfl
  | none =>
      refine Option.eq_none_iff_forall_ne_some.mpr fun y hy => ?_
      obtain ⟨x, hx⟩ := h' ⟨y, hy⟩
      cases hx

/-- A graph with a table of ids that is written down in another way, with other names for its ids:
the builds succeed together, and so do computations for all vertices or listed ones. What is then
found in the two tables, under an id or the ids of two ends and under their new names, is the same,
even if each is computed on a host of its own. -/
theorem centrality_rewrites {f : ℕ → ℕ} {b b' : Builder} (hf : Function.Injective f)
    (h : b.Rewrites f b') :
    ((∃ g', b'.build = .ok g') ↔ ∃ g, b.build = .ok g) ∧
    ∀ g g', b.build = .ok g → b'.build = .ok g' → g.nodeCount ≤ maxIndex →
      (∀ (options : VertexOptions) (settings : Settings), (∀ k, options.sources ≠ .sample k) →
        (∀ host, (∃ table' : VertexTable ℚ ℚ, vertexCentrality ℚ ℚ g'
            { options with sources := options.sources.relabel f } settings host = .ok table') ↔
          ∃ table : VertexTable ℚ ℚ, vertexCentrality ℚ ℚ g options settings host = .ok table) ∧
        ∀ (host host' : Host) (table table' : VertexTable ℚ ℚ),
          vertexCentrality ℚ ℚ g options settings host = .ok table →
          vertexCentrality ℚ ℚ g' { options with sources := options.sources.relabel f } settings
            host' = .ok table' →
          ∀ id, table'.scoreOf? (f id) = table.scoreOf? id) ∧
      ∀ (options : EdgeOptions) (settings : Settings), (∀ k, options.sources ≠ .sample k) →
        (∀ host, (∃ table' : EdgeTable ℚ ℚ, edgeCentrality ℚ ℚ g'
            { options with sources := options.sources.relabel f } settings host = .ok table') ↔
          ∃ table : EdgeTable ℚ ℚ, edgeCentrality ℚ ℚ g options settings host = .ok table) ∧
        ∀ (host host' : Host) (table table' : EdgeTable ℚ ℚ),
          edgeCentrality ℚ ℚ g options settings host = .ok table →
          edgeCentrality ℚ ℚ g' { options with sources := options.sources.relabel f } settings
            host' = .ok table' →
          ∀ a c, table'.scoreOf? (f a) (f c) = table.scoreOf? a c := by
  refine ⟨h.exists_build_iff hf, fun g g' hb hb' hsize => ?_⟩
  have hg := Builder.build_consistent hb
  have hg' := Builder.build_consistent hb'
  have hkind := h.kind_of_build hb hb'
  have hn := h.nodeCount_eq hf hb hb'
  have hsize' : g'.nodeCount ≤ maxIndex := hn ▸ hsize
  obtain ⟨φ, hφ⟩ := h.exists_renames hf hb hb'
  constructor
  · intro options settings hspec
    refine ⟨fun host => h.exists_vertexCentrality_iff hf hb hb' hsize hspec,
      fun host host' table table' htable htable' id => ?_⟩
    refine eq_of_forall_eq_some (fun x hx => ?_) fun hfound => ?_
    · exact hφ.scoreOf?_vertex hg hg' hsize hsize' hkind htable htable' hspec rfl rfl
        (fun _ => hn) hx
    · rw [VertexTable.exists_scoreOf?_iff hg hsize htable, ← h.exists_indexOf_iff hf hb hb']
      exact (VertexTable.exists_scoreOf?_iff hg' hsize' htable').mp hfound
  · intro options settings hspec
    refine ⟨fun host => h.exists_edgeCentrality_iff hf hb hb' hsize hspec,
      fun host host' table table' htable htable' a c => ?_⟩
    refine eq_of_forall_eq_some (fun x hx => ?_) fun hfound => ?_
    · exact hφ.scoreOf?_edge hg hg' hsize hsize' hkind htable htable' hspec rfl rfl
        (fun _ => hn) hx
    · rw [EdgeTable.exists_scoreOf?_iff hg htable, ← h.exists_linked_iff hf hb hb']
      exact (EdgeTable.exists_scoreOf?_iff hg' htable').mp hfound

/-- A path with a repeated row, and a declared vertex beside it. -/
def Builder.path : Builder where
  kind := .undirected
  renumber := true
  vertices := #[40]
  rows := #[(10, 20), (20, 30), (20, 10)]

/-- The path with other ids and its rows in another order, some of them turned round. -/
def Builder.renamedPath : Builder where
  kind := .undirected
  renumber := true
  vertices := #[140]
  rows := #[(130, 120), (120, 110), (110, 120)]

theorem Builder.rewrites_path : path.Rewrites (· + 100) renamedPath where
  renumber := rfl
  renumber' := rfl
  kind_eq := rfl
  memoryLimit_eq := rfl
  vertices_perm := .refl _
  rows_perm := by
    refine ⟨[(110, 120), (130, 120), (120, 110)], ?_, by decide⟩
    exact .cons (.inl rfl) (.cons (.inr ⟨rfl, rfl⟩) (.cons (.inl rfl) .nil))

/-- What is found in the middle of the path, and on one of its edges. -/
theorem centrality_rewrites_path : Function.Injective (· + 100 : ℕ → ℕ) ∧
    Builder.path.Rewrites (· + 100) Builder.renamedPath ∧
    ∃ g g', Builder.path.build = .ok g ∧ Builder.renamedPath.build = .ok g' ∧
      g.nodeCount ≤ maxIndex ∧
      (∃ table table' : VertexTable ℚ ℚ, vertexCentrality ℚ ℚ g {} {} .repeatable = .ok table ∧
        vertexCentrality ℚ ℚ g' {} {} .repeatable = .ok table' ∧
        ∃ x, table.scoreOf? 20 = some x ∧ table'.scoreOf? 120 = some x) ∧
      ∃ table table' : EdgeTable ℚ ℚ,
        edgeCentrality ℚ ℚ g { sources := .list [30, 10] } {} .repeatable = .ok table ∧
        edgeCentrality ℚ ℚ g' { sources := .list [130, 110] } {} .repeatable = .ok table' ∧
        ∃ x, table.scoreOf? 30 20 = some x ∧ table'.scoreOf? 130 120 = some x := by
  have hf : Function.Injective (· + 100 : ℕ → ℕ) := add_left_injective 100
  have h := Builder.rewrites_path
  obtain ⟨hbuilds, hall⟩ := centrality_rewrites hf h
  obtain ⟨g, hb⟩ := (Builder.exists_build_iff_of_table h.renumber).mpr
    ⟨by decide, by decide, by decide, by decide⟩
  obtain ⟨g', hb'⟩ := hbuilds.mpr ⟨g, hb⟩
  have hg := Builder.build_consistent hb
  have hindex : ∀ id ∈ Builder.path.mentioned, ∃ v, g.numbering.indexOf id = .ok v :=
    fun id => (Builder.exists_indexOf_iff_of_build h.renumber hb).mpr
  have hnodes : g.nodeCount ≤ 1000 := by
    rw [Builder.nodeCount_of_build h.renumber hb]
    decide
  have hedges : g.edgeCount ≤ 1000 := by
    rw [Builder.edgeCount_eq hb]
    decide
  have hsize : g.nodeCount ≤ maxIndex := hnodes.trans (by decide)
  obtain ⟨hvertices, hedgeScores⟩ := hall g g' hb hb' hsize
  refine ⟨hf, h, g, g', hb, hb', hsize, ?_, ?_⟩
  · obtain ⟨htogether, hsame⟩ := hvertices {} {} (by simp)
    obtain ⟨table, htable⟩ : ∃ table : VertexTable ℚ ℚ,
        vertexCentrality ℚ ℚ g {} {} .repeatable = .ok table :=
      exists_vertexCentrality_of_small hnodes hedges rfl rfl
    obtain ⟨table', htable'⟩ := (htogether .repeatable).mpr ⟨table, htable⟩
    obtain ⟨x, hx⟩ := (VertexTable.exists_scoreOf?_iff hg hsize htable).mpr (hindex 20 (by decide))
    exact ⟨table, table', htable, htable', x, hx,
      (hsame _ _ table table' htable htable' 20).trans hx⟩
  · obtain ⟨htogether, hsame⟩ := hedgeScores { sources := .list [30, 10] } {} (by simp)
    obtain ⟨sources, hsources⟩ : ∃ sources,
        (SourceSpec.list [30, 10]).resolve g none .repeatable = .ok sources := by
      refine SourceSpec.exists_resolve_list_iff.mpr fun id hid => hindex id ?_
      rcases List.mem_pair.mp hid with rfl | rfl <;> decide
    obtain ⟨table, htable⟩ : ∃ table : EdgeTable ℚ ℚ,
        edgeCentrality ℚ ℚ g { sources := .list [30, 10] } {} .repeatable = .ok table :=
      exists_edgeCentrality_of_small hnodes hedges rfl hsources
    obtain ⟨table', htable'⟩ := (htogether .repeatable).mpr ⟨table, htable⟩
    have hload : Builder.path.Loads 30 20 := .inr ⟨rfl, by decide⟩
    obtain ⟨v, w, hv, hw, hlink⟩ := hload.exists_indexOf hb
    obtain ⟨x, hx⟩ := (EdgeTable.exists_scoreOf?_iff hg htable).mpr ⟨v, w, ⟨hv, hw⟩, hlink⟩
    exact ⟨table, table', htable, htable', x, hx,
      (hsame _ _ table table' htable htable' 30 20).trans hx⟩

end Betweenness
