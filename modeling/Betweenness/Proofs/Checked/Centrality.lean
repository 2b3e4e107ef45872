import Betweenness.Proofs.Checked.Dependency
import Betweenness.Proofs.ChosenSources
import Betweenness.Proofs.Graph.Loading

/-!
# Requests keep within bounds

Both entry points, written once more with arrays that insist on their bounds and a test on every
path count that is divided by. Where one of these fails there is no answer at all, not even an
error. The answers are those of the entry points themselves: no index is out of range, whatever the
graph that was built, the options, the settings and the arithmetic; and in exact arithmetic no
path count is less than one.

Sources are vertices (`SourceSpec.lt_of_resolveWith`), and the space of one source is used again
for the next. What a worker keeps from source to source is `Checked.Spare`.

## Main results

* `Checked.visit_eq`, `Checked.visitLevels_eq`: the step lemmas, for a source.
* `Checked.scoresOfBlocks_eq`, `Checked.storedVertexScores_eq`: the run lemmas, for all sources.
* `centrality_inBounds`: sources, workers and entry points of a graph that is built.
-/

namespace Betweenness

open ShortestPaths (Completed)

/-! ### Sources are vertices -/

/-- Whatever is chosen, and whatever stream a sample is drawn from, sources are vertices. -/
theorem SourceSpec.lt_of_resolveWith {σ : Type} [Sampling.WordStream σ] {g : Graph}
    {spec : SourceSpec} {stream : σ} {sources : SourceSet} (hg : g.Consistent)
    (hsize : g.nodeCount ≤ maxIndex + 1) (h : (spec.resolveWith g stream).1 = .ok sources) :
    ∀ s ∈ sources.indices, s < g.nodeCount := by
  cases spec with
  | all =>
      cases h
      exact fun s hs => Nat.lt_of_lt_of_le (List.mem_range.mp hs) g.indexCount_le
  | sample k =>
      obtain ⟨indices, hindices, rfl⟩ := map_eq_ok_iff.mp h
      exact (isSample_of_sampleIndices hsize hindices).lt
  | list ids =>
      obtain ⟨indices, hindices, rfl⟩ := map_eq_ok_iff.mp h
      intro s hs
      obtain ⟨id, -, hid⟩ := exists_of_mem_of_forall₂ (mapM_eq_ok_iff.mp hindices) hs
      exact hg.lt_of_indexOf hid

namespace Checked

variable {α β : Type} [Scalar α] {g : Graph} {safe : α → Bool} {n m : ℕ}

/-! ### Sources in turn -/

/-- Path counts pass a test: whatever search is complete can be followed back. -/
def CountsPass (g : Graph) (safe : α → Bool) : Prop :=
  ∀ source levels (paths : ShortestPaths α), source < g.nodeCount →
    Completed g source levels paths → paths.Navigable g safe

/-- Without a test all path counts pass. -/
theorem countsPass_true (hg : g.Consistent) : CountsPass g fun _ : α => true :=
  fun _ _ _ hs h => h.navigable hg hs fun _ _ => rfl

/-- In exact arithmetic path counts are one at least. -/
theorem countsPass_one_le (hg : g.Consistent) : CountsPass g fun count : ℚ => decide (1 ≤ count) :=
  fun _ _ _ hs h => h.navigable_counts hg hs

/-- The space that is kept for the next source: that of earlier searches, with an entry for every
vertex and for every score. -/
structure Spare (n m : ℕ) (paths : ShortestPaths α) (l : Ledger α β) : Prop where
  reusable : paths.Reusable n
  fits : paths.Fits n
  hasSpace : l.HasSpace n m

theorem spare_blank [Scalar β] (n m : ℕ) : Spare n m (.blank α n) (.zero α β n m) where
  reusable := ShortestPaths.reusable_blank n
  fits := ShortestPaths.fits_blank n
  hasSpace := Ledger.hasSpace_zero α β n m

/-- A way to add dependencies keeps within bounds after any search that can be followed back. -/
def KeepsBounds (g : Graph) (safe : α → Bool) (m : ℕ)
    (accumulate? : ShortestPaths α → Ledger α α → Option (Ledger α α))
    (accumulate : Accumulate α) : Prop :=
  ∀ paths l, paths.Navigable g safe → l.HasSpace g.nodeCount m →
    accumulate? paths l = some (accumulate paths l) ∧
      (accumulate paths l).HasSpace g.nodeCount m

theorem keepsBounds_addVertices (g : Graph) (safe : α → Bool) :
    KeepsBounds g safe g.nodeCount (addVertices safe) Ledger.addVertices :=
  fun paths _ hpaths hl => ⟨addVertices_eq hpaths hl, hl.addVertices paths⟩

theorem keepsBounds_addEdges (g : Graph) (safe : α → Bool) :
    KeepsBounds g safe g.edgeCount (addEdges safe) Ledger.addEdges :=
  fun paths _ hpaths hl => ⟨addEdges_eq hpaths hl, hl.addEdges paths⟩

/-- Add the dependencies of one source. -/
def visit (g : Graph) (accumulate? : ShortestPaths α → Ledger α α → Option (Ledger α α))
    (w : Worker α) (source : ℕ) : Option (Worker α) := do
  let paths ← search w.paths g source
  return { paths, ledger := ← accumulate? paths w.ledger }

/-- The scores that one worker sums up over a block of sources. -/
def blockScores (g : Graph) (accumulate? : ShortestPaths α → Ledger α α → Option (Ledger α α))
    (scoreCount : ℕ) (sources : List ℕ) : Option (Array α) := do
  return (← sources.foldlM (visit g accumulate?) (.fresh α g.nodeCount scoreCount)).ledger.scores

/-- The scores summed up over blocks of sources, a worker for each. -/
def scoresOfBlocks (g : Graph) (accumulate? : ShortestPaths α → Ledger α α → Option (Ledger α α))
    (scoreCount : ℕ) (blocks : List (List ℕ)) : Option (Array α) := do
  return (← blocks.mapM (blockScores g accumulate? scoreCount)).foldl merge
    (Array.replicate scoreCount 0)

/-- Search from a source, level by level, and add its dependencies to the scores. -/
def visitLevels [Scalar β] [Storage α β] (safe : α → Bool) (g : Graph)
    (state : ShortestPaths α × Ledger α β) (source : ℕ) :
    Option (ShortestPaths α × Ledger α β) := do
  let paths ← levelSearch state.1 g source
  return (paths, ← addLevels safe g paths state.2)

/-- The scores of the vertices, as they are stored. -/
def storedVertexScores (β : Type) [Scalar β] [Storage α β] (safe : α → Bool) (g : Graph)
    (sources : List ℕ) : Option (Array β) := do
  let blank : ShortestPaths α × Ledger α β :=
    (.blank α g.nodeCount, .zero α β g.nodeCount g.nodeCount)
  return (← sources.foldlM (visitLevels safe g) blank).2.scores

section Runs

variable {accumulate? : ShortestPaths α → Ledger α α → Option (Ledger α α)}
  {accumulate : Accumulate α} {source : ℕ} {sources : List ℕ} (hg : g.Consistent)
  (hcounts : CountsPass g safe)

include hg hcounts

/-- **Step lemma**: a visit to a vertex keeps within bounds, and leaves spare space. -/
theorem visit_eq (haccumulate : KeepsBounds g safe m accumulate? accumulate) {w : Worker α}
    (h : Spare g.nodeCount m w.paths w.ledger) (hs : source < g.nodeCount) :
    visit g accumulate? w source = some (w.visit g accumulate source) ∧
      Spare g.nodeCount m (w.visit g accumulate source).paths
        (w.visit g accumulate source).ledger := by
  obtain ⟨hsearch, hfits⟩ := search_eq hg h.fits source
  obtain ⟨levels, hcompleted⟩ := ShortestPaths.search_completed hg hs h.reusable
  obtain ⟨hadd, hspace⟩ := haccumulate _ _ (hcounts source levels _ hs hcompleted) h.hasSpace
  refine ⟨?_, h.reusable.search g source, hfits, hspace⟩
  rw [visit, hsearch, some_bind, hadd, some_bind]
  rfl

/-- **Run lemma**: so do visits to vertices in turn. -/
theorem blockScores_eq (haccumulate : KeepsBounds g safe m accumulate? accumulate)
    (hsources : ∀ s ∈ sources, s < g.nodeCount) :
    blockScores g accumulate? m sources =
      some (Betweenness.blockScores g accumulate m sources) := by
  obtain ⟨hrun, -⟩ := foldlM_eq_some
    (P := fun w : Worker α => Spare g.nodeCount m w.paths w.ledger)
    (s := Worker.fresh α g.nodeCount m) (spare_blank g.nodeCount m)
    fun w hw s hs => visit_eq hg hcounts haccumulate hw (hsources s hs)
  rw [blockScores, hrun, some_bind]
  rfl

/-- **Run lemma**: and those of several workers. -/
theorem scoresOfBlocks_eq (haccumulate : KeepsBounds g safe m accumulate? accumulate)
    {blocks : List (List ℕ)} (hblocks : ∀ sources ∈ blocks, ∀ s ∈ sources, s < g.nodeCount) :
    scoresOfBlocks g accumulate? m blocks =
      some (Betweenness.scoresOfBlocks g accumulate m blocks) := by
  rw [scoresOfBlocks, mapM_eq_some fun sources hs =>
    blockScores_eq hg hcounts haccumulate (hblocks sources hs), some_bind]
  rfl

variable [Scalar β] [Storage α β]

/-- **Step lemma**: a visit by levels keeps within bounds, and leaves spare space. -/
theorem visitLevels_eq {state : ShortestPaths α × Ledger α β}
    (h : Spare g.nodeCount g.nodeCount state.1 state.2) (hs : source < g.nodeCount) :
    visitLevels safe g state source = some (Betweenness.visitLevels g state source) ∧
      Spare g.nodeCount g.nodeCount (Betweenness.visitLevels g state source).1
        (Betweenness.visitLevels g state source).2 := by
  obtain ⟨hsearch, hfits⟩ := levelSearch_eq hg h.fits source
  obtain ⟨levels, hcompleted⟩ := ShortestPaths.levelSearch_completed hg hs h.reusable
  have hadd := addLevels_eq hg (hcounts source levels _ hs hcompleted) h.hasSpace
  refine ⟨?_, h.reusable.levelSearch g source, hfits, h.hasSpace.addLevels _⟩
  rw [visitLevels, hsearch, some_bind, hadd, some_bind]
  rfl

/-- **Run lemma**: so do visits by levels in turn. -/
theorem storedVertexScores_eq (hsources : ∀ s ∈ sources, s < g.nodeCount) :
    storedVertexScores β safe g sources =
      some (Betweenness.storedVertexScores α β g sources) := by
  obtain ⟨hrun, -⟩ := foldlM_eq_some
    (P := fun x : ShortestPaths α × Ledger α β => Spare g.nodeCount g.nodeCount x.1 x.2)
    (s := (.blank α g.nodeCount, .zero α β g.nodeCount g.nodeCount))
    (spare_blank g.nodeCount g.nodeCount)
    fun x hx s hs => visitLevels_eq hg hcounts hx (hsources s hs)
  rw [storedVertexScores, hrun, some_bind]
  rfl

end Runs

/-! ### Columns and rows -/

/-- The scores of the vertices of a graph, as the plan has it. -/
def vertexColumn (β : Type) [Scalar β] [Storage α β] (safe : α → Bool) (g : Graph) (plan : Plan)
    (scaling : Scaling) (sources : List ℕ) : Option (ScoreColumn α β) := do
  match plan.strategy with
  | .sourceBySource =>
    return .ofScores (scaling.apply (← scoresOfBlocks g (addVertices safe) g.nodeCount [sources]))
      plan.precision
  | .levelByLevel =>
    return .single (scaling.applyStored α (← storedVertexScores β safe g sources))

/-- The scores of the edges of a graph, as the plan has it. -/
def edgeColumn (β : Type) [Storage α β] (safe : α → Bool) (g : Graph) (plan : Plan)
    (scaling : Scaling) (sources : List ℕ) : Option (ScoreColumn α β) := do
  return .ofScores (scaling.apply (← scoresOfBlocks g (addEdges safe) g.edgeCount [sources]))
    plan.precision

/-- The ids of the vertices: every index has to have one. -/
def vertexIds (g : Graph) : Option (List ℕ) := (List.range g.indexCount).mapM g.idOf?

/-- The ids of the ends of every edge: every number has to have ends, and both of them ids. -/
def edgeIds (g : Graph) : Option (List (ℕ × ℕ)) :=
  (List.range g.edgeCount).mapM fun e => do g.endpointIds? (← g.endpoints? e)

section Columns

variable {plan : Plan} {scaling : Scaling} {sources : List ℕ} (hg : g.Consistent)

/-- What there is for every entry of a list is listed. -/
theorem mapM_range_eq_some {γ : Type} [Inhabited γ] {f : ℕ → Option γ} {l : List γ}
    (h : ∀ i < l.length, f i = l[i]?) : (List.range l.length).mapM f = some l := by
  have hlist : (List.range l.length).map (fun i => l.getD i default) = l :=
    List.ext_getElem (by simp) fun i hi hl => by simp [hl]
  rw [mapM_eq_some fun i hi => ?_, hlist]
  have hlt := List.mem_range.mp hi
  rw [h i hlt, List.getD_eq_getElem?_getD, List.getElem?_eq_getElem hlt, Option.getD_some]

include hg

theorem vertexIds_eq : vertexIds g = some g.vertexIds := by
  rw [vertexIds, ← Graph.length_vertexIds_eq_indexCount hg]
  refine mapM_range_eq_some fun v hv => ?_
  rw [Graph.length_vertexIds_eq_indexCount hg] at hv
  exact (Graph.getElem?_vertexIds_of_lt_indexCount hg hv).symm

theorem edgeIds_eq : edgeIds g = some g.edgeIds := by
  rw [edgeIds, ← Graph.length_edgeIds hg]
  exact mapM_range_eq_some fun e _ => (Graph.getElem?_edgeIds hg e).symm

variable (hcounts : CountsPass g safe) (hsources : ∀ s ∈ sources, s < g.nodeCount)

include hcounts hsources

theorem vertexColumn_eq [Scalar β] [Storage α β] :
    vertexColumn β safe g plan scaling sources =
      some (Betweenness.vertexColumn α β g plan scaling sources) := by
  have hblock : ∀ block ∈ [sources], ∀ s ∈ block, s < g.nodeCount := by simpa using hsources
  rw [vertexColumn, Betweenness.vertexColumn]
  cases plan.strategy with
  | sourceBySource =>
      dsimp only
      rw [scoresOfBlocks_eq hg hcounts (keepsBounds_addVertices g safe) hblock, some_bind]
      rfl
  | levelByLevel =>
      dsimp only
      rw [storedVertexScores_eq hg hcounts hsources, some_bind]
      rfl

theorem edgeColumn_eq [Storage α β] : edgeColumn β safe g plan scaling sources =
    some (Betweenness.edgeColumn α β g plan scaling sources) := by
  have hblock : ∀ block ∈ [sources], ∀ s ∈ block, s < g.nodeCount := by simpa using hsources
  rw [edgeColumn, scoresOfBlocks_eq hg hcounts (keepsBounds_addEdges g safe) hblock, some_bind]
  rfl

end Columns

/-! ### Entry points -/

/-- The betweenness centrality of the vertices of a graph. -/
def vertexCentrality (β : Type) [Scalar β] [Storage α β] (safe : α → Bool) (g : Graph)
    (options : VertexOptions) (settings : Settings) (host : Host) :
    ExceptT Error Option (VertexTable α β) := do
  settings.validate
  let plan ← options.plan
  let sources ← options.sources.resolve g options.seed host
  plan.strategy.checkMemory g g.nodeCount sources.size settings host
  let scaling : Scaling :=
    { kind := g.kind
      scored := .vertices
      vertexCount := g.nodeCount
      normalized := options.normalized
      sampled := sources.sampled }
  return {
    vertices := ← vertexIds g
    scores := ← vertexColumn β safe g plan scaling sources.indices }

/-- The betweenness centrality of the edges of a graph. -/
def edgeCentrality (β : Type) [Storage α β] (safe : α → Bool) (g : Graph) (options : EdgeOptions)
    (settings : Settings) (host : Host) : ExceptT Error Option (EdgeTable α β) := do
  settings.validate
  let plan ← options.plan
  let sources ← options.sources.resolve g options.seed host
  plan.strategy.checkMemory g g.edgeCount sources.size settings host
  let scaling : Scaling :=
    { kind := g.kind
      scored := .edges
      vertexCount := g.nodeCount
      normalized := options.normalized
      sampled := sources.sampled }
  let scores ← edgeColumn β safe g plan scaling sources.indices
  let ends ← edgeIds g
  return {
    sources := ends.map Prod.fst
    targets := ends.map Prod.snd
    scores
    directed := g.isDirected }

/-- A check in front of something that has an answer. -/
theorem run_liftM_bind {γ δ : Type} {x : Except Error γ} {f : γ → ExceptT Error Option δ}
    {f' : γ → Except Error δ} (h : ∀ a, x = .ok a → (f a).run = some (f' a)) :
    ((liftM x : ExceptT Error Option γ) >>= f).run = some (x >>= f') := by
  cases x with
  | error e => rfl
  | ok a => exact h a rfl

section Entries

variable (hg : g.Consistent) (hsize : g.nodeCount ≤ maxIndex + 1)
  (hcounts : CountsPass g safe)

include hg hsize hcounts

theorem run_vertexCentrality [Scalar β] [Storage α β] (options : VertexOptions)
    (settings : Settings) (host : Host) : (vertexCentrality β safe g options settings host).run =
      some (Betweenness.vertexCentrality α β g options settings host) := by
  refine run_liftM_bind fun _ _ => run_liftM_bind fun plan _ =>
    run_liftM_bind fun sources hsources => run_liftM_bind fun _ _ => ?_
  have hlt := SourceSpec.lt_of_resolveWith hg hsize hsources
  dsimp only
  rw [vertexIds_eq hg, vertexColumn_eq hg hcounts hlt]
  rfl

theorem run_edgeCentrality [Storage α β] (options : EdgeOptions)
    (settings : Settings) (host : Host) : (edgeCentrality β safe g options settings host).run =
      some (Betweenness.edgeCentrality α β g options settings host) := by
  refine run_liftM_bind fun _ _ => run_liftM_bind fun plan _ =>
    run_liftM_bind fun sources hsources => run_liftM_bind fun _ _ => ?_
  have hlt := SourceSpec.lt_of_resolveWith hg hsize hsources
  dsimp only
  rw [edgeIds_eq hg, edgeColumn_eq hg hcounts hlt]
  rfl

end Entries

/-- Whatever is asked for, nothing is read or written out of range and every number that is divided
by passes a test: by the entry points, and by workers that take any blocks of vertices. -/
structure WithinBounds (α β : Type) [Scalar α] [Scalar β] [Storage α β] (g : Graph)
    (safe : α → Bool) : Prop where
  vertexCentrality_eq_some : ∀ options settings host,
    (vertexCentrality β safe g options settings host).run =
      some (Betweenness.vertexCentrality α β g options settings host)
  edgeCentrality_eq_some : ∀ options settings host,
    (edgeCentrality β safe g options settings host).run =
      some (Betweenness.edgeCentrality α β g options settings host)
  vertexScores_eq_some : ∀ blocks : List (List ℕ),
    (∀ sources ∈ blocks, ∀ s ∈ sources, s < g.nodeCount) →
      scoresOfBlocks g (addVertices safe) g.nodeCount blocks =
        some (Betweenness.scoresOfBlocks g Ledger.addVertices g.nodeCount blocks)
  edgeScores_eq_some : ∀ blocks : List (List ℕ),
    (∀ sources ∈ blocks, ∀ s ∈ sources, s < g.nodeCount) →
      scoresOfBlocks g (addEdges safe) g.edgeCount blocks =
        some (Betweenness.scoresOfBlocks g Ledger.addEdges g.edgeCount blocks)

theorem withinBounds [Scalar β] [Storage α β] (hg : g.Consistent)
    (hsize : g.nodeCount ≤ maxIndex + 1) (hcounts : CountsPass g safe) :
    WithinBounds α β g safe where
  vertexCentrality_eq_some := run_vertexCentrality hg hsize hcounts
  edgeCentrality_eq_some := run_edgeCentrality hg hsize hcounts
  vertexScores_eq_some _ := scoresOfBlocks_eq hg hcounts (keepsBounds_addVertices g safe)
  edgeScores_eq_some _ := scoresOfBlocks_eq hg hcounts (keepsBounds_addEdges g safe)

end Checked

/-- In a graph that is built, sources are vertices, whatever stream a sample is drawn from and
whatever the host has for one. No index is out of range in any arithmetic: not in a search, not on
the way back and not in a table, for all options, settings and hosts, and for every source after any
others. In exact arithmetic every path count that is divided by is one at least besides. -/
theorem centrality_inBounds {b : Builder} {g : Graph} (hb : b.build = .ok g) :
    (∀ (σ : Type) [Sampling.WordStream σ] (spec : SourceSpec) (stream : σ) (sources : SourceSet),
      (spec.resolveWith g stream).1 = .ok sources → ∀ s ∈ sources.indices, s < g.nodeCount) ∧
    (∀ (spec : SourceSpec) (seed : Option ℕ) (host : Host) (sources : SourceSet),
      spec.resolve g seed host = .ok sources → ∀ s ∈ sources.indices, s < g.nodeCount) ∧
    (∀ (α β : Type) [Scalar α] [Scalar β] [Storage α β],
      Checked.WithinBounds α β g fun _ => true) ∧
    ∀ (β : Type) [Scalar β] [Storage ℚ β],
      Checked.WithinBounds ℚ β g fun count => decide (1 ≤ count) := by
  have hg := Builder.build_consistent hb
  have hsize := Builder.nodeCount_le hb
  exact ⟨fun σ _ spec stream sources h => SourceSpec.lt_of_resolveWith hg hsize h,
    fun spec seed host sources h => SourceSpec.lt_of_resolveWith hg hsize h,
    fun α β _ _ _ => Checked.withinBounds hg hsize (Checked.countsPass_true hg),
    fun β _ _ => Checked.withinBounds hg hsize (Checked.countsPass_one_le hg)⟩

/-- In the square, both strategies and scores of edges, with counts that are one at least. -/
theorem centrality_inBounds_square : Builder.square.build = .ok Graph.square ∧
    (∀ s ∈ [3, 1, 2, 4, 0], s < Graph.square.nodeCount) ∧
    Checked.WithinBounds Float Float32 Graph.square (fun _ => true) ∧
    ∃ (table : VertexTable ℚ ℚ) (table' : EdgeTable ℚ ℚ),
      (Checked.vertexCentrality ℚ (fun count : ℚ => decide (1 ≤ count)) Graph.square
        { strategy := .levelByLevel, precision := .single } {} .repeatable).run =
          some (.ok table) ∧
      (Checked.edgeCentrality ℚ (fun count : ℚ => decide (1 ≤ count)) Graph.square
        {} {} .repeatable).run = some (.ok table') := by
  obtain ⟨-, hsources, hany, hexact⟩ := centrality_inBounds Builder.build_square
  obtain ⟨table, htable⟩ := exists_vertexCentrality_square
    { strategy := .levelByLevel, precision := .single } rfl rfl
  obtain ⟨table', htable'⟩ : ∃ table' : EdgeTable ℚ ℚ,
      edgeCentrality ℚ ℚ Graph.square {} {} = .ok table' :=
    exists_edgeCentrality_of_small (by simp) (by simp) rfl rfl
  refine ⟨Builder.build_square, ?_, hany Float Float32, table, table', ?_, ?_⟩
  · exact hsources (.sample 5) (some 7) _ _ SourceSpec.resolve_sample_square
  · rw [(hexact ℚ).vertexCentrality_eq_some, htable]
  · rw [(hexact ℚ).edgeCentrality_eq_some, htable']

end Betweenness
