import Betweenness.Centrality
import Mathlib.Data.List.Basic

/-!
# Space for dependencies and scores

A ledger has an entry for the dependency on every vertex, and an entry for every score.
`Ledger.HasSpace n m` says how many, and nothing that is done to a ledger changes it, whatever the
search before it and whatever the arithmetic. So the raw scores of a graph, and the columns made
of them, have one entry for every vertex or every edge.

## Main results

* `Ledger.HasSpace.addVertices`, `Ledger.HasSpace.addEdges`, `Ledger.HasSpace.addLevels`: the run
  lemmas, from the step lemmas for one vertex or one level.
* `size_vertexColumn`, `size_edgeColumn`: the number of scores in a column.
-/

namespace Betweenness

variable {α β : Type} {n m : ℕ}

/-! ### Ledgers -/

namespace Ledger

/-- There are entries for the dependencies on `n` vertices and for `m` scores. -/
structure HasSpace (n m : ℕ) (l : Ledger α β) : Prop where
  size_dependency : l.dependency.size = n
  size_scores : l.scores.size = m

variable [Scalar α] [Scalar β] {l : Ledger α β} {paths : ShortestPaths α} {g : Graph}

theorem hasSpace_zero (α β : Type) [Scalar α] [Scalar β] (n m : ℕ) :
    (zero α β n m).HasSpace n m := ⟨Array.size_replicate, Array.size_replicate⟩

namespace HasSpace

omit [Scalar α] [Scalar β] in
/-- What every step keeps holds after all of them. -/
theorem foldl {τ : Type} {f : Ledger α β → τ → Ledger α β} (h : l.HasSpace n m)
    (hf : ∀ l x, l.HasSpace n m → (f l x).HasSpace n m) (xs : List τ) :
    (xs.foldl f l).HasSpace n m :=
  List.foldlRecOn _ _ h fun l hl x _ => hf l x hl

omit [Scalar α] in
theorem addScore (h : l.HasSpace n m) (i : ℕ) (x : β) : (l.addScore i x).HasSpace n m :=
  ⟨h.size_dependency, Array.size_modify.trans h.size_scores⟩

omit [Scalar β] in
theorem addDependency (h : l.HasSpace n m) (v : ℕ) (x : α) : (l.addDependency v x).HasSpace n m :=
  ⟨Array.size_modify.trans h.size_dependency, h.size_scores⟩

omit [Scalar α] in
theorem enter [Storage α β] (h : l.HasSpace n m) (v : ℕ) (x : α) :
    (l.enter paths v x).HasSpace n m := by
  have hset : HasSpace n m { l with dependency := l.dependency.setIfInBounds v x } :=
    ⟨Array.size_setIfInBounds.trans h.size_dependency, h.size_scores⟩
  rw [Ledger.enter]
  split
  · exact hset
  · exact hset.addScore v _

omit [Scalar β] in
theorem settle (h : l.HasSpace n m) (paths : ShortestPaths α) : (l.settle paths).HasSpace n m := by
  refine ⟨?_, h.size_scores⟩
  rw [Ledger.settle, ← Array.foldl_toList]
  exact List.foldlRecOn (motive := fun a : Array α => a.size = n) _ _ h.size_dependency
    fun _ ha _ _ => Array.size_setIfInBounds.trans ha

/-- **Step lemma**: a vertex passes its dependency back and is credited with it. -/
theorem creditVertex {l : Ledger α α} (h : l.HasSpace n m) (w : ℕ) :
    (creditVertex paths l w).HasSpace n m := by
  rw [Ledger.creditVertex, ← Array.foldl_toList]
  have hpassed := fun share => h.foldl (fun l (p : Predecessor) hl =>
    hl.addDependency p.vertex (paths.countOf p.vertex * share)) (paths.predecessorsOf w).toList
  split
  · exact hpassed _
  · exact (hpassed _).addScore w _

/-- **Run lemma**: so do the vertices in turn. -/
theorem addVertices {l : Ledger α α} (h : l.HasSpace n m) (paths : ShortestPaths α) :
    (addVertices paths l).HasSpace n m :=
  (h.foldl (fun _ w hl => hl.creditVertex w) _).settle paths

/-- **Step lemma**: a vertex passes its dependency back, and the edges are credited with it. -/
theorem creditEdges {l : Ledger α α} (h : l.HasSpace n m) (w : ℕ) :
    (creditEdges paths l w).HasSpace n m := by
  rw [Ledger.creditEdges, ← Array.foldl_toList]
  exact h.foldl (fun _ p hl => (hl.addDependency p.vertex _).addScore p.edge _) _

/-- **Run lemma**: so do the vertices in turn. -/
theorem addEdges {l : Ledger α α} (h : l.HasSpace n m) (paths : ShortestPaths α) :
    (addEdges paths l).HasSpace n m :=
  (h.foldl (fun _ w hl => hl.creditEdges w) _).settle paths

/-- **Step lemma**: the vertices of a level are credited. -/
theorem creditLevel [Storage α β] (h : l.HasSpace n m) (depth : ℕ) :
    (creditLevel g paths l depth).HasSpace n m :=
  h.foldl (fun _ x hl => hl.enter x.1 x.2) _

/-- **Run lemma**: so are those of all levels in turn. -/
theorem addLevels [Storage α β] (h : l.HasSpace n m) (paths : ShortestPaths α) :
    (addLevels g paths l).HasSpace n m :=
  (h.foldl (fun _ depth hl => hl.creditLevel depth) _).settle paths

end HasSpace

end Ledger

/-! ### Raw scores -/

variable [Scalar α]

/-- A sum has as many scores as its first part. -/
@[simp] theorem size_merge (a b : Array α) : (merge a b).size = a.size := Array.size_mapIdx

/-- The workers together have a score for every vertex or edge, whatever their sources are. -/
theorem size_scoresOfBlocks (g : Graph) (accumulate : Accumulate α) (blocks : List (List ℕ)) :
    (scoresOfBlocks g accumulate m blocks).size = m := by
  rw [scoresOfBlocks]
  exact List.foldlRecOn (motive := fun a : Array α => a.size = m) _ _ Array.size_replicate
    fun scores hscores other _ => (size_merge scores other).trans hscores

variable (g : Graph) (sources : List ℕ)

theorem size_vertexScores : (vertexScores α g sources).size = g.nodeCount :=
  size_scoresOfBlocks g _ _

theorem size_edgeScores : (edgeScores α g sources).size = g.edgeCount :=
  size_scoresOfBlocks g _ _

theorem size_storedVertexScores [Scalar β] [Storage α β] :
    (storedVertexScores α β g sources).size = g.nodeCount := by
  have hspace : (sources.foldl (visitLevels g)
      (.blank α g.nodeCount, .zero α β g.nodeCount g.nodeCount)).2.HasSpace g.nodeCount
        g.nodeCount :=
    List.foldlRecOn (motive := fun x : ShortestPaths α × Ledger α β =>
      x.2.HasSpace g.nodeCount g.nodeCount) _ _
      (Ledger.hasSpace_zero α β g.nodeCount g.nodeCount) fun x hx s _ => hx.addLevels _
  exact hspace.size_scores

/-! ### Columns -/

section Columns

variable {g : Graph} {sources : List ℕ}

theorem Scaling.size_apply (scaling : Scaling) (scores : Array α) :
    (scaling.apply scores).size = scores.size := by
  rw [Scaling.apply]
  split
  · rfl
  · exact Array.size_map ..

theorem Scaling.size_applyStored [Storage α β] (scaling : Scaling) (scores : Array β) :
    (scaling.applyStored α scores).size = scores.size := by
  rw [Scaling.applyStored]
  split
  · rfl
  · exact Array.size_map ..

omit [Scalar α] in
theorem ScoreColumn.size_ofScores [Storage α β] (scores : Array α) (precision : Precision) :
    (ofScores scores precision : ScoreColumn α β).size = scores.size := by
  cases precision with
  | single => exact Array.size_map ..
  | double => rfl

/-- There is a score for every vertex, whatever the plan is. -/
theorem size_vertexColumn [Scalar β] [Storage α β] (plan : Plan) (scaling : Scaling) :
    (vertexColumn α β g plan scaling sources).size = g.nodeCount := by
  rw [vertexColumn]
  split
  · rw [ScoreColumn.size_ofScores, Scaling.size_apply, size_vertexScores]
  · exact (Scaling.size_applyStored scaling _).trans (size_storedVertexScores g sources)

/-- There is a score for every edge, whatever the plan is. -/
theorem size_edgeColumn [Storage α β] (plan : Plan) (scaling : Scaling) :
    (edgeColumn α β g plan scaling sources).size = g.edgeCount := by
  rw [edgeColumn, ScoreColumn.size_ofScores, Scaling.size_apply, size_edgeScores]

end Columns

end Betweenness
