import Betweenness.Proofs.Checked.Search
import Betweenness.Proofs.Dependency.Space
import Betweenness.Proofs.ShortestPaths.Counts

/-!
# Dependencies keep within bounds

The three ways to add up dependencies, written once more with arrays that insist on their bounds,
and with a test on every number that is divided by: there is no result where a number does not
pass. They have the results of the originals after any search from a vertex.

What the way back needs of a search is `ShortestPaths.Navigable`: vertices and edges as
predecessors, offsets in order, and path counts that pass the test. Complete searches have all of
it. In exact arithmetic their counts are the numbers of shortest paths, which are one at least.

## Main results

* `Completed.navigable`, `Completed.navigable_counts`: complete searches can be followed back.
* `Checked.addVertices_eq`, `Checked.addEdges_eq`, `Checked.addLevels_eq`: the run lemmas, from the
  step lemmas for a vertex or a level.
-/

namespace Betweenness

/-! ### Searches that can be followed back -/

namespace ShortestPaths

variable {α : Type} [Scalar α] {g : Graph} {safe : α → Bool} {source : ℕ}
  {levels : List (List ℕ)} {s : ShortestPaths α}

/-- There is space for every vertex, predecessors are vertices and edges, every reached vertex is
listed with a count that passes a test, and offsets cut the order into levels. -/
structure Navigable (g : Graph) (safe : α → Bool) (s : ShortestPaths α) : Prop
    extends s.Fits g.nodeCount where
  predecessors_lt : ∀ w, ∀ p ∈ s.predecessorsOf w, p.vertex < g.nodeCount ∧ p.edge < g.edgeCount
  mem_order : ∀ v d, s.distanceOf v = some d → v ∈ s.order
  safe_count : ∀ v ∈ s.order, safe (s.countOf v) = true
  offsets : ∀ d < s.depth, ∃ start stop, s.levelOffsets[d]? = some start ∧
    s.levelOffsets[d + 1]? = some stop ∧ start ≤ stop ∧ stop ≤ s.order.size

namespace Completed

/-- A complete search from a vertex can be followed back, if its counts pass the test. -/
theorem navigable (hg : g.Consistent) (hs : source < g.nodeCount)
    (h : Completed g source levels s)
    (hsafe : ∀ v, g.Reaches source v → safe (s.countOf v) = true) : s.Navigable g safe := by
  have horder : ∀ v, v ∈ s.order ↔ g.Reaches source v := fun v =>
    Array.mem_toList_iff.symm.trans h.mem_order_iff
  refine
    { size_distance := h.size_distance
      size_pathCount := h.size_pathCount
      size_predecessors := h.size_predecessors
      order_lt := fun v hv => hg.lt_of_reaches ((horder v).mp hv) hs
      predecessors_lt := ?predecessors_lt
      mem_order := fun v d hd => (horder v).mpr (h.distanceOf_iff.mp hd).reaches
      safe_count := fun v hv => hsafe v ((horder v).mp hv)
      offsets := ?offsets }
  case predecessors_lt =>
    intro w p hp
    obtain ⟨d, -, -, hjoins⟩ := h.mem_predecessors_iff.mp hp
    exact ⟨(hg.lt_of_joins hjoins).1, hjoins.lt_edgeCount⟩
  case offsets =>
    intro d hd
    rw [h.depth_eq] at hd
    have hstop : (levels.take (d + 1)).flatten.Sublist levels.flatten :=
      (List.take_sublist _ _).flatten
    have hstart : (levels.take d).flatten.Sublist (levels.take (d + 1)).flatten := by
      have hprefix := (List.take_sublist d (levels.take (d + 1))).flatten
      rwa [List.take_take, Nat.min_eq_left (Nat.le_succ d)] at hprefix
    refine ⟨_, _, h.getElem?_levelOffsets (Nat.le_of_lt hd), h.getElem?_levelOffsets hd,
      hstart.length_le, ?_⟩
    rw [← Array.length_toList, h.order_eq_flatten]
    exact hstop.length_le

/-- The counts of a complete search in exact arithmetic are one at least. -/
theorem navigable_counts {s : ShortestPaths ℚ} (hg : g.Consistent) (hs : source < g.nodeCount)
    (h : Completed g source levels s) : s.Navigable g fun count => decide (1 ≤ count) := by
  refine h.navigable hg hs fun v hv => decide_eq_true ?_
  rw [h.countOf_eq_pathCount hg]
  exact_mod_cast hg.pathCount_pos hv

end Completed

end ShortestPaths

namespace Checked

variable {α β : Type} [Scalar α] {n m : ℕ}

/-! ### Steps of a ledger -/

/-- Divide by a number that has to pass a test. -/
def divide? (safe : α → Bool) (x y : α) : Option α := if safe y then some (x / y) else none

/-- Increase a score. -/
def addScore [Scalar β] (l : Ledger α β) (i : ℕ) (amount : β) : Option (Ledger α β) := do
  return { l with scores := ← update? l.scores i (· + amount) }

/-- Increase the dependency on a vertex. -/
def addDependency (l : Ledger α β) (v : ℕ) (amount : α) : Option (Ledger α β) := do
  return { l with dependency := ← update? l.dependency v (· + amount) }

/-- Enter the dependency on a vertex and credit the vertex with it, unless it is the source. -/
def enter [Scalar β] [Storage α β] (paths : ShortestPaths α) (l : Ledger α β) (v : ℕ)
    (amount : α) : Option (Ledger α β) := do
  let dependency ← write? l.dependency v amount
  let l := { l with dependency }
  if v = paths.source then return l else addScore l v (Storage.store amount)

/-- Set the dependencies on the reached vertices to zero. -/
def settle (l : Ledger α β) (paths : ShortestPaths α) : Option (Ledger α β) := do
  return { l with dependency := ← paths.order.foldlM (fun a v => write? a v 0) l.dependency }

section Steps

variable {l : Ledger α β} {paths : ShortestPaths α} {v : ℕ}

omit [Scalar α] in
theorem addScore_eq [Scalar β] (h : l.HasSpace n m) {i : ℕ} (hi : i < m) (x : β) :
    addScore l i x = some (l.addScore i x) := by
  rw [addScore, update?_eq (h.size_scores.symm ▸ hi), some_bind]
  rfl

theorem addDependency_eq (h : l.HasSpace n m) (hv : v < n) (x : α) :
    addDependency l v x = some (l.addDependency v x) := by
  rw [addDependency, update?_eq (h.size_dependency.symm ▸ hv), some_bind]
  rfl

omit [Scalar α] in
theorem enter_eq [Scalar β] [Storage α β] (h : l.HasSpace n m) (hv : v < n) (hscore : v < m)
    (x : α) : enter paths l v x = some (l.enter paths v x) := by
  rw [enter, write?_eq (h.size_dependency.symm ▸ hv), some_bind, Ledger.enter]
  dsimp only
  split
  · rfl
  · have hset : Ledger.HasSpace n m { l with dependency := l.dependency.setIfInBounds v x } :=
      ⟨Array.size_setIfInBounds.trans h.size_dependency, h.size_scores⟩
    exact addScore_eq hset hscore _

theorem settle_eq (h : l.HasSpace n m) (horder : ∀ v ∈ paths.order, v < n) :
    settle l paths = some (l.settle paths) := by
  rw [settle, (undo_eq h.size_dependency horder).1, some_bind]
  rfl

theorem dependency_eq (h : l.HasSpace n m) (hv : v < n) :
    l.dependency[v]? = some (l.dependencyOf v) :=
  getElem?_eq_getD (h.size_dependency.symm ▸ hv) 0

end Steps

/-! ### Pushing back -/

/-- What a vertex passes back for each shortest path that leads to it. -/
def shareOf (safe : α → Bool) (l : Ledger α β) (paths : ShortestPaths α) (w : ℕ) : Option α := do
  divide? safe (1 + (← l.dependency[w]?)) (← paths.pathCount[w]?)

/-- Pass the dependency of a vertex back to its predecessors and credit the vertex with it, unless
it is the source. -/
def creditVertex (safe : α → Bool) (paths : ShortestPaths α) (l : Ledger α α) (w : ℕ) :
    Option (Ledger α α) := do
  let share ← shareOf safe l paths w
  let l ← (← paths.predecessors[w]?).foldlM
    (fun l p => do addDependency l p.vertex ((← paths.pathCount[p.vertex]?) * share)) l
  if w = paths.source then return l else addScore l w (← l.dependency[w]?)

/-- Add the dependencies of the source of a search to the vertices. -/
def addVertices (safe : α → Bool) (paths : ShortestPaths α) (l : Ledger α α) :
    Option (Ledger α α) := do
  settle (← paths.order.toList.reverse.foldlM (creditVertex safe paths) l) paths

/-- Pass the dependency of a vertex back to its predecessors and credit each edge with what goes
over it. -/
def creditEdges (safe : α → Bool) (paths : ShortestPaths α) (l : Ledger α α) (w : ℕ) :
    Option (Ledger α α) := do
  let share ← shareOf safe l paths w
  (← paths.predecessors[w]?).foldlM
    (fun l p => do
      let flow := (← paths.pathCount[p.vertex]?) * share
      addScore (← addDependency l p.vertex flow) p.edge flow) l

/-- Add the dependencies of the source of a search to the edges. -/
def addEdges (safe : α → Bool) (paths : ShortestPaths α) (l : Ledger α α) :
    Option (Ledger α α) := do
  settle (← paths.order.toList.reverse.foldlM (creditEdges safe paths) l) paths

section Push

variable {g : Graph} {safe : α → Bool} {l : Ledger α α} {paths : ShortestPaths α} {w : ℕ}

theorem shareOf_eq (hpaths : paths.Navigable g safe) (h : l.HasSpace g.nodeCount m)
    (hw : w ∈ paths.order) : shareOf safe l paths w = some (l.shareOf paths w) := by
  have hlt := hpaths.order_lt w hw
  rw [shareOf, dependency_eq h hlt, some_bind, hpaths.pathCount_eq hlt, some_bind, divide?,
    if_pos (hpaths.safe_count w hw)]
  rfl

/-- What a vertex passes back to its predecessors is received within bounds. -/
theorem passBack_eq (hpaths : paths.Navigable g safe) (h : l.HasSpace g.nodeCount m) (w : ℕ)
    (share : α) : (paths.predecessorsOf w).foldlM (fun l p => do
        addDependency l p.vertex ((← paths.pathCount[p.vertex]?) * share)) l =
      some ((paths.predecessorsOf w).foldl (fun l p =>
        l.addDependency p.vertex (paths.countOf p.vertex * share)) l) ∧
      ((paths.predecessorsOf w).foldl (fun l p =>
        l.addDependency p.vertex (paths.countOf p.vertex * share)) l).HasSpace g.nodeCount m := by
  refine foldlM_array_eq_some h fun l hl p hp => ⟨?_, hl.addDependency p.vertex _⟩
  have hvertex := (hpaths.predecessors_lt w p hp).1
  rw [hpaths.pathCount_eq hvertex, some_bind, addDependency_eq hl hvertex]

/-- **Step lemma**: a reached vertex passes its dependency back within bounds. -/
theorem creditVertex_eq (hpaths : paths.Navigable g safe)
    (h : l.HasSpace g.nodeCount g.nodeCount) (hw : w ∈ paths.order) :
    creditVertex safe paths l w = some (l.creditVertex paths w) ∧
      (l.creditVertex paths w).HasSpace g.nodeCount g.nodeCount := by
  refine ⟨?_, h.creditVertex w⟩
  have hlt := hpaths.order_lt w hw
  obtain ⟨hpassed, hspace⟩ := passBack_eq hpaths h w (l.shareOf paths w)
  rw [creditVertex, shareOf_eq hpaths h hw, some_bind, hpaths.predecessors_eq hlt, some_bind,
    hpassed, some_bind, Ledger.creditVertex]
  split
  · rfl
  · rw [dependency_eq hspace hlt, some_bind, addScore_eq hspace hlt]

/-- **Run lemma**: so do all of them in turn. -/
theorem addVertices_eq (hpaths : paths.Navigable g safe)
    (h : l.HasSpace g.nodeCount g.nodeCount) :
    addVertices safe paths l = some (l.addVertices paths) := by
  obtain ⟨hcredit, hspace⟩ := foldlM_eq_some (l := paths.order.toList.reverse) h
    fun l hl w hw => creditVertex_eq hpaths hl (Array.mem_toList_iff.mp (List.mem_reverse.mp hw))
  rw [addVertices, hcredit, some_bind, settle_eq hspace hpaths.order_lt]
  rfl

/-- **Step lemma**: a reached vertex passes its dependency back over edges within bounds. -/
theorem creditEdges_eq (hpaths : paths.Navigable g safe)
    (h : l.HasSpace g.nodeCount g.edgeCount) (hw : w ∈ paths.order) :
    creditEdges safe paths l w = some (l.creditEdges paths w) ∧
      (l.creditEdges paths w).HasSpace g.nodeCount g.edgeCount := by
  rw [creditEdges, shareOf_eq hpaths h hw, some_bind,
    hpaths.predecessors_eq (hpaths.order_lt w hw), some_bind, Ledger.creditEdges]
  refine foldlM_array_eq_some h fun l hl p hp => ?_
  obtain ⟨hvertex, hedge⟩ := hpaths.predecessors_lt w p hp
  have hspace := fun flow => hl.addDependency p.vertex flow
  refine ⟨?_, (hspace _).addScore p.edge _⟩
  rw [hpaths.pathCount_eq hvertex, some_bind]
  dsimp only
  rw [addDependency_eq hl hvertex, some_bind, addScore_eq (hspace _) hedge]

/-- **Run lemma**: so do all of them in turn. -/
theorem addEdges_eq (hpaths : paths.Navigable g safe) (h : l.HasSpace g.nodeCount g.edgeCount) :
    addEdges safe paths l = some (l.addEdges paths) := by
  obtain ⟨hcredit, hspace⟩ := foldlM_eq_some (l := paths.order.toList.reverse) h
    fun l hl w hw => creditEdges_eq hpaths hl (Array.mem_toList_iff.mp (List.mem_reverse.mp hw))
  rw [addEdges, hcredit, some_bind, settle_eq hspace hpaths.order_lt]
  rfl

end Push

/-! ### Pulling -/

/-- The vertices at a distance, cut out of the order. -/
def level (paths : ShortestPaths α) (depth : ℕ) : Option (Array ℕ) := do
  slice? paths.order (← paths.levelOffsets[depth]?) (← paths.levelOffsets[depth + 1]?)

/-- The dependency on a vertex, pulled from the vertices at the given distance. -/
def pulled (safe : α → Bool) (g : Graph) (paths : ShortestPaths α) (l : Ledger α β)
    (depth v : ℕ) : Option α := do
  let count ← paths.pathCount[v]?
  (g.out v).foldlM
    (fun sum arc => do
      if (← paths.distance[arc.target]?) = some depth then
        let share ← divide? safe count (← paths.pathCount[arc.target]?)
        return sum + share * (1 + (← l.dependency[arc.target]?))
      else return sum)
    0

/-- Credit the vertices of the level at a distance. -/
def creditLevel [Scalar β] [Storage α β] (safe : α → Bool) (g : Graph) (paths : ShortestPaths α)
    (l : Ledger α β) (depth : ℕ) : Option (Ledger α β) := do
  let amounts ← (← level paths depth).toList.mapM fun v =>
    return (v, ← pulled safe g paths l (depth + 1) v)
  amounts.foldlM (fun l (v, amount) => enter paths l v amount) l

/-- Add the dependencies of the source of a search to the vertices, level by level. -/
def addLevels [Scalar β] [Storage α β] (safe : α → Bool) (g : Graph) (paths : ShortestPaths α)
    (l : Ledger α β) : Option (Ledger α β) := do
  settle (← (List.range paths.depth).reverse.foldlM (creditLevel safe g paths) l) paths

section Pull

variable {g : Graph} {safe : α → Bool} {l : Ledger α β} {paths : ShortestPaths α} {depth v : ℕ}

/-- The levels of a search are cut out within bounds, and hold vertices that are listed. -/
theorem level_eq (hpaths : paths.Navigable g safe) (hdepth : depth < paths.depth) :
    level paths depth = some ((paths.level? depth).getD #[]) ∧
      ∀ v ∈ (paths.level? depth).getD #[], v ∈ paths.order := by
  obtain ⟨start, stop, hstart, hstop, hle, hsize⟩ := hpaths.offsets depth hdepth
  have hlevel : paths.level? depth = some (paths.order.extract start stop) := by
    rw [ShortestPaths.level?, hstart, hstop]
    rfl
  rw [level, hstart, some_bind, hstop, some_bind, slice?_eq hle hsize, hlevel]
  exact ⟨rfl, fun v hv => mem_of_mem_extract hv⟩

theorem pulled_eq (hg : g.Consistent) (hpaths : paths.Navigable g safe)
    (h : l.HasSpace g.nodeCount m) (hv : v < g.nodeCount) :
    pulled safe g paths l depth v = some (l.pulled g paths depth v) := by
  rw [pulled, hpaths.pathCount_eq hv, some_bind]
  refine (foldlM_array_eq_some (P := fun _ => True) trivial fun sum _ arc harc => ?_).1
  have htarget := hg.target_lt_of_mem_out harc
  refine ⟨?_, trivial⟩
  rw [hpaths.distance_eq htarget, some_bind]
  simp only [ShortestPaths.isAt_iff]
  split
  · rename_i hat
    rw [hpaths.pathCount_eq htarget, some_bind, divide?,
      if_pos (hpaths.safe_count _ (hpaths.mem_order _ _ hat)), some_bind,
      dependency_eq h htarget, some_bind]
    rfl
  · rfl

variable [Scalar β] [Storage α β]

/-- **Step lemma**: a level pulls its dependencies within bounds. -/
theorem creditLevel_eq (hg : g.Consistent) (hpaths : paths.Navigable g safe)
    (h : l.HasSpace g.nodeCount g.nodeCount) (hdepth : depth < paths.depth) :
    creditLevel safe g paths l depth = some (l.creditLevel g paths depth) ∧
      (l.creditLevel g paths depth).HasSpace g.nodeCount g.nodeCount := by
  refine ⟨?_, h.creditLevel depth⟩
  obtain ⟨hlevel, hlisted⟩ := level_eq hpaths hdepth
  have hlt : ∀ v ∈ ((paths.level? depth).getD #[]).toList, v < g.nodeCount := fun v hv =>
    hpaths.order_lt v (hlisted v (Array.mem_toList_iff.mp hv))
  have hamounts : (((paths.level? depth).getD #[]).toList.mapM fun v => do
      return (v, ← pulled safe g paths l (depth + 1) v)) =
        some (((paths.level? depth).getD #[]).toList.map fun v =>
          (v, l.pulled g paths (depth + 1) v)) :=
    mapM_tag_eq_some fun v hv => pulled_eq hg hpaths h (hlt v hv)
  rw [creditLevel, hlevel, some_bind, hamounts, some_bind]
  refine (foldlM_eq_some h fun l hl x hx => ?_).1
  obtain ⟨v, hv, rfl⟩ := List.mem_map.mp hx
  exact ⟨enter_eq hl (hlt v hv) (hlt v hv) _, hl.enter v _⟩

/-- **Run lemma**: so do all levels in turn. -/
theorem addLevels_eq (hg : g.Consistent) (hpaths : paths.Navigable g safe)
    (h : l.HasSpace g.nodeCount g.nodeCount) :
    addLevels safe g paths l = some (l.addLevels g paths) := by
  obtain ⟨hcredit, hspace⟩ := foldlM_eq_some (l := (List.range paths.depth).reverse) h
    fun l hl depth hdepth => creditLevel_eq hg hpaths hl
      (List.mem_range.mp (List.mem_reverse.mp hdepth))
  rw [addLevels, hcredit, some_bind, settle_eq hspace hpaths.order_lt]
  rfl

end Pull

end Checked

end Betweenness
