import Betweenness.Dependency
import Betweenness.Proofs.ShortestPaths.Counts

/-!
# Dependencies that are passed back to predecessors

`addVertices` and `addEdges` take the vertices of a search from the farthest to the source, and
each passes its dependency back to its predecessors. `Ledger.PassedBack g source done l` is the
invariant: the dependency on a vertex is what those of its successors that are `done` have passed
back to it. A vertex comes after all of its successors, so its dependency is then complete.

## Main results

* `sum_map_ite_key`: what a list of amounts contributes to one of their keys.
* `PassedBack.shareOf_eq`, `PassedBack.dependencyOf_eq_vertexShare`: what a complete dependency is.
* `PassedBack.step`: the step lemma, for one vertex, whatever it does to the scores.
* `addVertices_accounts`, `addEdges_accounts`: the run lemmas. Every vertex or edge is credited with
  the share of shortest paths through it, and the space for dependencies is zero again.
-/

namespace Betweenness.Ledger

open ShortestPaths (Completed)

/-! ### Amounts by key -/

section Keys

variable {ι : Type} {key : ι → ℕ} {amount : ι → ℚ} {l : List ι} {k : ℕ}

/-- Amounts for other keys do not count. -/
theorem sum_map_ite_key_of_notMem (hk : k ∉ l.map key) :
    (l.map fun x => if key x = k then amount x else 0).sum = 0 := by
  refine List.sum_eq_zero fun y hy => ?_
  obtain ⟨x, hx, rfl⟩ := List.mem_map.mp hy
  refine if_neg ?_
  rintro rfl
  exact hk (List.mem_map_of_mem hx)

/-- Of amounts for distinct keys, one counts for each of the keys. -/
theorem sum_map_ite_key (hl : (l.map key).Nodup) {x : ι} (hx : x ∈ l) :
    (l.map fun y => if key y = key x then amount y else 0).sum = amount x := by
  induction l with
  | nil => cases hx
  | cons y l ih =>
      rw [List.map_cons, List.nodup_cons] at hl
      rw [List.map_cons, List.sum_cons]
      rcases List.mem_cons.mp hx with rfl | hx
      · rw [if_pos rfl, sum_map_ite_key_of_notMem hl.1, add_zero]
      · have hne : key y ≠ key x := fun heq => hl.1 (heq ▸ List.mem_map_of_mem hx)
        rw [if_neg hne, zero_add, ih hl.2 hx]

end Keys

/-! ### Single entries -/

section Entries

variable {l : Ledger ℚ ℚ} {u v i j : ℕ} {x : ℚ}

/-- The score at an index. -/
def scoreOf (l : Ledger ℚ ℚ) (i : ℕ) : ℚ := l.scores[i]?.getD 0

theorem dependencyOf_eq : l.dependencyOf v = l.dependency[v]?.getD 0 :=
  Array.getD_eq_getD_getElem? ..

@[simp] theorem size_addScore : (l.addScore i x).scores.size = l.scores.size := Array.size_modify

/-- An entry that is increased, and the others, which stay. -/
theorem getD_modify_add {a : Array ℚ} (hu : u < a.size) :
    (a.modify u (· + x))[v]?.getD 0 = a[v]?.getD 0 + if u = v then x else 0 := by
  rw [Array.getElem?_modify]
  split
  · rename_i huv
    subst huv
    rw [Array.getElem?_eq_getElem hu]
    rfl
  · rw [add_zero]

theorem scoreOf_addScore (hi : i < l.scores.size) :
    (l.addScore i x).scoreOf j = l.scoreOf j + if i = j then x else 0 := getD_modify_add hi

/-- Entries of one of the arrays of a state that are increased one by one, whatever happens to the
rest of the state meanwhile. -/
theorem getD_foldl_modify {σ ι : Type} {π : σ → Array ℚ} {f : σ → ι → σ} {key : ι → ℕ}
    {amount : ι → ℚ} (hf : ∀ s x, π (f s x) = (π s).modify (key x) (· + amount x)) {s : σ}
    {xs : List ι} (hxs : ∀ x ∈ xs, key x < (π s).size) (v : ℕ) :
    (π (xs.foldl f s)).size = (π s).size ∧ (π (xs.foldl f s))[v]?.getD 0 =
      (π s)[v]?.getD 0 + (xs.map fun x => if key x = v then amount x else 0).sum := by
  induction xs generalizing s with
  | nil => simp
  | cons x xs ih =>
      have hx := hxs x List.mem_cons_self
      have hsize : (π (f s x)).size = (π s).size := by rw [hf, Array.size_modify]
      obtain ⟨hsize', hrest⟩ := ih fun y hy => hsize ▸ hxs y (List.mem_cons_of_mem _ hy)
      refine ⟨hsize'.trans hsize, ?_⟩
      rw [List.foldl_cons, hrest, hf, getD_modify_add hx, List.map_cons, List.sum_cons, add_assoc]

end Entries

/-! ### Passing back in turn -/

/-- The dependencies are what the vertices in `done` have passed back. -/
structure PassedBack (g : Graph) (source : ℕ) (done : List ℕ) (l : Ledger ℚ ℚ) : Prop where
  size_dependency : l.dependency.size = g.nodeCount
  dependencyOf_eq : ∀ v, l.dependencyOf v = g.pathCount source v *
    ∑ w ∈ g.successors source v with w ∈ done, g.passedBack source w

variable {g : Graph} {source w : ℕ} {levels : List (List ℕ)} {paths : ShortestPaths ℚ}
  {done : List ℕ} {l l' : Ledger ℚ ℚ}

namespace PassedBack

/-- The dependency on a vertex whose successors are done. -/
theorem dependencyOf_eq_mul (h : PassedBack g source done l)
    (hdone : ∀ x ∈ g.successors source w, x ∈ done) : l.dependencyOf w =
      g.pathCount source w * ∑ x ∈ g.successors source w, g.passedBack source x := by
  rw [h.dependencyOf_eq, Finset.filter_true_of_mem hdone]

/-- What a vertex passes back once its successors are done. -/
theorem shareOf_eq (hg : g.Consistent) (hpaths : Completed g source levels paths)
    (hs : source < g.nodeCount) (h : PassedBack g source done l) (hw : g.Reaches source w)
    (hdone : ∀ x ∈ g.successors source w, x ∈ done) :
    l.shareOf paths w = g.passedBack source w := by
  have hcount : (g.pathCount source w : ℚ) ≠ 0 := by exact_mod_cast (hg.pathCount_pos hw).ne'
  have hlt := hg.lt_of_reaches hw hs
  have hshare : l.shareOf paths w = (1 + l.dependencyOf w) / paths.countOf w := rfl
  rw [hshare, h.dependencyOf_eq_mul hdone, hpaths.countOf_eq_pathCount hg,
    Graph.passedBack_eq hg hw hlt]
  field_simp

/-- The dependency on a vertex other than the source is the share of shortest paths through it,
once its successors are done. -/
theorem dependencyOf_eq_vertexShare (hg : g.Consistent) (hs : source < g.nodeCount)
    (h : PassedBack g source done l) (hw : g.Reaches source w) (hne : w ≠ source)
    (hdone : ∀ x ∈ g.successors source w, x ∈ done) :
    l.dependencyOf w = g.vertexShare source w := by
  rw [h.dependencyOf_eq_mul hdone, Graph.vertexShare_eq_mul_sum hg hw hne hs]

/-- Nothing is passed back to a vertex that is not reached. -/
theorem dependencyOf_eq_zero (h : PassedBack g source done l) (hw : ¬ g.Reaches source w) :
    l.dependencyOf w = 0 := by
  have hempty : g.successors source w = ∅ := by
    refine Finset.eq_empty_of_forall_notMem fun x hx => ?_
    exact hw (Graph.mem_successors.mp hx).2.2.1
  rw [h.dependencyOf_eq, hempty, Finset.filter_empty, Finset.sum_empty, mul_zero]

end PassedBack

/-- What a vertex passes back to another arrives there if the other is one of its predecessors. -/
theorem sum_flows (hg : g.Consistent) (hpaths : Completed g source levels paths) (v : ℕ) (x : ℚ) :
    ((paths.predecessorsOf w).toList.map fun p =>
      if p.vertex = v then paths.countOf p.vertex * x else 0).sum =
        if w ∈ g.successors source v then g.pathCount source v * x else 0 := by
  have hnodup := hpaths.nodup_predecessor_vertices hg (w := w)
  split
  · rename_i hw
    have haway := (Graph.mem_successors.mp hw).2
    obtain ⟨e, hjoins⟩ := haway.1
    have hmem : (⟨v, e⟩ : Predecessor) ∈ (paths.predecessorsOf w).toList :=
      Array.mem_toList_iff.mpr (hpaths.mem_predecessors_iff_stepsAway.mpr ⟨haway, hjoins⟩)
    rw [← hpaths.countOf_eq_pathCount hg]
    exact sum_map_ite_key hnodup hmem
  · rename_i hw
    refine sum_map_ite_key_of_notMem fun hv => hw ?_
    obtain ⟨p, hp, rfl⟩ := List.mem_map.mp hv
    have haway := (hpaths.mem_predecessors_iff_stepsAway.mp (Array.mem_toList_iff.mp hp)).1
    exact Graph.mem_successors.mpr ⟨(hg.lt_of_linked haway.1).2, haway⟩

/-- Crediting a vertex passes its dependency back to its predecessors, whatever happens to the
scores. -/
def PassesBack (paths : ShortestPaths ℚ) (credit : Ledger ℚ ℚ → ℕ → Ledger ℚ ℚ) : Prop :=
  ∀ l w, (∀ p ∈ (paths.predecessorsOf w).toList, p.vertex < l.dependency.size) →
    ∀ v, (credit l w).dependency.size = l.dependency.size ∧ (credit l w).dependencyOf v =
      l.dependencyOf v + ((paths.predecessorsOf w).toList.map fun p =>
        if p.vertex = v then paths.countOf p.vertex * l.shareOf paths w else 0).sum

theorem passesBack_creditVertex : PassesBack paths (creditVertex paths) := by
  intro l w hps v
  have hrun := getD_foldl_modify (π := dependency) (f := fun (l' : Ledger ℚ ℚ) p =>
    l'.addDependency p.vertex (paths.countOf p.vertex * l.shareOf paths w)) (fun _ _ => rfl) hps v
  rw [dependencyOf_eq (l := l), dependencyOf_eq (l := creditVertex paths l w), creditVertex,
    ← Array.foldl_toList]
  split
  · exact hrun
  · exact hrun

theorem passesBack_creditEdges : PassesBack paths (creditEdges paths) := by
  intro l w hps v
  rw [dependencyOf_eq (l := l), dependencyOf_eq (l := creditEdges paths l w), creditEdges,
    ← Array.foldl_toList]
  exact getD_foldl_modify (π := dependency) (f := fun (l' : Ledger ℚ ℚ) p =>
    (l'.addDependency p.vertex (paths.countOf p.vertex * l.shareOf paths w)).addScore p.edge
      (paths.countOf p.vertex * l.shareOf paths w)) (fun _ _ => rfl) hps v

variable {credit : Ledger ℚ ℚ → ℕ → Ledger ℚ ℚ}

/-- **Step lemma**: a vertex whose successors are done passes its dependency back to its
predecessors. -/
theorem PassedBack.step (hg : g.Consistent) (hpaths : Completed g source levels paths)
    (hs : source < g.nodeCount) (hcredit : PassesBack paths credit)
    (h : PassedBack g source done l) (hw : g.Reaches source w) (hnew : w ∉ done)
    (hdone : ∀ x ∈ g.successors source w, x ∈ done) :
    PassedBack g source (w :: done) (credit l w) := by
  have hshare := h.shareOf_eq hg hpaths hs hw hdone
  have hps : ∀ p ∈ (paths.predecessorsOf w).toList, p.vertex < l.dependency.size := by
    intro p hp
    have haway := (hpaths.mem_predecessors_iff_stepsAway.mp (Array.mem_toList_iff.mp hp)).1
    rw [h.size_dependency]
    exact (hg.lt_of_linked haway.1).1
  have hsize := (hcredit l w hps 0).1
  have hpass := fun v => (hcredit l w hps v).2
  refine ⟨hsize.trans h.size_dependency, fun v => ?_⟩
  rw [hpass, h.dependencyOf_eq, sum_flows hg hpaths, hshare]
  by_cases hw : w ∈ g.successors source v
  · have hinsert : (g.successors source v).filter (· ∈ w :: done) =
        insert w ((g.successors source v).filter (· ∈ done)) := by
      ext x
      simp only [Finset.mem_filter, Finset.mem_insert, List.mem_cons]
      constructor
      · rintro ⟨hx, rfl | hmem⟩
        · exact .inl rfl
        · exact .inr ⟨hx, hmem⟩
      · rintro (rfl | ⟨hx, hmem⟩)
        · exact ⟨hw, .inl rfl⟩
        · exact ⟨hx, .inr hmem⟩
    rw [if_pos hw, hinsert, Finset.sum_insert (by simp [hnew])]
    ring
  · have hsame : (g.successors source v).filter (· ∈ w :: done) =
        (g.successors source v).filter (· ∈ done) := by
      refine Finset.filter_congr fun x hx => ?_
      rw [List.mem_cons, or_iff_right]
      rintro rfl
      exact hw hx
    rw [if_neg hw, hsame, add_zero]

/-- A vertex of the order is reached, and not listed again. -/
theorem reaches_of_order (hpaths : Completed g source levels paths) {before : List ℕ}
    (horder : paths.order.toList = before ++ w :: done) : g.Reaches source w ∧ w ∉ done := by
  have hnodup := hpaths.nodup_order
  have hmem : w ∈ paths.order.toList := by simp [horder]
  rw [horder] at hnodup
  exact ⟨hpaths.mem_order_iff.mp hmem,
    (List.nodup_cons.mp (List.nodup_append.mp hnodup).2.1).1⟩

/-- A vertex is listed before its successors. -/
theorem mem_of_mem_successors (hpaths : Completed g source levels paths) {before : List ℕ}
    (horder : paths.order.toList = before ++ w :: done) {x : ℕ} (hx : x ∈ g.successors source w) :
    x ∈ done := by
  obtain ⟨-, haway⟩ := Graph.mem_successors.mp hx
  have hmem := hpaths.mem_order_iff.mpr haway.reaches
  have hsorted := hpaths.order_sorted
  have hdist := haway.2.2
  rw [horder] at hmem hsorted
  rcases List.mem_append.mp hmem with hx | hx
  · have hle := (List.pairwise_append.mp hsorted).2.2 x hx w List.mem_cons_self _ _
      haway.reaches.atDistance haway.2.1.atDistance
    omega
  · rcases List.mem_cons.mp hx with rfl | hx
    · omega
    · exact hx

/-- **Run lemma**: taken from the end of the order, the vertices pass all dependencies back. -/
theorem passedBack_foldr (hg : g.Consistent) (hpaths : Completed g source levels paths)
    (hs : source < g.nodeCount) (hcredit : PassesBack paths credit)
    (hl : l.dependency = Array.replicate g.nodeCount 0) {before : List ℕ}
    (horder : paths.order.toList = before ++ done) :
    PassedBack g source done (done.foldr (fun w l => credit l w) l) := by
  induction done generalizing before with
  | nil =>
      refine ⟨by rw [List.foldr_nil, hl, Array.size_replicate], fun v => ?_⟩
      have hzero : l.dependencyOf v = 0 := by
        rw [dependencyOf, hl]
        exact ShortestPaths.getD_replicate
      simp [hzero]
  | cons w done ih =>
      obtain ⟨hreach, hnew⟩ := reaches_of_order hpaths horder
      have hbefore : paths.order.toList = (before ++ [w]) ++ done := by simp [horder]
      exact (ih hbefore).step hg hpaths hs hcredit hreach hnew
        fun x hx => mem_of_mem_successors hpaths horder hx

/-! ### What a source adds to the scores -/

/-- A source has been accounted for: it has increased every score by its share, and the
dependencies are zero again. -/
structure Accounts (n : ℕ) (share : ℕ → ℚ) (l l' : Ledger ℚ ℚ) : Prop where
  dependency_eq : l'.dependency = Array.replicate n 0
  size_scores : l'.scores.size = l.scores.size
  scoreOf_eq : ∀ i < l.scores.size, l'.scoreOf i = l.scoreOf i + share i

/-- Only the dependencies on vertices that the search has reached need be set to zero. -/
theorem dependency_settle (hpaths : Completed g source levels paths)
    (hsize : l.dependency.size = g.nodeCount)
    (hzero : ∀ v, ¬ g.Reaches source v → l.dependencyOf v = 0) :
    (l.settle paths).dependency = Array.replicate g.nodeCount 0 := by
  refine ShortestPaths.foldl_setIfInBounds_eq_replicate hsize fun v hv => ?_
  rw [← dependencyOf_eq]
  exact hzero v fun hreach => hv (Array.mem_toList_iff.mp (hpaths.mem_order_iff.mpr hreach))

/-- A vertex that is credited, unless it is the source, and the others, which keep their score. -/
theorem scoreOf_creditVertex (hw : w < l.scores.size) (v : ℕ) :
    (creditVertex paths l w).scores.size = l.scores.size ∧ (creditVertex paths l w).scoreOf v =
      l.scoreOf v +
        if w = v ∧ w ≠ paths.source then (creditVertex paths l w).dependencyOf w else 0 := by
  rw [creditVertex, ← Array.foldl_toList]
  set l₁ := (paths.predecessorsOf w).toList.foldl (fun l' p => l'.addDependency p.vertex
    (paths.countOf p.vertex * l.shareOf paths w)) l
  have hscores : l₁.scores = l.scores :=
    List.foldlRecOn (motive := fun l' : Ledger ℚ ℚ => l'.scores = l.scores) _ _ rfl fun _ h _ _ => h
  have hscoreOf : l₁.scoreOf v = l.scoreOf v := by rw [scoreOf, hscores, scoreOf]
  split
  · rename_i hsource
    rw [if_neg fun h => h.2 hsource, add_zero]
    exact ⟨congrArg Array.size hscores, hscoreOf⟩
  · rename_i hsource
    refine ⟨size_addScore.trans (congrArg Array.size hscores), ?_⟩
    rw [scoreOf_addScore (hscores ▸ hw), hscoreOf]
    simp only [hsource, ne_eq, not_false_eq_true, and_true]
    rfl

/-- The vertices of an end of the order have been credited with the shares of shortest paths
through them. -/
theorem scoreOf_foldr_creditVertex (hg : g.Consistent) (hpaths : Completed g source levels paths)
    (hs : source < g.nodeCount) (hl : l.dependency = Array.replicate g.nodeCount 0)
    (hscores : l.scores.size = g.nodeCount) {before : List ℕ}
    (horder : paths.order.toList = before ++ done) (v : ℕ) :
    (done.foldr (fun w l => creditVertex paths l w) l).scores.size = l.scores.size ∧
      (done.foldr (fun w l => creditVertex paths l w) l).scoreOf v = l.scoreOf v +
        if v ∈ done ∧ v ≠ source then g.vertexShare source v else 0 := by
  induction done generalizing before with
  | nil => simp
  | cons w done ih =>
      have hback := passedBack_foldr hg hpaths hs passesBack_creditVertex hl horder
      obtain ⟨hreach, hnew⟩ := reaches_of_order hpaths horder
      have hshare : w ≠ source → (creditVertex paths
          (done.foldr (fun w l => creditVertex paths l w) l) w).dependencyOf w =
            g.vertexShare source w := fun hne =>
        hback.dependencyOf_eq_vertexShare hg hs hreach hne fun x hx =>
          List.mem_cons_of_mem _ (mem_of_mem_successors hpaths horder hx)
      have hbefore : paths.order.toList = (before ++ [w]) ++ done := by simp [horder]
      obtain ⟨hsize, hrest⟩ := ih hbefore
      have hlt : w < (done.foldr (fun w l => creditVertex paths l w) l).scores.size := by
        rw [hsize, hscores]
        exact hg.lt_of_reaches hreach hs
      obtain ⟨hsize', hfirst⟩ : (creditVertex paths _ w).scores.size = _ ∧ _ :=
        scoreOf_creditVertex hlt v
      refine ⟨hsize'.trans hsize, ?_⟩
      rw [List.foldr_cons, hfirst, hrest, hpaths.source_eq, add_assoc]
      congr 1
      by_cases hv : w = v
      · subst hv
        by_cases hne : w = source
        · simp [hne]
        · simp [hnew, hne, hshare hne]
      · simp [hv, Ne.symm hv]

/-- What a source contributes to the score of a vertex. -/
theorem addVertices_accounts (hg : g.Consistent) (hpaths : Completed g source levels paths)
    (hs : source < g.nodeCount) (hl : l.dependency = Array.replicate g.nodeCount 0)
    (hscores : l.scores.size = g.nodeCount) : Accounts g.nodeCount
      (fun v => if v = source then 0 else g.vertexShare source v) l (l.addVertices paths) := by
  have horder : paths.order.toList = [] ++ paths.order.toList := rfl
  have hback := passedBack_foldr hg hpaths hs passesBack_creditVertex hl horder
  have hrun := scoreOf_foldr_creditVertex hg hpaths hs hl hscores horder
  rw [addVertices, List.foldl_reverse]
  refine ⟨dependency_settle hpaths hback.size_dependency fun _ => hback.dependencyOf_eq_zero,
    (hrun 0).1, fun v _ => ?_⟩
  refine (hrun v).2.trans (congrArg (l.scoreOf v + ·) ?_)
  by_cases hv : v ∈ paths.order.toList
  · simp [hv]
  · have hzero := Graph.vertexShare_eq_zero fun hreach => hv (hpaths.mem_order_iff.mpr hreach)
    simp [hv, hzero]

/-- What goes over an edge from a vertex, if it is one of those over which shortest paths come to
the vertex. -/
theorem sum_edge_flows (hg : g.Consistent) (hpaths : Completed g source levels paths) {e v w : ℕ}
    (he : g.Joins e v w) (haway : g.StepsAway source v w) (u : ℕ) (x : ℚ) :
    ((paths.predecessorsOf u).toList.map fun p =>
      if p.edge = e then paths.countOf p.vertex * x else 0).sum =
        if u = w then g.pathCount source v * x else 0 := by
  have hstep : ∀ p ∈ (paths.predecessorsOf u).toList,
      g.StepsAway source p.vertex u ∧ g.Joins p.edge p.vertex u := fun p hp =>
    hpaths.mem_predecessors_iff_stepsAway.mp (Array.mem_toList_iff.mp hp)
  split
  · rename_i hu
    subst hu
    have hnodup : ((paths.predecessorsOf u).toList.map Predecessor.edge).Nodup := by
      refine (hpaths.predecessors_nodup u).map_on fun p hp q hq heq => ?_
      obtain ⟨hp, hpe⟩ := hstep p hp
      obtain ⟨hq, hqe⟩ := hstep q hq
      obtain ⟨hv, -⟩ := hp.eq_of_joins hq hpe (heq ▸ hqe)
      obtain ⟨v, e⟩ := p
      obtain rfl : v = q.vertex := hv
      obtain rfl : e = q.edge := heq
      rfl
    have hmem : (⟨v, e⟩ : Predecessor) ∈ (paths.predecessorsOf u).toList :=
      Array.mem_toList_iff.mpr (hpaths.mem_predecessors_iff_stepsAway.mpr ⟨haway, he⟩)
    rw [← hpaths.countOf_eq_pathCount hg]
    exact sum_map_ite_key hnodup hmem
  · rename_i hu
    refine sum_map_ite_key_of_notMem fun hmem => hu ?_
    obtain ⟨p, hp, rfl⟩ := List.mem_map.mp hmem
    obtain ⟨hp, hpe⟩ := hstep p hp
    exact (hp.eq_of_joins haway hpe he).2

/-- The edges over which some vertices have passed their dependencies back have been credited with
what went over them. -/
theorem scoreOf_foldr_creditEdges (hg : g.Consistent) (hpaths : Completed g source levels paths)
    (hs : source < g.nodeCount) (hl : l.dependency = Array.replicate g.nodeCount 0)
    (hscores : l.scores.size = g.edgeCount) {before : List ℕ}
    (horder : paths.order.toList = before ++ done) (e : ℕ) :
    (done.foldr (fun w l => creditEdges paths l w) l).scores.size = l.scores.size ∧
      (done.foldr (fun w l => creditEdges paths l w) l).scoreOf e = l.scoreOf e +
        (done.map fun w => ((paths.predecessorsOf w).toList.map fun p =>
          if p.edge = e then paths.countOf p.vertex * g.passedBack source w else 0).sum).sum := by
  induction done generalizing before with
  | nil => simp
  | cons w done ih =>
      have hbefore : paths.order.toList = (before ++ [w]) ++ done := by simp [horder]
      have hback := passedBack_foldr hg hpaths hs passesBack_creditEdges hl hbefore
      have hreach := (reaches_of_order hpaths horder).1
      have hshare := hback.shareOf_eq hg hpaths hs hreach fun x hx =>
        mem_of_mem_successors hpaths horder hx
      obtain ⟨hsize, hrest⟩ := ih hbefore
      set l₁ := done.foldr (fun w l => creditEdges paths l w) l
      have hedges : ∀ p ∈ (paths.predecessorsOf w).toList, p.edge < l₁.scores.size := by
        intro p hp
        rw [hsize, hscores]
        exact (hpaths.mem_predecessors_iff_stepsAway.mp (Array.mem_toList_iff.mp hp)).2.lt_edgeCount
      obtain ⟨hsize', hfirst⟩ := getD_foldl_modify (π := scores) (f := fun (l' : Ledger ℚ ℚ) p =>
        (l'.addDependency p.vertex (paths.countOf p.vertex * g.passedBack source w)).addScore p.edge
          (paths.countOf p.vertex * g.passedBack source w)) (fun _ _ => rfl) hedges e
      rw [List.foldr_cons, creditEdges, ← Array.foldl_toList, hshare]
      refine ⟨hsize'.trans hsize, hfirst.trans ?_⟩
      rw [← scoreOf, hrest, List.map_cons, List.sum_cons]
      ring

/-- What a source contributes to the score of an edge. -/
theorem addEdges_accounts (hg : g.Consistent) (hpaths : Completed g source levels paths)
    (hs : source < g.nodeCount) (hl : l.dependency = Array.replicate g.nodeCount 0)
    (hscores : l.scores.size = g.edgeCount) :
    Accounts g.nodeCount (g.edgeShare source) l (l.addEdges paths) := by
  have horder : paths.order.toList = [] ++ paths.order.toList := rfl
  have hback := passedBack_foldr hg hpaths hs passesBack_creditEdges hl horder
  have hrun := scoreOf_foldr_creditEdges hg hpaths hs hl hscores horder
  rw [addEdges, List.foldl_reverse]
  refine ⟨dependency_settle hpaths hback.size_dependency fun _ => hback.dependencyOf_eq_zero,
    (hrun 0).1, fun e _ => ?_⟩
  refine (hrun e).2.trans (congrArg (l.scoreOf e + ·) ?_)
  by_cases haway : ∃ v w, g.Joins e v w ∧ g.StepsAway source v w
  · obtain ⟨v, w, he, haway⟩ := haway
    simp only [sum_edge_flows hg hpaths he haway]
    have hnodup : (paths.order.toList.map id).Nodup := by
      rw [List.map_id]
      exact hpaths.nodup_order
    rw [Graph.edgeShare_eq he haway hs]
    exact sum_map_ite_key hnodup (hpaths.mem_order_iff.mpr haway.reaches)
  · rw [Graph.edgeShare_eq_zero fun v w he hvw => haway ⟨v, w, he, hvw⟩]
    refine List.sum_eq_zero fun x hx => ?_
    obtain ⟨w, -, rfl⟩ := List.mem_map.mp hx
    refine sum_map_ite_key_of_notMem fun hmem => haway ?_
    obtain ⟨p, hp, rfl⟩ := List.mem_map.mp hmem
    obtain ⟨hvw, he⟩ := hpaths.mem_predecessors_iff_stepsAway.mp (Array.mem_toList_iff.mp hp)
    exact ⟨p.vertex, w, he, hvw⟩

end Betweenness.Ledger
