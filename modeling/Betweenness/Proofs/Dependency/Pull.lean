import Betweenness.Proofs.Dependency.Push

/-!
# Dependencies that are pulled from successors

`addLevels` takes the levels of a search from the last to the first, and every vertex pulls its
dependency from its successors. `Ledger.PulledFrom g source d l₀ l` is the invariant: the levels
from distance `d` on are done. It leads to the same scores as passing dependencies back, as both
come to the shares of shortest paths of the graph.

## Main results

* `pulled_eq`: what a vertex pulls, once the next level is done.
* `PulledFrom.step`: the step lemma, for one level.
* `addLevels_accounts`: the run lemma. A source contributes the same as in `addVertices`.
-/

namespace Betweenness.Ledger

open ShortestPaths (Completed)

variable {g : Graph} {source : ℕ} {levels : List (List ℕ)} {paths : ShortestPaths ℚ}
  {l l₀ : Ledger ℚ ℚ}

/-! ### Entering a level -/

section Enter

variable {level : List ℕ} {amount : ℕ → ℚ}

/-- Entering the vertices of a level sets their dependencies. -/
theorem dependency_foldl_enter :
    (level.foldl (fun l v => l.enter paths v (amount v)) l).dependency =
      level.foldl (fun a v => a.setIfInBounds v (amount v)) l.dependency := by
  induction level generalizing l with
  | nil => rfl
  | cons v level ih =>
      rw [List.foldl_cons, List.foldl_cons, ih]
      congr 1
      rw [enter]
      split <;> rfl

/-- Entering a vertex credits it, unless it is the source. -/
theorem scoreOf_enter {v : ℕ} {x : ℚ} (hv : v < l.scores.size) (u : ℕ) :
    (l.enter paths v x).scores.size = l.scores.size ∧ (l.enter paths v x).scoreOf u =
      l.scoreOf u + if v = u ∧ v ≠ paths.source then x else 0 := by
  have hscores : v < (⟨l.dependency.setIfInBounds v x, l.scores⟩ : Ledger ℚ ℚ).scores.size := hv
  rw [enter]
  split
  · rename_i hsource
    rw [if_neg fun h => h.2 hsource, add_zero]
    exact ⟨rfl, rfl⟩
  · rename_i hsource
    refine ⟨size_addScore, (scoreOf_addScore hscores).trans ?_⟩
    simp only [hsource, ne_eq, not_false_eq_true, and_true]
    rfl

/-- Entering the vertices of a level credits each of them but the source. -/
theorem scoreOf_foldl_enter (hlevel : level.Nodup) (hscores : ∀ v ∈ level, v < l.scores.size)
    (u : ℕ) : (level.foldl (fun l v => l.enter paths v (amount v)) l).scores.size =
        l.scores.size ∧
      (level.foldl (fun l v => l.enter paths v (amount v)) l).scoreOf u =
        l.scoreOf u + if u ∈ level ∧ u ≠ paths.source then amount u else 0 := by
  induction level generalizing l with
  | nil => simp
  | cons v level ih =>
      obtain ⟨hnew, hlevel⟩ := List.nodup_cons.mp hlevel
      have hv := hscores v List.mem_cons_self
      obtain ⟨hsize, hfirst⟩ : (l.enter paths v (amount v)).scores.size = l.scores.size ∧ _ :=
        scoreOf_enter hv u
      obtain ⟨hsize', hrest⟩ := ih (l := l.enter paths v (amount v)) hlevel fun w hw =>
        hsize ▸ hscores w (List.mem_cons_of_mem _ hw)
      refine ⟨hsize'.trans hsize, ?_⟩
      rw [List.foldl_cons, hrest, hfirst, add_assoc]
      congr 1
      by_cases hu : v = u
      · subst hu
        simp [hnew]
      · simp [hu, Ne.symm hu]

end Enter

/-! ### Pulling -/

/-- A sum over the arcs to a distance. -/
theorem foldl_isAt {arcs : List Arc} {d : ℕ} {x : ℚ} (f : ℕ → ℚ) :
    arcs.foldl (fun sum arc => if paths.isAt arc.target d then sum + f arc.target else sum) x =
      x + (((arcs.filter fun arc => paths.isAt arc.target d).map Arc.target).map f).sum := by
  induction arcs generalizing x with
  | nil => simp
  | cons arc arcs ih =>
      rw [List.foldl_cons, ih]
      by_cases harc : paths.isAt arc.target d = true
      · simp [harc, add_assoc]
      · simp [harc]

/-- The arcs from a vertex to the next distance lead to its successors, each once. -/
theorem successors_eq_toFinset (hg : g.Consistent) (hpaths : Completed g source levels paths)
    {d v : ℕ} (hv : g.AtDistance source d v) :
    (((g.out v).toList.filter fun arc => paths.isAt arc.target (d + 1)).map Arc.target).Nodup ∧
      g.successors source v = (((g.out v).toList.filter fun arc =>
        paths.isAt arc.target (d + 1)).map Arc.target).toFinset := by
  constructor
  · refine List.Nodup.map_on (fun a ha b hb heq => ?_) (List.Nodup.filter _
      ((hg.out_increasing v).imp fun hlt heq => Nat.ne_of_lt hlt (congrArg Arc.edge heq)))
    have ha := (hg.mem_out v a.target a.edge).mp (Array.mem_toList_iff.mp (List.mem_filter.mp ha).1)
    have hb := (hg.mem_out v b.target b.edge).mp (Array.mem_toList_iff.mp (List.mem_filter.mp hb).1)
    have hedge := hg.edge_unique _ _ _ _ ha (heq ▸ hb)
    obtain ⟨w, e⟩ := a
    obtain rfl : w = b.target := heq
    obtain rfl : e = b.edge := hedge
    rfl
  · ext w
    simp only [Graph.mem_successors, List.mem_toFinset, List.mem_map, List.mem_filter,
      Array.mem_toList_iff, ShortestPaths.isAt_iff, hpaths.distanceOf_iff]
    constructor
    · rintro ⟨-, haway⟩
      obtain ⟨e, hjoins⟩ := haway.1
      have hw := haway.reaches.atDistance
      rw [haway.2.2, hv.distance_eq] at hw
      exact ⟨⟨w, e⟩, ⟨(hg.mem_out v w e).mpr hjoins, hw⟩, rfl⟩
    · rintro ⟨arc, ⟨harc, hw⟩, rfl⟩
      have hjoins := (hg.mem_out v arc.target arc.edge).mp harc
      refine ⟨(hg.lt_of_joins hjoins).2, ⟨arc.edge, hjoins⟩, hv.reaches, ?_⟩
      rw [hw.distance_eq, hv.distance_eq]

/-- What a vertex pulls, once the dependencies on its successors are complete. -/
theorem pulled_eq (hg : g.Consistent)
    (hpaths : Completed g source levels paths) {d v : ℕ} (hv : g.AtDistance source d v)
    (hdone : ∀ w ∈ g.successors source v, l.dependencyOf w =
      g.pathCount source w * ∑ x ∈ g.successors source w, g.passedBack source x) :
    l.pulled g paths (d + 1) v =
      g.pathCount source v * ∑ w ∈ g.successors source v, g.passedBack source w := by
  obtain ⟨hnodup, hset⟩ := successors_eq_toFinset hg hpaths hv
  have hpull : l.pulled g paths (d + 1) v = ∑ w ∈ g.successors source v,
      paths.countOf v / paths.countOf w * (1 + l.dependencyOf w) := by
    rw [hset, List.sum_toFinset _ hnodup, pulled, ← Array.foldl_toList]
    exact (foldl_isAt fun w =>
      paths.countOf v / paths.countOf w * (1 + l.dependencyOf w)).trans (zero_add _)
  rw [hpull, Finset.mul_sum]
  refine Finset.sum_congr rfl fun w hw => ?_
  obtain ⟨hlt, haway⟩ := Graph.mem_successors.mp hw
  have hcount : (g.pathCount source w : ℚ) ≠ 0 := by
    exact_mod_cast (hg.pathCount_pos haway.reaches).ne'
  rw [hdone w hw, hpaths.countOf_eq_pathCount hg,
    hpaths.countOf_eq_pathCount hg, Graph.passedBack_eq hg haway.reaches hlt]
  field_simp

/-! ### Levels in turn -/

/-- The levels from distance `d` on are done: the dependencies of their vertices are complete, and
the vertices have been credited. -/
structure PulledFrom (g : Graph) (source d : ℕ) (l₀ l : Ledger ℚ ℚ) : Prop where
  size_dependency : l.dependency.size = g.nodeCount
  size_scores : l.scores.size = l₀.scores.size
  dependencyOf_eq : ∀ v k, g.AtDistance source k v → d ≤ k → l.dependencyOf v =
    g.pathCount source v * ∑ w ∈ g.successors source v, g.passedBack source w
  dependencyOf_eq_zero : ∀ v, ¬ g.Reaches source v → l.dependencyOf v = 0
  scoreOf_eq : ∀ v k, g.AtDistance source k v → d ≤ k → v ≠ source →
    l.scoreOf v = l₀.scoreOf v + g.vertexShare source v
  scoreOf_same : ∀ v, (∀ k, g.AtDistance source k v → d ≤ k → v = source) →
    l.scoreOf v = l₀.scoreOf v

/-- Crediting a level sets the dependencies on its vertices to what they pull. -/
theorem dependencyOf_creditLevel (hpaths : Completed g source levels paths) {d : ℕ}
    {level : List ℕ} (hlevel : levels[d]? = some level)
    (hlt : ∀ v ∈ level, v < l.dependency.size) (v : ℕ) :
    (creditLevel g paths l d).dependency.size = l.dependency.size ∧
      (creditLevel g paths l d).dependencyOf v =
        if v ∈ level then l.pulled g paths (d + 1) v else l.dependencyOf v := by
  rw [creditLevel, hpaths.level?_eq hlevel]
  simp only [Option.getD_some, List.foldl_map]
  rw [Ledger.dependencyOf_eq, dependency_foldl_enter, getElem?_foldl_setIfInBounds]
  refine ⟨size_foldl_setIfInBounds, ?_⟩
  split
  · rename_i hv
    rw [Array.getElem?_eq_getElem (hlt v hv)]
    rfl
  · exact Ledger.dependencyOf_eq.symm

/-- Crediting a level credits its vertices with what they pull, all but the source. -/
theorem scoreOf_creditLevel (hpaths : Completed g source levels paths) {d : ℕ} {level : List ℕ}
    (hlevel : levels[d]? = some level) (hlt : ∀ v ∈ level, v < l.scores.size) (v : ℕ) :
    (creditLevel g paths l d).scores.size = l.scores.size ∧
      (creditLevel g paths l d).scoreOf v = l.scoreOf v +
        if v ∈ level ∧ v ≠ source then l.pulled g paths (d + 1) v else 0 := by
  rw [creditLevel, hpaths.level?_eq hlevel, ← hpaths.source_eq]
  simp only [Option.getD_some, List.foldl_map]
  exact scoreOf_foldl_enter (hpaths.nodup_level (List.mem_of_getElem? hlevel)) hlt v

/-- **Step lemma**: a level is credited, once those beyond it are done. -/
theorem PulledFrom.step (hg : g.Consistent) (hs : source < g.nodeCount)
    (hpaths : Completed g source levels paths) (hscores : l₀.scores.size = g.nodeCount) {d : ℕ}
    (hd : d < levels.length) (h : PulledFrom g source (d + 1) l₀ l) :
    PulledFrom g source d l₀ (creditLevel g paths l d) := by
  have hlevel := List.getElem?_eq_getElem hd
  have hmem : ∀ v, v ∈ levels[d] ↔ g.AtDistance source d v := fun v => hpaths.mem_level_iff hlevel
  have hlt : ∀ v ∈ levels[d], v < g.nodeCount := fun v hv =>
    hg.lt_of_reaches ((hmem v).mp hv).reaches hs
  have hdependency := dependencyOf_creditLevel hpaths hlevel fun v hv =>
    h.size_dependency.symm ▸ hlt v hv
  have hscore := scoreOf_creditLevel hpaths hlevel fun v hv =>
    (h.size_scores.trans hscores).symm ▸ hlt v hv
  have hpull : ∀ v ∈ levels[d], l.pulled g paths (d + 1) v =
      g.pathCount source v * ∑ w ∈ g.successors source v, g.passedBack source w := by
    intro v hv
    have hv := (hmem v).mp hv
    refine pulled_eq hg hpaths hv fun w hw => ?_
    have haway := (Graph.mem_successors.mp hw).2
    have hw := haway.reaches.atDistance
    rw [haway.2.2, hv.distance_eq] at hw
    exact h.dependencyOf_eq w (d + 1) hw (Nat.le_refl _)
  -- A vertex beyond the level has been done before.
  have hbeyond : ∀ {v k}, g.AtDistance source k v → k ≠ d → v ∉ levels[d] :=
    fun hk hne hv => hne (hk.unique ((hmem _).mp hv))
  refine
    { size_dependency := (hdependency 0).1.trans h.size_dependency
      size_scores := (hscore 0).1.trans h.size_scores
      dependencyOf_eq := fun v k hk hle => ?_
      dependencyOf_eq_zero := fun v hv => ?_
      scoreOf_eq := fun v k hk hle hne => ?_
      scoreOf_same := fun v hv => ?_ }
  · rw [(hdependency v).2]
    rcases Nat.eq_or_lt_of_le hle with rfl | hlt
    · have hv := (hmem v).mpr hk
      rw [if_pos hv, hpull v hv]
    · rw [if_neg (hbeyond hk (Nat.ne_of_gt hlt)), h.dependencyOf_eq v k hk hlt]
  · rw [(hdependency v).2, if_neg fun hmem' => hv ((hmem v).mp hmem').reaches,
      h.dependencyOf_eq_zero v hv]
  · rw [(hscore v).2]
    rcases Nat.eq_or_lt_of_le hle with rfl | hlt
    · have hv := (hmem v).mpr hk
      have hsame := h.scoreOf_same v fun k' hk' hle' => by
        have := hk.unique hk'
        omega
      rw [if_pos ⟨hv, hne⟩, hsame, hpull v hv, Graph.vertexShare_eq_mul_sum hg hk.reaches hne hs]
    · rw [if_neg fun hv => hbeyond hk (Nat.ne_of_gt hlt) hv.1, add_zero,
        h.scoreOf_eq v k hk hlt hne]
  · rw [(hscore v).2, if_neg fun hmem' => hmem'.2 (hv d ((hmem v).mp hmem'.1) (Nat.le_refl d)),
      add_zero, h.scoreOf_same v fun k hk hle => hv k hk (by omega)]

/-- **Run lemma**: taken from the last to the first, the levels are all done. -/
theorem PulledFrom.foldr (hg : g.Consistent) (hs : source < g.nodeCount)
    (hpaths : Completed g source levels paths) (hscores : l₀.scores.size = g.nodeCount) {d : ℕ}
    (hd : d ≤ levels.length) (h : PulledFrom g source d l₀ l) :
    PulledFrom g source 0 l₀ ((List.range d).foldr (fun k l => creditLevel g paths l k) l) := by
  induction d generalizing l with
  | zero => exact h
  | succ d ih =>
      rw [List.range_succ, List.foldr_append]
      exact ih (Nat.le_of_succ_le hd) (h.step hg hs hpaths hscores hd)

/-- What a source contributes to the score of a vertex. -/
theorem addLevels_accounts (hg : g.Consistent) (hpaths : Completed g source levels paths)
    (hs : source < g.nodeCount) (hl : l.dependency = Array.replicate g.nodeCount 0)
    (hscores : l.scores.size = g.nodeCount) : Accounts g.nodeCount
      (fun v => if v = source then 0 else g.vertexShare source v) l (l.addLevels g paths) := by
  have hstart : PulledFrom g source levels.length l l :=
    { size_dependency := by rw [hl, Array.size_replicate]
      size_scores := rfl
      dependencyOf_eq := fun v k hk hle => absurd (hpaths.atDistance_lt hk) (Nat.not_lt.mpr hle)
      dependencyOf_eq_zero := fun v _ => by
        rw [dependencyOf, hl]
        exact ShortestPaths.getD_replicate
      scoreOf_eq := fun v k hk hle => absurd (hpaths.atDistance_lt hk) (Nat.not_lt.mpr hle)
      scoreOf_same := fun v _ => rfl }
  have hrun := hstart.foldr hg hs hpaths hscores (Nat.le_refl _)
  rw [addLevels, List.foldl_reverse, hpaths.depth_eq]
  refine ⟨dependency_settle hpaths hrun.size_dependency hrun.dependencyOf_eq_zero,
    hrun.size_scores, fun v _ => ?_⟩
  by_cases hv : v = source
  · rw [if_pos hv, add_zero]
    exact hrun.scoreOf_same v fun _ _ _ => hv
  · rw [if_neg hv]
    by_cases hreach : g.Reaches source v
    · exact hrun.scoreOf_eq v _ hreach.atDistance (Nat.zero_le _) hv
    · rw [Graph.vertexShare_eq_zero hreach, add_zero]
      exact hrun.scoreOf_same v fun k hk _ => absurd hk.reaches hreach

end Betweenness.Ledger
