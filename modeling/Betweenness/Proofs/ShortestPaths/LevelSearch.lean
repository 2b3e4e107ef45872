import Betweenness.Proofs.ShortestPaths.Layers

/-!
# The search that pulls counts level by level

A round of `levelSearch` collects the next level as a whole, sorted and without repeats, and lets
each of its vertices add up the counts that arrive. It comes to the same levels, predecessors and
counts as a round of `search`, up to the order in which vertices and predecessors are listed.

## Main results

* `nodup_nextLevel`, `mem_nextLevel`: the vertices of the next level, each once.
* `addsLevel_reachLevel`: a round adds a level.
* `Sorted.reachLevel`: the level and its predecessors are in order.
* `levelSearch_completed`: the run lemma. In used space or new, a search by levels is complete.
-/

namespace Betweenness

/-! ### Sorting without repeats -/

/-- The run of the accumulating loop: what it has accumulated is below what is to come. -/
theorem eraseReps_loop {l : List ℕ} {a : ℕ} {acc : List ℕ} (hl : (a :: l).Pairwise (· ≤ ·))
    (hacc : ∀ x ∈ acc, x < a) (hpair : acc.Pairwise (· > ·)) :
    (List.eraseRepsBy.loop (· == ·) a l acc).Pairwise (· < ·) ∧
      ∀ x, x ∈ List.eraseRepsBy.loop (· == ·) a l acc ↔ x ∈ acc ∨ x ∈ a :: l := by
  induction l generalizing a acc with
  | nil =>
      rw [List.eraseRepsBy.loop]
      refine ⟨List.pairwise_reverse.mpr (List.pairwise_cons.mpr ⟨hacc, hpair⟩), fun x => ?_⟩
      simp [or_comm]
  | cons b l ih =>
      obtain ⟨hab, hl'⟩ := List.pairwise_cons.mp hl
      have hle := hab b List.mem_cons_self
      rw [List.eraseRepsBy.loop]
      split
      · rename_i heq
        obtain rfl : a = b := beq_iff_eq.mp heq
        obtain ⟨hsorted, hmem⟩ := ih hl' hacc hpair
        refine ⟨hsorted, fun x => ?_⟩
        rw [hmem]
        simp
      · rename_i hne
        have hlt : a < b := Nat.lt_of_le_of_ne hle (beq_eq_false_iff_ne.mp hne)
        have hacc' : ∀ x ∈ a :: acc, x < b := by
          intro x hx
          rcases List.mem_cons.mp hx with rfl | hx
          · exact hlt
          · exact Nat.lt_trans (hacc x hx) hlt
        obtain ⟨hsorted, hmem⟩ := ih hl' hacc' (List.pairwise_cons.mpr ⟨hacc, hpair⟩)
        refine ⟨hsorted, fun x => ?_⟩
        rw [hmem]
        simp only [List.mem_cons]
        tauto

/-- A sorted list without its repeats has the same entries, each once. -/
theorem eraseReps_of_sorted {l : List ℕ} (hl : l.Pairwise (· ≤ ·)) :
    l.eraseReps.Pairwise (· < ·) ∧ ∀ x, x ∈ l.eraseReps ↔ x ∈ l := by
  cases l with
  | nil => exact ⟨.nil, fun x => Iff.rfl⟩
  | cons a l =>
      obtain ⟨hsorted, hmem⟩ := eraseReps_loop hl (by simp) .nil
      exact ⟨hsorted, fun x => by simpa [List.eraseReps, List.eraseRepsBy] using hmem x⟩

namespace ShortestPaths

variable {α : Type} {g : Graph} {s : ShortestPaths α} {frontier : Array ℕ}

/-- The unreached targets in increasing order, each once. -/
theorem eraseReps_nextLevel : (s.nextLevel g frontier).Pairwise (· < ·) ∧
    ∀ w, w ∈ s.nextLevel g frontier ↔ w ∈ (frontier.toList.flatMap fun v =>
      (g.out v).toList.map Arc.target).filter s.isUnreached := by
  rw [nextLevel]
  set targets := (frontier.toList.flatMap fun v => (g.out v).toList.map Arc.target).filter
    s.isUnreached
  have hsorted : (targets.mergeSort (· ≤ ·)).Pairwise fun a b => decide (a ≤ b) = true := by
    refine List.pairwise_mergeSort (fun a b c hab hbc => ?_) (fun a b => ?_) targets
    · simp only [decide_eq_true_eq] at hab hbc ⊢
      exact Nat.le_trans hab hbc
    · simpa using Nat.le_total a b
  obtain ⟨hlt, hmem⟩ := eraseReps_of_sorted (hsorted.imp fun h => of_decide_eq_true h)
  exact ⟨hlt, fun w => (hmem w).trans List.mem_mergeSort⟩

/-- The next level lists no vertex twice. -/
theorem nodup_nextLevel : (s.nextLevel g frontier).Nodup :=
  eraseReps_nextLevel.1.imp Nat.ne_of_lt

/-- The next level lists the unreached vertices one step beyond the frontier. -/
theorem mem_nextLevel (hg : g.Consistent) {w : ℕ} : w ∈ s.nextLevel g frontier ↔
    s.isUnreached w = true ∧ ∃ v ∈ frontier, g.Linked v w := by
  rw [eraseReps_nextLevel.2, List.mem_filter, and_comm]
  refine and_congr_right fun _ => ?_
  simp only [List.mem_flatMap, List.mem_map, Array.mem_toList_iff]
  constructor
  · rintro ⟨v, hv, arc, harc, rfl⟩
    exact ⟨v, hv, arc.edge, (hg.mem_out v arc.target arc.edge).mp harc⟩
  · rintro ⟨v, hv, e, hjoins⟩
    exact ⟨v, hv, ⟨w, e⟩, (hg.mem_out v w e).mpr hjoins, rfl⟩

/-! ### A round -/

variable {d v w : ℕ} {level : List ℕ}

/-- The entering arcs from the vertices at a distance, as predecessors. -/
def stepsFrom (g : Graph) (s : ShortestPaths α) (depth w : ℕ) : List Predecessor :=
  ((g.into w).toList.filter fun arc => s.isAt arc.target depth).map fun arc =>
    ⟨arc.target, arc.edge⟩

/-- The steps that arrive at a vertex from a distance. -/
theorem mem_stepsFrom (hg : g.Consistent) {p : Predecessor} :
    p ∈ stepsFrom g s d w ↔ s.distanceOf p.vertex = some d ∧ g.Joins p.edge p.vertex w := by
  simp only [stepsFrom, List.mem_map, List.mem_filter, Array.mem_toList_iff, isAt_iff]
  constructor
  · rintro ⟨arc, ⟨harc, hat⟩, rfl⟩
    exact ⟨hat, (hg.mem_into arc.target w arc.edge).mp harc⟩
  · rintro ⟨hat, hjoins⟩
    exact ⟨⟨p.vertex, p.edge⟩, ⟨(hg.mem_into p.vertex w p.edge).mpr hjoins, hat⟩, rfl⟩

/-- The steps that arrive at a vertex are in the order of edges. -/
theorem increasing_stepsFrom (hg : g.Consistent) :
    (stepsFrom g s d w).Pairwise (·.edge < ·.edge) :=
  List.pairwise_map.mpr (List.Pairwise.filter _ (hg.into_increasing w))

theorem nodup_stepsFrom (hg : g.Consistent) : (stepsFrom g s d w).Nodup :=
  (increasing_stepsFrom hg).imp fun hlt heq => Nat.ne_of_lt hlt (congrArg Predecessor.edge heq)

variable [Scalar α]

/-- What arrives at a vertex: the steps, and their counts added up. -/
theorem arriving_eq : s.arriving g d w =
    ((stepsFrom g s d w).foldl (fun count p => count + s.countOf p.vertex) 0,
      (stepsFrom g s d w).toArray) := by
  have hrun : ∀ (l : List Arc) (count : α) (steps : Array Predecessor),
      l.foldl (fun (x : α × Array Predecessor) arc =>
        if s.isAt arc.target d then
          (x.1 + s.countOf arc.target, x.2.push ⟨arc.target, arc.edge⟩) else (x.1, x.2))
        (count, steps) =
      (((l.filter fun arc => s.isAt arc.target d).map fun arc =>
          (⟨arc.target, arc.edge⟩ : Predecessor)).foldl
            (fun count p => count + s.countOf p.vertex) count,
        steps ++ ((l.filter fun arc => s.isAt arc.target d).map fun arc =>
          (⟨arc.target, arc.edge⟩ : Predecessor)).toArray) := by
    intro l
    induction l with
    | nil => intro count steps; simp
    | cons arc l ih =>
        intro count steps
        rw [List.foldl_cons]
        by_cases harc : s.isAt arc.target d = true
        · simp [harc, ih]
        · simp [harc, ih]
  rw [arriving, ← Array.foldl_toList]
  exact (hrun _ 0 #[]).trans (by simp [stepsFrom])

omit [Scalar α] in
/-- Vertices that are marked with a distance have it. -/
theorem distanceOf_mark {depth : ℕ} (hlevel : ∀ w ∈ level, w < s.distance.size) :
    distanceOf { s with
      distance := level.foldl (fun a w => a.setIfInBounds w (some depth)) s.distance } v =
        if v ∈ level then some depth else s.distanceOf v := by
  rw [distanceOf_eq, getElem?_foldl_setIfInBounds]
  split
  · rename_i hv
    rw [Array.getElem?_eq_getElem (hlevel v hv)]
    rfl
  · exact distanceOf_eq.symm

/-- The space with the distances of a level, from which its counts are pulled. -/
def markLevel (s : ShortestPaths α) (depth : ℕ) (level : List ℕ) : ShortestPaths α :=
  { s with distance := level.foldl (fun a w => a.setIfInBounds w (some (depth + 1))) s.distance }

omit [Scalar α] in
theorem distanceOf_markLevel (hlevel : ∀ w ∈ level, w < s.distance.size) :
    (s.markLevel d level).distanceOf v = if v ∈ level then some (d + 1) else s.distanceOf v :=
  distanceOf_mark hlevel

/-- Reaching a level marks it, and sets what arrives. -/
theorem reachLevel_eq : reachLevel g d s level = { s.markLevel d level with
    pathCount := level.foldl
      (fun a w => a.setIfInBounds w ((s.markLevel d level).arriving g d w).1) s.pathCount
    predecessors := level.foldl
      (fun a w => a.setIfInBounds w ((s.markLevel d level).arriving g d w).2) s.predecessors
    order := s.order ++ level.toArray } := by
  simp only [reachLevel, List.foldl_map, List.foldl_push_eq_append']
  rfl

theorem predecessorsOf_reachLevel (hlevel : ∀ w ∈ level, w < s.predecessors.size) :
    (reachLevel g d s level).predecessorsOf w =
      if w ∈ level then (stepsFrom g (s.markLevel d level) d w).toArray
      else s.predecessorsOf w := by
  rw [predecessorsOf_eq, reachLevel_eq, getElem?_foldl_setIfInBounds]
  split
  · rename_i hw
    rw [Array.getElem?_eq_getElem (hlevel w hw), arriving_eq]
    rfl
  · exact predecessorsOf_eq.symm

theorem countOf_reachLevel (hlevel : ∀ w ∈ level, w < s.pathCount.size) :
    (reachLevel g d s level).countOf w =
      if w ∈ level then
        (stepsFrom g (s.markLevel d level) d w).foldl
          (fun count p => count + s.countOf p.vertex) 0
      else s.countOf w := by
  rw [countOf_eq, reachLevel_eq, getElem?_foldl_setIfInBounds]
  split
  · rename_i hw
    rw [Array.getElem?_eq_getElem (hlevel w hw), arriving_eq]
    rfl
  · exact countOf_eq.symm

/-- A round adds the next level. -/
theorem addsLevel_reachLevel (hg : g.Consistent) {source : ℕ} {levels : List (List ℕ)}
    {last : List ℕ} (h : Explored g source (levels ++ [last]) s)
    (hfrontier : frontier.toList = last) :
    AddsLevel g levels.length (s.nextLevel g frontier) s
      (reachLevel g levels.length s.closeLevel (s.nextLevel g frontier)) := by
  have hnext : ∀ w, w ∈ s.nextLevel g frontier ↔
      s.isUnreached w = true ∧ ∃ v, s.distanceOf v = some levels.length ∧ g.Linked v w := by
    intro w
    simp only [mem_nextLevel hg, ← Array.mem_toList_iff, hfrontier, h.mem_last_iff]
  set next := s.nextLevel g frontier
  have hunreached : ∀ w ∈ next, w < g.nodeCount ∧ s.distanceOf w = none := fun w hw =>
    h.size_distance ▸ isUnreached_iff.mp ((hnext w).mp hw).1
  have hdistance : ∀ v, (s.closeLevel.markLevel levels.length next).distanceOf v =
      if v ∈ next then some (levels.length + 1) else s.distanceOf v := fun v =>
    distanceOf_markLevel fun w hw => h.size_distance.symm ▸ (hunreached w hw).1
  have hpredecessors : ∀ w, (reachLevel g levels.length s.closeLevel next).predecessorsOf w = _ :=
    fun w => predecessorsOf_reachLevel fun w hw => h.size_predecessors.symm ▸ (hunreached w hw).1
  have hcount : ∀ w, (reachLevel g levels.length s.closeLevel next).countOf w = _ :=
    fun w => countOf_reachLevel fun w hw => h.size_pathCount.symm ▸ (hunreached w hw).1
  -- Marking the next level does not change which vertices are in the frontier.
  have hat : ∀ v, (s.closeLevel.markLevel levels.length next).distanceOf v = some levels.length ↔
      s.distanceOf v = some levels.length := by
    intro v
    rw [hdistance]
    split
    · rename_i hv
      simp [(hunreached v hv).2]
    · rfl
  exact
    { source_eq := by rw [reachLevel_eq]; rfl
      size_distance := by rw [reachLevel_eq]; exact size_foldl_setIfInBounds
      size_pathCount := by rw [reachLevel_eq]; exact size_foldl_setIfInBounds
      size_predecessors := by rw [reachLevel_eq]; exact size_foldl_setIfInBounds
      order_eq := by rw [reachLevel_eq]; exact Array.toList_append
      levelOffsets_eq := by rw [reachLevel_eq]; rfl
      nodup := nodup_nextLevel
      mem_next := hnext
      distanceOf_eq := fun v => by
        rw [← hdistance, reachLevel_eq]
        rfl
      mem_predecessors := fun w hw p => by
        rw [hpredecessors, if_pos hw, List.mem_toArray, mem_stepsFrom hg, hat]
      predecessors_nodup := fun w hw => by
        rw [hpredecessors, if_pos hw]
        exact nodup_stepsFrom hg
      predecessorsOf_eq := fun w hw => by
        rw [hpredecessors, if_neg hw]
        rfl
      countOf_next := fun w hw => by
        rw [hcount, hpredecessors, if_pos hw, if_pos hw]
        rfl
      countOf_eq := fun w hw => by
        rw [hcount, if_neg hw]
        rfl }

/-- Every level is in the order of indices, and predecessors are in the order of edges. -/
structure Sorted (levels : List (List ℕ)) (s : ShortestPaths α) : Prop where
  level_increasing : ∀ level ∈ levels, level.Pairwise (· < ·)
  predecessors_increasing : ∀ w, (s.predecessorsOf w).toList.Pairwise (·.edge < ·.edge)

/-- With nothing but the source there is nothing to be out of order. -/
theorem Explored.sorted_source {source : ℕ} (h : Explored g source [[source]] s) :
    Sorted [[source]] s where
  level_increasing level hlevel := by
    obtain rfl := List.mem_singleton.mp hlevel
    exact List.pairwise_singleton _ source
  predecessors_increasing w := by
    have hempty : s.predecessorsOf w = #[] := by
      refine Array.eq_empty_iff_forall_not_mem.mpr fun p hp => ?_
      obtain ⟨k, hk, -⟩ := (h.mem_predecessors w p).mp hp
      rw [List.length_singleton] at hk
      omega
    rw [hempty]
    exact .nil

omit [Scalar α] in
/-- Closing a level lists nothing. -/
theorem Sorted.closeLevel {levels : List (List ℕ)} (h : Sorted levels s) :
    Sorted levels s.closeLevel :=
  ⟨h.level_increasing, h.predecessors_increasing⟩

/-- **Step lemma**: a round that reaches vertices in order keeps levels and predecessors in
order. -/
theorem Sorted.reachLevel (hg : g.Consistent) {levels : List (List ℕ)} (h : Sorted levels s)
    (hlevel : level.Pairwise (· < ·)) (hlt : ∀ w ∈ level, w < s.predecessors.size) :
    Sorted (levels ++ [level]) (ShortestPaths.reachLevel g d s level) where
  level_increasing l hl := by
    rcases List.mem_append.mp hl with hl | hl
    · exact h.level_increasing l hl
    · obtain rfl := List.mem_singleton.mp hl
      exact hlevel
  predecessors_increasing w := by
    rw [predecessorsOf_reachLevel hlt]
    split
    · exact increasing_stepsFrom hg
    · exact h.predecessors_increasing w

/-! ### Rounds in turn -/

variable {source : ℕ} {levels : List (List ℕ)} {last : List ℕ}

/-- **Run lemma**: rounds in turn complete a search, if there are enough of them for the vertices
that may be left, and list everything in order. -/
theorem exists_completed_levelsBeyond (hg : g.Consistent) (hs : source < g.nodeCount)
    {budget : ℕ} (h : Explored g source (levels ++ [last]) s)
    (hsorted : Sorted (levels ++ [last]) s) (hnil : [] ∉ levels ++ [last])
    (hbudget : g.nodeCount ≤ budget + levels.length) :
    ∃ levels', Completed g source levels'
        (levelsBeyond g budget levels.flatten.length levels.length s) ∧
      Sorted levels' (levelsBeyond g budget levels.flatten.length levels.length s) := by
  induction budget generalizing levels last s with
  | zero =>
      -- There is no room for a frontier, and yet it is not empty.
      have hempty := h.eq_nil_of_nodeCount_le hg hs (fun hmem => hnil (by simp [hmem])) (by omega)
      exact absurd (by simp [hempty]) hnil
  | succ budget ih =>
      have hadd := addsLevel_reachLevel hg h h.extract_order
      have hnext := h.addLevel hg (by simp) hadd
      rw [levelsBeyond]
      split
      · rename_i hempty
        rw [List.isEmpty_iff.mp hempty] at hnext
        exact ⟨levels ++ [last], ⟨hnext, hnil⟩, hsorted.closeLevel⟩
      · rename_i hne
        have hstart : (levels ++ [last]).flatten.length = s.order.size := by
          rw [← Array.length_toList, h.order_eq]
        have hdepth : (levels ++ [last]).length = levels.length + 1 := List.length_append
        have hvertices : ∀ w ∈ s.nextLevel g (s.order.extract levels.flatten.length s.order.size),
            w < s.predecessors.size := by
          intro w hw
          rw [h.size_predecessors, ← h.size_distance]
          exact (isUnreached_iff.mp ((hadd.mem_next w).mp hw).1).1
        have hrest := ih hnext (hsorted.closeLevel.reachLevel hg eraseReps_nextLevel.1 hvertices)
          (by
            rw [List.mem_append, not_or, List.mem_singleton]
            exact ⟨hnil, fun heq => hne (List.isEmpty_iff.mpr heq.symm)⟩)
          (by omega)
        rwa [hstart, hdepth] at hrest

/-- A search by levels in space that can be used again is complete, and lists everything in
order. -/
theorem exists_completed_sorted_levelSearch (hg : g.Consistent) (hs : source < g.nodeCount)
    (h : s.Reusable g.nodeCount) : ∃ levels, Completed g source levels (s.levelSearch g source) ∧
      Sorted levels (s.levelSearch g source) := by
  have hstart : Explored g source ([] ++ [[source]]) ((blank α g.nodeCount).prepare g source) :=
    explored_prepare hs
  rw [h.levelSearch_eq, levelSearch, if_pos hs]
  exact exists_completed_levelsBeyond hg hs hstart hstart.sorted_source (by simp) (Nat.le_refl _)

/-- A search by levels in space that can be used again is complete. -/
theorem levelSearch_completed (hg : g.Consistent) (hs : source < g.nodeCount)
    (h : s.Reusable g.nodeCount) :
    ∃ levels, Completed g source levels (s.levelSearch g source) := by
  obtain ⟨levels, hcompleted, -⟩ := exists_completed_sorted_levelSearch hg hs h
  exact ⟨levels, hcompleted⟩

end ShortestPaths

end Betweenness
