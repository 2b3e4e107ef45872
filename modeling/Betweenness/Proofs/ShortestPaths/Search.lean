import Betweenness.Proofs.ShortestPaths.Layers

/-!
# The search that pushes counts forward

Within a round, `search` follows the arcs of the frontier one by one, and vertices are reached and
credited in the same pass. `Scanned d s₀ arcs next s` is what holds in the middle of a round that
began in the space `s₀`, after some arcs: `next` lists the unreached targets of these arcs in the
order of discovery, and every one of them has been credited with just these arcs.

## Main results

* `Scanned.follow`: the step lemma, for one arc.
* `exists_addsLevel`: a round adds a level.
* `search_completed`: the run lemma. In used space or new, a search is complete.
-/

namespace Betweenness.ShortestPaths

variable {α : Type}

/-! ### What single steps leave alone -/

section Frame

variable {s : ShortestPaths α} {v w d : ℕ} {count : α} {arc : Arc}

@[simp] theorem reach_pathCount : (s.reach w d).pathCount = s.pathCount := by
  rw [reach]
  split <;> rfl

@[simp] theorem reach_predecessors : (s.reach w d).predecessors = s.predecessors := by
  rw [reach]
  split <;> rfl

variable [Scalar α]

@[simp] theorem credit_source : (s.credit v count arc d).source = s.source := by
  rw [credit]
  split <;> rfl

@[simp] theorem credit_distance : (s.credit v count arc d).distance = s.distance := by
  rw [credit]
  split <;> rfl

@[simp] theorem credit_order : (s.credit v count arc d).order = s.order := by
  rw [credit]
  split <;> rfl

@[simp] theorem credit_levelOffsets : (s.credit v count arc d).levelOffsets = s.levelOffsets := by
  rw [credit]
  split <;> rfl

/-- A vertex that is credited gets a predecessor. -/
theorem predecessorsOf_credit (ht : arc.target < s.predecessors.size) :
    (s.credit v count arc d).predecessorsOf w =
      if s.isAt arc.target d = true ∧ arc.target = w then
        (s.predecessorsOf w).push ⟨v, arc.edge⟩
      else s.predecessorsOf w := by
  rw [credit]
  by_cases hat : s.isAt arc.target d = true
  · rw [if_pos hat, predecessorsOf_eq, Array.getElem?_modify]
    by_cases hw : arc.target = w
    · subst hw
      simp [hat, ht, predecessorsOf_eq]
    · rw [if_neg hw, if_neg fun h => hw h.2, predecessorsOf_eq]
  · rw [if_neg hat, if_neg fun h => hat h.1]

/-- A vertex that is credited has more paths. -/
theorem countOf_credit (ht : arc.target < s.pathCount.size) :
    (s.credit v count arc d).countOf w =
      if s.isAt arc.target d = true ∧ arc.target = w then s.countOf w + count
      else s.countOf w := by
  rw [credit]
  by_cases hat : s.isAt arc.target d = true
  · rw [if_pos hat, countOf_eq, Array.getElem?_modify]
    by_cases hw : arc.target = w
    · subst hw
      simp [hat, ht, countOf_eq]
    · rw [if_neg hw, if_neg fun h => hw h.2, countOf_eq]
  · rw [if_neg hat, if_neg fun h => hat h.1]

end Frame

/-! ### Reaching targets -/

/-- The unreached ones among some targets have been reached at distance `d`. -/
structure Marked (d : ℕ) (s₀ : ShortestPaths α) (targets next : List ℕ) (s : ShortestPaths α) :
    Prop where
  source_eq : s.source = s₀.source
  size_distance : s.distance.size = s₀.distance.size
  levelOffsets_eq : s.levelOffsets = s₀.levelOffsets
  order_eq : s.order.toList = s₀.order.toList ++ next
  nodup : next.Nodup
  mem_next : ∀ w, w ∈ next ↔ s₀.isUnreached w = true ∧ w ∈ targets
  distanceOf_eq : ∀ v, s.distanceOf v = if v ∈ next then some d else s₀.distanceOf v

namespace Marked

variable {d t : ℕ} {s₀ s : ShortestPaths α} {targets next : List ℕ}

/-- What has been unreached before and is none of the targets is unreached. -/
theorem isUnreached_iff (h : Marked d s₀ targets next s) :
    s.isUnreached t = true ↔ s₀.isUnreached t = true ∧ t ∉ next := by
  rw [ShortestPaths.isUnreached_iff, ShortestPaths.isUnreached_iff, h.size_distance,
    h.distanceOf_eq]
  split
  · rename_i ht
    simp [ht]
  · rename_i ht
    simp [ht]

/-- Reaching one more target. -/
theorem reach (h : Marked d s₀ targets next s) (t : ℕ) :
    ∃ next', Marked d s₀ (targets ++ [t]) next' (s.reach t d) := by
  by_cases ht : s.isUnreached t = true
  · obtain ⟨hold, hnew⟩ := h.isUnreached_iff.mp ht
    have hlt := (ShortestPaths.isUnreached_iff.mp ht).1
    refine ⟨next ++ [t], ?_⟩
    rw [ShortestPaths.reach, if_pos ht]
    refine
      { source_eq := h.source_eq
        size_distance := Array.size_setIfInBounds.trans h.size_distance
        levelOffsets_eq := h.levelOffsets_eq
        order_eq := by rw [Array.toList_push, h.order_eq, List.append_assoc]
        nodup := h.nodup.append (List.nodup_singleton t) (by simpa using hnew)
        mem_next := fun w => ?_
        distanceOf_eq := fun v => ?_ }
    · rw [List.mem_append, List.mem_append, h.mem_next, List.mem_singleton]
      constructor
      · rintro (⟨hw, hmem⟩ | rfl)
        · exact ⟨hw, .inl hmem⟩
        · exact ⟨hold, .inr rfl⟩
      · rintro ⟨hw, hmem | rfl⟩
        · exact .inl ⟨hw, hmem⟩
        · exact .inr rfl
    · rw [ShortestPaths.distanceOf_eq, Array.getElem?_setIfInBounds]
      by_cases hv : t = v
      · subst hv
        simp [hlt]
      · rw [if_neg hv, ← ShortestPaths.distanceOf_eq, h.distanceOf_eq]
        simp [Ne.symm hv]
  · refine ⟨next, ?_⟩
    rw [ShortestPaths.reach, if_neg ht]
    refine { h with mem_next := fun w => ?_ }
    rw [h.mem_next, List.mem_append, List.mem_singleton]
    constructor
    · rintro ⟨hw, hmem⟩
      exact ⟨hw, .inl hmem⟩
    · rintro ⟨hw, hmem | rfl⟩
      · exact ⟨hw, hmem⟩
      · by_contra hnot
        exact ht (h.isUnreached_iff.mpr ⟨hw, fun hmem => hnot ((h.mem_next w).mp hmem)⟩)

/-- A target is at distance `d` if it was unreached before, as long as nothing else is. -/
theorem isAt_iff (h : Marked d s₀ targets next s) (hd : ∀ v, s₀.distanceOf v ≠ some d)
    (ht : t ∈ targets) : s.isAt t d = true ↔ s₀.isUnreached t = true := by
  rw [ShortestPaths.isAt_iff, h.distanceOf_eq]
  split
  · rename_i hmem
    exact iff_of_true rfl ((h.mem_next t).mp hmem).1
  · rename_i hmem
    exact iff_of_false (hd t) fun hold => hmem ((h.mem_next t).mpr ⟨hold, ht⟩)

/-- Crediting does not reach anything. -/
theorem credit [Scalar α] {v : ℕ} {count : α} {arc : Arc} (h : Marked d s₀ targets next s) :
    Marked d s₀ targets next (s.credit v count arc d) where
  source_eq := credit_source.trans h.source_eq
  size_distance := by rw [credit_distance, h.size_distance]
  levelOffsets_eq := credit_levelOffsets.trans h.levelOffsets_eq
  order_eq := by rw [credit_order, h.order_eq]
  nodup := h.nodup
  mem_next := h.mem_next
  distanceOf_eq v := by
    rw [ShortestPaths.distanceOf_eq, credit_distance, ← ShortestPaths.distanceOf_eq,
      h.distanceOf_eq]

end Marked

/-! ### Crediting targets -/

/-- The predecessors that some arcs, each with the vertex it leaves, bring to a vertex. -/
def arrivals (s : ShortestPaths α) (arcs : List (ℕ × Arc)) (w : ℕ) : List Predecessor :=
  if s.isUnreached w then (arcs.filter (·.2.target = w)).map fun arc => ⟨arc.1, arc.2.edge⟩ else []

/-- One more arc arrives at its target, if this is unreached. -/
theorem arrivals_concat {s : ShortestPaths α} {arcs : List (ℕ × Arc)} {v w : ℕ} {arc : Arc} :
    arrivals s (arcs ++ [(v, arc)]) w = arrivals s arcs w ++
      if s.isUnreached w = true ∧ arc.target = w then [⟨v, arc.edge⟩] else [] := by
  rw [arrivals, arrivals]
  by_cases hw : s.isUnreached w = true
  · by_cases ht : arc.target = w
    · simp [hw, ht]
    · simp [hw, ht]
  · simp [hw]

variable [Scalar α]

/-- The unreached targets of some arcs have been credited with these arcs. -/
structure Credited (s₀ : ShortestPaths α) (arcs : List (ℕ × Arc))
    (s : ShortestPaths α) : Prop where
  size_pathCount : s.pathCount.size = s₀.pathCount.size
  size_predecessors : s.predecessors.size = s₀.predecessors.size
  predecessorsOf_eq : ∀ w,
    (s.predecessorsOf w).toList = (s₀.predecessorsOf w).toList ++ arrivals s₀ arcs w
  countOf_eq : ∀ w, s.countOf w =
    (arrivals s₀ arcs w).foldl (fun count p => count + s₀.countOf p.vertex) (s₀.countOf w)

/-- Reaching does not credit anything. -/
theorem Credited.reach {s₀ s : ShortestPaths α} {arcs : List (ℕ × Arc)} {w d : ℕ}
    (h : Credited s₀ arcs s) : Credited s₀ arcs (s.reach w d) where
  size_pathCount := by rw [reach_pathCount, h.size_pathCount]
  size_predecessors := by rw [reach_predecessors, h.size_predecessors]
  predecessorsOf_eq v := by
    rw [ShortestPaths.predecessorsOf_eq, reach_predecessors, ← ShortestPaths.predecessorsOf_eq,
      h.predecessorsOf_eq]
  countOf_eq v := by
    rw [ShortestPaths.countOf_eq, reach_pathCount, ← ShortestPaths.countOf_eq, h.countOf_eq]

/-- Crediting the target of one more arc. -/
theorem Credited.credit {s₀ s : ShortestPaths α} {arcs : List (ℕ × Arc)} {v d : ℕ}
    {arc : Arc} (h : Credited s₀ arcs s)
    (hat : s.isAt arc.target d = true ↔ s₀.isUnreached arc.target = true)
    (hcount : arc.target < s.pathCount.size) (hpredecessors : arc.target < s.predecessors.size) :
    Credited s₀ (arcs ++ [(v, arc)]) (s.credit v (s₀.countOf v) arc d) := by
  have hcase : ∀ w, (s.isAt arc.target d = true ∧ arc.target = w) ↔
      (s₀.isUnreached w = true ∧ arc.target = w) := by
    rintro w
    rw [hat]
    refine and_congr_left ?_
    rintro rfl
    rfl
  refine ⟨?_, ?_, fun w => ?_, fun w => ?_⟩
  · rw [ShortestPaths.credit]
    split
    · exact Array.size_modify.trans h.size_pathCount
    · exact h.size_pathCount
  · rw [ShortestPaths.credit]
    split
    · exact Array.size_modify.trans h.size_predecessors
    · exact h.size_predecessors
  · rw [predecessorsOf_credit hpredecessors, arrivals_concat, ← List.append_assoc,
      ← h.predecessorsOf_eq]
    simp only [hcase]
    split
    · exact Array.toList_push
    · rw [List.append_nil]
  · rw [countOf_credit hcount, arrivals_concat, List.foldl_append, ← h.countOf_eq]
    simp only [hcase]
    split <;> rfl

/-! ### A round -/

/-- In the middle of a round that began in the space `s₀`, some arcs have been followed. -/
structure Scanned (d : ℕ) (s₀ : ShortestPaths α) (arcs : List (ℕ × Arc)) (next : List ℕ)
    (s : ShortestPaths α) : Prop extends
  Marked d s₀ (arcs.map (·.2.target)) next s, Credited s₀ arcs s

section Round

variable {g : Graph} {d v : ℕ} {s₀ s : ShortestPaths α} {arcs : List (ℕ × Arc)} {next : List ℕ}

/-- The arcs that leave a vertex, with the vertex. -/
def arcsFrom (g : Graph) (v : ℕ) : List (ℕ × Arc) := (g.out v).toList.map (v, ·)

/-- The space at the beginning of a round. -/
structure Ready (n d : ℕ) (s₀ : ShortestPaths α) : Prop where
  size_pathCount : s₀.pathCount.size = n
  size_predecessors : s₀.predecessors.size = n
  distanceOf_ne : ∀ v, s₀.distanceOf v ≠ some d

/-- No arc has been followed at the beginning of a round. -/
theorem scanned_nil (d : ℕ) (s₀ : ShortestPaths α) : Scanned d s₀ [] [] s₀ where
  source_eq := rfl
  size_distance := rfl
  levelOffsets_eq := rfl
  order_eq := (List.append_nil _).symm
  nodup := List.nodup_nil
  mem_next := by simp
  distanceOf_eq := by simp
  size_pathCount := rfl
  size_predecessors := rfl
  predecessorsOf_eq := by simp [arrivals]
  countOf_eq := by simp [arrivals]

/-- **Step lemma**: following an arc. -/
theorem Scanned.follow {n : ℕ} (h₀ : Ready n d s₀) (h : Scanned d s₀ arcs next s) {arc : Arc}
    (harc : arc.target < n) : ∃ next', Scanned d s₀ (arcs ++ [(v, arc)]) next'
      ((s.reach arc.target d).credit v (s₀.countOf v) arc d) := by
  obtain ⟨next', hmarked⟩ := h.toMarked.reach arc.target
  have hat := hmarked.isAt_iff h₀.distanceOf_ne
    (List.mem_append_right _ (List.mem_singleton_self arc.target))
  refine ⟨next', ?_, h.toCredited.reach.credit hat ?_ ?_⟩
  · rw [List.map_append]
    exact hmarked.credit
  · rw [reach_pathCount, h.size_pathCount, h₀.size_pathCount]
    exact harc
  · rw [reach_predecessors, h.size_predecessors, h₀.size_predecessors]
    exact harc

/-- A vertex that has been reached before keeps its count. -/
theorem Credited.countOf_stays (h : Credited s₀ arcs s) (hv : s₀.isUnreached v = false) :
    s.countOf v = s₀.countOf v := by
  rw [h.countOf_eq, arrivals, hv]
  rfl

/-- Following the arcs of a vertex. -/
theorem Scanned.expand (h₀ : Ready g.nodeCount d s₀) (hg : g.Consistent)
    (h : Scanned d s₀ arcs next s) (hv : s₀.isUnreached v = false) :
    ∃ next', Scanned d s₀ (arcs ++ arcsFrom g v) next' (s.expand g d v) := by
  have hrun : ∀ (l : List Arc) arcs next s, (∀ arc ∈ l, arc.target < g.nodeCount) →
      Scanned d s₀ arcs next s → ∃ next', Scanned d s₀ (arcs ++ l.map (v, ·)) next'
        (l.foldl (fun s arc => (s.reach arc.target d).credit v (s₀.countOf v) arc d) s) := by
    intro l
    induction l with
    | nil =>
        intro arcs next s _ h
        exact ⟨next, by simpa using h⟩
    | cons arc l ih =>
        intro arcs next s hl h
        obtain ⟨next', h⟩ := h.follow (v := v) h₀ (hl arc List.mem_cons_self)
        have h := ih _ _ _ (fun a ha => hl a (List.mem_cons_of_mem _ ha)) h
        rwa [List.append_assoc] at h
  rw [ShortestPaths.expand, h.toCredited.countOf_stays hv, ← Array.foldl_toList]
  refine hrun _ _ _ _ (fun arc harc => ?_) h
  have hjoins := (hg.mem_out v arc.target arc.edge).mp (Array.mem_toList_iff.mp harc)
  exact (hg.lt_of_joins hjoins).2

/-- Following the arcs of some vertices in turn. -/
theorem Scanned.expandAll (h₀ : Ready g.nodeCount d s₀) (hg : g.Consistent) {frontier : List ℕ}
    (hfrontier : ∀ v ∈ frontier, s₀.isUnreached v = false) (h : Scanned d s₀ arcs next s) :
    ∃ next', Scanned d s₀ (arcs ++ frontier.flatMap (arcsFrom g)) next'
      (frontier.foldl (ShortestPaths.expand g d) s) := by
  induction frontier generalizing arcs next s with
  | nil => exact ⟨next, by simpa using h⟩
  | cons v frontier ih =>
      obtain ⟨next', h⟩ := h.expand h₀ hg (hfrontier v List.mem_cons_self)
      have h := ih (fun u hu => hfrontier u (List.mem_cons_of_mem _ hu)) h
      rwa [List.append_assoc, ← List.flatMap_cons] at h

/-- The arcs that leave some vertices. -/
theorem mem_flatMap_arcsFrom (hg : g.Consistent) {frontier : List ℕ} {x : ℕ × Arc} :
    x ∈ frontier.flatMap (arcsFrom g) ↔ x.1 ∈ frontier ∧ g.Joins x.2.edge x.1 x.2.target := by
  obtain ⟨v, w, e⟩ := x
  simp only [List.mem_flatMap, arcsFrom, List.mem_map, Array.mem_toList_iff, Prod.mk.injEq]
  constructor
  · rintro ⟨u, hu, arc, harc, rfl, rfl⟩
    exact ⟨hu, (hg.mem_out u w e).mp harc⟩
  · rintro ⟨hv, hjoins⟩
    exact ⟨v, hv, ⟨w, e⟩, (hg.mem_out v w e).mpr hjoins, rfl, rfl⟩

omit [Scalar α] in
/-- An unreached vertex gets its predecessors from the vertices whose arcs are followed. -/
theorem mem_arrivals (hg : g.Consistent) {frontier : List ℕ} {w : ℕ} {p : Predecessor}
    (hw : s₀.isUnreached w = true) : p ∈ arrivals s₀ (frontier.flatMap (arcsFrom g)) w ↔
      p.vertex ∈ frontier ∧ g.Joins p.edge p.vertex w := by
  rw [arrivals, if_pos hw]
  simp only [List.mem_map, List.mem_filter, mem_flatMap_arcsFrom hg, decide_eq_true_eq]
  constructor
  · rintro ⟨x, ⟨hx, rfl⟩, rfl⟩
    exact hx
  · intro hp
    exact ⟨(p.vertex, ⟨w, p.edge⟩), ⟨hp, rfl⟩, rfl⟩

/-- A vertex that the round does not reach gets no predecessors in it. -/
theorem Scanned.arrivals_eq_nil (h : Scanned d s₀ arcs next s) {w : ℕ} (hw : w ∉ next) :
    arrivals s₀ arcs w = [] := by
  rw [arrivals]
  split
  · rename_i hunreached
    rw [List.map_eq_nil_iff, List.filter_eq_nil_iff]
    intro x hx htarget
    refine hw ((h.mem_next w).mpr ⟨hunreached, List.mem_map.mpr ⟨x, hx, ?_⟩⟩)
    simpa using htarget
  · rfl

omit [Scalar α] in
/-- No vertex gets the same predecessor twice. -/
theorem nodup_arrivals (hg : g.Consistent) {frontier : List ℕ} (h : frontier.Nodup) (w : ℕ) :
    (arrivals s₀ (frontier.flatMap (arcsFrom g)) w).Nodup := by
  rw [arrivals]
  split
  · refine List.pairwise_map.mpr (List.Pairwise.filter _ ?_)
    refine List.pairwise_flatMap.mpr ⟨fun v _ => ?_, ?_⟩
    · rw [arcsFrom, List.pairwise_map]
      refine (hg.out_increasing v).imp fun hlt heq => ?_
      exact Nat.ne_of_lt hlt (congrArg Predecessor.edge heq)
    · refine h.imp fun hne x hx y hy heq => hne ?_
      obtain ⟨a, -, rfl⟩ := List.mem_map.mp hx
      obtain ⟨b, -, rfl⟩ := List.mem_map.mp hy
      exact congrArg Predecessor.vertex heq
  · exact List.nodup_nil

end Round

/-! ### Rounds in turn -/

variable {g : Graph} {source : ℕ} {levels : List (List ℕ)} {last : List ℕ} {s : ShortestPaths α}

/-- A round adds a level. -/
theorem exists_addsLevel (hg : g.Consistent) (h : Explored g source (levels ++ [last]) s) :
    ∃ next, AddsLevel g levels.length next s
      (last.foldl (expand g (levels.length + 1)) s.closeLevel) := by
  have hready : Ready g.nodeCount (levels.length + 1) s.closeLevel := by
    refine ⟨h.size_pathCount, h.size_predecessors, fun v hv => ?_⟩
    have hlt := ((h.distanceOf_eq v _).mp hv).1
    simp at hlt
  have hreached : ∀ v ∈ last, s.closeLevel.isUnreached v = false := by
    intro v hv
    refine Bool.eq_false_iff.mpr fun hunreached => ?_
    have hnone := (isUnreached_iff.mp hunreached).2
    exact absurd ((h.mem_last_iff.mp hv).symm.trans hnone) (by simp)
  have hnil := scanned_nil (levels.length + 1) s.closeLevel
  obtain ⟨next, hscan⟩ := hnil.expandAll hready hg hreached
  rw [List.nil_append] at hscan
  refine ⟨next, ?_⟩
  have hlast : last.Nodup := h.nodup_level (by simp)
  have hnext : ∀ w, w ∈ next ↔
      s.isUnreached w = true ∧ ∃ v, s.distanceOf v = some levels.length ∧ g.Linked v w := by
    intro w
    rw [hscan.mem_next]
    refine and_congr_right fun _ => ?_
    simp only [List.mem_map, mem_flatMap_arcsFrom hg, h.mem_last_iff]
    constructor
    · rintro ⟨x, ⟨hx, hjoins⟩, rfl⟩
      exact ⟨x.1, hx, x.2.edge, hjoins⟩
    · rintro ⟨v, hv, e, hjoins⟩
      exact ⟨(v, ⟨w, e⟩), ⟨hv, hjoins⟩, rfl⟩
  have hunreached : ∀ w ∈ next, s.closeLevel.isUnreached w = true := fun w hw =>
    ((hnext w).mp hw).1
  have hnone : ∀ w ∈ next, s.distanceOf w = none := fun w hw =>
    (isUnreached_iff.mp (hunreached w hw)).2
  -- What is reached in the round had neither predecessors nor paths before.
  have harrive : ∀ w ∈ next, ((last.foldl (expand g (levels.length + 1))
      s.closeLevel).predecessorsOf w).toList =
        arrivals s.closeLevel (last.flatMap (arcsFrom g)) w := by
    intro w hw
    have hempty : s.closeLevel.predecessorsOf w = #[] := h.predecessorsOf_eq_empty (hnone w hw)
    rw [hscan.predecessorsOf_eq, hempty]
    rfl
  exact
    { source_eq := hscan.source_eq
      size_distance := hscan.size_distance
      size_pathCount := hscan.size_pathCount
      size_predecessors := hscan.size_predecessors
      order_eq := hscan.order_eq
      levelOffsets_eq := hscan.levelOffsets_eq
      nodup := hscan.nodup
      mem_next := hnext
      distanceOf_eq := hscan.distanceOf_eq
      mem_predecessors := fun w hw p => by
        rw [← Array.mem_toList_iff, harrive w hw, mem_arrivals hg (hunreached w hw), h.mem_last_iff]
      predecessors_nodup := fun w hw => by
        rw [harrive w hw]
        exact nodup_arrivals hg hlast w
      predecessorsOf_eq := fun w hw => by
        refine Array.toList_inj.mp ?_
        rw [hscan.predecessorsOf_eq, hscan.arrivals_eq_nil hw, List.append_nil]
        rfl
      countOf_next := fun w hw => by
        have hzero : s.closeLevel.countOf w = 0 := h.countOf_eq_zero (by simp) (hnone w hw)
        rw [hscan.countOf_eq, harrive w hw, hzero]
        rfl
      countOf_eq := fun w hw => by
        rw [hscan.countOf_eq, hscan.arrivals_eq_nil hw]
        rfl }

/-- **Run lemma**: rounds in turn complete a search, if there are enough of them for the vertices
that may be left. -/
theorem exists_completed_levels (hg : g.Consistent) (hs : source < g.nodeCount) {budget : ℕ}
    (h : Explored g source (levels ++ [last]) s) (hnil : [] ∉ levels)
    (hbudget : g.nodeCount ≤ budget + levels.length) : ∃ levels', Completed g source levels'
      (ShortestPaths.levels g budget levels.flatten.length levels.length s) := by
  have hsize : s.order.size = levels.flatten.length + last.length := by
    rw [← Array.length_toList, h.order_eq, List.flatten_append, List.flatten_singleton,
      List.length_append]
  induction budget generalizing levels last s with
  | zero =>
      obtain rfl := h.eq_nil_of_nodeCount_le hg hs hnil (by omega)
      exact ⟨levels, h, hnil⟩
  | succ budget ih =>
      rw [ShortestPaths.levels]
      split
      · have hlast : last ≠ [] := by
          rintro rfl
          simp only [List.length_nil] at hsize
          omega
        obtain ⟨next, hadd⟩ := exists_addsLevel hg h
        have hnext := h.addLevel hg (by simp) hadd
        have hstart : (levels ++ [last]).flatten.length = s.order.size := by
          rw [← Array.length_toList, h.order_eq]
        have hdepth : (levels ++ [last]).length = levels.length + 1 := List.length_append
        have hrest := ih hnext (by simp [hnil, hlast.symm]) (by omega) (by
          rw [← Array.length_toList, hnext.order_eq, List.flatten_append, List.flatten_singleton,
            List.length_append])
        rw [hstart, hdepth] at hrest
        dsimp only
        rwa [← Array.foldl_toList, h.extract_order]
      · obtain rfl : last = [] := List.length_eq_zero_iff.mp (by omega)
        exact ⟨levels, h, hnil⟩

/-- A search in space that can be used again is complete. -/
theorem search_completed (hg : g.Consistent) (hs : source < g.nodeCount)
    (h : s.Reusable g.nodeCount) : ∃ levels, Completed g source levels (s.search g source) := by
  have hstart : Explored g source ([] ++ [[source]]) ((blank α g.nodeCount).prepare g source) :=
    explored_prepare hs
  rw [h.search_eq]
  exact exists_completed_levels hg hs hstart List.not_mem_nil (Nat.le_refl _)

end Betweenness.ShortestPaths
