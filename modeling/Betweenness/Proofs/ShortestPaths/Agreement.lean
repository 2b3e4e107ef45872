import Betweenness.Proofs.ShortestPaths.Counts

/-!
# The two searches agree

`search` lists vertices and predecessors in the order in which it finds them, `levelSearch` in the
order of indices and edges. This is all the difference there is: `Arranges s r` says that `s` is
the outcome `r` with its levels and its lists of predecessors sorted.

Both searches are complete, and what a complete search has found is fixed by the graph up to the
order of its lists (`Completed.level_perm`, `Completed.predecessors_perm`). Counts are added up in
the order of predecessors, so they are the same wherever this order makes no difference to a sum.

## Main results

* `eq_mergeSort_of_increasing`: a list in order is what sorting makes of its rearrangements.
* `Completed.arranges`: a complete search that lists everything in order arranges any other.
* `levelSearch_arranges`: the two searches of a built graph.
-/

namespace Betweenness

/-- A list in the order of distinct keys is what sorting makes of any of its rearrangements. -/
theorem eq_mergeSort_of_increasing {β : Type} (key : β → ℕ) {l l' : List β}
    (hl : l.Pairwise (key · < key ·)) (hperm : l.Perm l') :
    l = l'.mergeSort fun a b => key a ≤ key b := by
  have hsort := List.mergeSort_perm l' fun a b => decide (key a ≤ key b)
  have hsorted : (l'.mergeSort fun a b => decide (key a ≤ key b)).Pairwise (key · ≤ key ·) := by
    refine (List.pairwise_mergeSort (fun a b c hab hbc => ?_) (fun a b => ?_) l').imp
      of_decide_eq_true
    · exact decide_eq_true (Nat.le_trans (of_decide_eq_true hab) (of_decide_eq_true hbc))
    · simpa using Nat.le_total (key a) (key b)
  refine List.Perm.eq_of_pairwise (fun a b ha hb hab hba => ?_) (hl.imp Nat.le_of_lt) hsorted
    (hperm.trans hsort.symm)
  have hkeys : (l.map key).Nodup := List.pairwise_map.mpr (hl.imp Nat.ne_of_lt)
  have hb : b ∈ l := hperm.mem_iff.mpr (hsort.mem_iff.mp hb)
  exact List.inj_on_of_nodup_map hkeys ha hb (Nat.le_antisymm hab hba)

/-- Arrays of the same size are equal if they have the same entries. -/
theorem eq_of_getD_eq {β : Type} {a b : Array β} {x : β} (hsize : a.size = b.size)
    (h : ∀ i : ℕ, a[i]?.getD x = b[i]?.getD x) : a = b := by
  refine Array.ext hsize fun i ha hb => ?_
  have hi := h i
  rwa [Array.getElem?_eq_getElem ha, Array.getElem?_eq_getElem hb] at hi

namespace ShortestPaths

variable {α : Type} [Scalar α]

/-- The outcome `s` of a search is the outcome `r` in order. -/
structure Arranges (s r : ShortestPaths α) : Prop where
  source_eq : s.source = r.source
  distance_eq : s.distance = r.distance
  levelOffsets_eq : s.levelOffsets = r.levelOffsets
  /-- Every level is in the order of indices, and where the one has no level the other has none. -/
  level_eq : ∀ d, s.level? d =
    (r.level? d).map fun level => (level.toList.mergeSort (· ≤ ·)).toArray
  size_predecessors : s.predecessors.size = r.predecessors.size
  /-- The predecessors of every vertex are in the order of edges. -/
  predecessorsOf_eq : ∀ w, (s.predecessorsOf w).toList =
    (r.predecessorsOf w).toList.mergeSort (·.edge ≤ ·.edge)
  /-- Counts are equal if it does not matter in which order they are added up. -/
  pathCount_eq : (∀ a b c : α, a + b + c = a + c + b) → s.pathCount = r.pathCount

/-- Levels of the same sizes start at the same places. -/
theorem starts_congr {levels levels' : List (List ℕ)}
    (h : levels.map List.length = levels'.map List.length) : starts levels = starts levels' := by
  have hlen : levels.length = levels'.length := by simpa using congrArg List.length h
  simp only [starts, List.length_flatten, List.map_take, h, hlen]

variable {g : Graph} {source d w : ℕ} {levels levels' : List (List ℕ)} {s r : ShortestPaths α}

namespace Completed

/-! ### What the graph fixes -/

/-- No complete search has more levels than another, since each of its levels has a vertex. -/
theorem length_levels_le (h : Completed g source levels s) (h' : Completed g source levels' r) :
    levels.length ≤ levels'.length := by
  by_contra hlt
  obtain ⟨v, hv⟩ := h.exists_atDistance (Nat.lt_of_not_le hlt)
  exact Nat.lt_irrefl _ (h'.atDistance_lt hv)

/-- Two complete searches have as many levels. -/
theorem length_levels_eq (h : Completed g source levels s) (h' : Completed g source levels' r) :
    levels.length = levels'.length :=
  Nat.le_antisymm (h.length_levels_le h') (h'.length_levels_le h)

/-- The levels of two complete searches at a distance are rearrangements of each other. -/
theorem level_perm (h : Completed g source levels s) (h' : Completed g source levels' r)
    {level level' : List ℕ} (hlevel : levels[d]? = some level)
    (hlevel' : levels'[d]? = some level') : level.Perm level' :=
  (List.perm_ext_iff_of_nodup (h.nodup_level (List.mem_of_getElem? hlevel))
    (h'.nodup_level (List.mem_of_getElem? hlevel'))).mpr fun _ =>
      (h.mem_level_iff hlevel).trans (h'.mem_level_iff hlevel').symm

/-- So are the predecessors of a vertex. -/
theorem predecessors_perm (h : Completed g source levels s) (h' : Completed g source levels' r) :
    (s.predecessorsOf w).toList.Perm (r.predecessorsOf w).toList :=
  (List.perm_ext_iff_of_nodup (h.predecessors_nodup w) (h'.predecessors_nodup w)).mpr fun _ => by
    rw [Array.mem_toList_iff, Array.mem_toList_iff, h.mem_predecessors_iff,
      h'.mem_predecessors_iff]

/-- The levels of two complete searches have the same sizes. -/
theorem map_length_levels (h : Completed g source levels s) (h' : Completed g source levels' r) :
    levels.map List.length = levels'.map List.length := by
  refine List.ext_getElem ?_ fun k hk hk' => ?_
  · rw [List.length_map, List.length_map, h.length_levels_eq h']
  · rw [List.length_map] at hk hk'
    rw [List.getElem_map, List.getElem_map]
    exact (h.level_perm h' (List.getElem?_eq_getElem hk) (List.getElem?_eq_getElem hk')).length_eq

/-- The levels of two complete searches start at the same places. -/
theorem levelOffsets_congr (h : Completed g source levels s) (h' : Completed g source levels' r) :
    s.levelOffsets = r.levelOffsets := by
  refine Array.toList_inj.mp ?_
  rw [h.levelOffsets_eq, h'.levelOffsets_eq]
  refine starts_congr ?_
  rw [List.map_append, List.map_append, h.map_length_levels h']

/-- Two complete searches have found the same distances. -/
theorem distance_congr (h : Completed g source levels s) (h' : Completed g source levels' r) :
    s.distance = r.distance := by
  refine eq_of_getD_eq (h.size_distance.trans h'.size_distance.symm) (x := none) fun v => ?_
  rw [← distanceOf_eq, ← distanceOf_eq]
  refine Option.ext fun k => ?_
  rw [h.distanceOf_iff, h'.distanceOf_iff]

/-- Two complete searches have counted the same, if it does not matter in which order counts are
added up. -/
theorem countOf_congr (hcomm : ∀ a b c : α, a + b + c = a + c + b)
    (h : Completed g source levels s) (h' : Completed g source levels' r) (w : ℕ) :
    s.countOf w = r.countOf w := by
  induction w using h.forall_of_predecessors with
  | hsource => rw [h.countOf_source, h'.countOf_source]
  | hother w hw => rw [h.countOf_eq_zero hw, h'.countOf_eq_zero hw]
  | hstep w hne ih =>
      have : RightCommutative fun (count : α) (p : Predecessor) => count + r.countOf p.vertex :=
        ⟨fun a p q => hcomm a _ _⟩
      rw [h.countOf_eq w hne, h'.countOf_eq w hne, Explored.foldl_countOf_congr ih]
      exact (h.predecessors_perm h').foldl_eq 0

/-- A complete search that lists everything in order arranges what any other has found. -/
theorem arranges (h : Completed g source levels s) (hsorted : Sorted levels s)
    (h' : Completed g source levels' r) : s.Arranges r where
  source_eq := h.source_eq.trans h'.source_eq.symm
  distance_eq := h.distance_congr h'
  levelOffsets_eq := h.levelOffsets_congr h'
  level_eq d := by
    have hlen := h.length_levels_eq h'
    rcases Nat.lt_or_ge d levels.length with hd | hd
    · have hlevel := List.getElem?_eq_getElem hd
      have hlevel' := List.getElem?_eq_getElem (hlen ▸ hd)
      rw [h.level?_eq hlevel, h'.level?_eq hlevel', Option.map_some]
      exact congrArg (some ∘ List.toArray) (eq_mergeSort_of_increasing id
        (hsorted.level_increasing _ (List.getElem_mem hd)) (h.level_perm h' hlevel hlevel'))
    · rw [h.level?_eq_none hd, h'.level?_eq_none (hlen ▸ hd), Option.map_none]
  size_predecessors := h.size_predecessors.trans h'.size_predecessors.symm
  predecessorsOf_eq w :=
    eq_mergeSort_of_increasing Predecessor.edge (hsorted.predecessors_increasing w)
      (h.predecessors_perm h')
  pathCount_eq hcomm := by
    refine eq_of_getD_eq (h.size_pathCount.trans h'.size_pathCount.symm) (x := 0) fun w => ?_
    rw [← countOf_eq, ← countOf_eq]
    exact h.countOf_congr hcomm h' w

end Completed

/-! ### The two searches -/

/-- Where nothing has been found, nothing is out of order. -/
theorem arranges_blank (n source : ℕ) :
    Arranges { blank α n with source } { blank α n with source } where
  source_eq := rfl
  distance_eq := rfl
  levelOffsets_eq := rfl
  level_eq _ := rfl
  size_predecessors := rfl
  predecessorsOf_eq w := by
    have hempty : predecessorsOf { blank α n with source } w = #[] := getD_replicate
    rw [hempty, List.mergeSort_nil]
  pathCount_eq _ := rfl

/-- Whatever graph is built, whatever its two spaces have been used for, and whether the source is a
vertex or not: the search by levels comes to the outcome of the other search in order. -/
theorem levelSearch_arranges {b : Builder} (hb : b.build = .ok g) (hs : Used α g.nodeCount s)
    (hr : Used α g.nodeCount r) (source : ℕ) :
    (s.levelSearch g source).Arranges (r.search g source) := by
  have hg := Builder.build_consistent hb
  by_cases hsource : source < g.nodeCount
  · obtain ⟨levels, h, hsorted⟩ := exists_completed_sorted_levelSearch hg hsource hs.reusable
    obtain ⟨levels', h'⟩ := search_completed hg hsource hr.reusable
    exact h.arranges hsorted h'
  · rw [hs.reusable.levelSearch_of_not_lt hsource, hr.reusable.search_of_not_lt hsource]
    exact arranges_blank g.nodeCount source

/-- From the last corner of the square the neighbours are found in descending order, and so are the
two ways to the opposite corner. The search by levels, in used space, lists them in order. -/
theorem levelSearch_arranges_square : Builder.square.build = .ok Graph.square ∧
    Used ℕ Graph.square.nodeCount ((blank ℕ 5).search Graph.square 4) ∧
    Used ℕ Graph.square.nodeCount (blank ℕ 5) ∧
    (((blank ℕ 5).search Graph.square 4).levelSearch Graph.square 3).Arranges
      ((blank ℕ 5).search Graph.square 3) ∧
    (((blank ℕ 5).search Graph.square 4).levelSearch Graph.square 3).pathCount =
      #[1, 2, 1, 1, 0] ∧
    ((blank ℕ 5).search Graph.square 3).level? 1 = some #[2, 0] ∧
    (((blank ℕ 5).search Graph.square 4).levelSearch Graph.square 3).level? 1 = some #[0, 2] ∧
    ((blank ℕ 5).search Graph.square 3).predecessorsOf 1 = #[⟨2, 1⟩, ⟨0, 0⟩] ∧
    (((blank ℕ 5).search Graph.square 4).levelSearch Graph.square 3).predecessorsOf 1 =
      #[⟨0, 0⟩, ⟨2, 1⟩] := by
  have hnew : Used ℕ Graph.square.nodeCount (blank ℕ 5) := by
    rw [Graph.nodeCount_square]
    exact .blank
  have hused := hnew.search 4 rfl
  have harranges := levelSearch_arranges Builder.build_square hused hnew 3
  obtain ⟨hcount, hlevel, hpredecessors⟩ :
      ((blank ℕ 5).search Graph.square 3).pathCount = #[1, 2, 1, 1, 0] ∧
      ((blank ℕ 5).search Graph.square 3).level? 1 = some #[2, 0] ∧
      ((blank ℕ 5).search Graph.square 3).predecessorsOf 1 = #[⟨2, 1⟩, ⟨0, 0⟩] := by
    rw [Graph.square_eq]
    decide +kernel
  refine ⟨Builder.build_square, hused, hnew, harranges, ?_, hlevel, ?_, hpredecessors, ?_⟩
  · rw [harranges.pathCount_eq Nat.add_right_comm, hcount]
  · rw [harranges.level_eq, hlevel]
    simp [List.mergeSort]
  · refine Array.toList_inj.mp ?_
    rw [harranges.predecessorsOf_eq, hpredecessors]
    simp [List.mergeSort]

end ShortestPaths

end Betweenness
