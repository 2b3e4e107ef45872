import Betweenness.Proofs.ShortestPaths.LevelSearch
import Betweenness.Proofs.ShortestPaths.Search
import Mathlib.Data.Set.Card

/-!
# What a search leaves behind

`ShortestPaths.Describes g source s` says what a caller can read off a finished search: distances
that are least numbers of steps, an order of the reached vertices by distance, and offsets that
cut this order into levels. Both searches describe their graph in this sense, in any arithmetic
and in any space that was used for graphs of this size before.

## Main results

* `Completed.describes`: a complete search describes its graph.
* `search_describes`: the search that pushes counts forward, on a built graph.
* `levelSearch_describes`: the search that pulls counts level by level.
-/

namespace Betweenness.ShortestPaths

variable {α : Type} [Scalar α]

/-- What can be read off a search is what the graph says. -/
structure Describes (g : Graph) (source : ℕ) (s : ShortestPaths α) : Prop where
  /-- There is a distance for every vertex, if there is one. -/
  size_distance : s.distance.size = g.nodeCount
  /-- The distance of a vertex is the least number of steps of a walk to it. -/
  distanceOf_iff : ∀ v d, s.distanceOf v = some d ↔ g.AtDistance source d v
  /-- Without a walk there is no distance, and only then. -/
  distanceOf_eq_none_iff : ∀ v, s.distanceOf v = none ↔ ¬ g.Reaches source v
  /-- Distances are less than the number of vertices. -/
  distance_lt : ∀ v d, s.distanceOf v = some d → d < g.nodeCount
  /-- The order lists the vertices that are reached. -/
  mem_order : ∀ v, v ∈ s.order ↔ g.Reaches source v
  /-- No vertex is listed twice. -/
  nodup_order : s.order.toList.Nodup
  /-- The source is listed first. -/
  order_first : s.order[0]? = some source
  /-- Vertices are listed by distance. -/
  order_sorted : s.order.toList.Pairwise fun v w => g.distance source v ≤ g.distance source w
  /-- The first level starts at the beginning. -/
  offsets_first : s.levelOffsets[0]? = some 0
  /-- Every level starts behind the one before. -/
  offsets_increasing : s.levelOffsets.toList.Pairwise (· < ·)
  /-- The last level ends where the order ends. -/
  offsets_last : s.levelOffsets.back? = some s.order.size
  /-- A level holds the vertices at its distance, each once. -/
  level_eq : ∀ d < s.depth, ∃ level, s.level? d = some level ∧ level.toList.Nodup ∧
    ∀ v, v ∈ level ↔ g.AtDistance source d v
  isReachable_iff : ∀ v, s.isReachable v = true ↔ g.Reaches source v
  reached_eq : s.reached = {v | g.Reaches source v}.ncard
  /-- There is one level more than the greatest distance. -/
  depth_eq : ∃ e, IsGreatest {d | ∃ v, g.AtDistance source d v} e ∧ s.depth = e + 1

variable {g : Graph} {source : ℕ} {levels : List (List ℕ)} {s : ShortestPaths α}

/-- Levels that are not empty start one behind the other. -/
theorem starts_increasing {levels : List (List ℕ)} (h : [] ∉ levels) :
    (starts levels ++ [levels.flatten.length]).Pairwise (· < ·) := by
  induction levels using List.reverseRecOn with
  | nil => exact List.pairwise_singleton _ _
  | append_singleton levels level ih =>
      rw [List.mem_append, not_or, List.mem_singleton] at h
      have hpos := List.length_pos_iff.mpr (Ne.symm h.2)
      rw [starts_concat]
      refine List.pairwise_append.mpr ⟨ih h.1, List.pairwise_singleton _ _, fun a ha b hb => ?_⟩
      obtain rfl := List.mem_singleton.mp hb
      have hle : a ≤ levels.flatten.length := by
        rcases List.mem_append.mp ha with ha | ha
        · have hlt := (List.pairwise_append.mp (ih h.1)).2.2 a ha _ (List.mem_singleton_self _)
          exact Nat.le_of_lt hlt
        · exact Nat.le_of_eq (List.mem_singleton.mp ha)
      rw [List.flatten_append, List.flatten_singleton, List.length_append]
      omega

namespace Completed

/-- The source is the only vertex of the first level. -/
theorem exists_levels_eq (h : Completed g source levels s) :
    ∃ rest, levels = [source] :: rest := by
  have hpos := h.atDistance_lt (Graph.atDistance_zero_iff.mpr rfl)
  cases levels with
  | nil => exact absurd hpos (Nat.not_lt_zero 0)
  | cons level rest =>
      refine ⟨rest, congrArg (· :: rest) ?_⟩
      have hmem : ∀ v, v ∈ level ↔ v = source := fun v =>
        (h.mem_level_iff (d := 0) rfl).trans Graph.atDistance_zero_iff
      have hnodup := h.nodup_level List.mem_cons_self
      cases level with
      | nil => exact absurd ((hmem source).mpr rfl) List.not_mem_nil
      | cons v level =>
          obtain rfl := (hmem v).mp List.mem_cons_self
          refine congrArg (v :: ·) (List.eq_nil_iff_forall_not_mem.mpr fun w hw => ?_)
          obtain rfl := (hmem w).mp (List.mem_cons_of_mem _ hw)
          exact (List.nodup_cons.mp hnodup).1 hw

/-- There are no more levels than vertices. -/
theorem length_le (hg : g.Consistent) (hs : source < g.nodeCount)
    (h : Completed g source levels s) : levels.length ≤ g.nodeCount := by
  have hmany := length_le_length_flatten h.nil_notMem
  have hroom := h.size_order_le hg hs
  rw [← Array.length_toList, h.order_eq_flatten] at hroom
  exact hmany.trans hroom

/-- There is no distance exactly where no walk leads. -/
theorem distanceOf_eq_none_iff (h : Completed g source levels s) {v : ℕ} :
    s.distanceOf v = none ↔ ¬ g.Reaches source v := by
  rw [Option.eq_none_iff_forall_ne_some]
  simp only [ne_eq, h.distanceOf_iff]
  exact ⟨fun hnot hv => hnot _ hv.atDistance, fun hnot d hd => hnot hd.reaches⟩

/-- Every level has a vertex. -/
theorem exists_atDistance (h : Completed g source levels s) {d : ℕ} (hd : d < levels.length) :
    ∃ v, g.AtDistance source d v := by
  obtain ⟨v, hv⟩ := List.exists_mem_of_ne_nil _ fun hnil : levels[d] = [] =>
    h.nil_notMem (hnil ▸ List.getElem_mem hd)
  exact ⟨v, (h.mem_level_iff (List.getElem?_eq_getElem hd)).mp hv⟩

/-- A complete search describes its graph. -/
theorem describes (hg : g.Consistent) (hs : source < g.nodeCount)
    (h : Completed g source levels s) : s.Describes g source := by
  obtain ⟨rest, hrest⟩ := h.exists_levels_eq
  refine
    { size_distance := h.size_distance
      distanceOf_iff := fun v d => h.distanceOf_iff
      distanceOf_eq_none_iff := fun v => h.distanceOf_eq_none_iff
      distance_lt := fun v d hd =>
        Nat.lt_of_lt_of_le (h.atDistance_lt (h.distanceOf_iff.mp hd)) (h.length_le hg hs)
      mem_order := fun v => Array.mem_toList_iff.symm.trans h.mem_order_iff
      nodup_order := h.nodup_order
      order_first := ?order_first
      order_sorted := ?order_sorted
      offsets_first := ?offsets_first
      offsets_increasing := ?offsets_increasing
      offsets_last := ?offsets_last
      level_eq := ?level_eq
      isReachable_iff := ?isReachable_iff
      reached_eq := ?reached_eq
      depth_eq := ?depth_eq }
  case order_first =>
    rw [← Array.getElem?_toList, h.order_eq_flatten, hrest]
    rfl
  case order_sorted =>
    refine h.order_sorted.imp_of_mem fun hv hw hle => ?_
    exact hle _ _ (h.mem_order_iff.mp hv).atDistance (h.mem_order_iff.mp hw).atDistance
  case offsets_first =>
    rw [h.getElem?_levelOffsets (Nat.zero_le _)]
    rfl
  case offsets_increasing =>
    rw [h.levelOffsets_eq_starts]
    exact starts_increasing h.nil_notMem
  case offsets_last =>
    rw [← Array.getLast?_toList, h.levelOffsets_eq_starts, List.getLast?_concat,
      ← h.order_eq_flatten, Array.length_toList]
  case level_eq =>
    intro d hd
    rw [h.depth_eq] at hd
    have hlevel := List.getElem?_eq_getElem hd
    refine ⟨_, h.level?_eq hlevel, h.nodup_level (List.getElem_mem hd), fun v => ?_⟩
    rw [List.mem_toArray, h.mem_level_iff hlevel]
  case isReachable_iff =>
    intro v
    rw [isReachable, Option.isSome_iff_ne_none, ne_eq, h.distanceOf_eq_none_iff, not_not]
  case reached_eq =>
    have hset : {v | g.Reaches source v} = ↑s.order.toList.toFinset := by
      ext v
      simpa using h.mem_order_iff.symm
    rw [hset, Set.ncard_coe_finset, List.toFinset_card_of_nodup h.nodup_order,
      Array.length_toList]
    rfl
  case depth_eq =>
    have hlen : levels.length = rest.length + 1 := by rw [hrest, List.length_cons]
    refine ⟨rest.length, ⟨h.exists_atDistance (by omega), ?_⟩, ?_⟩
    · rintro d ⟨w, hw⟩
      have hlt := h.atDistance_lt hw
      omega
    · rw [h.depth_eq, hlen]

end Completed

omit [Scalar α] in
/-- A search from where a walk leads to every vertex reaches them all. -/
theorem Describes.reached_eq_nodeCount (hg : g.Consistent) (hs : source < g.nodeCount)
    (h : s.Describes g source) (hall : ∀ v < g.nodeCount, g.Reaches source v) :
    s.reached = g.nodeCount := by
  have hset : {v | g.Reaches source v} = ↑(Finset.range g.nodeCount) := by
    ext v
    simpa using ⟨fun hv => hg.lt_of_reaches hv hs, hall v⟩
  rw [h.reached_eq, hset, Set.ncard_coe_finset, Finset.card_range]

/-! ### Searches of built graphs -/

variable {b : Builder}

/-- Whatever graph is built, and whatever searches the space has been used for: a search from a
vertex describes the graph around it. -/
theorem search_describes (hb : b.build = .ok g) (hs : source < g.nodeCount)
    (hused : Used α g.nodeCount s) : (s.search g source).Describes g source := by
  have hg := Builder.build_consistent hb
  obtain ⟨levels, h⟩ := search_completed hg hs hused.reusable
  exact h.describes hg hs

/-- A search from a corner of the square, after one from the vertex beside it. -/
theorem search_describes_square : Builder.square.build = .ok Graph.square ∧
    0 < Graph.square.nodeCount ∧
    Used Rat Graph.square.nodeCount ((blank Rat 5).search Graph.square 4) ∧
    (((blank Rat 5).search Graph.square 4).search Graph.square 0).Describes Graph.square 0 ∧
    (((blank Rat 5).search Graph.square 4).search Graph.square 0).distance =
      #[some 0, some 1, some 2, some 1, none] := by
  have hs : 0 < Graph.square.nodeCount := by simp
  have hused : Used Rat Graph.square.nodeCount ((blank Rat 5).search Graph.square 4) := by
    rw [Graph.nodeCount_square]
    exact .search 4 Graph.nodeCount_square .blank
  refine ⟨Builder.build_square, hs, hused, search_describes Builder.build_square hs hused, ?_⟩
  rw [Graph.square_eq]
  decide +kernel

/-- A search by levels describes the graph as well. -/
theorem levelSearch_describes (hb : b.build = .ok g) (hs : source < g.nodeCount)
    (hused : Used α g.nodeCount s) : (s.levelSearch g source).Describes g source := by
  have hg := Builder.build_consistent hb
  obtain ⟨levels, h⟩ := levelSearch_completed hg hs hused.reusable
  exact h.describes hg hs

end Betweenness.ShortestPaths
