import Betweenness.Proofs.Graph.Walk
import Betweenness.Proofs.ShortestPaths.Reuse

/-!
# Searches by levels

What is known in the course of a search, for a list of levels that only the proof keeps:
`Explored g source levels s` says that the space `s` describes the graph up to the last of these
levels, in the arithmetic `α`, and that this last level is the frontier, whose arcs have not been
followed. `AddsLevel g d next s s'` is what one round of either search does to the space, in terms
of the space only.

Both searches come to `Explored g source (levels ++ [[]]) s` with no empty level before the last:
nothing lies beyond, so that the search is complete (`Completed`).

## Main results

* `Explored.addLevel`: the step lemma, from what a round does to what is known after it.
* `Explored.of_budget`: the graph has no room for a frontier after as many levels as it has
  vertices.
* `Completed.atDistance_lt`, `Completed.level_eq`: what is known at the end.
-/

namespace Betweenness.ShortestPaths

/-! ### Offsets of levels -/

/-- Where each of some levels starts when they are written one after another. -/
def starts (levels : List (List ℕ)) : List ℕ :=
  (List.range levels.length).map fun d => (levels.take d).flatten.length

@[simp] theorem length_starts (levels : List (List ℕ)) :
    (starts levels).length = levels.length := by
  simp [starts]

/-- A further level starts where those before it end. -/
theorem starts_concat (levels : List (List ℕ)) (next : List ℕ) :
    starts (levels ++ [next]) = starts levels ++ [levels.flatten.length] := by
  simp only [starts, List.length_append, List.length_singleton, List.range_succ, List.map_append,
    List.map_singleton, List.take_left']
  congr 1
  refine List.map_congr_left fun d hd => ?_
  rw [List.take_append_of_le_length (Nat.le_of_lt (List.mem_range.mp hd))]

theorem getElem?_starts {levels : List (List ℕ)} {d : ℕ} (hd : d < levels.length) :
    (starts levels)[d]? = some (levels.take d).flatten.length := by
  simp [starts, hd]

/-- Levels written one after another can be cut apart at their offsets. -/
theorem drop_take_flatten {levels : List (List ℕ)} {d : ℕ} {level : List ℕ}
    (hd : levels[d]? = some level) :
    (levels.flatten.take (levels.take (d + 1)).flatten.length).drop
      (levels.take d).flatten.length = level := by
  obtain ⟨hlt, hget⟩ := List.getElem?_eq_some_iff.mp hd
  have hsplit : levels.flatten =
      (levels.take (d + 1)).flatten ++ (levels.drop (d + 1)).flatten := by
    rw [← List.flatten_append, List.take_append_drop]
  have hlevel : (levels.take (d + 1)).flatten = (levels.take d).flatten ++ level := by
    rw [List.take_succ_eq_append_getElem hlt, List.flatten_append, hget, List.flatten_singleton]
  rw [hsplit, List.take_left' rfl, hlevel, List.drop_left' rfl]

/-- Lists of at least some length, written one after another, are as many times as long. -/
theorem length_mul_le_length_flatten {least : ℕ} {lists : List (List ℕ)}
    (h : ∀ l ∈ lists, least ≤ l.length) : lists.length * least ≤ lists.flatten.length := by
  induction lists with
  | nil => simp
  | cons l lists ih =>
      have hfirst := h l List.mem_cons_self
      have hrest := ih fun l hl => h l (List.mem_cons_of_mem _ hl)
      rw [List.length_cons, List.flatten_cons, List.length_append, Nat.succ_mul]
      omega

/-- Levels that are not empty have as many vertices as there are levels, at least. -/
theorem length_le_length_flatten {levels : List (List ℕ)} (h : [] ∉ levels) :
    levels.length ≤ levels.flatten.length := by
  have hpos : ∀ level ∈ levels, 1 ≤ level.length := fun level hlevel =>
    List.length_pos_iff.mpr fun hnil => h (hnil ▸ hlevel)
  simpa using length_mul_le_length_flatten hpos

/-! ### The course of a search -/

variable {α : Type} [Scalar α]

/-- The space `s` describes the levels around the source, as far as they are given. -/
structure Explored (g : Graph) (source : ℕ) (levels : List (List ℕ)) (s : ShortestPaths α) :
    Prop where
  source_eq : s.source = source
  size_distance : s.distance.size = g.nodeCount
  size_pathCount : s.pathCount.size = g.nodeCount
  size_predecessors : s.predecessors.size = g.nodeCount
  order_eq : s.order.toList = levels.flatten
  levelOffsets_eq : s.levelOffsets.toList = starts levels
  nodup : levels.flatten.Nodup
  mem_level : ∀ d level, levels[d]? = some level → ∀ v, v ∈ level ↔ g.AtDistance source d v
  distanceOf_eq : ∀ v d, s.distanceOf v = some d ↔ d < levels.length ∧ g.AtDistance source d v
  mem_predecessors : ∀ w p, p ∈ s.predecessorsOf w ↔ ∃ d, d + 1 < levels.length ∧
    g.AtDistance source d p.vertex ∧ g.AtDistance source (d + 1) w ∧ g.Joins p.edge p.vertex w
  predecessors_nodup : ∀ w, (s.predecessorsOf w).toList.Nodup
  /-- One path leads to the source. -/
  countOf_source : s.countOf source = 1
  /-- The paths to another vertex are those to its predecessors. -/
  countOf_eq : ∀ w, w ≠ source → s.countOf w =
    (s.predecessorsOf w).toList.foldl (fun count p => count + s.countOf p.vertex) 0

/-- A round of a search has reached the vertices one step beyond distance `d`: those listed in
`next`. Everything else is as it was. -/
structure AddsLevel (g : Graph) (d : ℕ) (next : List ℕ) (s s' : ShortestPaths α) : Prop where
  source_eq : s'.source = s.source
  size_distance : s'.distance.size = s.distance.size
  size_pathCount : s'.pathCount.size = s.pathCount.size
  size_predecessors : s'.predecessors.size = s.predecessors.size
  order_eq : s'.order.toList = s.order.toList ++ next
  levelOffsets_eq : s'.levelOffsets = s.levelOffsets.push s.order.size
  nodup : next.Nodup
  mem_next : ∀ w, w ∈ next ↔
    s.isUnreached w = true ∧ ∃ v, s.distanceOf v = some d ∧ g.Linked v w
  distanceOf_eq : ∀ v, s'.distanceOf v = if v ∈ next then some (d + 1) else s.distanceOf v
  mem_predecessors : ∀ w ∈ next, ∀ p, p ∈ s'.predecessorsOf w ↔
    s.distanceOf p.vertex = some d ∧ g.Joins p.edge p.vertex w
  predecessors_nodup : ∀ w ∈ next, (s'.predecessorsOf w).toList.Nodup
  predecessorsOf_eq : ∀ w, w ∉ next → s'.predecessorsOf w = s.predecessorsOf w
  countOf_next : ∀ w ∈ next, s'.countOf w =
    (s'.predecessorsOf w).toList.foldl (fun count p => count + s.countOf p.vertex) 0
  countOf_eq : ∀ w, w ∉ next → s'.countOf w = s.countOf w

/-- A search is complete: nothing lies beyond the levels, and none of them is empty. -/
structure Completed (g : Graph) (source : ℕ) (levels : List (List ℕ)) (s : ShortestPaths α) :
    Prop extends Explored g source (levels ++ [[]]) s where
  nil_notMem : [] ∉ levels

variable {g : Graph} {source d : ℕ} {levels : List (List ℕ)} {next : List ℕ}
  {s s' : ShortestPaths α}

namespace Explored

/-- The counts that a vertex adds up do not change while others are counted. -/
theorem foldl_countOf_congr {l : List Predecessor} {c : α}
    (h : ∀ p ∈ l, s'.countOf p.vertex = s.countOf p.vertex) :
    l.foldl (fun count p => count + s'.countOf p.vertex) c =
      l.foldl (fun count p => count + s.countOf p.vertex) c := by
  refine List.foldl_ext _ _ _ fun count p hp => ?_
  rw [h p hp]

/-- An unreached vertex is farther than the levels so far. -/
theorem isUnreached_iff (h : Explored g source levels s) {w : ℕ} : s.isUnreached w = true ↔
      w < g.nodeCount ∧ ∀ k < levels.length, ¬ g.AtDistance source k w := by
  rw [ShortestPaths.isUnreached_iff, h.size_distance, Option.eq_none_iff_forall_ne_some]
  refine and_congr_right fun _ => ⟨fun hne k hk hat => ?_, fun hne k hk => ?_⟩
  · exact hne k ((h.distanceOf_eq w k).mpr ⟨hk, hat⟩)
  · obtain ⟨hk, hat⟩ := (h.distanceOf_eq w k).mp hk
    exact hne k hk hat

/-- **Step lemma**: a round takes a search from one level to the next. -/
theorem addLevel (hg : g.Consistent) (h : Explored g source levels s)
    (hlen : levels.length = d + 1) (hadd : AddsLevel g d next s s') :
    Explored g source (levels ++ [next]) s' := by
  have hd : ∀ v, s.distanceOf v = some d ↔ g.AtDistance source d v := fun v => by
    rw [h.distanceOf_eq, hlen]
    exact and_iff_right (Nat.lt_succ_self d)
  have hnext : ∀ w, w ∈ next ↔ g.AtDistance source (d + 1) w := by
    intro w
    simp only [hadd.mem_next, h.isUnreached_iff, hd, Graph.atDistance_succ_iff, hlen,
      Nat.lt_succ_iff]
    constructor
    · rintro ⟨⟨-, hfar⟩, hnear⟩
      exact ⟨hnear, hfar⟩
    · rintro ⟨⟨v, hv, hvw⟩, hfar⟩
      exact ⟨⟨(hg.lt_of_linked hvw).2, hfar⟩, v, hv, hvw⟩
  -- A vertex of an earlier level is none of the next.
  have hold : ∀ {k v}, k ≤ d → g.AtDistance source k v → v ∉ next := by
    intro k v hk hv hmem
    have := hv.unique ((hnext v).mp hmem)
    omega
  have hlen' : (levels ++ [next]).length = d + 2 := by
    rw [List.length_append, hlen, List.length_singleton]
  have hflatten : (levels ++ [next]).flatten = levels.flatten ++ next := by
    rw [List.flatten_append, List.flatten_singleton]
  refine
    { source_eq := hadd.source_eq.trans h.source_eq
      size_distance := hadd.size_distance.trans h.size_distance
      size_pathCount := hadd.size_pathCount.trans h.size_pathCount
      size_predecessors := hadd.size_predecessors.trans h.size_predecessors
      order_eq := by rw [hadd.order_eq, h.order_eq, hflatten]
      levelOffsets_eq := ?levelOffsets_eq
      nodup := ?nodup
      mem_level := ?mem_level
      distanceOf_eq := ?distanceOf_eq
      mem_predecessors := ?mem_predecessors
      predecessors_nodup := ?predecessors_nodup
      countOf_source := ?countOf_source
      countOf_eq := ?countOf_eq }
  case levelOffsets_eq =>
    rw [hadd.levelOffsets_eq, Array.toList_push, h.levelOffsets_eq, starts_concat, ← h.order_eq,
      Array.length_toList]
  case nodup =>
    rw [hflatten]
    refine h.nodup.append hadd.nodup fun v hv hmem => ?_
    obtain ⟨level, hlevel, hv⟩ := List.mem_flatten.mp hv
    obtain ⟨k, hk⟩ := List.mem_iff_getElem?.mp hlevel
    have hlt := (List.getElem?_eq_some_iff.mp hk).1
    exact hold (by omega) ((h.mem_level k level hk v).mp hv) hmem
  case mem_level =>
    intro k level hk v
    have hlt := (List.getElem?_eq_some_iff.mp hk).1
    rcases Nat.lt_or_ge k levels.length with hk' | hk'
    · rw [List.getElem?_append_left hk'] at hk
      exact h.mem_level k level hk v
    · obtain rfl : k = d + 1 := by omega
      rw [← hlen, List.getElem?_concat_length] at hk
      cases hk
      exact hnext v
  case distanceOf_eq =>
    intro v k
    rw [hadd.distanceOf_eq, hlen']
    split
    · rename_i hv
      have hat := (hnext v).mp hv
      constructor
      · rintro ⟨⟩
        exact ⟨by omega, hat⟩
      · rintro ⟨-, hk⟩
        rw [hat.unique hk]
    · rename_i hv
      rw [h.distanceOf_eq, hlen]
      refine ⟨fun ⟨hk, hat⟩ => ⟨by omega, hat⟩, fun ⟨hk, hat⟩ => ⟨?_, hat⟩⟩
      rcases Nat.lt_succ_iff_lt_or_eq.mp hk with hk | rfl
      · exact hk
      · exact absurd ((hnext v).mpr hat) hv
  case mem_predecessors =>
    intro w p
    rw [hlen']
    by_cases hw : w ∈ next
    · have hat := (hnext w).mp hw
      rw [hadd.mem_predecessors w hw, hd]
      constructor
      · rintro ⟨hp, hjoins⟩
        exact ⟨d, by omega, hp, hat, hjoins⟩
      · rintro ⟨k, -, hp, hk, hjoins⟩
        obtain rfl : d = k := Nat.succ.inj (hat.unique hk)
        exact ⟨hp, hjoins⟩
    · rw [hadd.predecessorsOf_eq w hw, h.mem_predecessors, hlen]
      constructor
      · rintro ⟨k, hk, h⟩
        exact ⟨k, by omega, h⟩
      · rintro ⟨k, hk, hp, hat, hjoins⟩
        have hne : k ≠ d := by
          rintro rfl
          exact hw ((hnext w).mpr hat)
        exact ⟨k, by omega, hp, hat, hjoins⟩
  case predecessors_nodup =>
    intro w
    by_cases hw : w ∈ next
    · exact hadd.predecessors_nodup w hw
    · rw [hadd.predecessorsOf_eq w hw]
      exact h.predecessors_nodup w
  case countOf_source =>
    rw [hadd.countOf_eq source (hold (Nat.zero_le d) (Graph.atDistance_zero_iff.mpr rfl))]
    exact h.countOf_source
  case countOf_eq =>
    intro w hw
    -- The vertices whose counts are added up are in the levels so far, so their counts stay.
    have hstay : ∀ k v, k < levels.length → g.AtDistance source k v →
        s'.countOf v = s.countOf v := fun k v hk hv => hadd.countOf_eq v (hold (by omega) hv)
    by_cases hmem : w ∈ next
    · rw [hadd.countOf_next w hmem, foldl_countOf_congr fun p hp => ?_]
      obtain ⟨hp, -⟩ := (hadd.mem_predecessors w hmem p).mp (Array.mem_toList_iff.mp hp)
      exact (hstay d p.vertex (by omega) ((hd p.vertex).mp hp)).symm
    · rw [hadd.countOf_eq w hmem, hadd.predecessorsOf_eq w hmem, h.countOf_eq w hw,
        foldl_countOf_congr fun p hp => ?_]
      obtain ⟨k, hk, hp, -⟩ := (h.mem_predecessors w p).mp (Array.mem_toList_iff.mp hp)
      exact (hstay k p.vertex (by omega) hp).symm

/-- An unreached vertex has no predecessors. -/
theorem predecessorsOf_eq_empty (h : Explored g source levels s) {w : ℕ}
    (hw : s.distanceOf w = none) : s.predecessorsOf w = #[] := by
  refine Array.eq_empty_iff_forall_not_mem.mpr fun p hp => ?_
  obtain ⟨d, hd, -, hat, -⟩ := (h.mem_predecessors w p).mp hp
  rw [(h.distanceOf_eq w (d + 1)).mpr ⟨hd, hat⟩] at hw
  cases hw

/-- No path is counted to an unreached vertex. -/
theorem countOf_eq_zero (h : Explored g source levels s) (hlevels : levels ≠ []) {w : ℕ}
    (hw : s.distanceOf w = none) : s.countOf w = 0 := by
  have hne : w ≠ source := by
    rintro rfl
    rw [(h.distanceOf_eq w 0).mpr ⟨List.length_pos_iff.mpr hlevels,
      Graph.atDistance_zero_iff.mpr rfl⟩] at hw
    cases hw
  rw [h.countOf_eq w hne, h.predecessorsOf_eq_empty hw]
  rfl

/-- No level lists a vertex twice. -/
theorem nodup_level (h : Explored g source levels s) {level : List ℕ} (hlevel : level ∈ levels) :
    level.Nodup :=
  (List.nodup_flatten.mp h.nodup).1 level hlevel

/-- The frontier is at the last distance. -/
theorem mem_last_iff {last : List ℕ} (h : Explored g source (levels ++ [last]) s) {v : ℕ} :
    v ∈ last ↔ s.distanceOf v = some levels.length := by
  rw [h.mem_level levels.length last List.getElem?_concat_length, h.distanceOf_eq]
  simp

/-- The frontier ends the order. -/
theorem extract_order {last : List ℕ} (h : Explored g source (levels ++ [last]) s) :
    (s.order.extract levels.flatten.length s.order.size).toList = last := by
  rw [Array.toList_extract, h.order_eq, ← Array.length_toList, h.order_eq, List.flatten_append,
    List.flatten_singleton, List.extract_eq_take_drop]
  simp

/-- No more vertices are listed than there are. -/
theorem length_flatten_le (hg : g.Consistent) (hs : source < g.nodeCount)
    (h : Explored g source levels s) : levels.flatten.length ≤ g.nodeCount := by
  have hvertices : levels.flatten ⊆ List.range g.nodeCount := by
    intro v hv
    obtain ⟨level, hlevel, hv⟩ := List.mem_flatten.mp hv
    obtain ⟨k, hk⟩ := List.mem_iff_getElem?.mp hlevel
    exact List.mem_range.mpr (hg.lt_of_reaches ((h.mem_level k level hk v).mp hv).reaches hs)
  exact (h.nodup.length_le_of_subset hvertices).trans_eq List.length_range

/-- Once as many levels are explored as there are vertices, the frontier is empty. -/
theorem eq_nil_of_nodeCount_le (hg : g.Consistent) (hs : source < g.nodeCount) {last : List ℕ}
    (h : Explored g source (levels ++ [last]) s) (hnil : [] ∉ levels)
    (hle : g.nodeCount ≤ levels.length) : last = [] := by
  have hroom := h.length_flatten_le hg hs
  have hmany := length_le_length_flatten hnil
  rw [List.flatten_append, List.flatten_singleton, List.length_append] at hroom
  exact List.length_eq_zero_iff.mp (by omega)

end Explored

/-- A search that has marked the source and nothing else has explored the level of the source. -/
theorem explored_prepare (hs : source < g.nodeCount) :
    Explored g source [[source]] ((blank α g.nodeCount).prepare g source) := by
  have hprepare : (blank α g.nodeCount).prepare g source =
      start { blank α g.nodeCount with source } := by
    rw [prepare, (reusable_blank g.nodeCount).clear_eq, if_pos hs]
  have hdistance : ∀ v, (start { blank α g.nodeCount with source }).distanceOf v =
      if v = source then some 0 else none := by
    intro v
    rw [distanceOf_eq, start, Array.getElem?_setIfInBounds]
    by_cases hv : v = source
    · simp [blank, hv, hs]
    · rw [if_neg (Ne.symm hv), if_neg hv]
      exact distanceOf_eq.symm.trans ((reusable_blank (α := α) g.nodeCount).distance_unmarked v
        (Array.not_mem_empty v))
  have hpredecessors : ∀ w, (start { blank α g.nodeCount with source }).predecessorsOf w = #[] :=
    fun w => (reusable_blank (α := α) g.nodeCount).predecessors_unmarked w
      (Array.not_mem_empty w)
  rw [hprepare]
  refine
    { source_eq := rfl
      size_distance := by simp [start, blank]
      size_pathCount := by simp [start, blank]
      size_predecessors := by simp [start, blank]
      order_eq := rfl
      levelOffsets_eq := rfl
      nodup := List.nodup_singleton source
      mem_level := ?mem_level
      distanceOf_eq := ?distanceOf_eq
      mem_predecessors := ?mem_predecessors
      predecessors_nodup := fun w => by rw [hpredecessors w]; exact List.nodup_nil
      countOf_source := by simp [countOf, start, blank, hs]
      countOf_eq := ?countOf_eq }
  case mem_level =>
    intro k level hk v
    have hlt := (List.getElem?_eq_some_iff.mp hk).1
    obtain rfl : k = 0 := Nat.lt_one_iff.mp hlt
    cases hk
    rw [List.mem_singleton, Graph.atDistance_zero_iff]
  case distanceOf_eq =>
    intro v k
    rw [hdistance, List.length_singleton, Nat.lt_one_iff]
    split
    · rename_i hv
      constructor
      · rintro ⟨⟩
        exact ⟨rfl, Graph.atDistance_zero_iff.mpr hv⟩
      · rintro ⟨rfl, -⟩
        rfl
    · rename_i hv
      refine ⟨fun h => absurd h (by simp), ?_⟩
      rintro ⟨rfl, hat⟩
      exact absurd (Graph.atDistance_zero_iff.mp hat) hv
  case mem_predecessors =>
    intro w p
    rw [hpredecessors w]
    refine ⟨fun h => absurd h (Array.not_mem_empty p), ?_⟩
    rintro ⟨k, hk, -⟩
    rw [List.length_singleton] at hk
    omega
  case countOf_eq =>
    intro w hw
    rw [hpredecessors w, countOf_eq, start, Array.getElem?_setIfInBounds_ne (Ne.symm hw)]
    exact countOf_eq.symm.trans ((reusable_blank (α := α) g.nodeCount).count_unmarked w
      (Array.not_mem_empty w))

/-! ### Complete searches -/

namespace Completed

/-- Nothing lies beyond the levels of a complete search. -/
theorem atDistance_lt (h : Completed g source levels s) {v : ℕ} (hv : g.AtDistance source d v) :
    d < levels.length := by
  by_contra hd
  obtain ⟨w, hw⟩ := hv.exists_of_le (Nat.le_of_not_lt hd)
  have hmem := (h.mem_level levels.length [] List.getElem?_concat_length w).mpr hw
  cases hmem

/-- The distance that is kept for a vertex is its distance. -/
theorem distanceOf_iff (h : Completed g source levels s) {v : ℕ} :
    s.distanceOf v = some d ↔ g.AtDistance source d v := by
  rw [h.distanceOf_eq, List.length_append]
  exact and_iff_right_of_imp fun hv => Nat.lt_succ_of_lt (h.atDistance_lt hv)

/-- The levels hold the vertices at their distances. -/
theorem mem_level_iff (h : Completed g source levels s) {level : List ℕ}
    (hlevel : levels[d]? = some level) {v : ℕ} : v ∈ level ↔ g.AtDistance source d v := by
  have hlt := (List.getElem?_eq_some_iff.mp hlevel).1
  exact h.mem_level d level (by rw [List.getElem?_append_left hlt, hlevel]) v

/-- No level lists a vertex twice. -/
theorem nodup_level (h : Completed g source levels s) {level : List ℕ} (hlevel : level ∈ levels) :
    level.Nodup :=
  h.toExplored.nodup_level (List.mem_append_left _ hlevel)

theorem order_eq_flatten (h : Completed g source levels s) : s.order.toList = levels.flatten := by
  rw [h.order_eq, List.flatten_append, List.flatten_singleton, List.append_nil]

/-- No more vertices are reached than there are. -/
theorem size_order_le (hg : g.Consistent) (hs : source < g.nodeCount)
    (h : Completed g source levels s) : s.order.size ≤ g.nodeCount := by
  rw [← Array.length_toList, h.order_eq]
  exact h.toExplored.length_flatten_le hg hs

/-- The order lists the vertices that are reached. -/
theorem mem_order_iff (h : Completed g source levels s) {v : ℕ} :
    v ∈ s.order.toList ↔ g.Reaches source v := by
  rw [h.order_eq_flatten, List.mem_flatten]
  constructor
  · rintro ⟨level, hlevel, hv⟩
    obtain ⟨k, hk⟩ := List.mem_iff_getElem?.mp hlevel
    exact ((h.mem_level_iff hk).mp hv).reaches
  · intro hv
    have hlt := h.atDistance_lt hv.atDistance
    have hget := List.getElem?_eq_getElem hlt
    exact ⟨_, List.mem_of_getElem? hget, (h.mem_level_iff hget).mpr hv.atDistance⟩

theorem nodup_order (h : Completed g source levels s) : s.order.toList.Nodup := by
  rw [h.order_eq]
  exact h.nodup

/-- The steps by which shortest paths come to a vertex are kept as its predecessors. -/
theorem mem_predecessors_iff (h : Completed g source levels s) {w : ℕ} {p : Predecessor} :
    p ∈ s.predecessorsOf w ↔ ∃ d, g.AtDistance source d p.vertex ∧
      g.AtDistance source (d + 1) w ∧ g.Joins p.edge p.vertex w := by
  rw [h.mem_predecessors]
  constructor
  · rintro ⟨d, -, hp⟩
    exact ⟨d, hp⟩
  · rintro ⟨d, hp, hw, hjoins⟩
    have hlt := h.atDistance_lt hw
    exact ⟨d, by rw [List.length_append]; omega, hp, hw, hjoins⟩

/-- The offsets are where the levels start and, at last, where the order ends. -/
theorem levelOffsets_eq_starts (h : Completed g source levels s) :
    s.levelOffsets.toList = starts levels ++ [levels.flatten.length] := by
  rw [h.levelOffsets_eq, starts_concat]

theorem size_levelOffsets (h : Completed g source levels s) :
    s.levelOffsets.size = levels.length + 1 := by
  rw [← Array.length_toList, h.levelOffsets_eq, length_starts, List.length_append]
  rfl

theorem depth_eq (h : Completed g source levels s) : s.depth = levels.length := by
  rw [depth, h.size_levelOffsets, Nat.add_sub_cancel]

/-- A level starts where those before it end. -/
theorem getElem?_levelOffsets (h : Completed g source levels s) (hd : d ≤ levels.length) :
    s.levelOffsets[d]? = some (levels.take d).flatten.length := by
  have hlt : d < (levels ++ [[]]).length := by
    rw [List.length_append, List.length_singleton]
    omega
  rw [← Array.getElem?_toList, h.levelOffsets_eq, getElem?_starts hlt,
    List.take_append_of_le_length hd]

/-- The level at a distance is cut out of the order. -/
theorem level?_eq (h : Completed g source levels s) {level : List ℕ}
    (hlevel : levels[d]? = some level) : s.level? d = some level.toArray := by
  have hlt := (List.getElem?_eq_some_iff.mp hlevel).1
  rw [level?, h.getElem?_levelOffsets (Nat.le_of_lt hlt), h.getElem?_levelOffsets hlt]
  refine congrArg some (Array.toList_inj.mp ?_)
  rw [Array.toList_extract, h.order_eq_flatten, List.extract_eq_drop_take',
    drop_take_flatten hlevel]

/-- There is no level beyond the last. -/
theorem level?_eq_none (h : Completed g source levels s) (hd : levels.length ≤ d) :
    s.level? d = none := by
  have hsize := h.size_levelOffsets
  have hstop : s.levelOffsets[d + 1]? = none := Array.getElem?_eq_none (by omega)
  rw [level?, hstop]
  cases s.levelOffsets[d]? <;> rfl

/-- Vertices are listed by distance. -/
theorem order_sorted (h : Completed g source levels s) : s.order.toList.Pairwise fun v w =>
    ∀ d e, g.AtDistance source d v → g.AtDistance source e w → d ≤ e := by
  rw [h.order_eq_flatten, List.pairwise_flatten]
  constructor
  · intro level hlevel
    obtain ⟨k, hk⟩ := List.mem_iff_getElem?.mp hlevel
    refine List.pairwise_of_forall_mem_list fun v hv w hw d e hd he => ?_
    rw [hd.unique ((h.mem_level_iff hk).mp hv), he.unique ((h.mem_level_iff hk).mp hw)]
  · refine List.pairwise_iff_getElem.mpr fun i j hi hj hij v hv w hw d e hd he => ?_
    rw [hd.unique ((h.mem_level_iff (List.getElem?_eq_getElem hi)).mp hv),
      he.unique ((h.mem_level_iff (List.getElem?_eq_getElem hj)).mp hw)]
    exact Nat.le_of_lt hij

end Completed

end Betweenness.ShortestPaths
