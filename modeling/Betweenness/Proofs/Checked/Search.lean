import Betweenness.Proofs.Checked.Arrays
import Betweenness.Proofs.ShortestPaths.LevelSearch

/-!
# Searches keep within bounds

Both searches, written once more with arrays that insist on their bounds: the same steps, with no
result where an entry is read or written that there is not. They have the results of the searches
themselves, from any source and in any space that has been used for graphs of this size.

The invariant is `ShortestPaths.Fits`: there is an entry for every vertex, and only vertices are
listed in the order. The arcs of a consistent graph lead to vertices, so every step keeps it.

## Main results

* `Checked.expand_eq`, `Checked.reachLevel_eq`: the step lemmas.
* `Checked.search_eq`, `Checked.levelSearch_eq`: the run lemmas, for the two searches.
-/

namespace Betweenness

namespace Graph.Consistent

variable {g : Graph} {v : ℕ} {arc : Arc} (hg : g.Consistent)

include hg

/-- An arc that leaves a vertex leads to a vertex. -/
theorem target_lt_of_mem_out (h : arc ∈ g.out v) : arc.target < g.nodeCount :=
  (hg.lt_of_joins ((hg.mem_out v arc.target arc.edge).mp h)).2

/-- An arc that enters a vertex comes from a vertex. -/
theorem target_lt_of_mem_into (h : arc ∈ g.into v) : arc.target < g.nodeCount :=
  (hg.lt_of_joins ((hg.mem_into arc.target v arc.edge).mp h)).1

end Graph.Consistent

variable {α : Type}

/-! ### Space for every vertex -/

namespace ShortestPaths

/-- There is an entry for each of `n` vertices, and no other index is listed in the order. -/
structure Fits (n : ℕ) (s : ShortestPaths α) : Prop where
  size_distance : s.distance.size = n
  size_pathCount : s.pathCount.size = n
  size_predecessors : s.predecessors.size = n
  order_lt : ∀ v ∈ s.order, v < n

variable [Scalar α] {n v : ℕ} {s : ShortestPaths α}

theorem fits_blank (n : ℕ) : (blank α n).Fits n where
  size_distance := Array.size_replicate
  size_pathCount := Array.size_replicate
  size_predecessors := Array.size_replicate
  order_lt _ hv := absurd hv (Array.not_mem_empty _)

namespace Fits

omit [Scalar α] in
theorem distance_eq (h : s.Fits n) (hv : v < n) : s.distance[v]? = some (s.distanceOf v) :=
  Checked.getElem?_eq_getD (h.size_distance.symm ▸ hv) none

theorem pathCount_eq (h : s.Fits n) (hv : v < n) : s.pathCount[v]? = some (s.countOf v) :=
  Checked.getElem?_eq_getD (h.size_pathCount.symm ▸ hv) 0

omit [Scalar α] in
theorem predecessors_eq (h : s.Fits n) (hv : v < n) :
    s.predecessors[v]? = some (s.predecessorsOf v) :=
  Checked.getElem?_eq_getD (h.size_predecessors.symm ▸ hv) #[]

omit [Scalar α] in
theorem isUnreached_iff (h : s.Fits n) (hv : v < n) :
    s.isUnreached v = true ↔ s.distanceOf v = none := by
  rw [ShortestPaths.isUnreached_iff, h.size_distance]
  exact and_iff_right hv

omit [Scalar α] in
theorem closeLevel (h : s.Fits n) : s.closeLevel.Fits n :=
  ⟨h.size_distance, h.size_pathCount, h.size_predecessors, h.order_lt⟩

end Fits

end ShortestPaths

namespace Checked

open ShortestPaths (Fits)

variable [Scalar α] {n source : ℕ} {s : ShortestPaths α} {g : Graph}

/-! ### Before the first level -/

/-- Undo the marks of the last search. -/
def clear (s : ShortestPaths α) : Option (ShortestPaths α) := do
  let distance ← s.order.foldlM (fun a v => write? a v none) s.distance
  let pathCount ← s.order.foldlM (fun a v => write? a v 0) s.pathCount
  let predecessors ← s.order.foldlM (fun a v => write? a v #[]) s.predecessors
  return { s with distance, pathCount, predecessors, order := #[], levelOffsets := #[] }

/-- Reach the source. -/
def start (s : ShortestPaths α) : Option (ShortestPaths α) := do
  let distance ← write? s.distance s.source (some 0)
  let pathCount ← write? s.pathCount s.source 1
  return { s with
    distance
    pathCount
    order := s.order.push s.source
    levelOffsets := s.levelOffsets.push 0 }

/-- Prepare a search. -/
def prepare (s : ShortestPaths α) (g : Graph) (source : ℕ) : Option (ShortestPaths α) := do
  let s ← clear s
  let s := { s with source }
  if source < g.nodeCount then start s else return s

/-- Undoing the marks of vertices is in bounds. -/
theorem undo_eq {β : Type} {a : Array β} {order : Array ℕ} {x : β} (hsize : a.size = n)
    (horder : ∀ v ∈ order, v < n) : order.foldlM (fun a v => write? a v x) a =
      some (order.foldl (fun a v => a.setIfInBounds v x) a) ∧
        (order.foldl (fun a v => a.setIfInBounds v x) a).size = n := by
  rw [← Array.foldlM_toList, ← Array.foldl_toList]
  exact foldlM_write?_eq (fun v => v) (fun _ => x) hsize fun v hv =>
    horder v (Array.mem_toList_iff.mp hv)

theorem clear_eq (h : s.Fits n) : clear s = some s.clear ∧ s.clear.Fits n := by
  obtain ⟨hdistance, hdistance'⟩ := undo_eq (x := none) h.size_distance h.order_lt
  obtain ⟨hcount, hcount'⟩ := undo_eq (x := 0) h.size_pathCount h.order_lt
  obtain ⟨hsteps, hsteps'⟩ := undo_eq (x := #[]) h.size_predecessors h.order_lt
  refine ⟨?_, hdistance', hcount', hsteps', fun v hv => absurd hv (Array.not_mem_empty v)⟩
  rw [clear, hdistance, some_bind, hcount, some_bind, hsteps, some_bind]
  rfl

theorem start_eq (h : s.Fits n) (hs : s.source < n) : start s = some s.start ∧ s.start.Fits n := by
  constructor
  · rw [start, write?_eq (h.size_distance.symm ▸ hs), some_bind,
      write?_eq (h.size_pathCount.symm ▸ hs), some_bind]
    rfl
  · refine ⟨Array.size_setIfInBounds.trans h.size_distance,
      Array.size_setIfInBounds.trans h.size_pathCount, h.size_predecessors, fun v hv => ?_⟩
    rcases Array.mem_push.mp hv with hv | rfl
    exacts [h.order_lt v hv, hs]

theorem prepare_eq (h : s.Fits g.nodeCount) (source : ℕ) :
    prepare s g source = some (s.prepare g source) ∧ (s.prepare g source).Fits g.nodeCount := by
  obtain ⟨hclear, hfits⟩ := clear_eq h
  have hfits' : Fits g.nodeCount { s.clear with source } :=
    ⟨hfits.size_distance, hfits.size_pathCount, hfits.size_predecessors, hfits.order_lt⟩
  rw [prepare, hclear, some_bind, ShortestPaths.prepare]
  dsimp only
  split
  · rename_i hs
    exact start_eq hfits' hs
  · exact ⟨rfl, hfits'⟩

/-! ### Searching by pushing -/

/-- Reach a vertex at a distance, if it has not been reached. -/
def reach (s : ShortestPaths α) (w depth : ℕ) : Option (ShortestPaths α) := do
  if (← s.distance[w]?).isNone then
    let distance ← write? s.distance w (some depth)
    return { s with distance, order := s.order.push w }
  else return s

/-- Count the paths that arrive over an arc, if its target is at the given distance. -/
def credit (s : ShortestPaths α) (v : ℕ) (count : α) (arc : Arc) (depth : ℕ) :
    Option (ShortestPaths α) := do
  if (← s.distance[arc.target]?) = some depth then
    let pathCount ← update? s.pathCount arc.target (· + count)
    let predecessors ← update? s.predecessors arc.target (·.push ⟨v, arc.edge⟩)
    return { s with pathCount, predecessors }
  else return s

/-- Follow the arcs that leave a vertex. -/
def expand (g : Graph) (depth : ℕ) (s : ShortestPaths α) (v : ℕ) : Option (ShortestPaths α) := do
  let count ← s.pathCount[v]?
  (g.out v).foldlM (fun s arc => do credit (← reach s arc.target depth) v count arc depth) s

/-- Visit the levels from the one that starts at a position of the order. -/
def levels (g : Graph) : (budget start depth : ℕ) → ShortestPaths α → Option (ShortestPaths α)
  | 0, _, _, s => some s
  | budget + 1, start, depth, s =>
    if start < s.order.size then do
      let stop := s.order.size
      let frontier ← slice? s.order start stop
      let s ← frontier.foldlM (expand g (depth + 1)) s.closeLevel
      levels g budget stop (depth + 1) s
    else some s

/-- The shortest paths from a source. -/
def search (s : ShortestPaths α) (g : Graph) (source : ℕ) : Option (ShortestPaths α) := do
  levels g g.nodeCount 0 0 (← prepare s g source)

omit [Scalar α] in
theorem reach_eq (h : s.Fits n) {w : ℕ} (hw : w < n) (depth : ℕ) :
    reach s w depth = some (s.reach w depth) ∧ (s.reach w depth).Fits n := by
  rw [reach, h.distance_eq hw, some_bind, ShortestPaths.reach]
  simp only [h.isUnreached_iff hw, Option.isNone_iff_eq_none]
  split
  · refine ⟨by rw [write?_eq (h.size_distance.symm ▸ hw), some_bind]; rfl,
      Array.size_setIfInBounds.trans h.size_distance, h.size_pathCount, h.size_predecessors,
      fun v hv => ?_⟩
    rcases Array.mem_push.mp hv with hv | rfl
    exacts [h.order_lt v hv, hw]
  · exact ⟨rfl, h⟩

theorem credit_eq (h : s.Fits n) (v : ℕ) (count : α) {arc : Arc} (harc : arc.target < n)
    (depth : ℕ) : credit s v count arc depth = some (s.credit v count arc depth) ∧
      (s.credit v count arc depth).Fits n := by
  rw [credit, h.distance_eq harc, some_bind, ShortestPaths.credit]
  simp only [ShortestPaths.isAt_iff]
  split
  · refine ⟨?_, h.size_distance, Array.size_modify.trans h.size_pathCount,
      Array.size_modify.trans h.size_predecessors, h.order_lt⟩
    rw [update?_eq (h.size_pathCount.symm ▸ harc), some_bind,
      update?_eq (h.size_predecessors.symm ▸ harc), some_bind]
    rfl
  · exact ⟨rfl, h⟩

/-- **Step lemma**: to follow the arcs of a vertex keeps within bounds. -/
theorem expand_eq (hg : g.Consistent) (h : s.Fits g.nodeCount) {v : ℕ} (hv : v < g.nodeCount)
    (depth : ℕ) : expand g depth s v = some (s.expand g depth v) ∧
      (s.expand g depth v).Fits g.nodeCount := by
  rw [expand, h.pathCount_eq hv, some_bind]
  refine foldlM_array_eq_some h fun s hs arc harc => ?_
  have htarget := hg.target_lt_of_mem_out harc
  obtain ⟨hreach, hfits⟩ := reach_eq hs htarget depth
  rw [hreach, some_bind]
  exact credit_eq hfits v _ htarget depth

/-- **Run lemma**: so does visiting the levels. -/
theorem levels_eq (hg : g.Consistent) (h : s.Fits g.nodeCount) (budget start depth : ℕ) :
    levels g budget start depth s = some (s.levels g budget start depth) ∧
      (s.levels g budget start depth).Fits g.nodeCount := by
  induction budget generalizing s start depth with
  | zero => exact ⟨rfl, h⟩
  | succ budget ih =>
      rw [levels, ShortestPaths.levels]
      split
      · rename_i hstart
        have hfrontier : ∀ v ∈ s.order.extract start s.order.size, v < g.nodeCount := fun v hv =>
          h.order_lt v (mem_of_mem_extract hv)
        obtain ⟨hrun, hfits⟩ := foldlM_array_eq_some h.closeLevel fun s hs v hv =>
          expand_eq hg hs (hfrontier v hv) (depth + 1)
        dsimp only
        rw [slice?_eq (Nat.le_of_lt hstart) (Nat.le_refl _), some_bind, hrun, some_bind]
        exact ih hfits _ _
      · exact ⟨rfl, h⟩

/-- **Run lemma**: a search keeps within bounds, whatever its source. -/
theorem search_eq (hg : g.Consistent) (h : s.Fits g.nodeCount) (source : ℕ) :
    search s g source = some (s.search g source) ∧ (s.search g source).Fits g.nodeCount := by
  obtain ⟨hprepare, hfits⟩ := prepare_eq h source
  rw [search, hprepare, some_bind]
  exact levels_eq hg hfits _ _ _

/-- In space for fewer vertices there is no result. -/
example : (search (.blank Rat 3) Graph.square 0).isNone = true := by
  rw [Graph.square_eq]
  decide +kernel

/-! ### Searching by pulling -/

/-- The vertices one hop beyond a level. -/
def nextLevel (g : Graph) (s : ShortestPaths α) (frontier : Array ℕ) : Option (List ℕ) := do
  let targets := frontier.toList.flatMap fun v => (g.out v).toList.map Arc.target
  let marked ← targets.mapM fun w => return (w, (← s.distance[w]?).isNone)
  return (((marked.filter Prod.snd).map Prod.fst).mergeSort (· ≤ ·)).eraseReps

/-- The paths that arrive at a vertex from the vertices at a distance. -/
def arriving (g : Graph) (s : ShortestPaths α) (depth w : ℕ) : Option (α × Array Predecessor) :=
  (g.into w).foldlM
    (fun (count, steps) arc => do
      if (← s.distance[arc.target]?) = some depth then
        return (count + (← s.pathCount[arc.target]?), steps.push ⟨arc.target, arc.edge⟩)
      else return (count, steps))
    (0, #[])

/-- Reach the vertices of a level, one hop beyond the given distance. -/
def reachLevel (g : Graph) (depth : ℕ) (s : ShortestPaths α) (level : List ℕ) :
    Option (ShortestPaths α) := do
  let distance ← level.foldlM (fun a w => write? a w (some (depth + 1))) s.distance
  let s := { s with distance }
  let arrivals ← level.mapM fun w => return (w, ← arriving g s depth w)
  let pathCount ← arrivals.foldlM (fun a (w, count, _) => write? a w count) s.pathCount
  let predecessors ← arrivals.foldlM (fun a (w, _, steps) => write? a w steps) s.predecessors
  return { s with pathCount, predecessors, order := level.foldl Array.push s.order }

/-- Reach the levels beyond the one that starts at a position of the order. -/
def levelsBeyond (g : Graph) :
    (budget start depth : ℕ) → ShortestPaths α → Option (ShortestPaths α)
  | 0, _, _, s => some s
  | budget + 1, start, depth, s => do
    let stop := s.order.size
    let next ← nextLevel g s (← slice? s.order start stop)
    let s := s.closeLevel
    if next.isEmpty then return s
    else levelsBeyond g budget stop (depth + 1) (← reachLevel g depth s next)

/-- The shortest paths from a source, level by level. -/
def levelSearch (s : ShortestPaths α) (g : Graph) (source : ℕ) : Option (ShortestPaths α) := do
  let s ← prepare s g source
  if source < g.nodeCount then levelsBeyond g g.nodeCount 0 0 s else return s

/-- Entries that are marked, of which the marked ones are kept, are those that satisfy a test. -/
theorem map_filter_marked (l : List ℕ) (p : ℕ → Bool) :
    ((l.map fun w => (w, p w)).filter Prod.snd).map Prod.fst = l.filter p := by
  rw [List.filter_map, List.map_map]
  exact List.map_id _

omit [Scalar α] in
theorem nextLevel_eq (hg : g.Consistent) (h : s.Fits g.nodeCount) (frontier : Array ℕ) :
    nextLevel g s frontier = some (s.nextLevel g frontier) := by
  have hmark : ∀ w ∈ frontier.toList.flatMap fun v => (g.out v).toList.map Arc.target,
      (do return (w, (← s.distance[w]?).isNone)) = some (w, s.isUnreached w) := by
    intro w hw
    obtain ⟨v, -, hw⟩ := List.mem_flatMap.mp hw
    obtain ⟨arc, harc, rfl⟩ := List.mem_map.mp hw
    have htarget := hg.target_lt_of_mem_out (Array.mem_toList_iff.mp harc)
    have hsame : (s.distanceOf arc.target).isNone = s.isUnreached arc.target :=
      Bool.eq_iff_iff.mpr (Option.isNone_iff_eq_none.trans (h.isUnreached_iff htarget).symm)
    rw [h.distance_eq htarget, some_bind, hsame]
    rfl
  rw [nextLevel, mapM_eq_some hmark, some_bind, map_filter_marked]
  rfl

theorem arriving_eq (hg : g.Consistent) (h : s.Fits g.nodeCount) (depth w : ℕ) :
    arriving g s depth w = some (s.arriving g depth w) := by
  refine (foldlM_array_eq_some (P := fun _ => True) trivial ?_).1
  rintro ⟨count, steps⟩ - arc harc
  have htarget := hg.target_lt_of_mem_into harc
  refine ⟨?_, trivial⟩
  dsimp only
  rw [h.distance_eq htarget, some_bind, h.pathCount_eq htarget]
  simp only [ShortestPaths.isAt_iff]
  split <;> rfl

/-- **Step lemma**: to reach a level of vertices keeps within bounds. -/
theorem reachLevel_eq (hg : g.Consistent) (h : s.Fits g.nodeCount) {level : List ℕ}
    (hlevel : ∀ w ∈ level, w < g.nodeCount) (depth : ℕ) :
    reachLevel g depth s level = some (s.reachLevel g depth level) ∧
      (s.reachLevel g depth level).Fits g.nodeCount := by
  obtain ⟨hdistance, hdistance'⟩ :=
    foldlM_write?_eq (fun w => w) (fun _ => some (depth + 1)) h.size_distance hlevel
  have hmarked : (s.markLevel depth level).Fits g.nodeCount :=
    ⟨hdistance', h.size_pathCount, h.size_predecessors, h.order_lt⟩
  have harrivals : (level.mapM fun w => do
      return (w, ← arriving g (s.markLevel depth level) depth w)) =
        some (level.map fun w => (w, (s.markLevel depth level).arriving g depth w)) :=
    mapM_tag_eq_some fun w _ => arriving_eq hg hmarked depth w
  have hkeys : ∀ x ∈ level.map fun w => (w, (s.markLevel depth level).arriving g depth w),
      x.1 < g.nodeCount := List.forall_mem_map.mpr hlevel
  obtain ⟨hcount, hcount'⟩ := foldlM_write?_eq Prod.fst (·.2.1) h.size_pathCount hkeys
  obtain ⟨hsteps, hsteps'⟩ := foldlM_write?_eq Prod.fst (·.2.2) h.size_predecessors hkeys
  refine ⟨?_, hdistance', hcount', hsteps', fun v hv => ?_⟩
  · rw [reachLevel, hdistance, some_bind]
    refine (congrArg (· >>= _) harrivals).trans ?_
    rw [some_bind, hcount, some_bind, hsteps, some_bind]
    rfl
  · have hmem : v ∈ s.order ++ level.toArray := by
      rwa [ShortestPaths.reachLevel, List.foldl_push_eq_append'] at hv
    rcases Array.mem_append.mp hmem with hv | hv
    exacts [h.order_lt v hv, hlevel v (List.mem_toArray.mp hv)]

/-- **Run lemma**: so does reaching the levels in turn. -/
theorem levelsBeyond_eq (hg : g.Consistent) (h : s.Fits g.nodeCount) (budget : ℕ) {start : ℕ}
    (hstart : start ≤ s.order.size) (depth : ℕ) :
    levelsBeyond g budget start depth s = some (s.levelsBeyond g budget start depth) ∧
      (s.levelsBeyond g budget start depth).Fits g.nodeCount := by
  induction budget generalizing s start depth with
  | zero => exact ⟨rfl, h⟩
  | succ budget ih =>
      simp only [levelsBeyond, ShortestPaths.levelsBeyond]
      rw [slice?_eq hstart (Nat.le_refl _), some_bind, nextLevel_eq hg h, some_bind]
      split
      · exact ⟨rfl, h.closeLevel⟩
      · have hnext : ∀ w ∈ s.nextLevel g (s.order.extract start s.order.size),
            w < g.nodeCount := fun w hw => h.size_distance ▸
          (ShortestPaths.isUnreached_iff.mp ((ShortestPaths.mem_nextLevel hg).mp hw).1).1
        obtain ⟨hreach, hfits⟩ := reachLevel_eq hg h.closeLevel hnext depth
        rw [hreach, some_bind]
        refine ih hfits ?_ (depth + 1)
        rw [ShortestPaths.reachLevel, List.foldl_push_eq_append', Array.size_append]
        exact Nat.le_add_right _ _

/-- **Run lemma**: a search by levels keeps within bounds, whatever its source. -/
theorem levelSearch_eq (hg : g.Consistent) (h : s.Fits g.nodeCount) (source : ℕ) :
    levelSearch s g source = some (s.levelSearch g source) ∧
      (s.levelSearch g source).Fits g.nodeCount := by
  obtain ⟨hprepare, hfits⟩ := prepare_eq h source
  rw [levelSearch, hprepare, some_bind, ShortestPaths.levelSearch]
  split
  · exact levelsBeyond_eq hg hfits _ (Nat.zero_le _) _
  · exact ⟨rfl, hfits⟩

end Checked

end Betweenness
