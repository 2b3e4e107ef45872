import Betweenness.Proofs.Graph.PathShare
import Betweenness.Proofs.ShortestPaths.Description

/-!
# Counts of shortest paths

A complete search has counted the shortest paths of the graph, as long as its arithmetic counts
exactly, and its predecessors are the steps that lead away from the source. With this the rest of
the theory can speak of the graph alone.

A search only adds up counts, so it can count in the naturals as well as in the rationals, in which
scores are computed.

## Main results

* `Completed.mem_predecessors_iff_stepsAway`: predecessors are steps away from the source.
* `Completed.forall_of_predecessors`: induction along predecessors.
* `Completed.countOf_eq_pathCount`: the counts are the numbers of shortest paths.
* `search_countsPaths`: what a search of a built graph has counted in the naturals.
-/

namespace Betweenness

/-! ### Arithmetic that counts exactly -/

/-- An arithmetic whose zero, one and sums are those of a commutative monoid, so that counts come
out the same in whatever order they are added up. -/
class Scalar.Exact (α : Type) [Scalar α] [AddCommMonoidWithOne α] : Prop where
  zero_eq : (Scalar.zero : α) = 0
  one_eq : (Scalar.one : α) = 1
  add_eq (a b : α) : Scalar.add a b = a + b

instance : Scalar.Exact ℚ := ⟨rfl, rfl, fun _ _ => rfl⟩

/-- Naturals as numbers of paths. Their division is that without remainder, so they are of use for
counts only. -/
instance : Scalar ℕ where
  zero := 0
  one := 1
  add := Nat.add
  mul := Nat.mul
  div := Nat.div
  ofNat := id
  isOne n := decide (n = 1)

instance : Scalar.Exact ℕ := ⟨rfl, rfl, fun _ _ => rfl⟩

namespace ShortestPaths

/-! ### Complete searches -/

namespace Completed

variable {α : Type} [Scalar α] {g : Graph} {source : ℕ} {levels : List (List ℕ)} {w : ℕ}
  {s : ShortestPaths α}

/-- Predecessors are the steps that lead away from the source. -/
theorem mem_predecessors_iff_stepsAway (h : Completed g source levels s) {p : Predecessor} :
    p ∈ s.predecessorsOf w ↔ g.StepsAway source p.vertex w ∧ g.Joins p.edge p.vertex w := by
  rw [h.mem_predecessors_iff]
  constructor
  · rintro ⟨d, hp, hw, hjoins⟩
    exact ⟨⟨⟨p.edge, hjoins⟩, hp.reaches, by rw [hp.distance_eq, hw.distance_eq]⟩, hjoins⟩
  · rintro ⟨haway, hjoins⟩
    have hw := haway.reaches.atDistance
    rw [haway.2.2] at hw
    exact ⟨_, haway.2.1.atDistance, hw, hjoins⟩

/-- The predecessors of a vertex are distinct vertices, as two vertices are joined by one edge
only. -/
theorem nodup_predecessor_vertices (hg : g.Consistent) (h : Completed g source levels s) :
    ((s.predecessorsOf w).toList.map Predecessor.vertex).Nodup := by
  refine (h.predecessors_nodup w).map_on fun p hp q hq heq => ?_
  have hp := (h.mem_predecessors_iff_stepsAway.mp (Array.mem_toList_iff.mp hp)).2
  have hq := (h.mem_predecessors_iff_stepsAway.mp (Array.mem_toList_iff.mp hq)).2
  obtain ⟨v, e⟩ := p
  obtain ⟨v', e'⟩ := q
  obtain rfl : v = v' := heq
  obtain rfl : e = e' := hg.edge_unique e e' v w hp hq
  rfl

/-- The source has no predecessors. -/
theorem predecessorsOf_source (h : Completed g source levels s) :
    s.predecessorsOf source = #[] := by
  refine Array.eq_empty_iff_forall_not_mem.mpr fun p hp => ?_
  obtain ⟨d, -, hd, -⟩ := h.mem_predecessors_iff.mp hp
  exact hd.ne rfl

/-- **Induction along predecessors**: what holds of the source and of the vertices that are not
reached, and passes to a vertex from its predecessors, holds of every vertex. -/
theorem forall_of_predecessors (h : Completed g source levels s) {P : ℕ → Prop} (hsource : P source)
    (hother : ∀ w, ¬ g.Reaches source w → P w)
    (hstep : ∀ w, w ≠ source → (∀ p ∈ (s.predecessorsOf w).toList, P p.vertex) → P w) (w : ℕ) :
    P w := by
  by_cases hw : g.Reaches source w
  · obtain ⟨d, hd⟩ : ∃ d, g.AtDistance source d w := ⟨_, hw.atDistance⟩
    clear hw
    induction d generalizing w with
    | zero => exact Graph.atDistance_zero_iff.mp hd ▸ hsource
    | succ d ih =>
        refine hstep w hd.ne fun p hp => ih p.vertex ?_
        obtain ⟨k, hk, hw, -⟩ := h.mem_predecessors_iff.mp (Array.mem_toList_iff.mp hp)
        obtain rfl : d = k := Nat.succ.inj (hd.unique hw)
        exact hk
  · exact hother w hw

/-- No path is counted to a vertex that is not reached. -/
theorem countOf_eq_zero (h : Completed g source levels s) (hw : ¬ g.Reaches source w) :
    s.countOf w = 0 :=
  h.toExplored.countOf_eq_zero (by simp) (h.distanceOf_eq_none_iff.mpr hw)

/-- A sum along the predecessors of a vertex. -/
theorem sum_predecessors {M : Type} [AddCommMonoid M] (hg : g.Consistent)
    (h : Completed g source levels s) (f : ℕ → M) :
    ((s.predecessorsOf w).toList.map fun p => f p.vertex).sum =
      ∑ v ∈ g.predecessors source w, f v := by
  have hset : g.predecessors source w =
      ((s.predecessorsOf w).toList.map Predecessor.vertex).toFinset := by
    ext v
    simp only [Graph.mem_predecessors, List.mem_toFinset, List.mem_map, Array.mem_toList_iff,
      h.mem_predecessors_iff_stepsAway]
    constructor
    · rintro ⟨-, haway⟩
      obtain ⟨e, hjoins⟩ := haway.1
      exact ⟨⟨v, e⟩, ⟨haway, hjoins⟩, rfl⟩
    · rintro ⟨p, ⟨haway, hjoins⟩, rfl⟩
      exact ⟨(hg.lt_of_joins hjoins).1, haway⟩
  rw [hset, List.sum_toFinset _ (h.nodup_predecessor_vertices hg), List.map_map]
  rfl

variable [AddCommMonoidWithOne α] [Scalar.Exact α]

/-- The counts of the predecessors are added up exactly. -/
theorem countOf_eq_sum (h : Completed g source levels s) (hw : w ≠ source) :
    s.countOf w = ((s.predecessorsOf w).toList.map fun p => s.countOf p.vertex).sum := by
  have hsum : ∀ (l : List Predecessor) (c : α),
      l.foldl (fun count p => Scalar.add count (s.countOf p.vertex)) c =
        c + (l.map fun p => s.countOf p.vertex).sum := by
    intro l
    induction l with
    | nil => intro c; simp
    | cons p l ih =>
        intro c
        rw [List.foldl_cons, ih, Scalar.Exact.add_eq, List.map_cons, List.sum_cons, add_assoc]
  refine (h.countOf_eq w hw).trans ((hsum _ Scalar.zero).trans ?_)
  rw [Scalar.Exact.zero_eq, zero_add]

/-- The counts of a complete search are the numbers of shortest paths. -/
theorem countOf_eq_pathCount (hg : g.Consistent) (h : Completed g source levels s) (w : ℕ) :
    s.countOf w = g.pathCount source w := by
  induction w using h.forall_of_predecessors with
  | hsource =>
      rw [Graph.pathCount_self, Nat.cast_one]
      exact h.countOf_source.trans Scalar.Exact.one_eq
  | hother w hw =>
      rw [Graph.pathCount_eq_zero hw, Nat.cast_zero]
      exact (h.countOf_eq_zero hw).trans Scalar.Exact.zero_eq
  | hstep w hne ih =>
      rw [h.countOf_eq_sum hne, List.map_congr_left ih,
        h.sum_predecessors hg fun v => (g.pathCount source v : α), Graph.pathCount_eq_sum hg hne,
        Nat.cast_sum]

end Completed

/-! ### What has been counted -/

/-- What can be read off the counts of a search, and off the predecessors along which they have
been added up. -/
structure CountsPaths (g : Graph) (source : ℕ) (s : ShortestPaths ℕ) : Prop where
  /-- There is a count for every vertex. -/
  size_pathCount : s.pathCount.size = g.nodeCount
  /-- There is a list of predecessors for every vertex. -/
  size_predecessors : s.predecessors.size = g.nodeCount
  /-- The predecessors of a vertex that is reached are one step nearer to the source, each with an
  edge that leads from it to the vertex. -/
  mem_predecessors_iff : ∀ v e w, ⟨v, e⟩ ∈ s.predecessorsOf w ↔
    s.isReachable v = true ∧ s.isReachable w = true ∧
      s.distanceOf w = (s.distanceOf v).map (· + 1) ∧ g.Joins e v w
  /-- No predecessor is listed twice. -/
  predecessors_nodup : ∀ w, (s.predecessorsOf w).toList.Nodup
  predecessorsOf_source : s.predecessorsOf source = #[]
  countOf_source : s.countOf source = 1
  /-- The count of a vertex is the number of shortest paths that lead to it. -/
  countOf_eq : ∀ w, s.countOf w = g.pathCount source w
  /-- The paths to a vertex are those to its predecessors. -/
  countOf_eq_sum : ∀ w, w ≠ source →
    s.countOf w = ((s.predecessorsOf w).toList.map fun p => s.countOf p.vertex).sum
  /-- Some path leads to every vertex of the order. -/
  one_le_countOf : ∀ w ∈ s.order, 1 ≤ s.countOf w
  /-- No path leads to any other. -/
  countOf_eq_zero : ∀ w, w ∉ s.order → s.countOf w = 0

variable {g : Graph} {source : ℕ} {levels : List (List ℕ)} {b : Builder}

/-- A complete search in the naturals has counted the paths of its graph. -/
theorem Completed.countsPaths {s : ShortestPaths ℕ} (hg : g.Consistent)
    (h : Completed g source levels s) : s.CountsPaths g source := by
  have hcount : ∀ w, s.countOf w = g.pathCount source w := h.countOf_eq_pathCount hg
  have horder : ∀ w, w ∈ s.order ↔ g.Reaches source w := fun w =>
    Array.mem_toList_iff.symm.trans h.mem_order_iff
  refine
    { size_pathCount := h.size_pathCount
      size_predecessors := h.size_predecessors
      mem_predecessors_iff := ?mem_predecessors_iff
      predecessors_nodup := h.predecessors_nodup
      predecessorsOf_source := h.predecessorsOf_source
      countOf_source := h.countOf_source
      countOf_eq := hcount
      countOf_eq_sum := fun w hw => h.countOf_eq_sum hw
      one_le_countOf := ?one_le_countOf
      countOf_eq_zero := ?countOf_eq_zero }
  case mem_predecessors_iff =>
    intro v e w
    rw [h.mem_predecessors_iff]
    constructor
    · rintro ⟨d, hv, hw, hjoins⟩
      have hv := h.distanceOf_iff.mpr hv
      have hw := h.distanceOf_iff.mpr hw
      rw [isReachable, isReachable, hv, hw]
      exact ⟨rfl, rfl, rfl, hjoins⟩
    · rintro ⟨hv, -, hdist, hjoins⟩
      obtain ⟨d, hd⟩ := Option.isSome_iff_exists.mp hv
      rw [hd] at hdist
      exact ⟨d, h.distanceOf_iff.mp hd, h.distanceOf_iff.mp hdist, hjoins⟩
  case one_le_countOf =>
    intro w hw
    rw [hcount]
    exact hg.pathCount_pos ((horder w).mp hw)
  case countOf_eq_zero =>
    intro w hw
    rw [hcount]
    exact Graph.pathCount_eq_zero fun hreach => hw ((horder w).mpr hreach)

/-- Whatever graph is built, and whatever searches the space has been used for: a search from a
vertex counts the shortest paths from it. -/
theorem search_countsPaths {s : ShortestPaths ℕ} (hb : b.build = .ok g) (hs : source < g.nodeCount)
    (hused : Used ℕ g.nodeCount s) : (s.search g source).CountsPaths g source := by
  have hg := Builder.build_consistent hb
  obtain ⟨levels, h⟩ := search_completed hg hs hused.reusable
  exact h.countsPaths hg

/-- From a corner of the square, two paths lead to the opposite one. The space has been used for a
search from the vertex with the loop before. -/
theorem search_countsPaths_square : Builder.square.build = .ok Graph.square ∧
    0 < Graph.square.nodeCount ∧
    Used ℕ Graph.square.nodeCount ((blank ℕ 5).search Graph.square 4) ∧
    (((blank ℕ 5).search Graph.square 4).search Graph.square 0).CountsPaths Graph.square 0 ∧
    (((blank ℕ 5).search Graph.square 4).search Graph.square 0).pathCount = #[1, 1, 2, 1, 0] ∧
    (((blank ℕ 5).search Graph.square 4).search Graph.square 0).predecessorsOf 2 =
      #[⟨1, 1⟩, ⟨3, 2⟩] := by
  have hs : 0 < Graph.square.nodeCount := by simp
  have hused : Used ℕ Graph.square.nodeCount ((blank ℕ 5).search Graph.square 4) := by
    rw [Graph.nodeCount_square]
    exact .search 4 Graph.nodeCount_square .blank
  refine ⟨Builder.build_square, hs, hused, search_countsPaths Builder.build_square hs hused, ?_⟩
  rw [Graph.square_eq]
  decide +kernel

end ShortestPaths

end Betweenness
