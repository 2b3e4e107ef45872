import Betweenness.Proofs.Scores

/-!
# Flow is conserved

Vertex scores and edge scores are summed up by different accumulators from the same dependencies.
What flows back over the edges that lead to a vertex is what passes through the vertex, which is its
score, and one for each source whose paths end there. What flows back over the edges that lead on
from it is what passes through it and, for each time that it is a source itself, one for every other
vertex that it reaches. Where edges have no direction, both flow over the edges at the vertex.

All of this holds of a single source first. Only the steps that lead away from the source carry
flow, and each of them belongs to one edge, so that sums over edges are sums over steps
(`Graph.sum_edgeShare_eq`).

## Main results

* `Graph.sum_stepsTo`, `Graph.sum_stepsFrom`: what comes to a vertex from a source, and what goes on
  from it.
* `Graph.sum_edgesInto`, `Graph.sum_edgesOutOf`, `Graph.sum_edgesAt`: the same over edges.
* `flow_conserved`: what the raw scores of a vertex and of its edges have to do with each other.
-/

namespace Betweenness

namespace Graph

/-! ### Edges at a vertex -/

/-- The edges that were loaded towards a vertex. -/
def edgesInto (g : Graph) (v : ℕ) : Finset ℕ :=
  (Finset.range g.edgeCount).filter fun e => (g.endpoints? e).map Prod.snd = some v

/-- The edges that were loaded away from a vertex. -/
def edgesOutOf (g : Graph) (v : ℕ) : Finset ℕ :=
  (Finset.range g.edgeCount).filter fun e => (g.endpoints? e).map Prod.fst = some v

/-- The edges that have an end at a vertex. -/
def edgesAt (g : Graph) (v : ℕ) : Finset ℕ := g.edgesInto v ∪ g.edgesOutOf v

variable {g : Graph} {s u v w e : ℕ}

theorem lt_edgeCount_of_endpoints? {ends : ℕ × ℕ} (h : g.endpoints? e = some ends) :
    e < g.edgeCount :=
  (Array.getElem?_eq_some_iff.mp h).1

theorem mem_edgesInto : e ∈ g.edgesInto v ↔ ∃ u, g.endpoints? e = some (u, v) := by
  rw [edgesInto, Finset.mem_filter, Finset.mem_range, Option.map_eq_some_iff]
  constructor
  · rintro ⟨-, ⟨u, v'⟩, h, rfl⟩
    exact ⟨u, h⟩
  · rintro ⟨u, h⟩
    exact ⟨lt_edgeCount_of_endpoints? h, (u, v), h, rfl⟩

theorem mem_edgesOutOf : e ∈ g.edgesOutOf v ↔ ∃ w, g.endpoints? e = some (v, w) := by
  rw [edgesOutOf, Finset.mem_filter, Finset.mem_range, Option.map_eq_some_iff]
  constructor
  · rintro ⟨-, ⟨v', w⟩, h, rfl⟩
    exact ⟨w, h⟩
  · rintro ⟨w, h⟩
    exact ⟨lt_edgeCount_of_endpoints? h, (v, w), h, rfl⟩

/-- Where edges have a direction, an edge that leads from one vertex to another was loaded so. -/
theorem Joins.endpoints?_eq (hkind : g.kind = .directed) (h : g.Joins e v w) :
    g.endpoints? e = some (v, w) := by
  rcases h with h | ⟨hundirected, -⟩
  · exact h
  · rw [hkind] at hundirected
    cases hundirected

theorem lt_edgeCount_of_mem_edgesAt (h : e ∈ g.edgesAt v) : e < g.edgeCount := by
  rcases Finset.mem_union.mp h with h | h
  · exact Finset.mem_range.mp (Finset.mem_filter.mp h).1
  · exact Finset.mem_range.mp (Finset.mem_filter.mp h).1

theorem mem_edgesAt {ends : ℕ × ℕ} (h : g.endpoints? e = some ends) :
    e ∈ g.edgesAt v ↔ ends.1 = v ∨ ends.2 = v := by
  rw [edgesAt, Finset.mem_union, mem_edgesInto, mem_edgesOutOf, h]
  constructor
  · rintro (⟨u, heq⟩ | ⟨w, heq⟩)
    · exact .inr (congrArg Prod.snd (Option.some.inj heq))
    · exact .inl (congrArg Prod.fst (Option.some.inj heq))
  · rintro (rfl | rfl)
    · exact .inr ⟨ends.2, rfl⟩
    · exact .inl ⟨ends.1, rfl⟩

/-- An edge that leads from one vertex to another has its ends there and nowhere else. -/
theorem Joins.mem_edgesAt_iff (h : g.Joins e u w) : e ∈ g.edgesAt v ↔ u = v ∨ w = v := by
  rcases h with h | ⟨-, h⟩
  · exact mem_edgesAt h
  · exact (mem_edgesAt h).trans or_comm

/-! ### Flow over the steps away from a source -/

/-- What flows over some edges is what flows over those steps away from the source that lead over
them. Over each edge leads one such step at most. -/
theorem sum_edgeShare_eq (hg : g.Consistent) (hs : s < g.nodeCount) {edges : Finset ℕ}
    {steps : Finset (ℕ × ℕ)} (haway : ∀ x ∈ steps, g.StepsAway s x.1 x.2)
    (hmem : ∀ e v w, g.Joins e v w → g.StepsAway s v w → (e ∈ edges ↔ (v, w) ∈ steps)) :
    ∑ e ∈ edges, g.edgeShare s e =
      ∑ x ∈ steps, (g.pathCount s x.1 : ℚ) * g.passedBack s x.2 := by
  have hlinked : ∀ x ∈ steps, ∃ e, g.Joins e x.1 x.2 := fun x hx => (haway x hx).1
  choose! edgeOf hedgeOf using hlinked
  refine (Finset.sum_of_injOn edgeOf ?injOn ?mapsTo ?other ?flow).symm
  case injOn =>
    intro x hx y hy heq
    obtain ⟨hfst, hsnd⟩ :=
      (haway x hx).eq_of_joins (haway y hy) (hedgeOf x hx) (heq ▸ hedgeOf y hy)
    exact Prod.ext hfst hsnd
  case mapsTo =>
    intro x hx
    exact (hmem _ _ _ (hedgeOf x hx) (haway x hx)).mpr hx
  case other =>
    intro e he hnone
    refine edgeShare_eq_zero fun v w hjoins hvw => hnone ?_
    have hstep := (hmem e v w hjoins hvw).mp he
    exact ⟨(v, w), hstep, hg.edge_unique _ _ v w (hedgeOf _ hstep) hjoins⟩
  case flow =>
    intro x hx
    exact (edgeShare_eq (hedgeOf x hx) (haway x hx) hs).symm

/-- The steps away from a source that lead to a vertex. -/
noncomputable def stepsTo (g : Graph) (s v : ℕ) : Finset (ℕ × ℕ) := g.predecessors s v ×ˢ {v}

/-- The steps away from a source that lead on from a vertex. -/
noncomputable def stepsFrom (g : Graph) (s v : ℕ) : Finset (ℕ × ℕ) := {v} ×ˢ g.successors s v

theorem mem_stepsTo (hg : g.Consistent) {x : ℕ × ℕ} :
    x ∈ g.stepsTo s v ↔ g.StepsAway s x.1 x.2 ∧ x.2 = v := by
  rw [stepsTo, Finset.mem_product, mem_predecessors, Finset.mem_singleton]
  constructor
  · rintro ⟨⟨-, h⟩, rfl⟩
    exact ⟨h, rfl⟩
  · rintro ⟨h, rfl⟩
    exact ⟨⟨(hg.lt_of_linked h.1).1, h⟩, rfl⟩

theorem mem_stepsFrom (hg : g.Consistent) {x : ℕ × ℕ} :
    x ∈ g.stepsFrom s v ↔ g.StepsAway s x.1 x.2 ∧ x.1 = v := by
  rw [stepsFrom, Finset.mem_product, mem_successors, Finset.mem_singleton]
  constructor
  · rintro ⟨rfl, -, h⟩
    exact ⟨h, rfl⟩
  · rintro ⟨h, rfl⟩
    exact ⟨rfl, (hg.lt_of_linked h.1).2, h⟩

/-- No step leads both to a vertex and on from it. -/
theorem disjoint_steps (hg : g.Consistent) (s v : ℕ) :
    Disjoint (g.stepsTo s v) (g.stepsFrom s v) := by
  refine Finset.disjoint_left.mpr fun x hto hfrom => ?_
  obtain ⟨⟨-, -, hdist⟩, hw⟩ := (mem_stepsTo hg).mp hto
  rw [((mem_stepsFrom hg).mp hfrom).2, hw] at hdist
  omega

/-! ### What comes to a vertex and what goes on from it -/

open Classical in
/-- What ends at a vertex: the paths from the source to it, if it is reached, count as one. -/
noncomputable def endingAt (g : Graph) (s v : ℕ) : ℚ := if s ≠ v ∧ g.Reaches s v then 1 else 0

/-- What starts at a vertex: if it is the source, its paths to each vertex that it reaches count as
one. -/
noncomputable def startingAt (g : Graph) (s v : ℕ) : ℚ :=
  if s = v then (g.reached v).card - 1 else 0

/-- What a source passes back to itself counts every vertex that it reaches, itself included. -/
theorem passedBack_self (hg : g.Consistent) (s : ℕ) : g.passedBack s s = (g.reached s).card := by
  have hone : ∀ t ∈ g.reached s, ((g.onward s s t).ncard : ℚ) / g.pathCount s t = 1 := by
    intro t ht
    have hzero : g.distance s s = 0 := AtDistance.distance_eq (atDistance_zero_iff.mpr rfl)
    have honward : g.onward s s t = g.shortestPaths s t := by
      ext p
      rw [mem_shortestPaths_iff, onward, Set.mem_ofPred_eq, hzero, zero_add]
    have hpos := hg.pathCount_pos (mem_reached.mp ht).2
    rw [honward, ← pathCount]
    exact div_self (by exact_mod_cast hpos.ne')
  rw [passedBack, Finset.sum_congr rfl hone, Finset.sum_const, nsmul_eq_mul, mul_one]

/-- What comes to a vertex from a source is what passes through it and what ends there. -/
theorem sum_stepsTo (hg : g.Consistent) (hs : s < g.nodeCount) (v : ℕ) :
    ∑ x ∈ g.stepsTo s v, (g.pathCount s x.1 : ℚ) * g.passedBack s x.2 =
      (if v = s then 0 else g.vertexShare s v) + g.endingAt s v := by
  have hsum : ∑ x ∈ g.stepsTo s v, (g.pathCount s x.1 : ℚ) * g.passedBack s x.2 =
      (∑ u ∈ g.predecessors s v, (g.pathCount s u : ℚ)) * g.passedBack s v := by
    rw [stepsTo, Finset.sum_product, Finset.sum_mul]
    exact Finset.sum_congr rfl fun u _ => Finset.sum_singleton _ _
  by_cases hreach : g.Reaches s v
  · by_cases hv : v = s
    · subst hv
      have hnone : g.predecessors v v = ∅ := by
        refine Finset.eq_empty_of_forall_notMem fun u hu => ?_
        obtain ⟨-, -, -, hdist⟩ := mem_predecessors.mp hu
        rw [AtDistance.distance_eq (atDistance_zero_iff.mpr rfl)] at hdist
        omega
      simp [hsum, hnone, endingAt]
    · have hlt := hg.lt_of_reaches hreach hs
      rw [hsum, ← Nat.cast_sum, ← pathCount_eq_sum hg hv, ← vertexShare_add_one hg hreach hlt hv hs]
      simp [hv, endingAt, hreach, Ne.symm hv]
  · have hv : v ≠ s := by
      rintro rfl
      exact hreach ⟨[], .nil v⟩
    have hnone : g.predecessors s v = ∅ := by
      refine Finset.eq_empty_of_forall_notMem fun u hu => hreach ?_
      exact (mem_predecessors.mp hu).2.reaches
    simp [hsum, hnone, hv, endingAt, hreach, vertexShare_eq_zero hreach]

/-- What goes on from a vertex is what passes through it and what starts there. -/
theorem sum_stepsFrom (hg : g.Consistent) (hs : s < g.nodeCount) (v : ℕ) :
    ∑ x ∈ g.stepsFrom s v, (g.pathCount s x.1 : ℚ) * g.passedBack s x.2 =
      (if v = s then 0 else g.vertexShare s v) + g.startingAt s v := by
  have hsum : ∑ x ∈ g.stepsFrom s v, (g.pathCount s x.1 : ℚ) * g.passedBack s x.2 =
      g.pathCount s v * ∑ w ∈ g.successors s v, g.passedBack s w := by
    rw [stepsFrom, Finset.sum_product, Finset.sum_singleton, Finset.mul_sum]
  rw [hsum]
  by_cases hv : v = s
  · subst hv
    have hback := passedBack_eq hg ⟨[], .nil v⟩ hs
    rw [passedBack_self hg, pathCount_self] at hback
    rw [pathCount_self, startingAt, if_pos rfl, if_pos rfl, hback]
    ring
  · rw [if_neg hv, startingAt, if_neg (Ne.symm hv), add_zero]
    by_cases hreach : g.Reaches s v
    · exact (vertexShare_eq_mul_sum hg hreach hv hs).symm
    · rw [pathCount_eq_zero hreach, vertexShare_eq_zero hreach, Nat.cast_zero, zero_mul]

/-- What comes to a vertex over the edges that enter it. -/
theorem sum_edgesInto (hg : g.Consistent) (hkind : g.kind = .directed) (hs : s < g.nodeCount)
    (v : ℕ) : ∑ e ∈ g.edgesInto v, g.edgeShare s e =
      (if v = s then 0 else g.vertexShare s v) + g.endingAt s v := by
  rw [← sum_stepsTo hg hs]
  refine sum_edgeShare_eq hg hs (fun x hx => ((mem_stepsTo hg).mp hx).1) fun e u w he haway => ?_
  rw [mem_edgesInto, he.endpoints?_eq hkind, mem_stepsTo hg]
  simp [haway]

/-- What goes on from a vertex over the edges that leave it. -/
theorem sum_edgesOutOf (hg : g.Consistent) (hkind : g.kind = .directed) (hs : s < g.nodeCount)
    (v : ℕ) : ∑ e ∈ g.edgesOutOf v, g.edgeShare s e =
      (if v = s then 0 else g.vertexShare s v) + g.startingAt s v := by
  rw [← sum_stepsFrom hg hs]
  refine sum_edgeShare_eq hg hs (fun x hx => ((mem_stepsFrom hg).mp hx).1) fun e u w he haway => ?_
  rw [mem_edgesOutOf, he.endpoints?_eq hkind, mem_stepsFrom hg]
  simp [haway]

/-- Whether or not edges have a direction: over the edges that have an end at a vertex flows what
comes to it and what goes on from it. -/
theorem sum_edgesAt (hg : g.Consistent) (hs : s < g.nodeCount) (v : ℕ) :
    ∑ e ∈ g.edgesAt v, g.edgeShare s e =
      2 * (if v = s then 0 else g.vertexShare s v) + g.endingAt s v + g.startingAt s v := by
  have hunion : ∑ e ∈ g.edgesAt v, g.edgeShare s e =
      ∑ x ∈ g.stepsTo s v ∪ g.stepsFrom s v, (g.pathCount s x.1 : ℚ) * g.passedBack s x.2 := by
    refine sum_edgeShare_eq hg hs (fun x hx => ?_) fun e u w he haway => ?_
    · rcases Finset.mem_union.mp hx with hx | hx
      · exact ((mem_stepsTo hg).mp hx).1
      · exact ((mem_stepsFrom hg).mp hx).1
    · rw [he.mem_edgesAt_iff, Finset.mem_union, mem_stepsTo hg, mem_stepsFrom hg]
      simp [haway, or_comm]
  rw [hunion, Finset.sum_union (disjoint_steps hg s v), sum_stepsTo hg hs, sum_stepsFrom hg hs]
  ring

/-! ### Many sources -/

/-- What flows over some edges is what flows over them from each of the sources. -/
theorem sum_edgeSum (g : Graph) (edges : Finset ℕ) (sources : List ℕ) :
    ∑ e ∈ edges, g.edgeSum sources e =
      (sources.map fun s => ∑ e ∈ edges, g.edgeShare s e).sum := by
  induction sources with
  | nil => simp [edgeSum]
  | cons s sources ih =>
      simp only [edgeSum, List.map_cons, List.sum_cons, Finset.sum_add_distrib] at ih ⊢
      rw [ih]

open Classical in
/-- The number of sources, repeats included, that reach a vertex other than themselves. -/
noncomputable def arrivals (g : Graph) (sources : List ℕ) (v : ℕ) : ℕ :=
  sources.countP fun s => s ≠ v ∧ g.Reaches s v

/-- What ends at a vertex counts the sources that reach it. -/
theorem sum_endingAt (g : Graph) (sources : List ℕ) (v : ℕ) :
    (sources.map fun s => g.endingAt s v).sum = g.arrivals sources v := by
  classical
  induction sources with
  | nil => simp [arrivals]
  | cons s sources ih =>
      rw [List.map_cons, List.sum_cons, ih, arrivals, arrivals, List.countP_cons, endingAt]
      push_cast
      simp [add_comm]

/-- What starts at a vertex counts the vertices that it reaches, as often as it is a source. -/
theorem sum_startingAt (g : Graph) (sources : List ℕ) (v : ℕ) :
    (sources.map fun s => g.startingAt s v).sum =
      sources.count v * ((g.reached v).card - 1 : ℚ) := by
  induction sources with
  | nil => simp
  | cons s sources ih =>
      rw [List.map_cons, List.sum_cons, ih, startingAt, List.count_cons]
      by_cases hs : s = v
      · simp [hs]
        ring
      · simp [hs]

end Graph

/-! ### Scores -/

section Scores

variable {g : Graph} {v : ℕ} {sources : List ℕ}

/-- The scores of some edges, from what flows over them from each of the sources. -/
theorem sum_edgeScores (hg : g.Consistent) {edges : Finset ℕ} {flow : ℕ → ℚ}
    (hedges : ∀ e ∈ edges, e < g.edgeCount)
    (hflow : ∀ s ∈ sources, ∑ e ∈ edges, g.edgeShare s e = flow s) :
    ∑ e ∈ edges, (edgeScores ℚ g sources).getD e 0 = (sources.map flow).sum := by
  rw [← List.map_congr_left hflow, ← Graph.sum_edgeSum, edgeScores_eq hg]
  exact Finset.sum_congr rfl fun e he => getD_map_range (hedges e he) _

/-- Of every built graph, for all sources, repeats included, and at every vertex. With direction:
the scores of the edges that enter the vertex make up its own score and one for each source that
reaches it from elsewhere, and those of the edges that leave it make up its own score and, as often
as it is a source, the number of other vertices that it reaches. Without direction, the scores of
the edges at the vertex make up both. Loops have no score. -/
theorem flow_conserved {b : Builder} (hb : b.build = .ok g)
    (hsources : ∀ s ∈ sources, s < g.nodeCount) (hv : v < g.nodeCount) :
    (g.kind = .directed →
      ∑ e ∈ g.edgesInto v, (edgeScores ℚ g sources).getD e 0 =
        (vertexScores ℚ g sources).getD v 0 + g.arrivals sources v ∧
      ∑ e ∈ g.edgesOutOf v, (edgeScores ℚ g sources).getD e 0 =
        (vertexScores ℚ g sources).getD v 0 +
          sources.count v * ((g.reached v).card - 1 : ℚ)) ∧
    (g.kind = .undirected →
      ∑ e ∈ g.edgesAt v, (edgeScores ℚ g sources).getD e 0 =
        2 * (vertexScores ℚ g sources).getD v 0 + g.arrivals sources v +
          sources.count v * ((g.reached v).card - 1 : ℚ)) ∧
    ∀ e u, g.endpoints? e = some (u, u) → (edgeScores ℚ g sources).getD e 0 = 0 := by
  have hg := Builder.build_consistent hb
  have hvertex : (vertexScores ℚ g sources).getD v 0 = g.vertexSum sources v := by
    rw [vertexScores_eq hg, getD_map_range hv]
  have hat : ∀ e ∈ g.edgesAt v, e < g.edgeCount := fun e he => Graph.lt_edgeCount_of_mem_edgesAt he
  rw [hvertex, ← Graph.sum_endingAt, ← Graph.sum_startingAt, Graph.vertexSum]
  refine ⟨fun hkind => ⟨?into, ?outOf⟩, fun hkind => ?both, fun e u he => ?loop⟩
  case into =>
    rw [sum_edgeScores hg (fun e he => hat e (Finset.mem_union_left _ he))
      (fun s hs => Graph.sum_edgesInto hg hkind (hsources s hs) v), List.sum_map_add]
  case outOf =>
    rw [sum_edgeScores hg (fun e he => hat e (Finset.mem_union_right _ he))
      (fun s hs => Graph.sum_edgesOutOf hg hkind (hsources s hs) v), List.sum_map_add]
  case both =>
    rw [sum_edgeScores hg hat (fun s hs => Graph.sum_edgesAt hg (hsources s hs) v),
      List.sum_map_add, List.sum_map_add, List.sum_map_mul_left]
  case loop =>
    rw [edgeScores_eq hg, getD_map_range (Graph.lt_edgeCount_of_endpoints? he)]
    refine List.sum_eq_zero fun x hx => ?_
    obtain ⟨s, -, rfl⟩ := List.mem_map.mp hx
    exact Graph.edgeShare_loop he

end Scores

/-! ### An example -/

/-- Two ways from the first of four vertices to the last. -/
def Builder.diamond : Builder where
  kind := .directed
  renumber := false
  rows := #[(0, 1), (0, 2), (1, 3), (2, 3)]

/-- The graph of the diamond. -/
def Graph.diamond : Graph :=
  ofRows .directed (.identity 4) [(0, 1), (0, 2), (1, 3), (2, 3)]

theorem Graph.diamond_eq : diamond =
    { kind := .directed
      numbering := .identity 4
      edges := #[(0, 1), (0, 2), (1, 3), (2, 3)]
      outgoing := #[#[⟨1, 0⟩, ⟨2, 1⟩], #[⟨3, 2⟩], #[⟨3, 3⟩], #[]]
      incoming := #[#[], #[⟨0, 0⟩], #[⟨0, 1⟩], #[⟨1, 2⟩, ⟨2, 3⟩]] } := by
  have hrows : distinctRows Kind.directed.edgeKey ∅ [(0, 1), (0, 2), (1, 3), (2, 3)] =
      [(0, 1), (0, 2), (1, 3), (2, 3)] := by
    simp [distinctRows, Kind.edgeKey]
  rw [diamond, ofRows, hrows]
  rfl

theorem Builder.build_diamond : diamond.build = .ok Graph.diamond := by
  rw [diamond, Graph.diamond]
  rfl

/-- The first vertex of the diamond is a source twice and the second one once: what enters and what
leaves the second one. And the same sources in the square, where they are neighbours. -/
theorem flow_conserved_diamond :
    Builder.diamond.build = .ok Graph.diamond ∧ Graph.diamond.kind = .directed ∧
    (∀ s ∈ [0, 0, 1], s < Graph.diamond.nodeCount) ∧ 1 < Graph.diamond.nodeCount ∧
    edgeScores ℚ Graph.diamond [0, 0, 1] = #[3, 3, 2, 1] ∧
    vertexScores ℚ Graph.diamond [0, 0, 1] = #[0, 1, 1, 0] ∧
    ∑ e ∈ Graph.diamond.edgesInto 1, (edgeScores ℚ Graph.diamond [0, 0, 1]).getD e 0 =
      1 + Graph.diamond.arrivals [0, 0, 1] 1 ∧
    ∑ e ∈ Graph.diamond.edgesOutOf 1, (edgeScores ℚ Graph.diamond [0, 0, 1]).getD e 0 =
      1 + 1 * ((Graph.diamond.reached 1).card - 1 : ℚ) ∧
    Builder.square.build = .ok Graph.square ∧ Graph.square.kind = .undirected ∧
    ∑ e ∈ Graph.square.edgesAt 1, (edgeScores ℚ Graph.square [0, 0, 1]).getD e 0 =
      2 * (vertexScores ℚ Graph.square [0, 0, 1]).getD 1 0 + Graph.square.arrivals [0, 0, 1] 1 +
        1 * ((Graph.square.reached 1).card - 1 : ℚ) := by
  have hcount : Graph.diamond.nodeCount = 4 := Graph.nodeCount_ofRows
  have hsources : ∀ s ∈ [0, 0, 1], s < Graph.diamond.nodeCount := by
    rw [hcount]
    decide
  have hv : 1 < Graph.diamond.nodeCount := by
    rw [hcount]
    decide
  have hedges : edgeScores ℚ Graph.diamond [0, 0, 1] = #[3, 3, 2, 1] := by
    rw [Graph.diamond_eq]
    decide +kernel
  have hvertices : vertexScores ℚ Graph.diamond [0, 0, 1] = #[0, 1, 1, 0] := by
    rw [Graph.diamond_eq]
    decide +kernel
  obtain ⟨hinto, hout⟩ := (flow_conserved Builder.build_diamond hsources hv).1 rfl
  have hsquare : ∀ s ∈ [0, 0, 1], s < Graph.square.nodeCount := by
    rw [Graph.nodeCount_square]
    decide
  have hat := (flow_conserved Builder.build_square hsquare (hsquare 1 (by decide))).2.1 rfl
  have hone : ([0, 0, 1] : List ℕ).count 1 = 1 := by decide
  rw [hvertices] at hinto hout
  rw [hone, Nat.cast_one] at hout hat
  exact ⟨Builder.build_diamond, rfl, hsources, hv, hedges, hvertices, hinto, hout,
    Builder.build_square, rfl, hat⟩

end Betweenness
