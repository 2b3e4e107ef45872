import Betweenness.Proofs.Graph.Walk
import Mathlib.Algebra.Order.BigOperators.Group.Finset

/-!
# Arcs and edges of built graphs

A caller sees a graph through three views: the arcs that leave a vertex, the arcs that enter it, and
the ends of each edge. `Graph.ViewsAgree` relates them without any notion of the theory: the arcs
are those of the edge list, seen from either end, listed once and in the order of edges, and edges
differ in their ends.

## Main results

* `Graph.Consistent.viewsAgree`: the views of a consistent graph agree.
* `Graph.Consistent.sum_size_into_le`: the arcs that enter vertices are no more than edges are
  stored as.
* `Builder.build_viewsAgree`: the views of every built graph agree.
-/

namespace Betweenness

namespace Graph

/-- The three views of a graph are views of one list of edges. -/
structure ViewsAgree (g : Graph) : Prop where
  /-- The ends of edges are vertices. -/
  endpoints_lt : ∀ e v w, g.endpoints? e = some (v, w) → v < g.nodeCount ∧ w < g.nodeCount
  /-- What leaves a vertex is an edge and leads to a vertex. -/
  out_lt : ∀ v, ∀ arc ∈ g.out v, arc.target < g.nodeCount ∧ arc.edge < g.edgeCount
  /-- What enters a vertex is an edge and comes from a vertex. -/
  into_lt : ∀ v, ∀ arc ∈ g.into v, arc.target < g.nodeCount ∧ arc.edge < g.edgeCount
  /-- The edges that were loaded from a vertex leave it and, where edges have no direction, those
  that were loaded towards it. -/
  mem_out_iff : ∀ v t e, ⟨t, e⟩ ∈ g.out v ↔
    g.endpoints? e = some (v, t) ∨ g.kind = .undirected ∧ g.endpoints? e = some (t, v)
  /-- What leaves one end of an edge enters the other. -/
  mem_into_iff : ∀ v t e, ⟨t, e⟩ ∈ g.into v ↔ ⟨v, e⟩ ∈ g.out t
  /-- No arc is listed twice, not even that of a loop without direction, both ends of which are the
  vertex. -/
  out_nodup : ∀ v, (g.out v).toList.Nodup
  into_nodup : ∀ v, (g.into v).toList.Nodup
  /-- Arcs are in the order of edges. -/
  out_increasing : ∀ v, (g.out v).toList.Pairwise (·.edge < ·.edge)
  into_increasing : ∀ v, (g.into v).toList.Pairwise (·.edge < ·.edge)
  /-- Two edges differ in their ends: in their order as well or, where edges have no direction,
  whatever their order. -/
  endpoints_ne : ∀ e e' x y, g.endpoints? e = some x → g.endpoints? e' = some y → e ≠ e' →
    x ≠ y ∧ (g.kind = .undirected → x ≠ y.swap)

namespace Consistent

variable {g : Graph} (hg : g.Consistent)

include hg

/-- What leads from one vertex to another leaves the one and enters the other. -/
theorem mem_into_iff_mem_out {v t e : ℕ} : ⟨t, e⟩ ∈ g.into v ↔ ⟨v, e⟩ ∈ g.out t :=
  (hg.mem_into t v e).trans (hg.mem_out t v e).symm

/-- Edges with the same ends, in either order if they have no direction, are the same. -/
theorem eq_of_edgeKey_eq {e e' : ℕ} {x y : ℕ × ℕ} (hx : g.endpoints? e = some x)
    (hy : g.endpoints? e' = some y) (hkey : g.kind.edgeKey x = g.kind.edgeKey y) : e = e' :=
  hg.edge_unique e e' y.1 y.2 (joins_iff.mpr ⟨x, hx, hkey⟩) (joins_iff.mpr ⟨y, hy, rfl⟩)

omit hg in
/-- Arcs in the order of edges are different arcs. -/
theorem nodup_of_increasing {arcs : List Arc} (h : arcs.Pairwise (·.edge < ·.edge)) :
    arcs.Nodup :=
  h.imp fun hlt heq => Nat.ne_of_lt hlt (congrArg Arc.edge heq)

/-- The views of a consistent graph agree. -/
theorem viewsAgree : g.ViewsAgree where
  endpoints_lt := hg.endpoints_lt
  out_lt v arc harc := by
    have hjoins := (hg.mem_out v arc.target arc.edge).mp harc
    exact ⟨(hg.lt_of_joins hjoins).2, hjoins.lt_edgeCount⟩
  into_lt v arc harc := by
    have hjoins := (hg.mem_into arc.target v arc.edge).mp harc
    exact ⟨(hg.lt_of_joins hjoins).1, hjoins.lt_edgeCount⟩
  mem_out_iff := hg.mem_out
  mem_into_iff v t e := hg.mem_into_iff_mem_out
  out_nodup v := nodup_of_increasing (hg.out_increasing v)
  into_nodup v := nodup_of_increasing (hg.into_increasing v)
  out_increasing := hg.out_increasing
  into_increasing := hg.into_increasing
  endpoints_ne e e' x y hx hy hne := by
    have hkey : g.kind.edgeKey x ≠ g.kind.edgeKey y := fun hkey =>
      hne (hg.eq_of_edgeKey_eq hx hy hkey)
    rw [ne_eq, Kind.edgeKey_eq_iff, not_or, not_and] at hkey
    exact hkey

end Consistent

end Graph

/-! ### The number of arcs -/

/-- The steps for which an edge with the given ends can be taken. -/
def Kind.steps (kind : Kind) (ends : ℕ × ℕ) : Finset (ℕ × ℕ) :=
  match kind with
  | .directed => {ends}
  | .undirected => {ends, ends.swap}

/-- There are no more of them than arcs as which the edge is stored. -/
theorem Kind.card_steps_le (kind : Kind) (ends : ℕ × ℕ) :
    (kind.steps ends).card ≤ kind.arcsPerEdge := by
  cases kind with
  | directed => exact Nat.le_of_eq (Finset.card_singleton ends)
  | undirected => exact Finset.card_le_two

namespace Graph

variable {g : Graph} {e v w : ℕ} {ends : ℕ × ℕ}

theorem Joins.mem_steps (h : g.Joins e v w) (hends : g.endpoints? e = some ends) :
    (v, w) ∈ g.kind.steps ends := by
  cases hkind : g.kind with
  | directed =>
      rcases h with h | ⟨hundirected, -⟩
      · exact Finset.mem_singleton.mpr (Option.some.inj (h.symm.trans hends))
      · rw [hkind] at hundirected
        cases hundirected
  | undirected =>
      rw [Kind.steps, Finset.mem_insert, Finset.mem_singleton]
      rcases h with h | ⟨-, h⟩
      · exact .inl (Option.some.inj (h.symm.trans hends))
      · exact .inr (Option.some.inj (h.symm.trans hends) ▸ rfl)

/-- The arcs that enter vertices, each with its vertex. -/
def arrivingArcs (g : Graph) : Finset (Σ _ : ℕ, Arc) :=
  (Finset.range g.nodeCount).sigma fun v => (g.into v).toList.toFinset

namespace Consistent

variable (hg : g.Consistent)

include hg

theorem joins_of_mem_arrivingArcs {arc : Σ _ : ℕ, Arc} (h : arc ∈ g.arrivingArcs) :
    g.Joins arc.2.edge arc.2.target arc.1 := by
  have hmem := (Finset.mem_sigma.mp h).2
  rw [List.mem_toFinset, Array.mem_toList_iff] at hmem
  exact (hg.mem_into _ _ _).mp hmem

theorem card_arrivingArcs :
    g.arrivingArcs.card = ∑ v ∈ Finset.range g.nodeCount, (g.into v).size := by
  rw [arrivingArcs, Finset.card_sigma]
  refine Finset.sum_congr rfl fun v _ => ?_
  rw [List.toFinset_card_of_nodup (hg.viewsAgree.into_nodup v), Array.length_toList]

/-- An edge arrives no more often than it is stored. -/
theorem card_arrivingArcs_of_edge (he : e < g.edgeCount) :
    (g.arrivingArcs.filter (·.2.edge = e)).card ≤ g.kind.arcsPerEdge := by
  obtain ⟨ends, hends⟩ : ∃ ends, g.endpoints? e = some ends := ⟨_, Array.getElem?_eq_getElem he⟩
  refine Nat.le_trans ?_ (g.kind.card_steps_le ends)
  refine Finset.card_le_card_of_injOn (fun arc => (arc.2.target, arc.1)) (fun arc harc => ?_) ?_
  · obtain ⟨hmem, rfl⟩ := Finset.mem_filter.mp harc
    exact (hg.joins_of_mem_arrivingArcs hmem).mem_steps hends
  · rintro ⟨v, t, e⟩ harc ⟨v', t', e'⟩ harc' hsame
    obtain ⟨rfl, rfl⟩ := Prod.mk.inj hsame
    obtain rfl : e = e' :=
      (Finset.mem_filter.mp harc).2.trans (Finset.mem_filter.mp harc').2.symm
    rfl

/-- The arcs that enter vertices are no more than all edges are stored as. -/
theorem sum_size_into_le :
    ∑ v ∈ Finset.range g.nodeCount, (g.into v).size ≤ g.edgeCount * g.kind.arcsPerEdge :=
  calc ∑ v ∈ Finset.range g.nodeCount, (g.into v).size
      = g.arrivingArcs.card := hg.card_arrivingArcs.symm
    _ ≤ g.kind.arcsPerEdge * (Finset.range g.edgeCount).card :=
        Finset.card_le_mul_card_image_of_maps_to
          (fun _ harc => Finset.mem_range.mpr (hg.joins_of_mem_arrivingArcs harc).lt_edgeCount) _
          fun _ he => hg.card_arrivingArcs_of_edge (Finset.mem_range.mp he)
    _ = g.edgeCount * g.kind.arcsPerEdge := by rw [Finset.card_range, Nat.mul_comm]

end Consistent

end Graph

/-- Whatever is declared and loaded: if a graph is built, it is of the kind that was asked for, and
its views agree. -/
theorem Builder.build_viewsAgree {b : Builder} {g : Graph} (h : b.build = .ok g) :
    g.kind = b.kind ∧ g.ViewsAgree := by
  refine ⟨?_, (build_consistent h).viewsAgree⟩
  obtain ⟨numbering, rows, -, -, rfl⟩ := build_eq_ok h
  rfl

/-- The views of the square with a loop beside it, whose arc is listed once. -/
theorem Builder.build_viewsAgree_square : square.build = .ok Graph.square ∧
    Graph.square.kind = .undirected ∧ Graph.square.ViewsAgree ∧
    Graph.square.out 3 = #[⟨2, 2⟩, ⟨0, 3⟩] ∧ Graph.square.out 4 = #[⟨4, 4⟩] := by
  obtain ⟨hkind, hviews⟩ := build_viewsAgree build_square
  refine ⟨build_square, hkind, hviews, ?_⟩
  rw [Graph.square_eq]
  exact ⟨rfl, rfl⟩

end Betweenness
