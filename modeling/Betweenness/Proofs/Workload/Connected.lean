import Betweenness.Proofs.Graph.Reversal
import Betweenness.Proofs.ShortestPaths.Description
import Betweenness.Proofs.Workload.VertexCount

/-!
# Graphs that grow are connected

Three of the generators add vertices one after another, and join each of them to an earlier one,
whatever is drawn. So without direction of edges there is a way back from every vertex to the first,
over ever earlier ones, and hence from every vertex to any other. A search reaches all vertices,
whichever of them it starts from.

## Main results

* `always_joinsEarlier`: every vertex but the first is joined to an earlier one.
* `Graph.GrowsOutward.reaches`: so every vertex reaches any other.
* `growing_connected`: the graphs that are built, and searches of them.
-/

namespace Betweenness

/-! ### Ways back to the first vertex -/

/-- The vertices of a graph have themselves as ids, and every one but the first has an edge to or
from an earlier one. -/
structure Graph.GrowsOutward (n : ℕ) (g : Graph) : Prop where
  nodeCount_eq : g.nodeCount = n
  idOf_eq : ∀ v < n, g.idOf? v = some v
  exists_earlier : ∀ v, 0 < v → v < n →
    ∃ u < v, ∃ e, g.endpoints? e = some (u, v) ∨ g.endpoints? e = some (v, u)

/-- From whatever vertex a search of a graph starts, and whatever its space has been used for, it
reaches all vertices. -/
def Graph.SearchedThroughout (g : Graph) : Prop :=
  ∀ (α : Type) [Scalar α] (s : ShortestPaths α), ShortestPaths.Used α g.nodeCount s →
    ∀ source < g.nodeCount, (s.search g source).reached = g.nodeCount ∧
      ∀ v < g.nodeCount, (s.search g source).isReachable v = true

namespace Graph.GrowsOutward

variable {g : Graph} {n s t v : ℕ} (h : g.GrowsOutward n) (hkind : g.kind = .undirected)

include h hkind

/-- A way back to the first vertex leads over ever earlier ones. -/
theorem reaches_first (hv : v < n) : g.Reaches v 0 := by
  induction v using Nat.strong_induction_on with
  | _ v ih =>
      rcases Nat.eq_zero_or_pos v with rfl | hpos
      · exact ⟨[], .nil 0⟩
      · obtain ⟨u, hu, e, he⟩ := h.exists_earlier v hpos hv
        obtain ⟨p, hp⟩ := ih u hu (Nat.lt_trans hu hv)
        have hlink : g.Linked v u := ⟨e, he.symm.imp_right fun he => ⟨hkind, he⟩⟩
        exact ⟨u :: p, .cons hlink hp⟩

/-- From one vertex to another there is a way over the first. -/
theorem reaches (hs : s < n) (ht : t < n) : g.Reaches s t := by
  obtain ⟨p, hp⟩ := h.reaches_first hkind hs
  obtain ⟨q, hq⟩ := (h.reaches_first hkind ht).symm hkind
  exact ⟨p ++ q, hp.append hq⟩

end Graph.GrowsOutward

namespace Workload

open Chance

variable {kind : Kind} {n m v : ℕ} {b : Builder} {g : Graph} {w : Workload}

/-! ### The graphs of builders -/

/-- A row to or from an earlier vertex becomes such an edge. -/
theorem Spans.exists_earlier (h : Spans kind n m b) (hb : b.build = .ok g)
    (hjoins : b.JoinsEarlier v) :
    ∃ u < v, ∃ e, g.endpoints? e = some (u, v) ∨ g.endpoints? e = some (v, u) := by
  obtain ⟨u, hu, hrow⟩ := hjoins
  have hlinked : g.Linked u v ∨ g.Linked v u :=
    hrow.imp (fun hrow => (h.linked_iff hb).mpr (.inl hrow))
      fun hrow => (h.linked_iff hb).mpr (.inl hrow)
  refine ⟨u, hu, ?_⟩
  rcases hlinked with ⟨e, he⟩ | ⟨e, he⟩
  · exact ⟨e, he.imp_right And.right⟩
  · exact ⟨e, (he.imp_right And.right).symm⟩

/-- A builder comes to a graph that grows outward from the first vertex. Without direction of edges,
searches reach all its vertices. -/
def BuildsConnected (kind : Kind) (n : ℕ) (b : Builder) : Prop :=
  ∃ g, b.build = .ok g ∧ g.kind = kind ∧ g.GrowsOutward n ∧
    (kind = .undirected → g.SearchedThroughout)

theorem Spans.buildsConnected (h : Spans kind n m b) (hm : m ≤ maxIndex)
    (hfits : (dense kind n).checkMemory n = .ok ())
    (hjoins : ∀ v, 0 < v → v < n → b.JoinsEarlier v) : BuildsConnected kind n b := by
  obtain ⟨g, hb, hcount⟩ := h.exists_build hm hfits
  have hg := Builder.build_consistent hb
  have hgrows : g.GrowsOutward n := ⟨hcount, fun v _ => h.idOf_eq hb v,
    fun v hpos hv => h.exists_earlier hb (hjoins v hpos hv)⟩
  refine ⟨g, hb, h.kind_eq hb, hgrows, fun hkind α _ s hused source hs => ?_⟩
  have hall : ∀ v < g.nodeCount, g.Reaches source v := fun v hv =>
    hgrows.reaches ((h.kind_eq hb).trans hkind) (hcount ▸ hs) (hcount ▸ hv)
  have hsearch := ShortestPaths.search_describes hb hs hused
  exact ⟨hsearch.reached_eq_nodeCount hg hs hall,
    fun v hv => (hsearch.isReachable_iff v).mpr (hall v hv)⟩

/-! ### Generators -/

/-- The kinds of graphs that grow vertex by vertex. -/
def growing : List Workload := [tree, scaleFree, aggregation]

section Draws

variable {σ : Type} [WordSupply σ]

/-- In a tree every vertex but the first is joined to the one of which it is a child. -/
theorem joinsEarlier_treeBuilder (kind : Kind) (hpos : 0 < v) (hv : v < n) :
    (treeBuilder n kind).JoinsEarlier v := by
  rw [treeBuilder_eq kind (Nat.zero_lt_of_lt hv)]
  exact ⟨(v - 1) / 3, by omega, .inl (mem_treeRows_iff.mpr ⟨hpos, hv, rfl⟩)⟩

/-- Whatever is drawn, every vertex but the first is joined to an earlier one. -/
theorem always_joinsEarlier (hw : w ∈ growing) (kind : Kind) (hn : 5 ≤ n) :
    Always (fun b => Spans kind n (n * 10) b ∧ ∀ v, 0 < v → v < n → b.JoinsEarlier v)
      (w.builder n kind : Chance σ Builder) := by
  have hone : 1 ≤ n := Nat.le_trans (by decide) hn
  simp only [growing, List.mem_cons, List.not_mem_nil, or_false] at hw
  rcases hw with rfl | rfl | rfl
  · exact .pure ⟨(spans_treeBuilder kind hone).mono (by omega),
      fun v => joinsEarlier_treeBuilder kind⟩
  · exact (((always_scaleFreeBuilder kind hn).mono fun _ h => h.mono (by omega)).and
      (always_scaleFreeBuilder_joinsEarlier kind hn))
  · exact (always_aggregationBuilder kind hone).mono fun _ h => ⟨h.1.mono (by omega), h.2⟩

end Draws

/-- Trees, scale-free graphs and aggregates grow outward from the first vertex: every other vertex
has an edge to or from an earlier one, whatever is drawn, be it from the seeds of the generators or
not. Without direction of edges they are connected: a search reaches all vertices, whichever of them
it starts from. -/
theorem growing_connected (hw : w ∈ growing) (hn : 5 ≤ n)
    (hfits : (dense kind n).checkMemory n = .ok ()) :
    (∀ (σ : Type) [WordSupply σ],
      Always (BuildsConnected kind n) (w.builder n kind : Chance σ Builder)) ∧
    ∃ b, w.generate n kind = some b ∧ BuildsConnected kind n b := by
  have hrows : n * 10 ≤ maxIndex := by
    have hroom := mul_ten_le_of_checkMemory_dense hfits
    omega
  have hbuilds : ∀ (σ : Type) [WordSupply σ],
      Always (BuildsConnected kind n) (w.builder n kind : Chance σ Builder) := fun σ _ =>
    (always_joinsEarlier hw kind hn).mono fun _ h => h.1.buildsConnected hrows hfits h.2
  exact ⟨hbuilds, exists_generate_of_always (hbuilds Congruential)⟩

/-- A scale-free graph with two vertices beside the clique, and searches from the last of them. -/
theorem growing_connected_seven : scaleFree ∈ growing ∧ 5 ≤ 7 ∧
    (dense .undirected 7).checkMemory 7 = .ok () ∧
    ∃ b g, scaleFree.generate 7 .undirected = some b ∧ b.build = .ok g ∧ g.nodeCount = 7 ∧
      ((ShortestPaths.blank Float 7).search g 6).reached = 7 := by
  have hw : scaleFree ∈ growing := by decide
  have hfits : (dense .undirected 7).checkMemory 7 = .ok () := by decide
  obtain ⟨-, b, hgenerate, g, hb, -, hgrows, hsearched⟩ := growing_connected hw (by decide) hfits
  have hcount := hgrows.nodeCount_eq
  have hsource : 6 < g.nodeCount := hcount ▸ by decide
  obtain ⟨hreached, -⟩ := hsearched rfl Float (.blank Float g.nodeCount) .blank 6 hsource
  rw [hcount] at hreached
  exact ⟨hw, by decide, hfits, b, g, hgenerate, hb, hcount, hreached⟩

end Workload

end Betweenness
