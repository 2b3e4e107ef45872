import Betweenness.Proofs.Graph.Arcs
import Betweenness.Proofs.Graph.Bridge
import Betweenness.Proofs.Workload.VertexCount

/-!
# The bridge of a barbell

The edges of a barbell that are drawn lie within its clusters, whatever is drawn. So the vertices up
to one of the bridge and those beyond are joined by one edge, that of the chain; and so are the
clusters and the ends of the bridge. Whoever goes from one cluster to the other comes to all
vertices of the bridge, one after another.

## Main results

* `IsBarbell.row_eq`: of the rows of a barbell, one leads across the bridge at any of its vertices.
* `barbell_bridged`: the edges across the bridge of the graph that is built, and the walks.
-/

namespace Betweenness

/-- Two clusters of `c` vertices with a bridge of ten vertices in between, from `c` to `c + 9`. -/
structure Graph.IsBarbell (c : ℕ) (g : Graph) : Prop where
  nodeCount_eq : g.nodeCount = c * 2 + 10
  /-- The vertices have themselves as ids. -/
  idOf_eq : ∀ v < c * 2 + 10, g.idOf? v = some v
  /-- From the last vertex of the one cluster to the first of the other, every edge of the chain is
  the only one that joins what is before it to what is behind it. -/
  bridgeAt : ∀ i, c - 1 ≤ i → i ≤ c + 9 → g.BridgeAt i
  /-- A walk from the first cluster to the second comes to all vertices of the bridge, in order. -/
  sublist_forth : ∀ u p w, u < c → c + 10 ≤ w → g.Walk u p w → (List.range' c 10).Sublist p
  /-- Where edges have no direction, so does a walk the other way round, in the opposite order. -/
  sublist_back : g.kind = .undirected → ∀ u p w, c + 10 ≤ u → w < c → g.Walk u p w →
    (List.range' c 10).reverse.Sublist (u :: p)
  /-- Where edges have a direction, there is no way back. -/
  not_reaches : g.kind = .directed → ∀ u w, c + 10 ≤ u → w < c → ¬ g.Reaches u w

/-- All that is left to show of a barbell are its bridges. -/
theorem Graph.isBarbell_of_bridges {g : Graph} {c : ℕ} (hc : 1 ≤ c)
    (hcount : g.nodeCount = c * 2 + 10) (hid : ∀ v < c * 2 + 10, g.idOf? v = some v)
    (hbridge : ∀ i, c - 1 ≤ i → i ≤ c + 9 → g.BridgeAt i) : g.IsBarbell c := by
  have hfirst : c - 1 + 1 = c := Nat.sub_add_cancel hc
  have hrow : ∀ j, c - 1 ≤ j → j < c - 1 + 10 → g.BridgeAt j := fun j hj hlt =>
    hbridge j hj (by omega)
  refine
    { nodeCount_eq := hcount
      idOf_eq := hid
      bridgeAt := hbridge
      sublist_forth := fun u p w hu hw hp => ?forth
      sublist_back := fun hkind u p w hu hw hp => ?back
      not_reaches := fun hkind u w hu hw => ?noWay }
  case forth =>
    have hsub := sublist_of_bridges hrow hp (by omega) (by omega)
    rwa [hfirst] at hsub
  case back =>
    have hsub := sublist_of_bridges_back hrow hkind hp (by omega) (by omega)
    rwa [hfirst] at hsub
  case noWay => exact (hbridge c (by omega) (by omega)).not_reaches hkind (by omega) (by omega)

namespace Workload

open Chance

variable {kind : Kind} {n m i size : ℕ} {b : Builder} {g : Graph} {row : ℕ × ℕ}

/-! ### Rows across the bridge -/

namespace IsBarbell

variable (h : IsBarbell size b)

include h

/-- What joins the two sides of a vertex of the bridge is a row of the chain. -/
theorem row_eq (hrow : row ∈ b.rows.toList) (hi : size ≤ i + 1) (hi' : i < size + bridgeLength)
    (hsides : row.1 ≤ i ∧ i < row.2 ∨ row.2 ≤ i ∧ i < row.1) : row = (i, i + 1) := by
  obtain ⟨within, hwithin, hrows⟩ := h
  rw [hrows, List.mem_append] at hrow
  rcases hrow with hrow | hrow
  · have hends := hwithin row hrow
    omega
  · obtain ⟨id, -, rfl⟩ := List.mem_map.mp hrow
    dsimp only at hsides
    obtain rfl : id = i := by omega
    rfl

/-- Every row of the chain is there. -/
theorem mem_rows (hi : size ≤ i + 1) (hi' : i < size + bridgeLength) (hsize : 1 ≤ size) :
    (i, i + 1) ∈ b.rows.toList := by
  obtain ⟨within, -, hrows⟩ := h
  rw [hrows]
  refine List.mem_append_right _ (List.mem_map.mpr ⟨i, List.mem_range'_1.mpr ?_, rfl⟩)
  omega

/-- So the edge between two vertices of the chain is a bridge. -/
theorem bridgeAt (hspans : Spans kind n m b) (hb : b.build = .ok g) (hsize : 1 ≤ size)
    (hi : size ≤ i + 1) (hi' : i < size + bridgeLength) : g.BridgeAt i := by
  have honly : ∀ {e v w}, g.endpoints? e = some (v, w) → (v ≤ i ∧ i < w ∨ w ≤ i ∧ i < v) →
      (v, w) = (i, i + 1) := fun he hsides =>
    h.row_eq (hspans.mem_rows hb he) hi hi' hsides
  obtain ⟨e, he⟩ : ∃ e, g.endpoints? e = some (i, i + 1) := by
    obtain ⟨e, he | ⟨-, he⟩⟩ := (hspans.linked_iff hb).mpr (.inl (h.mem_rows hi hi' hsize))
    · exact ⟨e, he⟩
    · exact ⟨e, honly he (.inr ⟨Nat.le_refl i, Nat.lt_succ_self i⟩) ▸ he⟩
  refine ⟨e, he, fun e' v w he' hsides => ?_⟩
  rw [honly he' hsides] at he'
  exact (Builder.build_consistent hb).eq_of_edgeKey_eq he' he rfl

end IsBarbell

/-! ### The graph of a barbell -/

/-- A builder comes to the graph of a barbell. -/
def BuildsBarbell (kind : Kind) (c : ℕ) (b : Builder) : Prop :=
  ∃ g, b.build = .ok g ∧ g.kind = kind ∧ g.IsBarbell c

theorem IsBarbell.buildsBarbell (h : IsBarbell size b)
    (hspans : Spans kind (size * 2 + bridgeLength) m b) (hsize : 1 ≤ size) (hm : m ≤ maxIndex)
    (hfits :
      (dense kind (size * 2 + bridgeLength)).checkMemory (size * 2 + bridgeLength) = .ok ()) :
    BuildsBarbell kind size b := by
  obtain ⟨g, hb, hcount⟩ := hspans.exists_build hm hfits
  refine ⟨g, hb, hspans.kind_eq hb, Graph.isBarbell_of_bridges hsize hcount
    (fun v _ => hspans.idOf_eq hb v) fun i hi hi' => ?_⟩
  exact h.bridgeAt hspans hb hsize (by omega) (Nat.lt_succ_of_le hi')

/-- Whatever is drawn, be it from the seed of the generator or not: in the graph of a barbell every
edge of the bridge is the only one between its two sides. So all walks between the clusters come to
all vertices of the bridge in order, and where edges have a direction none leads back. -/
theorem barbell_bridged (hn : 12 ≤ n)
    (hfits : (dense kind (barbellSize n)).checkMemory (barbellSize n) = .ok ()) :
    (∀ (σ : Type) [WordSupply σ],
      Always (BuildsBarbell kind ((n - 10) / 2)) (barbellBuilder n kind : Chance σ Builder)) ∧
    ∃ b, barbell.generate n kind = some b ∧ BuildsBarbell kind ((n - 10) / 2) b := by
  have hbridge : bridgeLength = 10 := rfl
  have hrows : n * 10 ≤ maxIndex := by
    have hroom := mul_ten_le_of_checkMemory_dense hfits
    rw [barbellSize] at hroom
    omega
  have hbuilds : ∀ (σ : Type) [WordSupply σ],
      Always (BuildsBarbell kind ((n - 10) / 2)) (barbellBuilder n kind : Chance σ Builder) :=
    fun σ _ => (always_barbellBuilder kind hn).mono fun b h =>
      h.2.buildsBarbell h.1 (by omega) hrows hfits
  exact ⟨hbuilds, exists_generate_of_always (w := barbell) (hbuilds Congruential)⟩

/-- Two clusters of two vertices. A walk along the bridge comes to all its vertices, and none leads
back. -/
theorem barbell_bridged_fourteen : 12 ≤ 14 ∧
    (dense .directed (barbellSize 14)).checkMemory (barbellSize 14) = .ok () ∧
    ∃ b g, barbell.generate 14 .directed = some b ∧ b.build = .ok g ∧
      (∃ p, g.Walk 1 p 12) ∧ (∀ p, g.Walk 1 p 12 → (List.range' 2 10).Sublist p) ∧
      ¬ g.Reaches 12 1 := by
  have hfits : (dense .directed (barbellSize 14)).checkMemory (barbellSize 14) = .ok () := by decide
  obtain ⟨-, b, hgenerate, g, hb, hkind, h⟩ := barbell_bridged (by decide) hfits
  have hwalk : ∀ k ≤ 11, ∃ p, g.Walk 1 p (1 + k) := by
    intro k hk
    induction k with
    | zero => exact ⟨[], .nil 1⟩
    | succ k ih =>
        obtain ⟨p, hp⟩ := ih (by omega)
        obtain ⟨e, he, -⟩ := h.bridgeAt (1 + k) (by omega) (by omega)
        exact ⟨_, hp.snoc ⟨e, .inl he⟩⟩
  exact ⟨by decide, hfits, b, g, hgenerate, hb, hwalk 11 (Nat.le_refl 11),
    fun p hp => h.sublist_forth 1 p 12 (by decide) (by decide) hp,
    h.not_reaches hkind 12 1 (by decide) (by decide)⟩

end Workload

end Betweenness
