import Betweenness.Proofs.Workload.Growth
import Betweenness.Proofs.Workload.Scatter
import Betweenness.Proofs.Workload.Tree
import Mathlib.Algebra.Group.Nat.Even

/-!
# The number of vertices of synthetic graphs

Whatever is drawn, every generator comes to a builder, and its builder to a graph. The graph has the
vertices that were asked for, with one exception: the clusters of a barbell are of one size, so that
of an odd number of vertices one is left out.

## Main results

* `always_builder`: every generator has an outcome, whatever is drawn.
* `exists_generate`: so it has one when it is drawn as always.
* `generate_builds`: the number of vertices of its graph.
-/

namespace Betweenness.Workload

open Chance

variable {n : ℕ}

/-- The number of vertices of the graph when `n` are asked for. -/
def vertexCount (w : Workload) (n : ℕ) : ℕ :=
  match w with
  | barbell => barbellSize n
  | _ => n

/-- One vertex of a barbell is left out if the number that is asked for is odd. -/
theorem barbellSize_eq_iff (hn : 12 ≤ n) : barbellSize n = n ↔ Even n := by
  rw [barbellSize, bridgeLength, Nat.even_iff]
  omega

theorem vertexCount_eq_iff (w : Workload) (hn : 12 ≤ n) :
    w.vertexCount n = n ↔ (w = .barbell → Even n) := by
  cases w with
  | barbell => simpa [vertexCount] using barbellSize_eq_iff hn
  | _ => simp [vertexCount]

section Draws

variable {σ : Type} [WordSupply σ]

/-- The builder of a graph of a kind with `n` vertices, drawn with the words of any supply. -/
def builder (w : Workload) (n : ℕ) (kind : Kind) : Chance σ Builder :=
  match w with
  | tree => return treeBuilder n kind
  | scaleFree => scaleFreeBuilder n kind
  | smallWorld => smallWorldBuilder n kind
  | uniform => uniformBuilder n kind
  | barbell => barbellBuilder n kind
  | aggregation => aggregationBuilder n kind

/-- Whatever is drawn, a generator comes to vertices and edges between them. -/
theorem always_builder (w : Workload) (kind : Kind) (hn : 12 ≤ n) :
    Always (Spans kind (w.vertexCount n) (n * 10)) (w.builder n kind : Chance σ Builder) := by
  have hfive : 5 ≤ n := Nat.le_trans (by decide) hn
  have hone : 1 ≤ n := Nat.le_trans (by decide) hn
  cases w with
  | tree => exact .pure ((spans_treeBuilder kind hone).mono (by omega))
  | scaleFree => exact (always_scaleFreeBuilder kind hfive).mono fun _ h => h.mono (by omega)
  | smallWorld => exact (always_smallWorldBuilder kind hfive).mono fun _ h => h.1.mono (by omega)
  | uniform => exact (always_uniformBuilder kind hone).mono fun _ h => h.mono (by omega)
  | barbell => exact (always_barbellBuilder kind hn).mono fun _ h => h.1
  | aggregation => exact (always_aggregationBuilder kind hone).mono fun _ h => h.1.mono (by omega)

end Draws

/-- What holds whatever is drawn, holds of what is drawn with the seed of a generator. -/
theorem exists_generate_of_always {w : Workload} {kind : Kind} {P : Builder → Prop}
    (h : Always P (w.builder n kind : Chance Congruential Builder)) :
    ∃ b, w.generate n kind = some b ∧ P b := by
  cases w with
  | tree =>
      obtain ⟨b, s, hb, hP⟩ := h ⟨0⟩
      cases hb
      exact ⟨_, rfl, hP⟩
  | scaleFree => exact h.exists_outcome 12345
  | smallWorld => exact h.exists_outcome 67890
  | uniform => exact h.exists_outcome 54321
  | barbell => exact h.exists_outcome 99999
  | aggregation => exact h.exists_outcome 77777

/-- Every generator has an outcome, with vertices and edges between them. -/
theorem exists_generate (w : Workload) (kind : Kind) (hn : 12 ≤ n) :
    ∃ b, w.generate n kind = some b ∧ Spans kind (w.vertexCount n) (n * 10) b :=
  exists_generate_of_always (always_builder w kind hn)

/-- A generator and its builder come to a graph with this number of vertices, if the headers for
the vertices that are asked for fit the limit. -/
theorem exists_graph (w : Workload) {kind : Kind} (hn : 12 ≤ n)
    (hfits : (dense kind n).checkMemory n = .ok ()) : ∃ b g, w.generate n kind = some b ∧
      b.build = .ok g ∧ g.nodeCount = w.vertexCount n := by
  obtain ⟨b, hb, h⟩ := exists_generate w kind hn
  have hle : w.vertexCount n ≤ n := by
    cases w with
    | barbell =>
        rw [vertexCount, barbellSize, bridgeLength]
        omega
    | _ => exact Nat.le_refl n
  have hrows : n * 10 ≤ maxIndex := by
    have hroom := mul_ten_le_of_checkMemory_dense hfits
    omega
  obtain ⟨g, hg, hcount⟩ := h.exists_build hrows (checkMemory_dense_iff.mpr
    (Nat.le_trans (Nat.mul_le_mul_right _ hle) (checkMemory_dense_iff.mp hfits)))
  exact ⟨b, g, hb, hg, hcount⟩

/-- Of every workload and with either kind of edges, there is a graph of any size that fits the
limit of a builder. It has the vertices that are asked for, unless it is a barbell and their number
is odd. -/
theorem generate_builds (w : Workload) {kind : Kind} (hn : 12 ≤ n)
    (hfits : (dense kind n).checkMemory n = .ok ()) :
    ∃ b g, w.generate n kind = some b ∧ b.build = .ok g ∧
      (g.nodeCount = n ↔ (w = .barbell → Even n)) ∧
      (w = .barbell → g.nodeCount = 2 * ((n - 10) / 2) + 10) := by
  obtain ⟨b, g, hb, hg, hcount⟩ := exists_graph w hn hfits
  refine ⟨b, g, hb, hg, hcount ▸ vertexCount_eq_iff w hn, ?_⟩
  rintro rfl
  rw [hcount, vertexCount, barbellSize, bridgeLength, Nat.mul_comm]

/-- There are small worlds of an odd number of vertices, and barbells of an even one. -/
theorem generate_builds_smallWorld : (dense .directed 33).checkMemory 33 = .ok () ∧
    (∃ b g, smallWorld.generate 33 .directed = some b ∧ b.build = .ok g ∧ g.nodeCount = 33) ∧
    ∃ b g, barbell.generate 32 .undirected = some b ∧ b.build = .ok g ∧ g.nodeCount = 32 := by
  have hfits : (dense .directed 33).checkMemory 33 = .ok () := by decide
  obtain ⟨b, g, hb, hg, hcount, -⟩ := generate_builds smallWorld (by decide) hfits
  have hfits' : (dense .undirected 32).checkMemory 32 = .ok () := by decide
  obtain ⟨b', g', hb', hg', -, hcount'⟩ := generate_builds barbell (by decide) hfits'
  exact ⟨hfits, ⟨b, g, hb, hg, hcount.mpr nofun⟩, b', g', hb', hg', hcount' rfl⟩

/-- A barbell of 33 vertices has 32. -/
theorem generate_barbell_odd : 32 ≤ 33 ∧ (dense .undirected 33).checkMemory 33 = .ok () ∧
    ∃ b g, barbell.generate 33 .undirected = some b ∧ b.build = .ok g ∧ g.nodeCount = 32 := by
  have hfits : (dense .undirected 33).checkMemory 33 = .ok () := by decide
  obtain ⟨b, g, hb, hg, hcount⟩ := exists_graph barbell (by decide) hfits
  exact ⟨by decide, hfits, b, g, hb, hg, hcount⟩

end Betweenness.Workload
