import Betweenness.Proofs.Workload.Chance
import Betweenness.Proofs.Workload.Spans
import Betweenness.Workload

/-!
# Scattered edges, edge by edge

The generators that throw edges among all vertices draw numbers below the number of vertices, and
leave out edges that would lead back to the same vertex. In a ring the four vertices after a vertex
are others as long as there are five. The clusters of a barbell lie side by side with the bridge
between them, so that an offset does not lead beyond the last vertex, and not out of a cluster. The
bridge is a chain that begins and ends in a cluster.

## Main results

* `always_smallWorldBuilder`, `always_uniformBuilder`, `always_barbellBuilder`: the builders that
  come about have vertices and edges between them. Those of a barbell are `2 * ((n - 10) / 2) + 10`.
* `Clusters.addCluster`, `always_addBridge`: the edges of a cluster, and those of the bridge.
-/

namespace Betweenness.Workload

open Chance

variable {σ : Type} [WordSupply σ] {kind : Kind} {n m size degree offset member other : ℕ}
  {b : Builder}

/-! ### Small worlds -/

/-- A vertex of a ring is not one of the four before it. -/
theorem add_mod_ne {v hops : ℕ} (hv : v < n) (hpos : 0 < hops) (hops_lt : hops < n) :
    (v + hops) % n ≠ v := by
  rcases Nat.lt_or_ge (v + hops) n with hlt | hge
  · rw [Nat.mod_eq_of_lt hlt]
    omega
  · rw [Nat.mod_eq_sub_mod hge, Nat.mod_eq_of_lt (by omega)]
    omega

/-- The far end of an edge is led to a vertex, but not to the near end. -/
theorem always_rewire {vertex neighbor : ℕ} (hneighbor : neighbor < n) (hne : neighbor ≠ vertex) :
    Always (fun target => target < n ∧ target ≠ vertex)
      (rewire n vertex neighbor : Chance σ ℕ) := by
  refine always_fraction.bind fun x _ => ?_
  split
  · refine (always_below (Nat.zero_lt_of_lt hneighbor)).bind fun other hother => .pure ?_
    split
    · exact ⟨hneighbor, hne⟩
    · exact ⟨hother, ‹_›⟩
  · exact .pure ⟨hneighbor, hne⟩

/-- Four edges are added for every vertex. -/
theorem always_smallWorldBuilder (kind : Kind) (hn : 5 ≤ n) :
    Always (fun b => Spans kind n (n * 4) b ∧ b.rows.size = n * 4)
      (smallWorldBuilder n kind : Chance σ Builder) := by
  have hrun := Always.foldlM (l := List.range n)
    (I := fun i b => Spans kind n (i * 4) b ∧ b.rows.size = i * 4)
    (f := fun b vertex => ([1, 2, 3, 4].foldlM
      (fun b hops => do
        let neighbor ← remainder (vertex + hops) n
        return b.addEdge vertex (← rewire n vertex neighbor)) b : Chance σ Builder))
    ⟨spans_dense kind n, (Nat.zero_mul 4).symm⟩ fun i vertex b hi hb => ?_
  · rwa [List.length_range] at hrun
  · have hvertex : vertex < n := List.mem_range.mp (List.mem_of_getElem? hi)
    rw [Nat.succ_mul]
    refine Always.foldlM (I := fun j b => Spans kind n (i * 4 + j) b ∧ b.rows.size = i * 4 + j) hb
      fun j hops b hj hb => ?_
    have hhops : 0 < hops ∧ hops < n := by
      have hmem : hops ∈ [1, 2, 3, 4] := List.mem_of_getElem? hj
      simp only [List.mem_cons, List.not_mem_nil, or_false] at hmem
      omega
    have hpos : 0 < n := Nat.zero_lt_of_lt hvertex
    refine (always_remainder hpos).bind fun neighbor hneighbor => ?_
    subst hneighbor
    refine (always_rewire (Nat.mod_lt _ hpos) (add_mod_ne hvertex hhops.1 hhops.2)).bind
      fun target ⟨hlt, hne⟩ => .pure ⟨hb.1.addEdge hvertex hlt hne.symm, ?_⟩
    rw [Builder.size_rows_addEdge, hb.2]
    rfl

/-! ### Random edges -/

/-- What an attempt to add an edge can do: it adds one between two vertices, or none. -/
theorem always_addRandomEdge (hn : 0 < n) :
    Always (fun b' => b' = b ∨ ∃ source < n, ∃ target < n, source ≠ target ∧
        b' = b.addEdge source target)
      (addRandomEdge n b : Chance σ Builder) := by
  refine (always_below hn).bind fun source hsource =>
    (always_below hn).bind fun target htarget => .pure ?_
  split
  · exact .inl rfl
  · exact .inr ⟨source, hsource, target, htarget, ‹_›, rfl⟩

/-- **Step lemma**: an edge is added between random vertices. -/
theorem Spans.addRandomEdge (h : Spans kind n m b) (hn : 0 < n) :
    Always (Spans kind n (m + 1)) (addRandomEdge n b : Chance σ Builder) := by
  refine (always_addRandomEdge hn).mono ?_
  rintro b' (rfl | ⟨source, hsource, target, htarget, hne, rfl⟩)
  · exact h.mono (Nat.le_succ m)
  · exact h.addEdge hsource htarget hne

theorem always_uniformBuilder (kind : Kind) (hn : 1 ≤ n) :
    Always (Spans kind n (n * 5)) (uniformBuilder n kind : Chance σ Builder) := by
  have hrun := Always.foldlM (l := List.range (n * 5)) (I := fun i => Spans kind n i)
    (f := fun b _ => (Workload.addRandomEdge n b : Chance σ Builder)) (spans_dense kind n)
    fun i _ b _ hb => hb.addRandomEdge hn
  rwa [List.length_range] at hrun

/-! ### Barbells -/

/-- **Step lemma**: an attempt to join a vertex of a cluster to another one. -/
theorem always_addClusterEdge (hmember : member < size) :
    Always (fun b' => b' = b ∨ ∃ other < size, other ≠ member ∧
        b' = b.addEdge (offset + member) (offset + other))
      (addClusterEdge size offset member b : Chance σ Builder) := by
  refine (always_below (Nat.zero_lt_of_lt hmember)).bind fun other hother => .pure ?_
  split
  · exact .inl rfl
  · exact .inr ⟨other, hother, ‹_›, rfl⟩

/-- A barbell without its chain: the vertices of both clusters and of the bridge, and edges within
the clusters. -/
structure Clusters (kind : Kind) (size m : ℕ) (b : Builder) : Prop where
  spans : Spans kind (size * 2 + bridgeLength) m b
  row_within : ∀ row ∈ b.rows.toList, row.1 < size ∧ row.2 < size ∨
    size + bridgeLength ≤ row.1 ∧ size + bridgeLength ≤ row.2

namespace Clusters

theorem mono {m' : ℕ} (h : Clusters kind size m b) (hm : m ≤ m') : Clusters kind size m' b :=
  ⟨h.spans.mono hm, h.row_within⟩

/-- An edge within a cluster. -/
theorem addEdge (h : Clusters kind size m b) (hoffset : offset ∈ [0, size + bridgeLength])
    (hmember : member < size) (hother : other < size) (hne : other ≠ member) :
    Clusters kind size (m + 1) (b.addEdge (offset + member) (offset + other)) := by
  rw [List.mem_pair] at hoffset
  refine ⟨h.spans.addEdge (by omega) (by omega) (by omega), fun row hrow => ?_⟩
  rcases Builder.mem_rows_addEdge.mp hrow with hrow | rfl
  · exact h.row_within row hrow
  · dsimp only
    omega

/-- **Run lemma**: the edges of a cluster are added. -/
theorem addCluster (h : Clusters kind size m b) (hoffset : offset ∈ [0, size + bridgeLength]) :
    Always (Clusters kind size (m + size * degree))
      (addCluster size degree b offset : Chance σ Builder) := by
  have hrun := Always.foldlM (l := List.range size)
    (I := fun i => Clusters kind size (m + i * degree))
    (f := fun b member => ((List.range degree).foldlM
      (fun b _ => addClusterEdge size offset member b) b : Chance σ Builder))
    (by rwa [Nat.zero_mul]) fun i member b hi hb => ?_
  · rwa [List.length_range] at hrun
  · have hmember : member < size := List.mem_range.mp (List.mem_of_getElem? hi)
    have hedges := Always.foldlM (l := List.range degree)
      (I := fun j => Clusters kind size (m + i * degree + j))
      (f := fun b _ => (addClusterEdge size offset member b : Chance σ Builder)) hb
      fun j _ b _ hb => (always_addClusterEdge hmember).mono ?_
    · rwa [List.length_range, Nat.add_assoc, ← Nat.succ_mul] at hedges
    · rintro b' (rfl | ⟨other, hother, hne, rfl⟩)
      · exact hb.mono (Nat.le_succ _)
      · exact hb.addEdge hoffset hmember hother hne

end Clusters

/-- A builder with a chain of edges added to it, from one vertex on. -/
def withChain (start length : ℕ) (b : Builder) : Builder :=
  (List.range' start length).foldl (fun b id => b.addEdge id (id + 1)) b

theorem withChain_succ {start length : ℕ} : withChain start (length + 1) b =
    (withChain start length b).addEdge (start + length) (start + length + 1) := by
  rw [withChain, List.range'_concat, List.foldl_append, Nat.one_mul]
  rfl

/-- **Run lemma**: the edges of a chain join vertices. -/
theorem Spans.withChain {start length : ℕ} (h : Spans kind n m b) (hfits : start + length < n) :
    Spans kind n (m + length) (withChain start length b) := by
  induction length with
  | zero => exact h
  | succ length ih =>
      rw [withChain_succ]
      exact (ih (by omega)).addEdge (by omega) (by omega) (Nat.ne_of_lt (Nat.lt_succ_self _))

/-- The rows of a chain come after those that were there. -/
theorem rows_withChain {start length : ℕ} : (withChain start length b).rows.toList =
    b.rows.toList ++ (List.range' start length).map fun id => (id, id + 1) := by
  induction length with
  | zero => simp [withChain]
  | succ length ih =>
      rw [withChain_succ, List.range'_concat, List.map_append, ← List.append_assoc, ← ih,
        Nat.one_mul]
      exact Array.toList_push

omit [WordSupply σ] in
/-- The bridge is a chain from the last vertex of the one cluster to the first of the other. -/
theorem always_addBridge (hsize : 1 ≤ size) :
    Always (· = withChain (size - 1) (bridgeLength + 1) b)
      (addBridge size b : Chance σ Builder) := by
  refine (always_difference hsize).bind fun first hfirst => ?_
  subst hfirst
  have hrun := Always.foldlM (l := List.range' (size + 1) (bridgeLength - 1))
    (I := fun i b' => b' = withChain (size - 1) (i + 1) b)
    (f := fun b id => (do return b.addEdge (← difference id 1) id : Chance σ Builder))
    (y := b.addEdge (size - 1) size) ?start fun i id b' hi hb' => ?step
  case start => rw [withChain_succ, Nat.add_zero, Nat.sub_add_cancel hsize]; rfl
  case step =>
    obtain ⟨hlt, heq⟩ := List.getElem?_eq_some_iff.mp hi
    rw [List.getElem_range', Nat.one_mul] at heq
    refine (always_difference (by omega)).bind fun before hbefore => .pure ?_
    have hsource : size - 1 + (i + 1) = before := by omega
    have htarget : before + 1 = id := by omega
    rw [withChain_succ, hb', hsource, htarget]
  refine hrun.bind fun b' hb' => ?_
  refine (always_difference (by omega)).bind fun last hlast => .pure ?_
  rw [List.length_range'] at hb'
  have hsource : size - 1 + bridgeLength = last := by omega
  have htarget : last + 1 = size + bridgeLength := by omega
  rw [withChain_succ, hsource, htarget, hb']
  rfl

/-- The number of vertices of a barbell: those of the bridge, and as many in either cluster as there
are for both of them, of which one may be left over. -/
def barbellSize (n : ℕ) : ℕ := (n - bridgeLength) / 2 * 2 + bridgeLength

/-- The rows of a barbell are those within its clusters, and after them those of the chain, which
starts with the last vertex of the one cluster and ends with the first of the other. -/
def IsBarbell (size : ℕ) (b : Builder) : Prop := ∃ within : List (ℕ × ℕ),
  (∀ row ∈ within, row.1 < size ∧ row.2 < size ∨
    size + bridgeLength ≤ row.1 ∧ size + bridgeLength ≤ row.2) ∧
  b.rows.toList = within ++ (List.range' (size - 1) (bridgeLength + 1)).map fun id => (id, id + 1)

theorem always_barbellBuilder (kind : Kind) (hn : 12 ≤ n) :
    Always (fun b => Spans kind (barbellSize n) (n * 10) b ∧ IsBarbell ((n - bridgeLength) / 2) b)
      (barbellBuilder n kind : Chance σ Builder) := by
  have hbridge : bridgeLength = 10 := rfl
  refine (always_difference (by omega)).bind fun both hboth => ?_
  subst hboth
  rw [barbellSize]
  generalize hsize : (n - bridgeLength) / 2 = size
  have hpos : 1 ≤ size := by omega
  refine (always_difference hpos).bind fun others hothers => ?_
  generalize hdegree : min 10 others = degree
  have hedges : size * degree ≤ size * 10 := Nat.mul_le_mul_left size (by omega)
  have hstart : Clusters kind size 0 (dense kind (size * 2 + bridgeLength)) :=
    ⟨spans_dense kind _, fun _ h => (nomatch h)⟩
  have hclusters := Always.foldlM (l := [0, size + bridgeLength])
    (f := fun b offset => (addCluster size degree b offset : Chance σ Builder))
    (I := fun i => Clusters kind size (i * (size * degree)))
    (by rwa [Nat.zero_mul]) fun i offset b hi hb => ?_
  · refine hclusters.bind fun b hb => (always_addBridge hpos).mono fun b' hb' => ?_
    rw [hb']
    refine ⟨(hb.spans.withChain (by omega)).mono ?_, _, hb.row_within, rows_withChain⟩
    rw [List.length_cons, List.length_singleton]
    omega
  · rw [Nat.succ_mul]
    exact hb.addCluster (List.mem_of_getElem? hi)

end Betweenness.Workload
