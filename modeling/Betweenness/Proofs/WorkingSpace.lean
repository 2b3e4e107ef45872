import Betweenness.Centrality
import Betweenness.Proofs.Dependency.Space
import Betweenness.Proofs.Graph.Arcs
import Betweenness.Proofs.Graph.Loading
import Betweenness.Proofs.ShortestPaths.Search
import Mathlib.Algebra.BigOperators.Ring.Finset

/-!
# The space that workers take

The estimate for a computation source by source counts a space for each worker. That it is enough
has two sides. Sources are cut into blocks with a worker each, and there are no more blocks than
workers are counted, because every block has a least length. And a worker, which keeps its space
from source to source, never holds more in it than the estimate has for one: the lists of
predecessors do not shrink, so that what counts is the longest one that a vertex has had so far, but
whatever the source was, its entries are arcs that enter the vertex.

`Worker.WithinSpace` is what a worker keeps from source to source.

## Main results

* `IsCut.length_le_busyWorkers`: the number of blocks.
* `Worker.WithinSpace.visit`, `Worker.withinSpace_after`: the step lemma and the run lemma, for one
  source and for any sequence of sources.
* `toNat_searchBytes`: what the estimate has for a search.
* `estimate_covers_workers`: the estimate is enough for the workers of a computation.
-/

namespace Betweenness

/-! ### The number of workers -/

/-- Sources are cut into blocks: they are left in one, or every block has a least length. -/
def IsCut (least : ℕ) (sources : List ℕ) (blocks : List (List ℕ)) : Prop :=
  blocks = [sources] ∨ blocks.flatten = sources ∧ ∀ block ∈ blocks, least ≤ block.length

/-- There are no more blocks than workers that find a source to take. -/
theorem IsCut.length_le_busyWorkers {s : Settings} {host : Host} {sources : List ℕ}
    {blocks : List (List ℕ)}
    (h : IsCut (blockLength sources.length (s.workers host)) sources blocks) :
    blocks.length ≤ busyWorkers s sources.length host := by
  have hworkers : 1 ≤ s.workers host := Nat.le_max_right _ _
  rw [busyWorkers]
  rcases h with rfl | ⟨hsources, hlong⟩
  · exact Nat.le_min.mpr ⟨hworkers, Nat.le_max_right _ _⟩
  · have hleast : 1 ≤ blockLength sources.length (s.workers host) := Nat.le_max_right _ _
    have hsum := ShortestPaths.length_mul_le_length_flatten hlong
    rw [hsources] at hsum
    have hroom := le_workers_mul_blockLength sources.length (s.workers host) hworkers
    refine Nat.le_min.mpr ⟨Nat.le_of_mul_le_mul_right (hsum.trans hroom) hleast, ?_⟩
    calc blocks.length ≤ blocks.length * blockLength sources.length (s.workers host) :=
          Nat.le_mul_of_pos_right _ hleast
      _ ≤ sources.length := hsum
      _ ≤ max sources.length 1 := Nat.le_max_left _ _

/-! ### What a search leaves behind -/

/-- The arc over which a path arrives at its end, as it is stored there. -/
def Predecessor.arc (p : Predecessor) : Arc := ⟨p.vertex, p.edge⟩

theorem Predecessor.arc_injective : Function.Injective arc := by
  rintro ⟨v, e⟩ ⟨v', e'⟩ hsame
  obtain ⟨rfl, rfl⟩ := Arc.mk.inj hsame
  rfl

variable {α : Type} [Scalar α] {g : Graph}

/-- The predecessors of a vertex are some of the arcs that enter it. -/
theorem ShortestPaths.Completed.size_predecessorsOf_le {source : ℕ} {levels : List (List ℕ)}
    {s : ShortestPaths α} (hg : g.Consistent) (h : Completed g source levels s) (v : ℕ) :
    (s.predecessorsOf v).size ≤ (g.into v).size := by
  have hsub : (s.predecessorsOf v).toList.map Predecessor.arc ⊆ (g.into v).toList := by
    intro arc harc
    obtain ⟨p, hp, rfl⟩ := List.mem_map.mp harc
    obtain ⟨-, -, -, hjoins⟩ := h.mem_predecessors_iff.mp (Array.mem_toList_iff.mp hp)
    exact Array.mem_toList_iff.mpr ((hg.mem_into _ _ _).mpr hjoins)
  have hle := ((h.predecessors_nodup v).map Predecessor.arc_injective).length_le_of_subset hsub
  rwa [List.length_map, Array.length_toList, Array.length_toList] at hle

/-- From whatever source a search is made, it lists no more vertices than there are, and for each of
them no more predecessors than arcs that enter it. -/
theorem ShortestPaths.Reusable.size_search_le {s : ShortestPaths α} (hg : g.Consistent)
    (h : s.Reusable g.nodeCount) (source : ℕ) : (s.search g source).order.size ≤ g.nodeCount ∧
      ∀ v, ((s.search g source).predecessorsOf v).size ≤ (g.into v).size := by
  by_cases hs : source < g.nodeCount
  · obtain ⟨levels, hdone⟩ := search_completed hg hs h
    exact ⟨hdone.size_order_le hg hs, hdone.size_predecessorsOf_le hg⟩
  · have hnone : (s.search g source).order = #[] := congrArg order (h.search_of_not_lt hs)
    refine ⟨hnone ▸ Nat.zero_le _, fun v => ?_⟩
    rw [(h.search g source).predecessors_unmarked v (hnone ▸ Array.not_mem_empty v)]
    exact Nat.zero_le _

/-! ### Workers -/

namespace Worker

/-- A worker after it has taken some sources. -/
def after (g : Graph) (accumulate : Accumulate α) (scoreCount : ℕ) (sources : List ℕ) : Worker α :=
  sources.foldl (visit g accumulate) (fresh α g.nodeCount scoreCount)

/-- The length of the longest list of predecessors that a vertex has had, for any of some sources
that a worker has taken. -/
def longest (g : Graph) (accumulate : Accumulate α) (scoreCount : ℕ) (sources : List ℕ)
    (v : ℕ) : ℕ :=
  (Finset.range (sources.length + 1)).sup fun i =>
    ((after g accumulate scoreCount (sources.take i)).paths.predecessorsOf v).size

/-- The bytes that a worker holds, if its lists of predecessors have had the given lengths: 4 for
every distance and every place in the order, 8 for every count, dependency and score, and for every
list of predecessors 24 and 8 for each entry. -/
def bytes (w : Worker α) (longest : ℕ → ℕ) : ℕ :=
  w.paths.distance.size * 4 + w.paths.pathCount.size * 8 + w.paths.order.size * 4 +
    w.ledger.dependency.size * 8 + w.ledger.scores.size * 8 +
    ∑ v ∈ Finset.range w.paths.predecessors.size, (24 + longest v * 8)

/-- A worker has an entry for every vertex and for every score. It lists no more vertices than there
are, and for each of them no more predecessors than arcs that enter it. -/
structure WithinSpace (g : Graph) (scoreCount : ℕ) (w : Worker α) : Prop where
  reusable : w.paths.Reusable g.nodeCount
  hasSpace : w.ledger.HasSpace g.nodeCount scoreCount
  size_order_le : w.paths.order.size ≤ g.nodeCount
  size_predecessorsOf_le : ∀ v, (w.paths.predecessorsOf v).size ≤ (g.into v).size

theorem withinSpace_fresh (g : Graph) (scoreCount : ℕ) :
    (fresh α g.nodeCount scoreCount).WithinSpace g scoreCount where
  reusable := ShortestPaths.reusable_blank g.nodeCount
  hasSpace := Ledger.hasSpace_zero α α g.nodeCount scoreCount
  size_order_le := Nat.zero_le _
  size_predecessorsOf_le v := by
    have hnone : (fresh α g.nodeCount scoreCount).paths.predecessorsOf v = #[] :=
      (ShortestPaths.reusable_blank g.nodeCount).predecessors_unmarked v (Array.not_mem_empty v)
    rw [hnone]
    exact Nat.zero_le _

variable {accumulate : Accumulate α} {scoreCount : ℕ} (hg : g.Consistent)
  (haccumulate : ∀ paths l, l.HasSpace g.nodeCount scoreCount →
    (accumulate paths l).HasSpace g.nodeCount scoreCount)

include hg haccumulate

/-- **Step lemma**: a source, whether it is a vertex or not, leaves a worker within its space. -/
theorem WithinSpace.visit {w : Worker α} (h : w.WithinSpace g scoreCount) (source : ℕ) :
    (w.visit g accumulate source).WithinSpace g scoreCount :=
  have hsizes := h.reusable.size_search_le hg source
  { reusable := h.reusable.search g source
    hasSpace := haccumulate _ w.ledger h.hasSpace
    size_order_le := hsizes.1
    size_predecessorsOf_le := hsizes.2 }

/-- **Run lemma**: so do sources in turn. -/
theorem withinSpace_after (sources : List ℕ) :
    (after g accumulate scoreCount sources).WithinSpace g scoreCount :=
  List.foldlRecOn _ _ (withinSpace_fresh g scoreCount) fun _ hw source _ =>
    hw.visit hg haccumulate source

/-- No vertex has had more predecessors than arcs that enter it. -/
theorem longest_le (sources : List ℕ) (v : ℕ) :
    longest g accumulate scoreCount sources v ≤ (g.into v).size :=
  Finset.sup_le fun i _ =>
    (withinSpace_after hg haccumulate (sources.take i)).size_predecessorsOf_le v

/-- A worker holds no more than a space for searches and its scores. -/
theorem bytes_le (sources : List ℕ) : (after g accumulate scoreCount sources).bytes
      (longest g accumulate scoreCount sources) ≤
    g.nodeCount * 48 + g.edgeCount * g.kind.arcsPerEdge * 8 + scoreCount * 8 := by
  have hw := withinSpace_after hg haccumulate sources
  have hlists : ∑ v ∈ Finset.range g.nodeCount, (24 + longest g accumulate scoreCount sources v * 8)
      ≤ g.nodeCount * 24 + g.edgeCount * g.kind.arcsPerEdge * 8 := by
    rw [Finset.sum_add_distrib, Finset.sum_const_nat fun _ _ => rfl, Finset.card_range,
      ← Finset.sum_mul]
    refine Nat.add_le_add_left (Nat.mul_le_mul_right 8 ?_) _
    exact (Finset.sum_le_sum fun v _ => longest_le hg haccumulate sources v).trans
      hg.sum_size_into_le
  have horder := hw.size_order_le
  rw [bytes, hw.reusable.size_distance, hw.reusable.size_pathCount, hw.reusable.size_predecessors,
    hw.hasSpace.size_dependency, hw.hasSpace.size_scores]
  omega

end Worker

/-! ### The estimate -/

variable {b : Builder}

/-- The bytes of a space for searches in a built graph do not exceed a word. -/
theorem toNat_searchBytes (hb : b.build = .ok g) : (searchBytes g).toNat =
    g.nodeCount * 48 + g.edgeCount * g.kind.arcsPerEdge * 8 := by
  have hnodes := Builder.nodeCount_le hb
  have harcs := Builder.arcCount_le hb
  have hwords : (searchBytes g).toNat =
      (g.nodeCount * 48 + g.edgeCount * g.kind.arcsPerEdge * 8) % 2 ^ 64 := by
    simp [searchBytes, Nat.add_mod, Nat.mul_mod]
  rw [hwords]
  refine Nat.mod_eq_of_lt ?_
  simp only [maxIndex] at hnodes harcs
  omega

/-- The estimate for a computation source by source is enough for its workers. However many workers
the settings or the host make it, and however the sources are cut into blocks of the least length
for them, there are no more blocks, each with a worker, than the workers that are counted. And
whatever sources a worker has taken, in whatever order and whether they are vertices or not, it
holds no more bytes than are counted for a worker: those of a space for searches and of its
scores. -/
theorem estimate_covers_workers (α : Type) [Scalar α] (hb : b.build = .ok g) :
    (∀ (s : Settings) (host : Host) (sources : List ℕ) (blocks : List (List ℕ)),
      IsCut (blockLength sources.length (s.workers host)) sources blocks →
      blocks.length ≤ busyWorkers s sources.length host) ∧
    ∀ accumulate : Accumulate α,
      accumulate = Ledger.addVertices ∨ accumulate = Ledger.addEdges →
      ∀ (scoreCount : ℕ) (sources : List ℕ),
        (Worker.after g accumulate scoreCount sources).bytes
          (Worker.longest g accumulate scoreCount sources) ≤
        (searchBytes g).toNat + scoreCount * 8 := by
  refine ⟨fun s host sources blocks h => h.length_le_busyWorkers, ?bytes⟩
  case bytes =>
    intro accumulate haccumulate scoreCount sources
    rw [toNat_searchBytes hb]
    refine Worker.bytes_le (Builder.build_consistent hb) (fun paths l hl => ?_) sources
    rcases haccumulate with rfl | rfl
    · exact hl.addVertices paths
    · exact hl.addEdges paths

/-- Six sources of the square are cut into blocks for two workers, of a host with two threads, and
one worker takes them all. -/
theorem estimate_covers_workers_square : Builder.square.build = .ok Graph.square ∧
    IsCut (blockLength 6 2) [0, 1, 2, 3, 4, 0] [[0, 1, 2], [3, 4, 0]] ∧
    2 ≤ busyWorkers {} 6 { Host.repeatable with threads := 2 } ∧
    (Worker.after (α := Rat) Graph.square Ledger.addEdges 5 [0, 1, 2, 3, 4, 0]).bytes
      (Worker.longest (α := Rat) Graph.square Ledger.addEdges 5 [0, 1, 2, 3, 4, 0]) ≤ 360 := by
  have hcut : IsCut (blockLength 6 2) [0, 1, 2, 3, 4, 0] [[0, 1, 2], [3, 4, 0]] :=
    .inr ⟨rfl, by decide⟩
  have hbytes : (searchBytes Graph.square).toNat = 320 := by
    rw [toNat_searchBytes Builder.build_square, Graph.nodeCount_square, Graph.edgeCount_square,
      (Builder.numbering_of_build Builder.build_square).2]
    rfl
  obtain ⟨hblocks, hworker⟩ := estimate_covers_workers Rat Builder.build_square
  refine ⟨Builder.build_square, hcut,
    hblocks {} { Host.repeatable with threads := 2 } _ _ hcut, ?_⟩
  have hle := hworker Ledger.addEdges (.inr rfl) 5 [0, 1, 2, 3, 4, 0]
  rwa [hbytes] at hle

end Betweenness
