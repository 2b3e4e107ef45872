import Betweenness.Proofs.Dependency.Pull
import Betweenness.Strategy

/-!
# Raw scores in exact arithmetic

Sources are taken one after another, in space that is used again from source to source. Since
every source finds the dependencies zero and the marks of the search before undone, it adds its
shares whatever the sources before it were. So raw scores are sums of shares over sources, however
the sources are shared out among workers and their scores added up (`Schedule`), and whether
searches push or pull.

Sources that are no vertices of the graph reach nothing and add nothing.

## Main results

* `foldl_accounts`: the run lemma, for sources in turn.
* `Schedule.scores_eq`: the run lemma, for any schedule. `scoresOfBlocks_eq` is the case of blocks
  that are added up from the first to the last.
* `vertexScores_eq`, `edgeScores_eq`, `storedVertexScores_eq`: the raw scores of the three
  strategies as sums of shares.
* `schedule_addsUp`: the raw scores of sources add up those of each source alone, whatever the
  schedule and the order of sources.
-/

namespace Betweenness

open ShortestPaths (Completed)
open Ledger (Accounts)

/-! ### Sources in turn -/

/-- **Run lemma**: sources that are accounted for one after another add up their shares. -/
theorem foldl_accounts {σ : Type} {π : σ → Ledger ℚ ℚ} {P : σ → Prop} {f : σ → ℕ → σ} {n : ℕ}
    {share : ℕ → ℕ → ℚ}
    (hf : ∀ x s, P x → P (f x s) ∧ Accounts n (share s) (π x) (π (f x s)))
    {x : σ} (hx : P x) (sources : List ℕ) :
    (π (sources.foldl f x)).scores.size = (π x).scores.size ∧
      ∀ i < (π x).scores.size, (π (sources.foldl f x)).scoreOf i =
        (π x).scoreOf i + (sources.map fun s => share s i).sum := by
  induction sources generalizing x with
  | nil => simp
  | cons s sources ih =>
      obtain ⟨hP, hfirst⟩ := hf x s hx
      obtain ⟨hsize, hrest⟩ := ih hP
      refine ⟨hsize.trans hfirst.size_scores, fun i hi => ?_⟩
      rw [List.foldl_cons, hrest i (hfirst.size_scores.symm ▸ hi), hfirst.scoreOf_eq i hi,
        List.map_cons, List.sum_cons, add_assoc]

variable {g : Graph}

/-- The space at the beginning of a visit: that of earlier searches, and no dependencies. -/
structure Idle (n scoreCount : ℕ) (paths : ShortestPaths ℚ) (l : Ledger ℚ ℚ) : Prop where
  reusable : paths.Reusable n
  dependency_eq : l.dependency = Array.replicate n 0
  size_scores : l.scores.size = scoreCount

theorem idle_zero (n scoreCount : ℕ) : Idle n scoreCount (.blank ℚ n) (.zero ℚ ℚ n scoreCount) where
  reusable := ShortestPaths.reusable_blank n
  dependency_eq := rfl
  size_scores := Array.size_replicate

theorem scoreOf_zero {n scoreCount i : ℕ} : (Ledger.zero ℚ ℚ n scoreCount).scoreOf i = 0 :=
  Array.getD_eq_getD_getElem?.symm.trans ShortestPaths.getD_replicate

/-- A way to add dependencies that accounts for sources by their shares. -/
structure Accountable (g : Graph) (scoreCount : ℕ) (share : ℕ → ℕ → ℚ)
    (accumulate : Accumulate ℚ) : Prop where
  /-- After a search from a vertex, its shares are added. -/
  accounts : ∀ {s levels paths l}, s < g.nodeCount → Completed g s levels paths →
    l.dependency = Array.replicate g.nodeCount 0 → l.scores.size = scoreCount →
    Accounts g.nodeCount (share s) l (accumulate paths l)
  /-- After a search that has left no mark, nothing is added. -/
  accumulate_blank : ∀ source l,
    accumulate { ShortestPaths.blank ℚ g.nodeCount with source } l = l
  /-- What is no vertex has no shares. -/
  share_eq_zero : ∀ s i, ¬ s < g.nodeCount → share s i = 0

section Instances

variable (hg : g.Consistent)

include hg

theorem accountable_addVertices : Accountable g g.nodeCount
    (fun s v => if v = s then 0 else g.vertexShare s v) Ledger.addVertices where
  accounts hs hpaths hl hscores := Ledger.addVertices_accounts hg hpaths hs hl hscores
  accumulate_blank _ _ := rfl
  share_eq_zero s v hs := by rw [Graph.vertexShare_eq_zero_of_not_lt hg hs, ite_self]

theorem accountable_addLevels : Accountable g g.nodeCount
    (fun s v => if v = s then 0 else g.vertexShare s v) (Ledger.addLevels g) where
  accounts hs hpaths hl hscores := Ledger.addLevels_accounts hg hpaths hs hl hscores
  accumulate_blank _ _ := rfl
  share_eq_zero s v hs := by rw [Graph.vertexShare_eq_zero_of_not_lt hg hs, ite_self]

theorem accountable_addEdges :
    Accountable g g.edgeCount g.edgeShare Ledger.addEdges where
  accounts hs hpaths hl hscores := Ledger.addEdges_accounts hg hpaths hs hl hscores
  accumulate_blank _ _ := rfl
  share_eq_zero _ _ hs := Graph.edgeShare_eq_zero_of_not_lt hg hs

end Instances

/-- **Step lemma**: whatever search is made, a source is accounted for in space that is idle, and
leaves it so. -/
theorem Accountable.idle_visit {scoreCount : ℕ} {share : ℕ → ℕ → ℚ} {accumulate : Accumulate ℚ}
    (h : Accountable g scoreCount share accumulate) {s : ℕ} {paths paths' : ShortestPaths ℚ}
    {l : Ledger ℚ ℚ} (hidle : Idle g.nodeCount scoreCount paths l)
    (hreusable : paths'.Reusable g.nodeCount)
    (hvertex : s < g.nodeCount → ∃ levels, Completed g s levels paths')
    (hother : ¬ s < g.nodeCount → paths' = { ShortestPaths.blank ℚ g.nodeCount with source := s }) :
    Idle g.nodeCount scoreCount paths' (accumulate paths' l) ∧
      Accounts g.nodeCount (share s) l (accumulate paths' l) := by
  have haccounts : Accounts g.nodeCount (share s) l (accumulate paths' l) := by
    by_cases hs : s < g.nodeCount
    · obtain ⟨levels, hpaths⟩ := hvertex hs
      exact h.accounts hs hpaths hidle.dependency_eq hidle.size_scores
    · rw [hother hs, h.accumulate_blank]
      refine ⟨hidle.dependency_eq, rfl, fun i _ => ?_⟩
      rw [h.share_eq_zero s i hs, add_zero]
  exact ⟨⟨hreusable, haccounts.dependency_eq, haccounts.size_scores.trans hidle.size_scores⟩,
    haccounts⟩

/-! ### Schedules -/

/-- A way to share sources out among workers and to put their scores together: blocks of sources
that a worker each takes in turn, and scores of zero from workers without any, added up two by two
in any order. -/
inductive Schedule where
  | zeros
  | block (sources : List ℕ)
  | merge (left right : Schedule)

namespace Schedule

/-- The sources that are shared out, from the first block to the last. -/
def sources : Schedule → List ℕ
  | zeros => []
  | block sources => sources
  | merge left right => left.sources ++ right.sources

variable {α : Type} [Scalar α]

/-- The scores that the workers come to together. -/
def scores (g : Graph) (accumulate : Accumulate α) (scoreCount : ℕ) : Schedule → Array α
  | zeros => Array.replicate scoreCount 0
  | block sources => blockScores g accumulate scoreCount sources
  | merge left right =>
      Betweenness.merge (left.scores g accumulate scoreCount) (right.scores g accumulate scoreCount)

/-- The schedule that adds blocks up from the first to the last. -/
def ofBlocks (blocks : List (List ℕ)) : Schedule :=
  blocks.foldl (fun schedule sources => merge schedule (block sources)) zeros

theorem sources_ofBlocks (blocks : List (List ℕ)) :
    (ofBlocks blocks).sources = blocks.flatten := by
  suffices h : ∀ schedule : Schedule, (blocks.foldl (fun schedule sources =>
      merge schedule (block sources)) schedule).sources = schedule.sources ++ blocks.flatten from
    h zeros
  induction blocks with
  | nil => simp
  | cons block blocks ih => simp [ih, sources]

theorem scores_ofBlocks (g : Graph) (accumulate : Accumulate α) (scoreCount : ℕ)
    (blocks : List (List ℕ)) : (ofBlocks blocks).scores g accumulate scoreCount =
      scoresOfBlocks g accumulate scoreCount blocks := by
  suffices h : ∀ schedule : Schedule, (blocks.foldl (fun schedule sources =>
      merge schedule (block sources)) schedule).scores g accumulate scoreCount =
        (blocks.map (blockScores g accumulate scoreCount)).foldl Betweenness.merge
          (schedule.scores g accumulate scoreCount) from h zeros
  induction blocks with
  | nil => exact fun _ => rfl
  | cons block blocks ih => exact fun _ => ih _

end Schedule

/-! ### Blocks of sources -/

/-- An array of scores, from the score at each index. -/
theorem eq_map_range {a : Array ℚ} {n : ℕ} {f : ℕ → ℚ} (hsize : a.size = n)
    (h : ∀ i < n, a[i]?.getD 0 = f i) : a = (Array.range n).map f := by
  refine Array.ext_getElem? fun i => ?_
  rw [Array.getElem?_map, Array.getElem?_range]
  by_cases hi : i < n
  · have hget := h i hi
    rw [Array.getElem?_eq_getElem (hsize ▸ hi), Option.getD_some] at hget
    rw [if_pos hi, Array.getElem?_eq_getElem (hsize ▸ hi), hget]
    rfl
  · rw [if_neg hi, Array.getElem?_eq_none (by omega)]
    rfl

section Blocks

variable {scoreCount : ℕ} {share : ℕ → ℕ → ℚ} {accumulate : Accumulate ℚ}

/-- One worker adds up the shares of its sources. -/
theorem blockScores_eq (hg : g.Consistent) (h : Accountable g scoreCount share accumulate)
    (sources : List ℕ) : blockScores g accumulate scoreCount sources =
      (Array.range scoreCount).map fun i => (sources.map fun s => share s i).sum := by
  obtain ⟨hsize, hscore⟩ := foldl_accounts (π := Worker.ledger)
    (P := fun w => Idle g.nodeCount scoreCount w.paths w.ledger) (f := Worker.visit g accumulate)
    (fun w s hidle => h.idle_visit hidle (hidle.reusable.search g s)
      (fun hs => ShortestPaths.search_completed hg hs hidle.reusable)
      hidle.reusable.search_of_not_lt)
    (x := Worker.fresh ℚ g.nodeCount scoreCount) (idle_zero g.nodeCount scoreCount) sources
  have hzero := (idle_zero g.nodeCount scoreCount).size_scores
  refine eq_map_range (hsize.trans hzero) fun i hi => (hscore i (hzero.symm ▸ hi)).trans ?_
  exact (congrArg (· + _) scoreOf_zero).trans (zero_add _)

/-- Scores of zero, as scores by index. -/
theorem replicate_eq_map_range (n : ℕ) :
    Array.replicate n (0 : ℚ) = (Array.range n).map fun _ => 0 :=
  eq_map_range Array.size_replicate fun i hi => by simp [hi]

/-- The sum of scores by index. -/
theorem merge_map_range (n : ℕ) (f h : ℕ → ℚ) :
    merge ((Array.range n).map f) ((Array.range n).map h) =
      (Array.range n).map fun i => f i + h i :=
  eq_map_range (by simp [merge]) fun i hi => by simp [merge, Array.getElem?_range, hi]

/-- **Run lemma**: the workers of a schedule add up the shares of its sources. -/
theorem Schedule.scores_eq (hg : g.Consistent) (h : Accountable g scoreCount share accumulate)
    (schedule : Schedule) : schedule.scores g accumulate scoreCount =
      (Array.range scoreCount).map fun i => (schedule.sources.map fun s => share s i).sum := by
  induction schedule with
  | zeros => exact replicate_eq_map_range scoreCount
  | block sources => exact blockScores_eq hg h sources
  | merge left right ihl ihr =>
      rw [scores, ihl, ihr, merge_map_range]
      simp only [sources, List.map_append, List.sum_append]

/-- Blocks of sources come to the same as all sources in one. -/
theorem scoresOfBlocks_eq (hg : g.Consistent) (h : Accountable g scoreCount share accumulate)
    (blocks : List (List ℕ)) : scoresOfBlocks g accumulate scoreCount blocks =
      (Array.range scoreCount).map fun i => (blocks.flatten.map fun s => share s i).sum := by
  rw [← Schedule.scores_ofBlocks, Schedule.scores_eq hg h, Schedule.sources_ofBlocks]

/-- Scores that add up a contribution of every source, repeats included. -/
structure AddsUp (contribution : ℕ → Array ℚ) (scoreCount : ℕ) (sources : List ℕ)
    (scores : Array ℚ) : Prop where
  size_eq : scores.size = scoreCount
  /-- A score is the sum over the list of sources. -/
  eq_sum : ∀ i < scoreCount,
    scores.getD i 0 = (sources.map fun s => (contribution s).getD i 0).sum
  /-- A source counts as often as it is listed. -/
  eq_sum_count : ∀ i < scoreCount,
    scores.getD i 0 = ∑ s ∈ sources.toFinset, sources.count s * (contribution s).getD i 0

/-- The score at an index, from scores by index. -/
theorem getD_map_range {n i : ℕ} (hi : i < n) (f : ℕ → ℚ) :
    ((Array.range n).map f).getD i 0 = f i := by
  simp [Array.getD, hi]

/-- Sources in whatever order and on whatever schedule come to the same as in one block. -/
theorem Schedule.scores_eq_of_perm (hg : g.Consistent)
    (h : Accountable g scoreCount share accumulate) {schedule : Schedule} {sources : List ℕ}
    (hperm : schedule.sources.Perm sources) : schedule.scores g accumulate scoreCount =
      scoresOfBlocks g accumulate scoreCount [sources] := by
  rw [Schedule.scores_eq hg h, scoresOfBlocks_eq hg h, List.flatten_singleton]
  refine Array.map_congr_left fun i _ => ?_
  exact (hperm.map _).sum_eq

/-- The scores of sources add up those of each source alone. -/
theorem addsUp_scoresOfBlocks (hg : g.Consistent) (h : Accountable g scoreCount share accumulate)
    (sources : List ℕ) : AddsUp (fun s => scoresOfBlocks g accumulate scoreCount [[s]]) scoreCount
      sources (scoresOfBlocks g accumulate scoreCount [sources]) := by
  have hscore : ∀ sources, ∀ i < scoreCount,
      (scoresOfBlocks g accumulate scoreCount [sources]).getD i 0 =
        (sources.map fun s => share s i).sum := by
    intro sources i hi
    rw [scoresOfBlocks_eq hg h, getD_map_range hi, List.flatten_singleton]
  have hone : ∀ i < scoreCount, ∀ s,
      (scoresOfBlocks g accumulate scoreCount [[s]]).getD i 0 = share s i := by
    intro i hi s
    rw [hscore [s] i hi, List.map_singleton, List.sum_singleton]
  refine ⟨by rw [scoresOfBlocks_eq hg h]; simp, fun i hi => ?_, fun i hi => ?_⟩
  · rw [hscore sources i hi]
    exact congrArg List.sum (List.map_congr_left fun s _ => (hone i hi s).symm)
  · rw [hscore sources i hi, Finset.sum_list_map_count]
    refine Finset.sum_congr rfl fun s _ => ?_
    rw [nsmul_eq_mul, hone i hi]

end Blocks

/-- The raw scores of vertices, source by source. -/
theorem vertexScores_eq (hg : g.Consistent) (sources : List ℕ) :
    vertexScores ℚ g sources = (Array.range g.nodeCount).map (g.vertexSum sources) := by
  rw [vertexScores, scoresOfBlocks_eq hg (accountable_addVertices hg), List.flatten_singleton]
  rfl

/-- The raw scores of edges. -/
theorem edgeScores_eq (hg : g.Consistent) (sources : List ℕ) :
    edgeScores ℚ g sources = (Array.range g.edgeCount).map (g.edgeSum sources) := by
  rw [edgeScores, scoresOfBlocks_eq hg (accountable_addEdges hg), List.flatten_singleton]
  rfl

/-- The raw scores of vertices, level by level. -/
theorem storedVertexScores_eq (hg : g.Consistent) (sources : List ℕ) :
    storedVertexScores ℚ ℚ g sources = (Array.range g.nodeCount).map (g.vertexSum sources) := by
  obtain ⟨hsize, hscore⟩ := foldl_accounts (π := Prod.snd)
    (P := fun x => Idle g.nodeCount g.nodeCount x.1 x.2) (f := visitLevels g)
    (fun x s hidle => (accountable_addLevels hg).idle_visit hidle
      (hidle.reusable.levelSearch g s)
      (fun hs => ShortestPaths.levelSearch_completed hg hs hidle.reusable)
      hidle.reusable.levelSearch_of_not_lt)
    (x := (.blank ℚ g.nodeCount, .zero ℚ ℚ g.nodeCount g.nodeCount))
    (idle_zero g.nodeCount g.nodeCount) sources
  have hzero := (idle_zero g.nodeCount g.nodeCount).size_scores
  refine eq_map_range (hsize.trans hzero) fun i hi => (hscore i (hzero.symm ▸ hi)).trans ?_
  rw [scoreOf_zero, zero_add]
  rfl

/-! ### Any schedule -/

/-- However sources are shared out, whatever order their scores are added up in, and in whatever
order the sources are taken: the raw scores of vertices and edges come to the same, and add up
those of each source alone. -/
theorem schedule_addsUp {b : Builder} (hb : b.build = .ok g) {schedule : Schedule}
    {sources : List ℕ} (hperm : schedule.sources.Perm sources) :
    schedule.scores g Ledger.addVertices g.nodeCount = vertexScores ℚ g sources ∧
    AddsUp (fun s => vertexScores ℚ g [s]) g.nodeCount sources (vertexScores ℚ g sources) ∧
    schedule.scores g Ledger.addEdges g.edgeCount = edgeScores ℚ g sources ∧
    AddsUp (fun s => edgeScores ℚ g [s]) g.edgeCount sources (edgeScores ℚ g sources) := by
  have hg := Builder.build_consistent hb
  have hvertices := accountable_addVertices hg
  have hedges := accountable_addEdges hg
  exact ⟨Schedule.scores_eq_of_perm hg hvertices hperm, addsUp_scoresOfBlocks hg hvertices sources,
    Schedule.scores_eq_of_perm hg hedges hperm, addsUp_scoresOfBlocks hg hedges sources⟩

/-- Three sources of the square, one of them twice: two workers take two sources each, in an order
that is not that of the list, and a third takes none. -/
theorem schedule_addsUp_square : Builder.square.build = .ok Graph.square ∧
    ((Schedule.block [2, 0]).merge (.merge .zeros (.block [1, 0]))).sources.Perm [0, 0, 1, 2] ∧
    ((Schedule.block [2, 0]).merge (.merge .zeros (.block [1, 0]))).scores Graph.square
      Ledger.addVertices 5 = vertexScores ℚ Graph.square [0, 0, 1, 2] ∧
    vertexScores ℚ Graph.square [0, 0, 1, 2] = #[1 / 2, 3 / 2, 1 / 2, 3 / 2, 0] ∧
    AddsUp (fun s => edgeScores ℚ Graph.square [s]) 5 [0, 0, 1, 2]
      (edgeScores ℚ Graph.square [0, 0, 1, 2]) := by
  have hperm : ((Schedule.block [2, 0]).merge
      (.merge .zeros (.block [1, 0]))).sources.Perm [0, 0, 1, 2] := by decide
  obtain ⟨hvertices, -, -, hedges⟩ := schedule_addsUp Builder.build_square hperm
  rw [Graph.nodeCount_square] at hvertices
  rw [Graph.edgeCount_square] at hedges
  refine ⟨Builder.build_square, hperm, hvertices, ?_, hedges⟩
  rw [Graph.square_eq]
  decide +kernel

end Betweenness
