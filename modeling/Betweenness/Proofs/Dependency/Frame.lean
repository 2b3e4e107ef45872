import Betweenness.Proofs.Checked.Arrays
import Betweenness.Proofs.Dependency.Space
import Betweenness.Proofs.ShortestPaths.Description

/-!
# What adding dependencies leaves alone

Thousands of sources share a ledger and a space for searches, one after the other. That none of
them leaves a trace for the next one does not depend on numbers, so it is said for every arithmetic:
a step changes the entries of a `written` or `credited` index only (`Ledger.ChangesOnly`), and every
index that is ever written belongs to a vertex that the search has listed, which is where the
dependencies are set to zero again.

What is needed of a search for this is `ShortestPaths.LeadsBack`: the vertices that it lists are
those that have a distance, and a predecessor is a vertex one hop nearer to the source. Whatever a
search leaves behind is so, from a vertex or from no vertex, in any space.

## Main results

* `ShortestPaths.LeftBy.leadsBack`: what is left by a search, of either kind.
* `ChangesOnly.creditVertex`, `ChangesOnly.creditEdges`, `ChangesOnly.creditLevel`: the step lemmas,
  for a vertex or a level.
* `addVertices_credits`, `addEdges_credits`, `addLevels_credits`: the run lemmas, for a source.
* `build_credits`: the three of them, after any search of a built graph.
-/

namespace Betweenness

variable {α β : Type}

/-! ### What searches leave behind -/

namespace ShortestPaths

variable {g : Graph} {s : ShortestPaths α} {source : ℕ} {levels : List (List ℕ)}

/-- The vertices that have been reached, without the source. -/
def beyondSource (s : ShortestPaths α) : Set ℕ := {v | s.isReachable v = true ∧ v ≠ s.source}

/-- The edges that are recorded with a predecessor. -/
def recordedEdges (s : ShortestPaths α) : Set ℕ := {e | ∃ w, ∃ p ∈ s.predecessorsOf w, p.edge = e}

/-- A search can be followed back from the vertices that it lists. -/
structure LeadsBack (g : Graph) (s : ShortestPaths α) : Prop where
  /-- The listed vertices are those that have been reached. -/
  mem_order_iff : ∀ v, v ∈ s.order ↔ s.isReachable v = true
  /-- Predecessors are one hop nearer to the source, over the edge that is recorded. -/
  exists_distance : ∀ w, ∀ p ∈ s.predecessorsOf w, ∃ d, s.distanceOf p.vertex = some d ∧
    s.distanceOf w = some (d + 1) ∧ g.Joins p.edge p.vertex w

namespace LeadsBack

variable (h : s.LeadsBack g)

include h

/-- Predecessors are listed. -/
theorem mem_order_of_mem {w : ℕ} {p : Predecessor} (hp : p ∈ s.predecessorsOf w) :
    p.vertex ∈ s.order := by
  obtain ⟨d, hd, -, -⟩ := h.exists_distance w p hp
  rw [h.mem_order_iff, isReachable, hd, Option.isSome_some]

theorem mem_beyondSource {v : ℕ} (hv : v ∈ s.order) (hne : v ≠ s.source) : v ∈ s.beyondSource :=
  ⟨(h.mem_order_iff v).mp hv, hne⟩

/-- One end of a recorded edge is one hop further from the source than the other. -/
theorem exists_hop {e v w : ℕ} (he : e ∈ s.recordedEdges) (hends : g.endpoints? e = some (v, w)) :
    ∃ d, s.distanceOf v = some d ∧ s.distanceOf w = some (d + 1) ∨
      s.distanceOf w = some d ∧ s.distanceOf v = some (d + 1) := by
  obtain ⟨u, p, hp, rfl⟩ := he
  obtain ⟨d, hnear, hfar, hjoins⟩ := h.exists_distance u p hp
  refine ⟨d, ?_⟩
  rcases hjoins with hforth | ⟨-, hback⟩
  · obtain ⟨rfl, rfl⟩ := Prod.mk.inj (Option.some.inj (hends.symm.trans hforth))
    exact .inl ⟨hnear, hfar⟩
  · obtain ⟨rfl, rfl⟩ := Prod.mk.inj (Option.some.inj (hends.symm.trans hback))
    exact .inr ⟨hnear, hfar⟩

end LeadsBack

variable [Scalar α]

/-- What a search of a graph leaves behind, of either kind and from whatever index, in space that
any searches have been made in before. -/
inductive LeftBy (g : Graph) : ShortestPaths α → Prop
  | search {s : ShortestPaths α} (source : ℕ) (hs : Used α g.nodeCount s) :
      LeftBy g (s.search g source)
  | levelSearch {s : ShortestPaths α} (source : ℕ) (hs : Used α g.nodeCount s) :
      LeftBy g (s.levelSearch g source)

/-- A complete search can be followed back. -/
theorem Completed.leadsBack (hg : g.Consistent) (hs : source < g.nodeCount)
    (h : Completed g source levels s) : s.LeadsBack g where
  mem_order_iff v := by
    have hdescribes := h.describes hg hs
    rw [hdescribes.mem_order, hdescribes.isReachable_iff]
  exists_distance w p hp := by
    obtain ⟨d, hv, hw, hjoins⟩ := h.mem_predecessors_iff.mp hp
    exact ⟨d, h.distanceOf_iff.mpr hv, h.distanceOf_iff.mpr hw, hjoins⟩

/-- There is nothing to follow in space without marks. -/
theorem leadsBack_blank (source : ℕ) : LeadsBack g { blank α g.nodeCount with source } := by
  have hunmarked := (reusable_blank (α := α) g.nodeCount).withSource source
  constructor
  · intro v
    rw [isReachable, hunmarked.distance_unmarked v (Array.not_mem_empty v)]
    exact iff_of_false (Array.not_mem_empty v) Bool.false_ne_true
  · intro w p hp
    rw [hunmarked.predecessors_unmarked w (Array.not_mem_empty w)] at hp
    exact absurd hp (Array.not_mem_empty p)

/-- Whatever a search leaves behind can be followed back. -/
theorem LeftBy.leadsBack (hg : g.Consistent) (h : s.LeftBy g) : s.LeadsBack g := by
  cases h with
  | search source hused =>
      by_cases hs : source < g.nodeCount
      · obtain ⟨levels, h⟩ := search_completed hg hs hused.reusable
        exact h.leadsBack hg hs
      · rw [hused.reusable.search_of_not_lt hs]
        exact leadsBack_blank source
  | levelSearch source hused =>
      by_cases hs : source < g.nodeCount
      · obtain ⟨levels, h⟩ := levelSearch_completed hg hs hused.reusable
        exact h.leadsBack hg hs
      · rw [hused.reusable.levelSearch_of_not_lt hs]
        exact leadsBack_blank source

end ShortestPaths

namespace Ledger

variable {written credited : Set ℕ} {l l' l'' : Ledger α β} {paths : ShortestPaths α} {g : Graph}
  {n v w i : ℕ}

/-! ### Entries that stay -/

/-- Of the dependencies, those on `written` vertices may have changed, and of the scores those at
`credited` indices. -/
structure ChangesOnly (written credited : Set ℕ) (l l' : Ledger α β) : Prop where
  dependency_eq : ∀ v ∉ written, l'.dependency[v]? = l.dependency[v]?
  scores_eq : ∀ i ∉ credited, l'.scores[i]? = l.scores[i]?

/-- What adding the dependencies of a source makes of a ledger: the dependencies are zero again, and
of the scores only the `credited` ones can have changed. -/
structure Credits [Scalar α] (n : ℕ) (credited : Set ℕ) (l l' : Ledger α β) : Prop where
  dependency_eq : l'.dependency = Array.replicate n 0
  size_scores : l'.scores.size = l.scores.size
  scores_eq : ∀ i ∉ credited, l'.scores[i]? = l.scores[i]?

/-- There is space for the dependencies that are there. -/
theorem hasSpace_of_eq_replicate {x : α} (hl : l.dependency = Array.replicate n x) :
    l.HasSpace n l.scores.size :=
  ⟨by rw [hl, Array.size_replicate], rfl⟩

/-- A level is cut out of the order. -/
theorem mem_order_of_mem_level {depth : ℕ} {level : Array ℕ}
    (hlevel : paths.level? depth = some level) (hv : v ∈ level) : v ∈ paths.order := by
  obtain ⟨start, -, h⟩ := Option.bind_eq_some_iff.mp hlevel
  obtain ⟨stop, -, h⟩ := Option.bind_eq_some_iff.mp h
  obtain rfl := Option.some.inj h
  exact Checked.mem_of_mem_extract hv

namespace ChangesOnly

theorem refl (l : Ledger α β) : ChangesOnly written credited l l :=
  ⟨fun _ _ => rfl, fun _ _ => rfl⟩

theorem trans (h : ChangesOnly written credited l l') (h' : ChangesOnly written credited l' l'') :
    ChangesOnly written credited l l'' :=
  ⟨fun v hv => (h'.dependency_eq v hv).trans (h.dependency_eq v hv),
    fun i hi => (h'.scores_eq i hi).trans (h.scores_eq i hi)⟩

/-- What every step leaves alone is left alone by all of them. -/
theorem foldl {τ : Type} {f : Ledger α β → τ → Ledger α β} {xs : List τ}
    (hf : ∀ l, ∀ x ∈ xs, ChangesOnly written credited l (f l x)) (l : Ledger α β) :
    ChangesOnly written credited l (xs.foldl f l) :=
  List.foldlRecOn xs f (refl l) fun l' hl' x hx => hl'.trans (hf l' x hx)

theorem addScore [Scalar β] (hi : i ∈ credited) (x : β) :
    ChangesOnly written credited l (l.addScore i x) where
  dependency_eq _ _ := rfl
  scores_eq j hj := by
    rw [Ledger.addScore, Array.getElem?_modify, if_neg (ne_of_mem_of_not_mem hi hj)]

/-- A vertex is written when the dependency on it is entered, and credited unless it is the
source. -/
theorem enter [Scalar β] [Storage α β] (hv : v ∈ written)
    (hcredit : v ≠ paths.source → v ∈ credited) (x : α) :
    ChangesOnly written credited l (l.enter paths v x) := by
  have hset : ChangesOnly written credited l
      { l with dependency := l.dependency.setIfInBounds v x } :=
    ⟨fun u hu => Array.getElem?_setIfInBounds_ne (ne_of_mem_of_not_mem hv hu), fun _ _ => rfl⟩
  rw [Ledger.enter]
  split
  · exact hset
  · exact hset.trans (addScore (hcredit ‹_›) _)

variable [Scalar α]

theorem addDependency (hv : v ∈ written) (x : α) :
    ChangesOnly written credited l (l.addDependency v x) where
  dependency_eq u hu := by
    rw [Ledger.addDependency, Array.getElem?_modify, if_neg (ne_of_mem_of_not_mem hv hu)]
  scores_eq _ _ := rfl

/-- **Step lemma**: a vertex writes to its predecessors, and is credited unless it is the source. -/
theorem creditVertex {l : Ledger α α} (hback : ∀ p ∈ paths.predecessorsOf w, p.vertex ∈ written)
    (hcredit : w ≠ paths.source → w ∈ credited) :
    ChangesOnly written credited l (creditVertex paths l w) := by
  have hpassed : ∀ share, ChangesOnly written credited l ((paths.predecessorsOf w).toList.foldl
      (fun l p => l.addDependency p.vertex (paths.countOf p.vertex * share)) l) := fun share =>
    foldl (fun l p hp => addDependency (hback p (Array.mem_toList_iff.mp hp)) _) l
  rw [Ledger.creditVertex, ← Array.foldl_toList]
  split
  · exact hpassed _
  · exact (hpassed _).trans (addScore (hcredit ‹_›) _)

/-- **Step lemma**: a vertex writes to its predecessors, and the edges to them are credited. -/
theorem creditEdges {l : Ledger α α}
    (hback : ∀ p ∈ paths.predecessorsOf w, p.vertex ∈ written ∧ p.edge ∈ credited) :
    ChangesOnly written credited l (creditEdges paths l w) := by
  rw [Ledger.creditEdges, ← Array.foldl_toList]
  refine foldl (fun l p hp => ?_) l
  obtain ⟨hvertex, hedge⟩ := hback p (Array.mem_toList_iff.mp hp)
  exact (addDependency hvertex _).trans (addScore hedge _)

/-- **Step lemma**: the vertices of a level are written, and credited unless they are the source. -/
theorem creditLevel [Scalar β] [Storage α β] {depth : ℕ}
    (hlevel : ∀ level, paths.level? depth = some level →
      ∀ v ∈ level, v ∈ written ∧ (v ≠ paths.source → v ∈ credited)) :
    ChangesOnly written credited l (creditLevel g paths l depth) := by
  rw [Ledger.creditLevel]
  refine foldl (fun l x hx => ?_) l
  obtain ⟨v, hv, rfl⟩ := List.mem_map.mp hx
  cases hcut : paths.level? depth with
  | none =>
      rw [hcut] at hv
      exact absurd hv List.not_mem_nil
  | some level =>
      rw [hcut] at hv
      obtain ⟨hwritten, hcredit⟩ := hlevel level hcut v (Array.mem_toList_iff.mp hv)
      exact enter hwritten hcredit _

/-- If nothing but the dependencies on listed vertices is written, they are zero again once these
are set to zero. -/
theorem settle (hl : l.dependency = Array.replicate n 0)
    (h : ChangesOnly {v | v ∈ paths.order} credited l l') (hspace : l'.HasSpace n l.scores.size) :
    Credits n credited l (l'.settle paths) where
  dependency_eq := by
    refine ShortestPaths.foldl_setIfInBounds_eq_replicate hspace.size_dependency fun v hv => ?_
    rw [h.dependency_eq v hv, hl, ← Array.getD_eq_getD_getElem?]
    exact ShortestPaths.getD_replicate
  size_scores := hspace.size_scores
  scores_eq := h.scores_eq

end ChangesOnly

/-! ### One source after another -/

variable [Scalar α]

section Runs

variable (hpaths : paths.LeadsBack g)

include hpaths

/-- **Run lemma**: the vertices beyond the source are credited. -/
theorem addVertices_credits {l : Ledger α α} (hl : l.dependency = Array.replicate n 0) :
    Credits n paths.beyondSource l (l.addVertices paths) := by
  have hspace : (paths.order.toList.reverse.foldl (Ledger.creditVertex paths) l).HasSpace n
      l.scores.size :=
    (hasSpace_of_eq_replicate hl).foldl (fun _ w hl => hl.creditVertex w) _
  refine ChangesOnly.settle hl (.foldl (fun l w hw => ?_) l) hspace
  have hw := Array.mem_toList_iff.mp (List.mem_reverse.mp hw)
  exact .creditVertex (fun p hp => hpaths.mem_order_of_mem hp) (hpaths.mem_beyondSource hw)

/-- **Run lemma**: the recorded edges are credited. -/
theorem addEdges_credits {l : Ledger α α} (hl : l.dependency = Array.replicate n 0) :
    Credits n paths.recordedEdges l (l.addEdges paths) := by
  have hspace : (paths.order.toList.reverse.foldl (Ledger.creditEdges paths) l).HasSpace n
      l.scores.size :=
    (hasSpace_of_eq_replicate hl).foldl (fun _ w hl => hl.creditEdges w) _
  refine ChangesOnly.settle hl (.foldl (fun l w _ => ?_) l) hspace
  exact .creditEdges fun p hp => ⟨hpaths.mem_order_of_mem hp, w, p, hp, rfl⟩

/-- **Run lemma**: level by level, the vertices beyond the source are credited. -/
theorem addLevels_credits [Scalar β] [Storage α β] (hl : l.dependency = Array.replicate n 0) :
    Credits n paths.beyondSource l (l.addLevels g paths) := by
  have hspace : ((List.range paths.depth).reverse.foldl (Ledger.creditLevel g paths) l).HasSpace n
      l.scores.size :=
    (hasSpace_of_eq_replicate hl).foldl (fun _ depth hl => hl.creditLevel depth) _
  refine ChangesOnly.settle hl (.foldl (fun l depth _ => ?_) l) hspace
  refine .creditLevel fun level hlevel v hv => ?_
  have hv := mem_order_of_mem_level hlevel hv
  exact ⟨hv, hpaths.mem_beyondSource hv⟩

end Runs

/-- Whatever the arithmetic does, and whatever search of a built graph it was, of either kind, from
a vertex or from no vertex, in new space or in used space: a ledger whose dependencies are zero has
zero dependencies again once those of the source have been added, in each of the three ways. The
scores of vertices that change are those of vertices that have been reached, without the source. The
scores of edges that change are those of recorded edges, and one end of such an edge is one hop
further from the source than the other. So it is no loop and does not stay within a level, and both
of its ends have been reached. -/
theorem build_credits [Scalar β] [Storage α β] {b : Builder} (hb : b.build = .ok g)
    (hleft : paths.LeftBy g) :
    (∀ l : Ledger α α, l.dependency = Array.replicate g.nodeCount 0 →
      Credits g.nodeCount paths.beyondSource l (l.addVertices paths) ∧
      Credits g.nodeCount paths.recordedEdges l (l.addEdges paths)) ∧
    (∀ l : Ledger α β, l.dependency = Array.replicate g.nodeCount 0 →
      Credits g.nodeCount paths.beyondSource l (l.addLevels g paths)) ∧
    ∀ e ∈ paths.recordedEdges, ∀ v w, g.endpoints? e = some (v, w) →
      ∃ d, paths.distanceOf v = some d ∧ paths.distanceOf w = some (d + 1) ∨
        paths.distanceOf w = some d ∧ paths.distanceOf v = some (d + 1) := by
  have hpaths := hleft.leadsBack (Builder.build_consistent hb)
  exact ⟨fun l hl => ⟨addVertices_credits hpaths hl, addEdges_credits hpaths hl⟩,
    fun l hl => addLevels_credits hpaths hl, fun e he v w hends => hpaths.exists_hop he hends⟩

/-- A search of the square from a corner, in the space of one from the vertex beside it, leaves the
loop of that vertex and the scores at its place alone. -/
theorem build_credits_square :
    let paths := ((ShortestPaths.blank Rat 5).search Graph.square 4).search Graph.square 0
    let l := zero Rat Rat 5 5
    Builder.square.build = .ok Graph.square ∧ paths.LeftBy Graph.square ∧
    l.dependency = Array.replicate Graph.square.nodeCount 0 ∧
    Credits Graph.square.nodeCount paths.beyondSource l (l.addVertices paths) ∧
    Credits Graph.square.nodeCount paths.recordedEdges l (l.addEdges paths) ∧
    Credits Graph.square.nodeCount paths.beyondSource l (l.addLevels Graph.square paths) ∧
    4 ∉ paths.beyondSource ∧ 4 ∉ paths.recordedEdges := by
  intro paths l
  have hleft : paths.LeftBy Graph.square := by
    refine .search 0 ?_
    rw [Graph.nodeCount_square]
    exact .search 4 Graph.nodeCount_square .blank
  have hl : l.dependency = Array.replicate Graph.square.nodeCount 0 := by
    rw [Graph.nodeCount_square]
    rfl
  obtain ⟨hpushed, hpulled, hhops⟩ := build_credits (β := Rat) Builder.build_square hleft
  obtain ⟨hvertices, hedges⟩ := hpushed l hl
  have hfar : paths.isReachable 4 = false := by
    subst paths
    rw [Graph.square_eq]
    decide +kernel
  refine ⟨Builder.build_square, hleft, hl, hvertices, hedges, hpulled l hl, fun h => ?_,
    fun h => ?_⟩
  · rw [h.1] at hfar
    cases hfar
  · have hends : Graph.square.endpoints? 4 = some (4, 4) := by
      rw [Graph.square_eq]
      rfl
    obtain ⟨d, h | h⟩ := hhops 4 h 4 4 hends
    all_goals
      rw [h.1] at h
      simp at h

end Ledger

end Betweenness
