import Betweenness.Proofs.Graph.Walk
import Mathlib.Algebra.BigOperators.Field
import Mathlib.Algebra.Field.Rat
import Mathlib.Data.Set.Card.Arithmetic
import Mathlib.Tactic.FieldSimp
import Mathlib.Tactic.Linarith
import Mathlib.Tactic.Ring

/-!
# Shares of shortest paths

How much a source depends on a vertex or an edge, in terms of the shortest paths of the graph
alone: `vertexShare g s v` adds up, over the vertices `t` that `s` reaches, the share of shortest
paths from `s` to `t` on which `v` lies strictly inside, and `edgeShare g s e` the share of those
that take the edge `e`. `vertexSum` and `edgeSum` add these up over sources.

A shortest path through a vertex is a shortest path to it, followed by a way on: a walk that gets
one step farther from the source with every step (`onward`). So the number of shortest paths
through a vertex is a product, and the ways on from a vertex are those from the vertices one step
farther. Everything that is handed back along an edge depends on its far end only (`passedBack`).

## Main results

* `ncard_through`, `ncard_over`: the number of shortest paths through a vertex and over a step.
* `pathCount_eq_sum`: the shortest paths to a vertex are those to its predecessors, counted
  together.
* `passedBack_eq`: what is passed back for each path, from what the successors pass back.
* `vertexShare_eq_mul_sum`, `edgeShare_eq`: the shares in terms of what is passed back.
-/

namespace Betweenness.Graph

/-! ### What is counted -/

/-- The walks from `s` to `t` that no other walk undercuts. -/
def shortestPaths (g : Graph) (s t : ℕ) : Set (List ℕ) :=
  {p | g.Walk s p t ∧ ∀ q, g.Walk s q t → p.length ≤ q.length}

/-- The number of shortest paths. -/
noncomputable def pathCount (g : Graph) (s t : ℕ) : ℕ := (g.shortestPaths s t).ncard

/-- The number of shortest paths that come to `v` on their way, strictly between their ends. -/
noncomputable def pathCountThrough (g : Graph) (s t v : ℕ) : ℕ :=
  {p ∈ g.shortestPaths s t | v ∈ p.dropLast}.ncard

/-- A list of vertices has two in a row that the edge joins, in its direction if edges have one. -/
def Traverses (g : Graph) (p : List ℕ) (e : ℕ) : Prop := ∃ v w, g.Joins e v w ∧ [v, w] <:+: p

/-- The number of shortest paths that take the edge `e`. -/
noncomputable def pathCountOver (g : Graph) (s t e : ℕ) : ℕ :=
  {p ∈ g.shortestPaths s t | g.Traverses (s :: p) e}.ncard

open Classical in
/-- The vertices that a vertex reaches, itself included. -/
noncomputable def reached (g : Graph) (s : ℕ) : Finset ℕ :=
  (Finset.range g.nodeCount).filter (g.Reaches s)

/-- The share of shortest paths from `s` that pass through `v`, summed over their ends. -/
noncomputable def vertexShare (g : Graph) (s v : ℕ) : ℚ :=
  ∑ t ∈ g.reached s \ {s, v}, (g.pathCountThrough s t v : ℚ) / g.pathCount s t

/-- The share of shortest paths from `s` that take the edge `e`, summed over their ends. -/
noncomputable def edgeShare (g : Graph) (s e : ℕ) : ℚ :=
  ∑ t ∈ g.reached s \ {s}, (g.pathCountOver s t e : ℚ) / g.pathCount s t

/-- The shares that some sources, repeats included, have of a vertex other than themselves. -/
noncomputable def vertexSum (g : Graph) (sources : List ℕ) (v : ℕ) : ℚ :=
  (sources.map fun s => if v = s then 0 else g.vertexShare s v).sum

/-- The shares that some sources, repeats included, have of an edge. -/
noncomputable def edgeSum (g : Graph) (sources : List ℕ) (e : ℕ) : ℚ :=
  (sources.map fun s => g.edgeShare s e).sum

/-! ### Ways on -/

/-- The walks from `v` to `t` that get one step farther from `s` with every step. -/
def onward (g : Graph) (s v t : ℕ) : Set (List ℕ) :=
  {p | g.Walk v p t ∧ g.distance s v + p.length = g.distance s t}

/-- A step that leads away from the source `s`. -/
def StepsAway (g : Graph) (s v w : ℕ) : Prop :=
  g.Linked v w ∧ g.Reaches s v ∧ g.distance s w = g.distance s v + 1

open Classical in
/-- The vertices one step beyond a vertex, as seen from the source `s`. -/
noncomputable def successors (g : Graph) (s v : ℕ) : Finset ℕ :=
  (Finset.range g.nodeCount).filter (g.StepsAway s v)

open Classical in
/-- The vertices from which a step leads away from the source `s` to a vertex. -/
noncomputable def predecessors (g : Graph) (s w : ℕ) : Finset ℕ :=
  (Finset.range g.nodeCount).filter (g.StepsAway s · w)

/-- What a vertex passes back for each shortest path that leads to it: the ways on from it, each
end `t` having weight one in all. -/
noncomputable def passedBack (g : Graph) (s v : ℕ) : ℚ :=
  ∑ t ∈ g.reached s, ((g.onward s v t).ncard : ℚ) / g.pathCount s t

variable {g : Graph} {s t u v w : ℕ} {p q : List ℕ}

@[simp] theorem mem_reached : t ∈ g.reached s ↔ t < g.nodeCount ∧ g.Reaches s t := by
  simp [reached]

@[simp] theorem mem_successors :
    w ∈ g.successors s v ↔ w < g.nodeCount ∧ g.StepsAway s v w := by
  simp [successors]

@[simp] theorem mem_predecessors :
    v ∈ g.predecessors s w ↔ v < g.nodeCount ∧ g.StepsAway s v w := by
  simp [predecessors]

theorem Reaches.step (h : g.Reaches s v) (hvw : g.Linked v w) : g.Reaches s w := by
  obtain ⟨p, hp⟩ := h
  exact ⟨_, hp.snoc hvw⟩

theorem StepsAway.reaches (h : g.StepsAway s v w) : g.Reaches s w := h.2.1.step h.1

/-- An edge leads from one of its ends to the other, and back if it has no direction. -/
theorem Joins.eq_or_swap {e v' w' : ℕ} (h : g.Joins e v w) (h' : g.Joins e v' w') :
    (v, w) = (v', w') ∨ g.kind = .undirected ∧ (v, w) = (w', v') := by
  obtain ⟨x, hx, hxkey⟩ := joins_iff.mp h
  obtain ⟨y, hy, hykey⟩ := joins_iff.mp h'
  obtain rfl : x = y := Option.some.inj (hx.symm.trans hy)
  exact Kind.edgeKey_eq_iff.mp (hxkey.symm.trans hykey)

/-- An edge leads away from the source by one step only: taken back, it leads towards it. -/
theorem StepsAway.eq_of_joins {e v' w' : ℕ} (h : g.StepsAway s v w) (h' : g.StepsAway s v' w')
    (he : g.Joins e v w) (he' : g.Joins e v' w') : v = v' ∧ w = w' := by
  have hdist := h.2.2
  have hdist' := h'.2.2
  rcases he.eq_or_swap he' with heq | ⟨-, heq⟩
  · exact Prod.mk.inj heq
  · obtain ⟨rfl, rfl⟩ := Prod.mk.inj heq
    omega

/-- A walk on from a vertex bounds the distance of its end. -/
theorem Reaches.distance_le (h : g.Reaches s v) (hp : g.Walk v p t) :
    g.distance s t ≤ g.distance s v + p.length := by
  obtain ⟨q, hq, hlen⟩ := h.atDistance.1
  have hle := (hq.append hp).distance_le
  rwa [List.length_append, hlen] at hle

/-- The shortest paths are the walks whose length is the distance. -/
theorem mem_shortestPaths_iff :
    p ∈ g.shortestPaths s t ↔ g.Walk s p t ∧ p.length = g.distance s t := by
  constructor
  · rintro ⟨hp, hleast⟩
    obtain ⟨q, hq, hlen⟩ := (Reaches.atDistance ⟨p, hp⟩).1
    exact ⟨hp, le_antisymm (hlen ▸ hleast q hq) hp.distance_le⟩
  · rintro ⟨hp, hlen⟩
    exact ⟨hp, fun q hq => hlen ▸ hq.distance_le⟩

/-- A shortest path through a vertex is a shortest path to it with a way on. -/
theorem through_eq_image (hv : g.Reaches s v) : {p ∈ g.shortestPaths s t | v ∈ s :: p} =
    (fun x : List ℕ × List ℕ => x.1 ++ x.2) '' (g.shortestPaths s v ×ˢ g.onward s v t) := by
  ext p
  constructor
  · rintro ⟨hp, hmem⟩
    obtain ⟨hp, hlen⟩ := mem_shortestPaths_iff.mp hp
    obtain ⟨q, r, rfl, hq, hr⟩ := hp.split hmem
    have hshort := hv.distance_le hr
    have hle := hq.distance_le
    rw [List.length_append] at hlen
    have hqlen : q.length = g.distance s v := by omega
    exact ⟨(q, r), ⟨mem_shortestPaths_iff.mpr ⟨hq, hqlen⟩, hr, by dsimp only; omega⟩, rfl⟩
  · rintro ⟨⟨q, r⟩, ⟨hq, hr, hlen⟩, rfl⟩
    obtain ⟨hq, hqlen⟩ := mem_shortestPaths_iff.mp hq
    refine ⟨mem_shortestPaths_iff.mpr ⟨hq.append hr, ?_⟩, ?_⟩
    · rw [List.length_append, hqlen, hlen]
    · rw [← List.cons_append]
      exact List.mem_append_left _ hq.mem_end

/-- A step of a shortest path leads away from the source, and the path is a shortest path up to the
step and a way on from it. -/
theorem split_step_of_mem_shortestPaths (hp : p ∈ g.shortestPaths s t)
    (hstep : [v, w] <:+: s :: p) : g.StepsAway s v w ∧
      ∃ q r, p = q ++ w :: r ∧ q ∈ g.shortestPaths s v ∧ r ∈ g.onward s w t := by
  obtain ⟨hp, hlen⟩ := mem_shortestPaths_iff.mp hp
  obtain ⟨q, r, rfl, hq, hvw, hr⟩ := hp.split_step hstep
  have hv : g.Reaches s v := ⟨q, hq⟩
  have hle := hq.distance_le
  have hw := hv.distance_le (.cons hvw (.nil w))
  have ht := (hv.step hvw).distance_le hr
  simp only [List.length_append, List.length_cons, List.length_nil] at hlen hw
  exact ⟨⟨hvw, hv, by omega⟩, q, r, rfl, mem_shortestPaths_iff.mpr ⟨hq, by omega⟩, hr, by omega⟩

/-- A shortest path over a step away from the source is a shortest path to the step with a way on
from it. -/
theorem over_eq_image (h : g.StepsAway s v w) :
    {p ∈ g.shortestPaths s t | [v, w] <:+: s :: p} =
      (fun x : List ℕ × List ℕ => x.1 ++ w :: x.2) ''
        (g.shortestPaths s v ×ˢ g.onward s w t) := by
  ext p
  constructor
  · rintro ⟨hp, hstep⟩
    obtain ⟨-, q, r, rfl, hq, hr⟩ := split_step_of_mem_shortestPaths hp hstep
    exact ⟨(q, r), ⟨hq, hr⟩, rfl⟩
  · rintro ⟨⟨q, r⟩, ⟨hq, hr, hlen⟩, rfl⟩
    obtain ⟨hq, hqlen⟩ := mem_shortestPaths_iff.mp hq
    obtain ⟨hvw, -, hdist⟩ := h
    refine ⟨mem_shortestPaths_iff.mpr ⟨hq.append (.cons hvw hr), ?_⟩, hq.step_infix r⟩
    dsimp only at hqlen hlen ⊢
    rw [List.length_append, List.length_cons]
    omega

/-- The only way on to the vertex itself is to stay. -/
theorem onward_self : g.onward s v v = {[]} := by
  ext p
  constructor
  · rintro ⟨-, hlen⟩
    exact List.length_eq_zero_iff.mp (by omega)
  · rintro rfl
    exact ⟨.nil v, rfl⟩

/-- A way on to another vertex starts with a step away from the source. -/
theorem onward_eq_iUnion (hg : g.Consistent) (hv : g.Reaches s v) (ht : t ≠ v) :
    g.onward s v t = ⋃ w ∈ g.successors s v, (w :: ·) '' g.onward s w t := by
  ext p
  simp only [Set.mem_iUnion, exists_prop, Set.mem_image, mem_successors]
  constructor
  · rintro ⟨hp, hlen⟩
    cases hp with
    | nil => exact absurd rfl ht
    | @cons _ w _ r hvw hr =>
        have hw := hv.distance_le (.cons hvw (.nil w))
        have hle := (hv.step hvw).distance_le hr
        simp only [List.length_cons, List.length_nil] at hlen hw
        have hdist : g.distance s w = g.distance s v + 1 := by omega
        exact ⟨w, ⟨(hg.lt_of_linked hvw).2, hvw, hv, hdist⟩, r, ⟨hr, by omega⟩, rfl⟩
  · rintro ⟨w, ⟨-, hvw, -, hdist⟩, r, ⟨hr, hlen⟩, rfl⟩
    refine ⟨.cons hvw hr, ?_⟩
    rw [List.length_cons]
    omega

/-- The shortest paths to a vertex other than the source are those to its predecessors, each with
one more step. -/
theorem shortestPaths_eq_iUnion (hg : g.Consistent) (hw : w ≠ s) :
    g.shortestPaths s w = ⋃ v ∈ g.predecessors s w, (· ++ [w]) '' g.shortestPaths s v := by
  ext p
  simp only [Set.mem_iUnion, exists_prop, Set.mem_image, mem_predecessors]
  constructor
  · intro hp
    have hwalk := (mem_shortestPaths_iff.mp hp).1
    have hne : p ≠ [] := by
      rintro rfl
      exact hw (walk_nil_iff.mp hwalk).symm
    obtain ⟨q, v, rfl, hq, hvw⟩ := hwalk.exists_snoc hne
    obtain ⟨haway, q', r, hsplit, hq', hr⟩ := split_step_of_mem_shortestPaths hp (hq.step_infix [])
    obtain rfl : r = [] := by simpa [onward_self] using hr
    obtain rfl : q = q' := List.append_cancel_right hsplit
    exact ⟨v, ⟨(hg.lt_of_linked hvw).1, haway⟩, q, hq', rfl⟩
  · rintro ⟨v, ⟨-, hvw, -, hdist⟩, q, hq, rfl⟩
    obtain ⟨hq, hlen⟩ := mem_shortestPaths_iff.mp hq
    refine mem_shortestPaths_iff.mpr ⟨hq.snoc hvw, ?_⟩
    rw [List.length_append, hlen, hdist, List.length_singleton]

/-! ### Counting -/

/-- Lists put together from a first part of fixed length, a fixed middle and a last part are as
many as the pairs of parts. -/
theorem ncard_image_append {A B : Set (List ℕ)} {k : ℕ} (m : List ℕ)
    (hA : ∀ q ∈ A, q.length = k) :
    ((fun x : List ℕ × List ℕ => x.1 ++ (m ++ x.2)) '' (A ×ˢ B)).ncard = A.ncard * B.ncard := by
  rw [Set.InjOn.ncard_image, Set.ncard_prod]
  rintro ⟨q, r⟩ ⟨hq, -⟩ ⟨q', r'⟩ ⟨hq', -⟩ heq
  obtain ⟨rfl, hmr⟩ := List.append_inj heq ((hA q hq).trans (hA q' hq').symm)
  exact Prod.ext rfl (List.append_cancel_left hmr)

/-- Sets that exclude each other are counted one by one. -/
theorem ncard_biUnion_eq_sum {α : Type} {I : Finset ℕ} {f : ℕ → Set α}
    (hfin : ∀ i ∈ I, (f i).Finite)
    (hdisj : ∀ i j x, x ∈ f i → x ∈ f j → i = j) :
    (⋃ i ∈ I, f i).ncard = ∑ i ∈ I, (f i).ncard := by
  have h := I.finite_toSet.ncard_biUnion hfin fun i _ j _ hij =>
    Set.disjoint_left.mpr fun x hi hj => hij (hdisj i j x hi hj)
  simp only [Finset.mem_coe] at h
  rw [h, ← finsum_mem_coe_finset]
  simp only [Finset.mem_coe]

variable (hg : g.Consistent)

include hg

theorem Consistent.finite_shortestPaths (s t : ℕ) : (g.shortestPaths s t).Finite :=
  (hg.finite_walks s t (g.distance s t)).subset fun _ hp => mem_shortestPaths_iff.mp hp

theorem Consistent.finite_onward (s v t : ℕ) : (g.onward s v t).Finite :=
  (hg.finite_walks v t (g.distance s t - g.distance s v)).subset fun _ hp => ⟨hp.1, by
    have hlen := hp.2
    omega⟩

/-- A vertex that is reached has a shortest path. -/
theorem Consistent.pathCount_pos (ht : g.Reaches s t) : 0 < g.pathCount s t := by
  obtain ⟨p, hp, hlen⟩ := ht.atDistance.1
  exact (Set.ncard_pos (hg.finite_shortestPaths s t)).mpr
    ⟨p, mem_shortestPaths_iff.mpr ⟨hp, hlen⟩⟩

omit hg in
/-- What is not reached has no shortest path. -/
theorem pathCount_eq_zero (ht : ¬ g.Reaches s t) : g.pathCount s t = 0 := by
  have hempty : g.shortestPaths s t = ∅ :=
    Set.eq_empty_iff_forall_notMem.mpr fun p hp => ht ⟨p, hp.1⟩
  rw [pathCount, hempty, Set.ncard_empty]

omit hg in
/-- The number of shortest paths through a vertex. -/
theorem ncard_through (hv : g.Reaches s v) : {p ∈ g.shortestPaths s t | v ∈ s :: p}.ncard =
    g.pathCount s v * (g.onward s v t).ncard := by
  rw [through_eq_image hv]
  exact ncard_image_append [] fun q hq => (mem_shortestPaths_iff.mp hq).2

omit hg in
/-- The number of shortest paths over a step away from the source. -/
theorem ncard_over (h : g.StepsAway s v w) :
    {p ∈ g.shortestPaths s t | [v, w] <:+: s :: p}.ncard =
      g.pathCount s v * (g.onward s w t).ncard := by
  rw [over_eq_image h]
  exact ncard_image_append [w] fun q hq => (mem_shortestPaths_iff.mp hq).2

/-- The ways on from a vertex to another are those from its successors. -/
theorem ncard_onward (hv : g.Reaches s v) : (g.onward s v t).ncard =
    (if t = v then 1 else 0) + ∑ w ∈ g.successors s v, (g.onward s w t).ncard := by
  split
  · subst t
    have hzero : ∀ w ∈ g.successors s v, (g.onward s w v).ncard = 0 := by
      intro w hw
      obtain ⟨-, -, -, hdist⟩ := mem_successors.mp hw
      have hempty : g.onward s w v = ∅ := by
        refine Set.eq_empty_iff_forall_notMem.mpr fun p hp => ?_
        have hlen := hp.2
        omega
      rw [hempty, Set.ncard_empty]
    rw [onward_self, Set.ncard_singleton, Finset.sum_eq_zero hzero, add_zero]
  · rename_i ht
    rw [onward_eq_iUnion hg hv ht, zero_add, ncard_biUnion_eq_sum]
    · refine Finset.sum_congr rfl fun w _ => Set.ncard_image_of_injective _ ?_
      exact List.cons_injective
    · exact fun w _ => (hg.finite_onward s w t).image _
    · rintro w w' p ⟨q, -, rfl⟩ ⟨q', -, heq⟩
      exact (List.cons.inj heq).1.symm

/-- The shortest paths to a vertex other than the source are those to its predecessors, counted
together. -/
theorem pathCount_eq_sum (hw : w ≠ s) :
    g.pathCount s w = ∑ v ∈ g.predecessors s w, g.pathCount s v := by
  rw [pathCount, shortestPaths_eq_iUnion hg hw, ncard_biUnion_eq_sum]
  · refine Finset.sum_congr rfl fun v _ => Set.ncard_image_of_injective _ ?_
    exact fun q q' heq => List.append_cancel_right heq
  · exact fun v _ => (hg.finite_shortestPaths s v).image _
  · rintro v v' p ⟨q, hq, rfl⟩ ⟨q', hq', heq⟩
    obtain rfl := List.append_cancel_right heq
    exact (mem_shortestPaths_iff.mp hq).1.unique (mem_shortestPaths_iff.mp hq').1

omit hg in
/-- The empty path is the only shortest one from a vertex to itself. -/
theorem shortestPaths_self : g.shortestPaths s s = {[]} := by
  ext p
  constructor
  · rintro ⟨-, hleast⟩
    exact List.length_eq_zero_iff.mp (Nat.le_zero.mp (hleast [] (.nil s)))
  · rintro rfl
    exact ⟨.nil s, fun _ _ => Nat.zero_le _⟩

omit hg in
@[simp] theorem pathCount_self : g.pathCount s s = 1 := by
  rw [pathCount, shortestPaths_self, Set.ncard_singleton]

/-! ### Shares -/

/-- What a vertex passes back for each path is a path's part of the vertex itself and what its
successors pass back. -/
theorem passedBack_eq (hv : g.Reaches s v) (hlt : v < g.nodeCount) : g.passedBack s v =
    1 / g.pathCount s v + ∑ w ∈ g.successors s v, g.passedBack s w := by
  have hmem : v ∈ g.reached s := mem_reached.mpr ⟨hlt, hv⟩
  simp only [passedBack]
  rw [Finset.sum_comm]
  have hterm : ∀ t, ((g.onward s v t).ncard : ℚ) / g.pathCount s t =
      (if t = v then 1 / (g.pathCount s t : ℚ) else 0) +
        ∑ w ∈ g.successors s v, ((g.onward s w t).ncard : ℚ) / g.pathCount s t := by
    intro t
    rw [ncard_onward hg hv, Nat.cast_add, add_div, Nat.cast_sum, Finset.sum_div]
    congr 1
    split <;> simp
  rw [Finset.sum_congr rfl fun t _ => hterm t, Finset.sum_add_distrib, Finset.sum_ite_eq',
    if_pos hmem]

omit hg in
/-- On a shortest path to another vertex, a vertex other than the source lies strictly between the
ends if it lies on the path. -/
theorem pathCountThrough_eq (hv : v ≠ s) (ht : t ≠ v) :
    g.pathCountThrough s t v = {p ∈ g.shortestPaths s t | v ∈ s :: p}.ncard := by
  refine congrArg Set.ncard (Set.ext fun p => ?_)
  refine and_congr_right fun hp => ⟨fun h => List.mem_cons_of_mem _ (List.mem_of_mem_dropLast h),
    fun h => ?_⟩
  have hmem := (List.mem_cons.mp h).resolve_left hv
  obtain ⟨q, u, rfl, -, -⟩ := hp.1.exists_snoc (List.ne_nil_of_mem hmem)
  rw [List.dropLast_concat]
  exact (List.mem_append.mp hmem).resolve_right fun h => ht (List.mem_singleton.mp h).symm

omit hg in
/-- No path leads through a vertex that is not reached. -/
theorem pathCountThrough_eq_zero (hv : ¬ g.Reaches s v) : g.pathCountThrough s t v = 0 := by
  have hempty : {p ∈ g.shortestPaths s t | v ∈ p.dropLast} = ∅ := by
    refine Set.eq_empty_iff_forall_notMem.mpr fun p ⟨hp, hmem⟩ => ?_
    obtain ⟨q, -, -, hq, -⟩ := hp.1.split (List.mem_cons_of_mem _ (List.mem_of_mem_dropLast hmem))
    exact hv ⟨q, hq⟩
  rw [pathCountThrough, hempty, Set.ncard_empty]

omit hg in
/-- A source does not depend on a vertex that it does not reach. -/
theorem vertexShare_eq_zero (hv : ¬ g.Reaches s v) : g.vertexShare s v = 0 := by
  refine Finset.sum_eq_zero fun t _ => ?_
  rw [pathCountThrough_eq_zero hv, Nat.cast_zero, zero_div]

/-- What is no vertex reaches no vertex. -/
theorem reached_eq_empty (hs : ¬ s < g.nodeCount) : g.reached s = ∅ := by
  refine Finset.eq_empty_of_forall_notMem fun t ht => ?_
  obtain ⟨hlt, p, hp⟩ := mem_reached.mp ht
  cases hp with
  | nil => exact hs hlt
  | cons hlink _ => exact hs (hg.lt_of_linked hlink).1

/-- What is no vertex depends on no vertex. -/
theorem vertexShare_eq_zero_of_not_lt (hs : ¬ s < g.nodeCount) : g.vertexShare s v = 0 := by
  rw [vertexShare, reached_eq_empty hg hs, Finset.empty_sdiff, Finset.sum_empty]

/-- What is no vertex depends on no edge. -/
theorem edgeShare_eq_zero_of_not_lt {e : ℕ} (hs : ¬ s < g.nodeCount) : g.edgeShare s e = 0 := by
  rw [edgeShare, reached_eq_empty hg hs, Finset.empty_sdiff, Finset.sum_empty]

/-- What a vertex passes back for all of its paths is the dependency of the source on it, the
vertex itself included as an end. -/
theorem vertexShare_add_one (hv : g.Reaches s v) (hlt : v < g.nodeCount) (hne : v ≠ s)
    (hs : s < g.nodeCount) : g.vertexShare s v + 1 = g.pathCount s v * g.passedBack s v := by
  have hcount : (g.pathCount s v : ℚ) ≠ 0 := by exact_mod_cast (hg.pathCount_pos hv).ne'
  have hterm : ∀ t, (g.pathCount s v : ℚ) * (((g.onward s v t).ncard : ℚ) / g.pathCount s t) =
      ({p ∈ g.shortestPaths s t | v ∈ s :: p}.ncard : ℚ) / g.pathCount s t := by
    intro t
    rw [ncard_through hv, Nat.cast_mul, mul_div_assoc]
  have hsub : {s, v} ⊆ g.reached s := by
    intro x hx
    rcases Finset.mem_insert.mp hx with rfl | hx
    · exact mem_reached.mpr ⟨hs, [], .nil x⟩
    · obtain rfl := Finset.mem_singleton.mp hx
      exact mem_reached.mpr ⟨hlt, hv⟩
  have hsource : {p ∈ g.shortestPaths s s | v ∈ s :: p} = ∅ := by
    refine Set.eq_empty_iff_forall_notMem.mpr fun p ⟨hp, hmem⟩ => ?_
    rw [shortestPaths_self, Set.mem_singleton_iff] at hp
    subst hp
    exact hne (List.mem_singleton.mp hmem)
  have hself : {p ∈ g.shortestPaths s v | v ∈ s :: p} = g.shortestPaths s v := by
    ext p
    exact and_iff_left_of_imp fun hp => hp.1.mem_end
  rw [passedBack, Finset.mul_sum, Finset.sum_congr rfl fun t _ => hterm t,
    ← Finset.sum_sdiff hsub, Finset.sum_pair hne.symm, hsource, hself, vertexShare]
  congr 1
  · refine Finset.sum_congr rfl fun t ht => ?_
    simp only [Finset.mem_sdiff, Finset.mem_insert, Finset.mem_singleton, not_or] at ht
    rw [pathCountThrough_eq hne ht.2.2]
  · rw [Set.ncard_empty, Nat.cast_zero, zero_div, zero_add]
    exact (div_self hcount).symm

/-- The dependency of the source on a vertex is what the successors pass back for its paths. -/
theorem vertexShare_eq_mul_sum (hv : g.Reaches s v) (hne : v ≠ s) (hs : s < g.nodeCount) :
    g.vertexShare s v = g.pathCount s v * ∑ w ∈ g.successors s v, g.passedBack s w := by
  have hlt := hg.lt_of_reaches hv hs
  have hcount : (g.pathCount s v : ℚ) ≠ 0 := by exact_mod_cast (hg.pathCount_pos hv).ne'
  have hshare := vertexShare_add_one hg hv hlt hne hs
  rw [passedBack_eq hg hv hlt, mul_add, mul_one_div_cancel hcount] at hshare
  linarith

omit hg in
/-- The shortest paths that take an edge away from the source are those over its step. -/
theorem pathCountOver_eq {e : ℕ} (he : g.Joins e v w) (h : g.StepsAway s v w) :
    g.pathCountOver s t e = g.pathCount s v * (g.onward s w t).ncard := by
  rw [← ncard_over h, pathCountOver]
  refine congrArg Set.ncard (Set.ext fun p => ?_)
  refine and_congr_right fun hp => ⟨?_, fun hstep => ⟨v, w, he, hstep⟩⟩
  rintro ⟨v', w', he', hstep⟩
  obtain ⟨haway, -⟩ := split_step_of_mem_shortestPaths hp hstep
  obtain ⟨rfl, rfl⟩ := h.eq_of_joins haway he he'
  exact hstep

omit hg in
/-- The dependency of the source on an edge that leads away from it is what the far end passes
back for the paths to the near end. -/
theorem edgeShare_eq {e : ℕ} (he : g.Joins e v w) (h : g.StepsAway s v w)
    (hs : s < g.nodeCount) : g.edgeShare s e = g.pathCount s v * g.passedBack s w := by
  have hsub : {s} ⊆ g.reached s := Finset.singleton_subset_iff.mpr
    (mem_reached.mpr ⟨hs, [], .nil s⟩)
  have hsource : g.pathCountOver s s e = 0 := by
    have hempty : {p ∈ g.shortestPaths s s | g.Traverses (s :: p) e} = ∅ := by
      refine Set.eq_empty_iff_forall_notMem.mpr ?_
      rintro p ⟨hp, a, b, -, hstep⟩
      rw [shortestPaths_self, Set.mem_singleton_iff] at hp
      subst hp
      have hlen := hstep.length_le
      simp at hlen
    rw [pathCountOver, hempty, Set.ncard_empty]
  have hall : g.edgeShare s e =
      ∑ t ∈ g.reached s, (g.pathCountOver s t e : ℚ) / g.pathCount s t := by
    rw [edgeShare, ← Finset.sum_sdiff hsub, Finset.sum_singleton, hsource, Nat.cast_zero, zero_div,
      add_zero]
  rw [hall, passedBack, Finset.mul_sum]
  refine Finset.sum_congr rfl fun t _ => ?_
  rw [pathCountOver_eq he h, Nat.cast_mul, mul_div_assoc]

omit hg in
/-- No shortest path takes an edge that leads nowhere away from the source. -/
theorem pathCountOver_eq_zero {e : ℕ} (h : ∀ v w, g.Joins e v w → ¬ g.StepsAway s v w) :
    g.pathCountOver s t e = 0 := by
  have hempty : {p ∈ g.shortestPaths s t | g.Traverses (s :: p) e} = ∅ := by
    refine Set.eq_empty_iff_forall_notMem.mpr fun p ⟨hp, v, w, he, hstep⟩ => ?_
    exact h v w he (split_step_of_mem_shortestPaths hp hstep).1
  rw [pathCountOver, hempty, Set.ncard_empty]

omit hg in
/-- The source does not depend on an edge that leads nowhere away from it. -/
theorem edgeShare_eq_zero {e : ℕ} (h : ∀ v w, g.Joins e v w → ¬ g.StepsAway s v w) :
    g.edgeShare s e = 0 := by
  refine Finset.sum_eq_zero fun t _ => ?_
  rw [pathCountOver_eq_zero h, Nat.cast_zero, zero_div]

omit hg in
/-- No source depends on a loop. -/
theorem edgeShare_loop {e : ℕ} (he : g.endpoints? e = some (v, v)) : g.edgeShare s e = 0 := by
  refine edgeShare_eq_zero fun a w hjoins haway => ?_
  obtain ⟨ends, hends, hkey⟩ := joins_iff.mp hjoins
  obtain rfl : (v, v) = ends := Option.some.inj (he.symm.trans hends)
  have hdist := haway.2.2
  rcases Kind.edgeKey_eq_iff.mp hkey with heq | ⟨-, heq⟩
  · obtain ⟨rfl, rfl⟩ := Prod.mk.inj heq
    omega
  · obtain ⟨rfl, rfl⟩ := Prod.mk.inj heq
    omega

end Betweenness.Graph
