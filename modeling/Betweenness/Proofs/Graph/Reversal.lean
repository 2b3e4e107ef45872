import Betweenness.Proofs.Graph.PathShare

/-!
# Paths in reverse

Where edges have no direction, a walk can be taken back. So shortest paths from `s` to `t` are as
many as those from `t` to `s`, and lead through a vertex as often. This is why summing over all
sources sees every pair of vertices twice.

## Main results

* `Walk.reverse`: a walk taken back.
* `pathCount_comm`, `pathCountThrough_comm`: counts of shortest paths do not depend on the
  direction in which they are taken.
* `betweenness_eq`: the betweenness of a vertex, from the shares that all vertices have of it.
-/

namespace Betweenness.Graph

/-! ### Betweenness -/

open Classical in
/-- The pairs of vertices besides `v`, in either order, the second of which the first reaches. -/
noncomputable def pairsBeside (g : Graph) (v : ℕ) : Finset (ℕ × ℕ) :=
  (Finset.range g.nodeCount ×ˢ Finset.range g.nodeCount).filter fun x =>
    x.1 ≠ x.2 ∧ x.1 ≠ v ∧ x.2 ≠ v ∧ g.Reaches x.1 x.2

/-- The share of shortest paths from the first to the second of two vertices that pass through
`v`. -/
noncomputable def pairShare (g : Graph) (v : ℕ) (x : ℕ × ℕ) : ℚ :=
  g.pathCountThrough x.1 x.2 v / g.pathCount x.1 x.2

/-- The betweenness of a vertex: the shares of shortest paths through it, summed over ordered pairs
if edges have a direction, and over unordered ones otherwise. -/
noncomputable def betweenness (g : Graph) (v : ℕ) : ℚ :=
  match g.kind with
  | .directed => ∑ x ∈ g.pairsBeside v, g.pairShare v x
  | .undirected => ∑ x ∈ g.pairsBeside v with x.1 < x.2, g.pairShare v x

/-! ### Walks taken back -/

/-- The vertices that a walk from `s` comes to when it is taken back, after its end. -/
def takenBack (s : ℕ) (p : List ℕ) : List ℕ := (s :: p).reverse.tail

theorem length_takenBack (s : ℕ) (p : List ℕ) : (takenBack s p).length = p.length := by
  simp [takenBack]

/-- Taken back, a walk has the same vertices strictly between its ends. -/
theorem dropLast_takenBack (s : ℕ) (p : List ℕ) :
    (takenBack s p).dropLast = p.dropLast.reverse := by
  cases p using List.reverseRecOn with
  | nil => rfl
  | append_singleton p x => simp [takenBack]

section Undirected

variable {g : Graph} {s t v w : ℕ} {p : List ℕ} (hkind : g.kind = .undirected)

include hkind

/-- Without direction, a step can be taken back. -/
theorem Linked.symm (h : g.Linked v w) : g.Linked w v := by
  obtain ⟨e, he⟩ := h
  exact ⟨e, he.symm hkind⟩

/-- A walk taken back starts at its end. -/
theorem Walk.reverse (h : g.Walk s p t) :
    (s :: p).reverse = t :: takenBack s p ∧ g.Walk t (takenBack s p) s := by
  induction h with
  | nil s => exact ⟨rfl, .nil s⟩
  | @cons u v w p huv _ ih =>
      obtain ⟨hlist, hwalk⟩ := ih
      have hback : takenBack u (v :: p) = takenBack v p ++ [u] := by
        rw [takenBack, List.reverse_cons, hlist]
        rfl
      rw [hback]
      refine ⟨?_, hwalk.snoc (huv.symm hkind)⟩
      rw [List.reverse_cons, hlist]
      rfl

theorem Reaches.symm (h : g.Reaches s t) : g.Reaches t s := by
  obtain ⟨p, hp⟩ := h
  exact ⟨_, (hp.reverse hkind).2⟩

/-- A shortest path taken back is a shortest path. -/
theorem takenBack_mem_shortestPaths (hp : p ∈ g.shortestPaths s t) :
    takenBack s p ∈ g.shortestPaths t s := by
  obtain ⟨hwalk, hleast⟩ := hp
  refine ⟨(hwalk.reverse hkind).2, fun q hq => ?_⟩
  have hle := hleast _ (hq.reverse hkind).2
  rwa [length_takenBack] at hle ⊢

/-- Different walks are different when they are taken back. -/
theorem injOn_takenBack : Set.InjOn (takenBack s) (g.shortestPaths s t) := by
  intro p hp q hq heq
  have hlist := (hp.1.reverse hkind).1.trans
    ((congrArg (t :: ·) heq).trans (hq.1.reverse hkind).1.symm)
  exact List.tail_eq_of_cons_eq (List.reverse_injective hlist)

/-- As many shortest paths lead back as lead there. -/
theorem pathCount_comm (hg : g.Consistent) : g.pathCount s t = g.pathCount t s :=
  have hle : ∀ s t, g.pathCount s t ≤ g.pathCount t s := fun s t =>
    Set.ncard_le_ncard_of_injOn (takenBack s) (fun _ hp => takenBack_mem_shortestPaths hkind hp)
      (injOn_takenBack hkind) (hg.finite_shortestPaths t s)
  le_antisymm (hle s t) (hle t s)

/-- As many shortest paths lead through a vertex on the way back. -/
theorem pathCountThrough_comm (hg : g.Consistent) :
    g.pathCountThrough s t v = g.pathCountThrough t s v :=
  have hle : ∀ s t, g.pathCountThrough s t v ≤ g.pathCountThrough t s v := fun s t => by
    refine Set.ncard_le_ncard_of_injOn (takenBack s) (fun p hp => ?_)
      ((injOn_takenBack hkind).mono (Set.sep_subset _ _))
      ((hg.finite_shortestPaths t s).subset (Set.sep_subset _ _))
    refine ⟨takenBack_mem_shortestPaths hkind hp.1, ?_⟩
    rw [dropLast_takenBack, List.mem_reverse]
    exact hp.2
  le_antisymm (hle s t) (hle t s)

/-- A pair of vertices has one share, in whatever order it is taken. -/
theorem pairShare_swap (hg : g.Consistent) (x : ℕ × ℕ) :
    g.pairShare v x.swap = g.pairShare v x := by
  rw [pairShare, pairShare, Prod.fst_swap, Prod.snd_swap, pathCount_comm hkind hg,
    pathCountThrough_comm hkind hg]

/-- The ordered pairs are the unordered ones, each twice. -/
theorem sum_pairsBeside (hg : g.Consistent) : ∑ x ∈ g.pairsBeside v, g.pairShare v x =
    2 * ∑ x ∈ g.pairsBeside v with x.1 < x.2, g.pairShare v x := by
  have hswap : ∑ x ∈ g.pairsBeside v with ¬ x.1 < x.2, g.pairShare v x =
      ∑ x ∈ g.pairsBeside v with x.1 < x.2, g.pairShare v x := by
    refine Finset.sum_nbij' Prod.swap Prod.swap ?_ ?_ (fun _ _ => Prod.swap_swap _)
      (fun _ _ => Prod.swap_swap _) fun x _ => (pairShare_swap hkind hg x).symm
    · rintro ⟨s, t⟩ hx
      simp only [pairsBeside, Finset.mem_filter, Finset.mem_product, Prod.swap_prod_mk] at hx ⊢
      obtain ⟨⟨⟨hs, ht⟩, hne, hsv, htv, hreach⟩, hlt⟩ := hx
      exact ⟨⟨⟨ht, hs⟩, Ne.symm hne, htv, hsv, hreach.symm hkind⟩, by omega⟩
    · rintro ⟨s, t⟩ hx
      simp only [pairsBeside, Finset.mem_filter, Finset.mem_product, Prod.swap_prod_mk] at hx ⊢
      obtain ⟨⟨⟨hs, ht⟩, hne, hsv, htv, hreach⟩, hlt⟩ := hx
      exact ⟨⟨⟨ht, hs⟩, Ne.symm hne, htv, hsv, hreach.symm hkind⟩, by omega⟩
  rw [← Finset.sum_filter_add_sum_filter_not _ fun x : ℕ × ℕ => x.1 < x.2, hswap]
  ring

end Undirected

/-- The shares that all vertices have of one of them are those of the pairs of vertices. -/
theorem vertexSum_range (g : Graph) (v : ℕ) :
    g.vertexSum (List.range g.nodeCount) v = ∑ x ∈ g.pairsBeside v, g.pairShare v x := by
  classical
  rw [vertexSum, ← List.sum_toFinset _ List.nodup_range, List.toFinset_range, pairsBeside,
    Finset.sum_filter, Finset.sum_product]
  refine Finset.sum_congr rfl fun s _ => ?_
  split
  · rename_i hv
    refine (Finset.sum_eq_zero fun t _ => if_neg ?_).symm
    rintro ⟨-, hne, -⟩
    exact hne hv.symm
  · rename_i hv
    have hends : g.reached s \ {s, v} =
        (Finset.range g.nodeCount).filter fun t => s ≠ t ∧ s ≠ v ∧ t ≠ v ∧ g.Reaches s t := by
      ext t
      simp only [Finset.mem_sdiff, mem_reached, Finset.mem_insert, Finset.mem_singleton,
        Finset.mem_filter, Finset.mem_range, not_or]
      constructor
      · rintro ⟨⟨ht, hreach⟩, hts, htv⟩
        exact ⟨ht, Ne.symm hts, Ne.symm hv, htv, hreach⟩
      · rintro ⟨ht, hst, -, htv, hreach⟩
        exact ⟨⟨ht, hreach⟩, Ne.symm hst, htv⟩
    rw [vertexShare, hends, Finset.sum_filter]
    rfl

/-- The betweenness of a vertex, from the shares that all vertices have of it: without direction,
every pair is seen from both of its ends. -/
theorem betweenness_eq {g : Graph} (hg : g.Consistent) (v : ℕ) : g.betweenness v =
    (if g.kind = .undirected then (1 / 2 : ℚ) else 1) * g.vertexSum (List.range g.nodeCount) v := by
  rw [vertexSum_range, betweenness]
  cases hkind : g.kind with
  | directed => simp
  | undirected =>
      rw [sum_pairsBeside hkind hg, if_pos rfl]
      ring

end Betweenness.Graph
