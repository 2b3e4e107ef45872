import Betweenness.Proofs.Graph.Repeats
import Betweenness.Proofs.ShortestPaths.Counts
import Betweenness.Proofs.Workload.Spans
import Betweenness.Workload
import Mathlib.Data.Nat.Log

/-!
# Trees, level by level

A tree grows in two nested loops, each of which may be cut short when there are enough vertices. Yet
its state is known at every step: after the vertices before `v` have got their children, the next
vertex is `3 * v + 1`, unless there are only `n`; the level consists of the latest vertices; and
the rows so far lead to every vertex from a third of the one before it. So the rows are those of a
ternary heap.

A step of such a graph leads one level up or down, and a level holds the vertices `v` with equal
logarithms of `2 * v + 1` to base three. So a search from the first vertex comes to a vertex over
one predecessor, and counts one path.

## Main results

* `addChild_grown`, `branch_grown`, `foldl_branch_grown`, `growLevels_grown`: the state after a
  child, the children of a vertex, a level, and all levels.
* `treeBuilder_eq`: the rows of the builder.
* `treeBuilder_fills`: the loop, the graph and the search.
-/

namespace Betweenness

namespace Workload

variable {kind : Kind} {n first next parent : ℕ}

/-! ### The rows of a tree -/

/-- The rows of a tree with `n` vertices, each of them but the first joined to the vertex of which
it is a child. -/
def treeRows (n : ℕ) : List (ℕ × ℕ) := (List.range' 1 (n - 1)).map fun v => ((v - 1) / 3, v)

/-- Another vertex has a row of its own. -/
theorem treeRows_succ (h : 1 ≤ next) :
    treeRows (next + 1) = treeRows next ++ [((next - 1) / 3, next)] := by
  obtain ⟨k, rfl⟩ := Nat.exists_eq_add_of_le' h
  rw [treeRows, treeRows, Nat.add_sub_cancel, Nat.add_sub_cancel, List.range'_concat,
    List.map_append, List.map_singleton, Nat.one_mul, Nat.add_comm 1 k, Nat.add_sub_cancel]

theorem mem_treeRows_iff {row : ℕ × ℕ} :
    row ∈ treeRows n ↔ 1 ≤ row.2 ∧ row.2 < n ∧ row.1 = (row.2 - 1) / 3 := by
  obtain ⟨u, v⟩ := row
  simp only [treeRows, List.mem_map, List.mem_range'_1, Prod.mk.injEq]
  constructor
  · rintro ⟨v, hv, rfl, rfl⟩
    exact ⟨hv.1, by omega, rfl⟩
  · rintro ⟨hv, hlt, rfl⟩
    exact ⟨v, ⟨hv, by omega⟩, rfl, rfl⟩

@[simp] theorem length_treeRows : (treeRows n).length = n - 1 := by
  rw [treeRows, List.length_map, List.length_range']

/-! ### The state of a tree that grows -/

/-- The tree with the vertices before `next`, of which those from `first` on are the level. -/
def grown (kind : Kind) (n first next : ℕ) : Branching where
  builder := { dense kind n with rows := (treeRows next).toArray }
  next := next
  level := (List.range' first (next - first)).toArray

/-- **Step lemma**: the next vertex becomes a child of the vertex to which its row leads. -/
theorem addChild_grown (hfirst : first ≤ next) (hnext : 1 ≤ next)
    (hparent : (next - 1) / 3 = parent) :
    (grown kind n first next).addChild parent = grown kind n first (next + 1) := by
  have hlevel : List.range' first (next + 1 - first) =
      List.range' first (next - first) ++ [next] := by
    rw [Nat.sub_add_comm hfirst, List.range'_concat, Nat.one_mul, Nat.add_sub_cancel' hfirst]
  rw [grown, grown, Branching.addChild, hlevel, treeRows_succ hnext, hparent, Builder.addEdge,
    List.push_toArray, List.push_toArray]

/-- **Run lemma**: a vertex whose first child is the next vertex gets its children. -/
theorem branch_grown (hfirst : first ≤ next) (hpos : 1 ≤ next)
    (hnext : next = min n (3 * parent + 1)) :
    (grown kind n first next).branch n parent =
      grown kind n first (min n (3 * (parent + 1) + 1)) := by
  suffices hrun : ∀ k ≤ min 3 (n - next), k.fold (fun _ _ t => t.addChild parent)
      (grown kind n first next) = grown kind n first (next + k) by
    have htotal : next + min 3 (n - next) = min n (3 * (parent + 1) + 1) := by omega
    rw [← htotal, Branching.branch]
    exact hrun _ (Nat.le_refl _)
  intro k hk
  induction k with
  | zero => rfl
  | succ k ih =>
      rw [Nat.fold_succ, ih (by omega)]
      exact addChild_grown (by omega) (by omega) (by omega)

/-- **Run lemma**: so do the vertices of a level, one after another. -/
theorem foldl_branch_grown {start k : ℕ} (hfirst : first ≤ min n (3 * start + 1)) (hn : 1 ≤ n) :
    (List.range' start k).foldl (Branching.branch n)
        (grown kind n first (min n (3 * start + 1))) =
      grown kind n first (min n (3 * (start + k) + 1)) := by
  induction k with
  | zero => rfl
  | succ k ih =>
      rw [List.range'_concat, List.foldl_append, ih, Nat.one_mul, List.foldl_cons, List.foldl_nil]
      exact branch_grown (by omega) (by omega) rfl

/-- **Run lemma**: one level grows after another, until there are enough vertices. Every level that
is not the last one has a vertex, and gets a child. -/
theorem growLevels_grown (hn : 1 ≤ n) (hnext : next = min n (3 * first + 1)) {budget : ℕ}
    (hbudget : n ≤ next + budget) :
    ∃ last, growLevels n budget (grown kind n first next) = grown kind n last n := by
  induction budget generalizing first next with
  | zero =>
      obtain rfl : next = n := by omega
      exact ⟨first, rfl⟩
  | succ budget ih =>
      rw [growLevels]
      split
      · rename_i hgoes
        have hlt : next < n := hgoes.1
        have hlevel : (grown kind n first next).level.foldl (Branching.branch n)
            { grown kind n first next with level := #[] } =
            grown kind n next (min n (3 * next + 1)) := by
          have hstart : { grown kind n first next with level := #[] } =
              grown kind n next (min n (3 * first + 1)) := by
            rw [← hnext, grown, grown, Nat.sub_self]
            rfl
          have hrange : first + (next - first) = next := by omega
          rw [hstart, ← Array.foldl_toList]
          refine (foldl_branch_grown (by omega) hn).trans ?_
          rw [hrange]
        rw [hlevel]
        exact ih rfl (by omega)
      · rename_i hends
        obtain rfl : next = n := by
          by_contra hne
          have hlt : next < n := by omega
          refine hends ⟨hlt, ?_⟩
          have hsize : 0 < (grown kind n first next).level.size := by
            rw [grown, List.size_toArray, List.length_range']
            omega
          simpa [Array.isEmpty] using Nat.ne_of_gt hsize
        exact ⟨first, rfl⟩

/-- A tree of one vertex, from which the others grow. -/
def sapling (n : ℕ) (kind : Kind) : Branching :=
  { builder := dense kind n, next := 1, level := #[0] }

theorem exists_growLevels_sapling (kind : Kind) (hn : 1 ≤ n) {budget : ℕ} (hbudget : n ≤ budget) :
    ∃ last, growLevels n budget (sapling n kind) = grown kind n last n := by
  have hsapling : sapling n kind = grown kind n 0 1 := rfl
  rw [hsapling]
  exact growLevels_grown hn (by omega) (by omega)

/-- The builder of a tree. -/
theorem treeBuilder_eq (kind : Kind) (hn : 1 ≤ n) :
    treeBuilder n kind = { dense kind n with rows := (treeRows n).toArray } := by
  obtain ⟨last, h⟩ := exists_growLevels_sapling kind hn (Nat.le_refl n)
  exact congrArg Branching.builder h

theorem spans_treeBuilder (kind : Kind) (hn : 1 ≤ n) : Spans kind n n (treeBuilder n kind) := by
  rw [treeBuilder_eq kind hn]
  refine ⟨rfl, fun row hrow => ?_, ?_⟩
  · obtain ⟨hpos, hlt, hparent⟩ := mem_treeRows_iff.mp hrow
    omega
  · simp

/-! ### The graph of a tree -/

/-- Parents are one level up. -/
theorem log_parent_add_one {v : ℕ} (hv : 1 ≤ v) :
    Nat.log 3 (2 * ((v - 1) / 3) + 1) + 1 = Nat.log 3 (2 * v + 1) := by
  -- Powers of three are odd, so that none is left out in between.
  have hodd : ∀ k, 3 ^ k % 2 = 1 := fun k => by rw [Nat.pow_mod]; simp
  refine eq_of_forall_le_iff fun k => ?_
  cases k with
  | zero => simp
  | succ k =>
      rw [Nat.succ_le_succ_iff, Nat.le_log_iff_pow_le (by decide) (by omega),
        Nat.le_log_iff_pow_le (by decide) (by omega), Nat.pow_succ]
      have hk := hodd k
      omega

end Workload

/-- A graph is the ternary tree with `n` vertices that is filled level by level. -/
structure Graph.IsTernaryTree (n : ℕ) (g : Graph) : Prop where
  nodeCount_eq : g.nodeCount = n
  edgeCount_eq : g.edgeCount = n - 1
  /-- The vertices have themselves as ids. -/
  idOf_eq : ∀ v < n, g.idOf? v = some v
  /-- The edges, in their order. -/
  edges_eq : g.edges.toList = (List.range' 1 (n - 1)).map fun v => ((v - 1) / 3, v)
  /-- Their ids, as a table of edges lists them. -/
  edgeIds_eq : g.edgeIds = (List.range' 1 (n - 1)).map fun v => ((v - 1) / 3, v)

namespace Graph.IsTernaryTree

variable {g : Graph} {n u v w e : ℕ} (h : g.IsTernaryTree n)

include h

theorem mem_edges_iff : (∃ e, g.endpoints? e = some (u, v)) ↔ 1 ≤ v ∧ v < n ∧ u = (v - 1) / 3 := by
  have hmem : (∃ e, g.endpoints? e = some (u, v)) ↔ (u, v) ∈ g.edges.toList := by
    rw [List.mem_iff_getElem?]
    exact exists_congr fun e => by rw [endpoints?, Array.getElem?_toList]
  rw [hmem, h.edges_eq]
  exact Workload.mem_treeRows_iff

/-- A vertex is linked to the one of which it is a child. -/
theorem linked_parent (hpos : 1 ≤ v) (hv : v < n) : g.Linked ((v - 1) / 3) v := by
  obtain ⟨e, he⟩ := h.mem_edges_iff.mpr ⟨hpos, hv, rfl⟩
  exact ⟨e, .inl he⟩

/-- Of two vertices with a link one is a child of the other. -/
theorem parent_or_child (hlink : g.Linked u v) :
    1 ≤ v ∧ u = (v - 1) / 3 ∨ 1 ≤ u ∧ v = (u - 1) / 3 := by
  obtain ⟨e, he | ⟨-, he⟩⟩ := hlink
  · obtain ⟨hpos, -, hparent⟩ := h.mem_edges_iff.mp ⟨e, he⟩
    exact .inl ⟨hpos, hparent⟩
  · obtain ⟨hpos, -, hparent⟩ := h.mem_edges_iff.mp ⟨e, he⟩
    exact .inr ⟨hpos, hparent⟩

/-- A walk comes down one level at most with each step. -/
theorem log_le_of_walk {p : List ℕ} (hp : g.Walk u p v) :
    Nat.log 3 (2 * v + 1) ≤ Nat.log 3 (2 * u + 1) + p.length := by
  induction hp with
  | nil v => exact Nat.le_add_right _ _
  | @cons u x v p hlink _ ih =>
      have hstep : Nat.log 3 (2 * x + 1) ≤ Nat.log 3 (2 * u + 1) + 1 := by
        rcases h.parent_or_child hlink with ⟨hpos, rfl⟩ | ⟨hpos, rfl⟩
        · exact Nat.le_of_eq (Workload.log_parent_add_one hpos).symm
        · have heq := Workload.log_parent_add_one hpos
          omega
      rw [List.length_cons]
      omega

/-- From the first vertex a walk leads down to every vertex, one level with each step. -/
theorem exists_walk (hv : v < n) : ∃ p, g.Walk 0 p v ∧ p.length = Nat.log 3 (2 * v + 1) := by
  induction v using Nat.strong_induction_on with
  | _ v ih =>
      rcases Nat.eq_zero_or_pos v with rfl | hpos
      · exact ⟨[], .nil 0, by simp⟩
      · obtain ⟨p, hp, hlength⟩ := ih ((v - 1) / 3) (by omega) (by omega)
        refine ⟨p ++ [v], hp.snoc (h.linked_parent hpos hv), ?_⟩
        rw [List.length_append, List.length_singleton, hlength, Workload.log_parent_add_one hpos]

/-- The level of a vertex is its distance from the first one. -/
theorem atDistance_log (hv : v < n) : g.AtDistance 0 (Nat.log 3 (2 * v + 1)) v := by
  obtain ⟨p, hp, hlength⟩ := h.exists_walk hv
  refine .of_walk hp hlength fun q hq => ?_
  simpa using h.log_le_of_walk hq

/-- The only step that leads away from the first vertex to another one is that from its parent. -/
theorem eq_parent_of_atDistance {d : ℕ} (hu : g.AtDistance 0 d u) (hw : g.AtDistance 0 (d + 1) w)
    (hlink : g.Linked u w) (hult : u < n) (hwlt : w < n) : u = (w - 1) / 3 := by
  rcases h.parent_or_child hlink with ⟨-, hparent⟩ | ⟨hpos, rfl⟩
  · exact hparent
  · have hup := Workload.log_parent_add_one hpos
    have hd := hu.unique (h.atDistance_log hult)
    have hd' := hw.unique (h.atDistance_log hwlt)
    omega

end Graph.IsTernaryTree

namespace ShortestPaths.Completed

variable {α : Type} [Scalar α] {g : Graph} {levels : List (List ℕ)} {s : ShortestPaths α}
  {n v : ℕ} (hg : g.Consistent) (h : Completed g 0 levels s) (htree : g.IsTernaryTree n)

include hg h htree

/-- A vertex of a tree is reached from its parent only. -/
theorem map_vertex_predecessorsOf (hpos : 1 ≤ v) (hv : v < n) :
    (s.predecessorsOf v).toList.map Predecessor.vertex = [(v - 1) / 3] := by
  refine List.perm_singleton.mp ((List.perm_ext_iff_of_nodup
    (h.nodup_predecessor_vertices hg) (List.nodup_singleton _)).mpr fun u => ?_)
  simp only [List.mem_map, Array.mem_toList_iff, List.mem_singleton]
  constructor
  · rintro ⟨p, hp, rfl⟩
    obtain ⟨d, hd, hd', hjoins⟩ := h.mem_predecessors_iff.mp hp
    have hlt : p.vertex < n := htree.nodeCount_eq ▸ (hg.lt_of_joins hjoins).1
    exact htree.eq_parent_of_atDistance hd hd' ⟨p.edge, hjoins⟩ hlt hv
  · rintro rfl
    obtain ⟨e, he⟩ := htree.linked_parent hpos hv
    have hdistance := htree.atDistance_log hv
    rw [← Workload.log_parent_add_one hpos] at hdistance
    have hparent : (v - 1) / 3 < n := by omega
    exact ⟨⟨_, e⟩, h.mem_predecessors_iff.mpr ⟨_, htree.atDistance_log hparent, hdistance, he⟩,
      rfl⟩

/-- One path is counted to every vertex, whatever the arithmetic, as long as one added to zero
is one. -/
theorem countOf_eq_one (hone : (0 + 1 : α) = 1) (hv : v < n) : s.countOf v = 1 := by
  induction v using Nat.strong_induction_on with
  | _ v ih =>
      rcases Nat.eq_zero_or_pos v with rfl | hpos
      · exact h.countOf_source
      · have hsum := h.countOf_eq v (Nat.ne_of_gt hpos)
        rw [← List.foldl_map (f := Predecessor.vertex) (g := fun count u => count + s.countOf u),
          h.map_vertex_predecessorsOf hg htree hpos hv, List.foldl_cons, List.foldl_nil,
          ih ((v - 1) / 3) (by omega) (by omega)] at hsum
        exact hsum.trans hone

end ShortestPaths.Completed

/-- One shortest path leads to every vertex, as a search in the naturals counts. -/
theorem Graph.IsTernaryTree.pathCount_eq_one {g : Graph} {n v : ℕ} (h : g.IsTernaryTree n)
    (hg : g.Consistent) (hv : v < n) : g.pathCount 0 v = 1 := by
  have hs : 0 < g.nodeCount := h.nodeCount_eq.symm ▸ Nat.zero_lt_of_lt hv
  obtain ⟨levels, hsearch⟩ :=
    ShortestPaths.search_completed hg hs (ShortestPaths.reusable_blank (α := ℕ) g.nodeCount)
  exact (hsearch.countOf_eq_pathCount hg v).symm.trans (hsearch.countOf_eq_one hg h rfl hv)

namespace Workload

variable {kind : Kind} {n : ℕ} {g : Graph}

/-- The rows of a tree repeat none. -/
theorem distinctRows_treeRows : distinctRows kind.edgeKey ∅ (treeRows n) = treeRows n := by
  refine distinctRows_eq_self (List.pairwise_map.mpr ?_)
  refine List.Pairwise.imp (fun {v w} hlt hkey => ?_) List.pairwise_lt_range'
  rcases Kind.edgeKey_eq_iff.mp hkey with heq | ⟨-, heq⟩
  · exact Nat.ne_of_lt hlt (Prod.mk.inj heq).2
  · have hparent : (v - 1) / 3 = w := (Prod.mk.inj heq).1
    omega

/-- The graph of a tree. -/
theorem isTernaryTree_of_build (hn : 1 ≤ n) (hb : (treeBuilder n kind).build = .ok g) :
    g.IsTernaryTree n := by
  have hspans := spans_treeBuilder kind hn
  have hrows : (treeBuilder n kind).rows.toList = treeRows n := by rw [treeBuilder_eq kind hn]
  have hkind : (treeBuilder n kind).kind = kind := by rw [treeBuilder_eq kind hn]; rfl
  have hedges : g.edges.toList = treeRows n := by
    rw [hspans.eq_ofRows hb, hrows]
    exact distinctRows_treeRows
  refine
    { nodeCount_eq := hspans.nodeCount_eq hb
      edgeCount_eq := ?_
      idOf_eq := fun v _ => hspans.idOf_eq hb v
      edges_eq := hedges
      edgeIds_eq := ?_ }
  · rw [Graph.edgeCount, ← Array.length_toList, hedges, length_treeRows]
  · rw [Builder.edgeIds_eq hb, hkind, hrows]
    exact distinctRows_treeRows

/-- A search of a tree from its first vertex: all vertices are reached, each along one path. -/
theorem search_isTernaryTree {α : Type} [Scalar α] {s : ShortestPaths α} (hn : 1 ≤ n)
    (hb : (treeBuilder n kind).build = .ok g) (hone : (0 + 1 : α) = 1)
    (hused : ShortestPaths.Used α n s) : (s.search g 0).reached = n ∧
      ∀ v < n, (s.search g 0).distanceOf v = some (Nat.log 3 (2 * v + 1)) ∧
        (s.search g 0).countOf v = 1 := by
  have hg := Builder.build_consistent hb
  have htree := isTernaryTree_of_build hn hb
  have hs : 0 < g.nodeCount := htree.nodeCount_eq.symm ▸ hn
  obtain ⟨levels, h⟩ := ShortestPaths.search_completed hg hs (htree.nodeCount_eq ▸ hused).reusable
  refine ⟨?_, fun v hv => ⟨h.distanceOf_iff.mpr (htree.atDistance_log hv),
    h.countOf_eq_one hg htree hone hv⟩⟩
  rw [← htree.nodeCount_eq]
  exact (h.describes hg hs).reached_eq_nodeCount hg hs fun v hv =>
    (htree.atDistance_log (htree.nodeCount_eq ▸ hv)).reaches

/-- However many rounds the loop of a tree may have, `n` of them are enough: it ends with `n`
vertices, and so by itself. The graph of the tree is the ternary tree that is filled level by level:
one shortest path leads from its first vertex to any other. A search from there reaches every vertex
at its level, and counts one path, whatever the space has been used for and in any arithmetic in
which one added to zero is one. -/
theorem treeBuilder_fills (hn : 1 ≤ n) (hfits : (dense kind n).checkMemory n = .ok ()) :
    (∀ budget ≥ n, (growLevels n budget (sapling n kind)).next = n ∧
      (growLevels n budget (sapling n kind)).builder = treeBuilder n kind) ∧
    ∃ b g, tree.generate n kind = some b ∧ b.build = .ok g ∧ g.kind = kind ∧ g.IsTernaryTree n ∧
      (∀ v < n, g.pathCount 0 v = 1) ∧
      ∀ (α : Type) [Scalar α] (s : ShortestPaths α), (0 + 1 : α) = 1 → ShortestPaths.Used α n s →
        (s.search g 0).reached = n ∧
        ∀ v < n, (s.search g 0).distanceOf v = some (Nat.log 3 (2 * v + 1)) ∧
          (s.search g 0).countOf v = 1 := by
  have hspans := spans_treeBuilder kind hn
  have hrows : n ≤ maxIndex := by
    have hroom := mul_ten_le_of_checkMemory_dense hfits
    omega
  obtain ⟨g, hb, -⟩ := hspans.exists_build hrows hfits
  have htree := isTernaryTree_of_build hn hb
  refine ⟨fun budget hbudget => ?loop, treeBuilder n kind, g, rfl, hb, hspans.kind_eq hb, htree,
    fun v hv => ?paths, fun α _ s hone hused => search_isTernaryTree hn hb hone hused⟩
  case paths => exact htree.pathCount_eq_one (Builder.build_consistent hb) hv
  obtain ⟨last, h⟩ := exists_growLevels_sapling kind hn hbudget
  rw [h, treeBuilder_eq kind hn]
  exact ⟨rfl, rfl⟩

/-- A tree of fourteen vertices, the last level of which is cut short, and a search of it in double
precision. -/
theorem treeBuilder_fills_fourteen : 1 ≤ 14 ∧ (dense .undirected 14).checkMemory 14 = .ok () ∧
    ∃ b g, tree.generate 14 .undirected = some b ∧ b.build = .ok g ∧
      g.edgeIds = [(0, 1), (0, 2), (0, 3), (1, 4), (1, 5), (1, 6), (2, 7), (2, 8), (2, 9), (3, 10),
        (3, 11), (3, 12), (4, 13)] ∧
      ∀ v < 14, ((ShortestPaths.blank Float 14).search g 0).countOf v = 1 := by
  have hfits : (dense .undirected 14).checkMemory 14 = .ok () := by decide
  obtain ⟨-, b, g, hgenerate, hb, -, htree, -, hsearch⟩ := treeBuilder_fills (by decide) hfits
  have hone : (0 + 1 : Float) = 1 := by decide
  exact ⟨by decide, hfits, b, g, hgenerate, hb, htree.edgeIds_eq,
    fun v hv => ((hsearch Float _ hone .blank).2 v hv).2⟩

end Workload

end Betweenness
