import Betweenness.Proofs.Graph.Building
import Betweenness.Workload

/-!
# Builders of synthetic graphs

A generator declares the vertices `0, …, n - 1`, which are indices of their own, and adds edges
between them. `Spans kind n m b` says that this is all that it has done so far, and that it has
added `m` edges at the most, each from one vertex to another. The graph of such a builder has `n`
vertices if the headers for them fit the limit.

## Main results

* `Spans.addEdge`: the step lemma.
* `Spans.exists_build`: a graph is built, and it has the vertices that were declared.
* `Spans.eq_ofRows`: it is the graph of the rows, as every vertex is its own index.
-/

namespace Betweenness

namespace Builder

variable {b : Builder} {source target : ℕ}

theorem mem_rows_addEdge {row : ℕ × ℕ} : row ∈ (b.addEdge source target).rows.toList ↔
    row ∈ b.rows.toList ∨ row = (source, target) := by
  rw [addEdge, Array.toList_push, List.mem_append, List.mem_singleton]

theorem size_rows_addEdge : (b.addEdge source target).rows.size = b.rows.size + 1 :=
  Array.size_push _

end Builder

namespace Workload

variable {kind : Kind} {n m a c : ℕ} {b : Builder}

/-- A builder has the vertices `0, …, n - 1`, and edges between them, `m` at the most. -/
structure Spans (kind : Kind) (n m : ℕ) (b : Builder) : Prop where
  /-- Only rows have been added. -/
  eq_dense : b = { dense kind n with rows := b.rows }
  /-- A row leads from one vertex to another. -/
  row_lt : ∀ row ∈ b.rows.toList, row.1 < n ∧ row.2 < n ∧ row.1 ≠ row.2
  size_rows_le : b.rows.size ≤ m

theorem spans_dense (kind : Kind) (n : ℕ) : Spans kind n 0 (dense kind n) :=
  ⟨rfl, fun _ h => (nomatch h), Nat.le_refl 0⟩

namespace Spans

theorem mono {m' : ℕ} (h : Spans kind n m b) (hm : m ≤ m') : Spans kind n m' b :=
  ⟨h.eq_dense, h.row_lt, Nat.le_trans h.size_rows_le hm⟩

/-- **Step lemma**: an edge is added between two vertices. -/
theorem addEdge (h : Spans kind n m b) (ha : a < n) (hc : c < n) (hac : a ≠ c) :
    Spans kind n (m + 1) (b.addEdge a c) := by
  refine ⟨?_, fun row hrow => ?_, ?_⟩
  · rw [Builder.addEdge, h.eq_dense]
  · rcases Builder.mem_rows_addEdge.mp hrow with hrow | rfl
    · exact h.row_lt row hrow
    · exact ⟨ha, hc, hac⟩
  · rw [Builder.size_rows_addEdge]
    exact Nat.succ_le_succ h.size_rows_le

/-- The vertices that are mentioned are those that were declared. -/
theorem mem_mentioned_iff (h : Spans kind n m b) {id : ℕ} : id ∈ b.mentioned ↔ id < n := by
  have hdeclared : id ∈ b.vertices.toList ↔ id < n := by
    rw [h.eq_dense]
    simp [dense]
  rw [Builder.mentioned, List.mem_append, hdeclared]
  refine or_iff_left_of_imp fun hid => ?_
  obtain ⟨row, hrow, hend⟩ := List.mem_flatMap.mp hid
  obtain ⟨hsource, htarget, -⟩ := h.row_lt row hrow
  rcases List.mem_pair.mp hend with rfl | rfl
  exacts [hsource, htarget]

theorem vertexTotal_eq (h : Spans kind n m b) : b.vertexTotal = n := by
  have hmode : b.renumber = false := by rw [h.eq_dense]; rfl
  rw [Builder.vertexTotal, hmode]
  refine Nat.le_antisymm (Finset.sup_le fun id hid => ?_) ?_
  · exact h.mem_mentioned_iff.mp (List.mem_toFinset.mp hid)
  · cases n with
    | zero => exact Nat.zero_le _
    | succ last =>
        have hlast : last ∈ b.mentioned.toFinset :=
          List.mem_toFinset.mpr (h.mem_mentioned_iff.mpr (Nat.lt_succ_self last))
        exact Finset.le_sup (f := (· + 1)) hlast

end Spans

/-- The headers for `n` vertices fit the limit of a generator if they take 4096 MiB at the most. -/
theorem checkMemory_dense_iff :
    (dense kind n).checkMemory n = .ok () ↔ n * (kind.sides * 24) ≤ 4096 * 1048576 := by
  have hlimit : (dense kind n).memoryLimit = 4096 := rfl
  have hkind : (dense kind n).kind = kind := rfl
  rw [Builder.checkMemory, hlimit, hkind, mebibytes]
  split
  · exact iff_of_false (by simp) (by omega)
  · exact iff_of_true rfl (by omega)

/-- So there are fewer vertices than indices, by far. -/
theorem le_of_checkMemory_dense (hfits : (dense kind n).checkMemory n = .ok ()) :
    n ≤ 178956970 := by
  have hsides : 1 ≤ kind.sides := by cases kind <;> decide
  have hle := checkMemory_dense_iff.mp hfits
  have hone : n * 24 ≤ n * (kind.sides * 24) :=
    Nat.mul_le_mul_left n (Nat.le_mul_of_pos_left 24 hsides)
  omega

/-- There are also enough edge numbers for ten edges of each vertex, and of one more. -/
theorem mul_ten_le_of_checkMemory_dense (hfits : (dense kind n).checkMemory n = .ok ()) :
    (n + 1) * 10 ≤ maxIndex := by
  have hle := le_of_checkMemory_dense hfits
  rw [maxIndex]
  omega

/-- A graph is built, and it has the vertices that were declared. -/
theorem Spans.exists_build (h : Spans kind n m b) (hm : m ≤ maxIndex)
    (hfits : (dense kind n).checkMemory n = .ok ()) :
    ∃ g, b.build = .ok g ∧ g.nodeCount = n := by
  have hmode : b.renumber = false := by rw [h.eq_dense]; rfl
  have hnodup : b.vertices.toList.Nodup := by
    rw [h.eq_dense]
    simpa [dense] using List.nodup_range
  obtain ⟨numbering, hnumbering, -⟩ :=
    (Builder.numbering_answers_of_identity hmode hnodup).exists_ok (by
      simp only [List.forall_mem_singleton]
      rintro e ⟨-, id, hid, -, hlarge, -⟩
      have hlt := h.mem_mentioned_iff.mp hid
      have hle := le_of_checkMemory_dense hfits
      omega)
  have hcount : numbering.vertexCount = n :=
    (Builder.vertexCount_eq hnumbering).trans h.vertexTotal_eq
  have hmemory : b.checkMemory numbering.vertexCount = .ok () := by
    rw [hcount, h.eq_dense]
    exact hfits
  obtain ⟨g, hb⟩ := Builder.exists_build_iff.mpr
    ⟨numbering, hnumbering, hmemory, Nat.le_trans h.size_rows_le hm⟩
  exact ⟨g, hb, (Builder.builds_of_build hb).nodeCount_eq.trans h.vertexTotal_eq⟩

namespace Spans

variable {g : Graph} {v w e : ℕ} {ends : ℕ × ℕ} (h : Spans kind n m b) (hb : b.build = .ok g)

include h hb

/-- Every vertex is its own index, so that the graph is that of the rows. -/
theorem eq_ofRows : g = .ofRows kind (.identity n) b.rows.toList := by
  have hkind : b.kind = kind := by rw [h.eq_dense]; rfl
  have hmode : b.renumber = false := by rw [h.eq_dense]; rfl
  obtain ⟨numbering, rows, hn, hrows, rfl⟩ := Builder.build_eq_ok hb
  have hsame : List.Forall₂ (· = ·) b.rows.toList rows := hrows.imp fun row ends hends => by
    have hsource := ((Builder.indexOf_iff_of_identity hmode hn).mp hends.1).1
    have htarget := ((Builder.indexOf_iff_of_identity hmode hn).mp hends.2).1
    exact Prod.ext hsource.symm htarget.symm
  have hnumbering : numbering = .identity n := by
    have hcount := (Builder.vertexCount_eq hn).trans h.vertexTotal_eq
    rw [Builder.numbering, if_neg (by simp [hmode])] at hn
    obtain ⟨count, -, rfl⟩ := map_eq_ok_iff.mp hn
    exact congrArg Numbering.identity hcount
  rw [List.forall₂_eq_eq_eq] at hsame
  rw [hkind, hnumbering, hsame]

theorem nodeCount_eq : g.nodeCount = n := by
  rw [h.eq_ofRows hb, Graph.nodeCount_ofRows]
  rfl

theorem kind_eq : g.kind = kind := by
  rw [h.eq_ofRows hb]
  rfl

/-- Every vertex has itself as its id. -/
theorem idOf_eq (v : ℕ) : g.idOf? v = some v := by
  rw [h.eq_ofRows hb]
  rfl

/-- The ends of edges are rows. -/
theorem mem_rows (he : g.endpoints? e = some ends) : ends ∈ b.rows.toList := by
  rw [h.eq_ofRows hb] at he
  exact Graph.mem_of_endpoints?_ofRows he

/-- A link is a row, in either direction where edges have none. -/
theorem linked_iff : g.Linked v w ↔ b.Loads v w := by
  have hmode : b.renumber = false := by rw [h.eq_dense]; rfl
  have hcount := h.nodeCount_eq hb
  rw [← (Builder.build_consistent hb).vertexCount_eq] at hcount
  have hindex : ∀ {id}, id < n → g.numbering.indexOf id = .ok id := fun hid =>
    (Builder.indexOf_iff_of_identity hmode (Builder.numbering_of_build hb).1).mpr
      ⟨rfl, hid.trans_eq hcount.symm⟩
  have hlt : ∀ {a c}, a < n → c < n → (g.Linked a c ↔ b.Loads a c) := fun ha hc =>
    Builder.linked_iff hb (hindex ha) (hindex hc)
  constructor
  · intro hlinked
    obtain ⟨hv, hw⟩ := (Builder.build_consistent hb).lt_of_linked hlinked
    rw [h.nodeCount_eq hb] at hv hw
    exact (hlt hv hw).mp hlinked
  · intro hloads
    obtain ⟨hv, hw⟩ := hloads.mentioned
    exact (hlt (h.mem_mentioned_iff.mp hv) (h.mem_mentioned_iff.mp hw)).mpr hloads

end Spans

end Workload

end Betweenness
