import Betweenness.Proofs.Workload.Chance
import Betweenness.Proofs.Workload.Spans
import Betweenness.Workload
import Mathlib.Algebra.Order.BigOperators.Group.List
import Mathlib.Algebra.Order.Monoid.NatCast

/-!
# Graphs that grow, edge by edge

What is joined to a new vertex is drawn from vertices that were there before: from the ends of edges
or, in a cluster, from its surface. Neither list is ever empty, so that there is something to draw
from. The first end that is drawn for a vertex is another one, as no edge has the new vertex yet; so
the vertex gets an edge to an earlier one, whatever is drawn after that.

What one step can do is said once for each generator (`Attachment.always_attach`,
`Cluster.always_settle`), and everything else is derived from that.

## Main results

* `scaleFreeBuilder_eq`, `always_attachments`: a scale-free graph draw by draw, with the ends of its
  edges at hand.
* `always_scaleFreeBuilder`, `always_aggregationBuilder`: the builders that come about have the
  vertices that are asked for, and edges between them.
* `always_scaleFreeBuilder_joinsEarlier`, `always_aggregationBuilder`: every vertex but the first is
  joined to an earlier one.
-/

namespace Betweenness

/-- A row joins a vertex to an earlier one, in either direction. -/
def Builder.JoinsEarlier (b : Builder) (v : ℕ) : Prop :=
  ∃ u < v, (u, v) ∈ b.rows.toList ∨ (v, u) ∈ b.rows.toList

namespace Builder

variable {b : Builder} {u v source target : ℕ}

/-- Further edges change nothing of it. -/
theorem JoinsEarlier.addEdge (h : b.JoinsEarlier v) (source target : ℕ) :
    (b.addEdge source target).JoinsEarlier v := by
  obtain ⟨u, hu, hrow⟩ := h
  exact ⟨u, hu, hrow.imp (mem_rows_addEdge.mpr <| .inl ·) (mem_rows_addEdge.mpr <| .inl ·)⟩

theorem joinsEarlier_addEdge (h : u < v) : (b.addEdge v u).JoinsEarlier v :=
  ⟨u, h, .inr (mem_rows_addEdge.mpr (.inr rfl))⟩

end Builder

namespace Workload

open Chance

variable {σ : Type} [WordSupply σ] {kind : Kind} {n m vertex : ℕ}

/-! ### Preferential attachment -/

namespace Attachment

variable {a : Attachment}

/-- What an attempt to attach a vertex can do: it draws the end of an edge and adds an edge to it,
unless it is the vertex itself. -/
theorem always_attach (h : 0 < a.ends.size) :
    Always (fun a' => ∃ target ∈ a.ends,
        a' = if target = vertex then a else a.addEdge vertex target)
      (a.attach vertex : Chance σ Attachment) :=
  (always_pick h).bind fun target htarget => .pure ⟨target, htarget, rfl⟩

theorem mem_ends_addEdge {source target v : ℕ} :
    v ∈ (a.addEdge source target).ends ↔ v ∈ a.ends ∨ v = source ∨ v = target := by
  rw [addEdge, Array.mem_push, Array.mem_push, or_assoc]

/-- A graph together with the ends of its edges, of which there are some. -/
structure Grows (kind : Kind) (n m : ℕ) (a : Attachment) : Prop where
  spans : Spans kind n m a.builder
  ends_eq : a.ends.toList = a.builder.rowIds
  size_ends_pos : 0 < a.ends.size

/-- The ends stay those of the edges. -/
theorem ends_addEdge (h : a.ends.toList = a.builder.rowIds) (source target : ℕ) :
    (a.addEdge source target).ends.toList = (a.addEdge source target).builder.rowIds := by
  simp [addEdge, Builder.addEdge, Builder.rowIds, h]

theorem size_ends_addEdge (source target : ℕ) :
    (a.addEdge source target).ends.size = a.ends.size + 2 := by
  rw [addEdge, Array.size_push, Array.size_push]

theorem size_ends_addEdge_pos (source target : ℕ) : 0 < (a.addEdge source target).ends.size := by
  rw [size_ends_addEdge]
  exact Nat.succ_pos _

theorem Grows.mem_ends_lt (h : a.Grows kind n m) {v : ℕ} (hv : v ∈ a.ends) : v < n := by
  have hmem : v ∈ a.builder.rowIds := h.ends_eq ▸ Array.mem_toList_iff.mpr hv
  exact h.spans.mem_mentioned_iff.mp (List.mem_append_right _ hmem)

/-- **Step lemma**: a vertex is joined to the end of an edge. -/
theorem Grows.attach (h : a.Grows kind n m) (hvertex : vertex < n) :
    Always (Grows kind n (m + 1)) (a.attach vertex : Chance σ Attachment) := by
  refine (always_attach h.size_ends_pos).mono ?_
  rintro a' ⟨target, htarget, rfl⟩
  split
  · exact ⟨h.spans.mono (Nat.le_succ m), h.ends_eq, h.size_ends_pos⟩
  · rename_i hne
    exact ⟨h.spans.addEdge hvertex (h.mem_ends_lt htarget) (Ne.symm hne),
      ends_addEdge h.ends_eq _ _, size_ends_addEdge_pos _ _⟩

/-- All edges are between vertices before `next`, each of which is joined to an earlier one. -/
structure Follows (next : ℕ) (a : Attachment) : Prop where
  size_ends_pos : 0 < a.ends.size
  ends_lt : ∀ v ∈ a.ends, v < next
  joinsEarlier : ∀ v, 0 < v → v < next → a.builder.JoinsEarlier v

/-- An edge from the next vertex to an earlier one. -/
theorem Follows.addEdge (h : a.Follows vertex) {target : ℕ} (htarget : target < vertex) :
    (a.addEdge vertex target).Follows (vertex + 1) := by
  refine ⟨size_ends_addEdge_pos _ _, fun v hv => ?_, fun v hpos hv => ?_⟩
  · rcases mem_ends_addEdge.mp hv with hv | rfl | rfl
    · exact Nat.lt_succ_of_lt (h.ends_lt v hv)
    · exact Nat.lt_succ_self _
    · exact Nat.lt_succ_of_lt htarget
  · rcases Nat.lt_succ_iff_lt_or_eq.mp hv with hv | rfl
    · exact (h.joinsEarlier v hpos hv).addEdge _ _
    · exact Builder.joinsEarlier_addEdge htarget

/-- **Step lemma**: the first attempt to attach a vertex joins it to an earlier one, as it is not
the end of an edge itself. -/
theorem Follows.attach_first (h : a.Follows vertex) :
    Always (Follows (vertex + 1)) (a.attach vertex : Chance σ Attachment) := by
  refine (always_attach h.size_ends_pos).mono ?_
  rintro a' ⟨target, htarget, rfl⟩
  have hlt := h.ends_lt target htarget
  rw [if_neg (Nat.ne_of_lt hlt)]
  exact h.addEdge hlt

/-- **Step lemma**: so it remains after further attempts. -/
theorem Follows.attach (h : a.Follows (vertex + 1)) :
    Always (Follows (vertex + 1)) (a.attach vertex : Chance σ Attachment) := by
  refine (always_attach h.size_ends_pos).mono ?_
  rintro a' ⟨target, htarget, rfl⟩
  split
  · exact h
  · refine ⟨size_ends_addEdge_pos _ _, fun v hv => ?_,
      fun v hpos hv => (h.joinsEarlier v hpos hv).addEdge _ _⟩
    rcases mem_ends_addEdge.mp hv with hv | rfl | rfl
    exacts [h.ends_lt v hv, Nat.lt_succ_self _, h.ends_lt _ htarget]

/-- **Run lemma**: a vertex is attached by at least one attempt. -/
theorem Follows.attach_repeatedly (h : a.Follows vertex) {attempts : ℕ} (hpos : 0 < attempts) :
    Always (Follows (vertex + 1))
      ((List.range attempts).foldlM (fun a _ => a.attach vertex) a : Chance σ Attachment) := by
  -- Before the first attempt the vertex has no edges, after it one to an earlier vertex.
  have hrun := Always.foldlM (l := List.range attempts)
    (I := fun i => Follows (if i = 0 then vertex else vertex + 1))
    (f := fun (a : Attachment) _ => (a.attach vertex : Chance σ Attachment)) h fun i _ a _ ha => ?_
  · rwa [List.length_range, if_neg (Nat.ne_of_gt hpos)] at hrun
  · rw [if_neg (Nat.succ_ne_zero i)]
    cases i with
    | zero => exact ha.attach_first
    | succ i => exact ha.attach

end Attachment

/-- The pairs of a clique are of different vertices, the smaller one first. -/
theorem mem_cliqueRows {row : ℕ × ℕ} (h : row ∈ cliqueRows n) : row.1 < row.2 ∧ row.2 < n := by
  obtain ⟨i, hi, hrow⟩ := List.mem_flatMap.mp h
  obtain ⟨j, hj, rfl⟩ := List.mem_map.mp hrow
  have hi := List.mem_range.mp hi
  have hj := List.mem_range'_1.mp hj
  omega

/-- **Run lemma**: edges are added. -/
theorem foldl_addEdge {rows : List (ℕ × ℕ)}
    (hrows : ∀ row ∈ rows, row.1 < n ∧ row.2 < n ∧ row.1 ≠ row.2) {a : Attachment}
    (hspans : Spans kind n m a.builder) (hends : a.ends.toList = a.builder.rowIds) :
    let a' := rows.foldl (fun a row => a.addEdge row.1 row.2) a
    Spans kind n (m + rows.length) a'.builder ∧ a'.ends.toList = a'.builder.rowIds ∧
      a'.ends.size = a.ends.size + 2 * rows.length := by
  induction rows generalizing m a with
  | nil => exact ⟨hspans, hends, rfl⟩
  | cons row rows ih =>
      obtain ⟨hsource, htarget, hne⟩ := hrows row List.mem_cons_self
      have hsize := Attachment.size_ends_addEdge (a := a) row.1 row.2
      obtain ⟨hspans', hends', hsize'⟩ := ih (fun r hr => hrows r (List.mem_cons_of_mem _ hr))
        (hspans.addEdge hsource htarget hne) (Attachment.ends_addEdge hends row.1 row.2)
      rw [List.length_cons]
      refine ⟨hspans'.mono (by omega), hends', hsize'.trans ?_⟩
      omega

/-- The graph starts from a clique. -/
theorem grows_seedClique (kind : Kind) (hn : 5 ≤ n) : (seedClique n kind).Grows kind n 10 := by
  have hrows : ∀ row ∈ cliqueRows 5, row.1 < n ∧ row.2 < n ∧ row.1 ≠ row.2 := by
    intro row hrow
    obtain ⟨hlt, hfive⟩ := mem_cliqueRows hrow
    omega
  obtain ⟨hspans, hends, hsize⟩ := foldl_addEdge hrows (a := ⟨dense kind n, #[]⟩)
    (spans_dense kind n) rfl
  have hlength : (cliqueRows 5).length = 10 := by decide
  rw [hlength] at hspans hsize
  exact ⟨hspans, hends, Nat.lt_of_lt_of_eq (Nat.succ_pos _) hsize.symm⟩

/-- In the clique every vertex is joined to the first one. -/
theorem follows_seedClique (kind : Kind) (hn : 5 ≤ n) : (seedClique n kind).Follows 5 := by
  have hstart := grows_seedClique kind hn
  have hrows : (seedClique n kind).builder.rows.toList = cliqueRows 5 := rfl
  refine ⟨hstart.size_ends_pos, fun v hv => ?_, fun v hpos hv => ?_⟩
  · rw [← Array.mem_toList_iff, hstart.ends_eq, Builder.rowIds, hrows] at hv
    obtain ⟨row, hrow, hend⟩ := List.mem_flatMap.mp hv
    obtain ⟨hlt, hfive⟩ := mem_cliqueRows hrow
    rcases List.mem_pair.mp hend with rfl | rfl
    exacts [Nat.lt_trans hlt hfive, hfive]
  · have hfirst : ∀ v < 5, 0 < v → (0, v) ∈ cliqueRows 5 := by decide
    exact ⟨0, hpos, .inl (hrows ▸ hfirst v hv hpos)⟩

/-- The vertices in the order in which they are to be joined to ends of edges, each as often as it
is tried. -/
def joiningOrder (n : ℕ) : List ℕ :=
  (List.range' 5 (n - 5)).flatMap fun v => (List.range (min 5 v)).map fun _ => v

/-- A scale-free graph after a number of draws. -/
def attachments (n : ℕ) (kind : Kind) (draws : ℕ) : Chance σ Attachment :=
  ((joiningOrder n).take draws).foldlM (fun a vertex => a.attach vertex) (seedClique n kind)

/-- The next draw is that for the next vertex in order. -/
theorem attachments_succ {draws : ℕ} (h : (joiningOrder n)[draws]? = some vertex) :
    (attachments n kind (draws + 1) : Chance σ Attachment) =
      attachments n kind draws >>= fun a => a.attach vertex := by
  rw [attachments, List.take_add_one, h, Option.toList_some, List.foldlM_append]
  simp [attachments]

/-- A scale-free graph is complete after all draws. -/
theorem scaleFreeBuilder_eq (n : ℕ) (kind : Kind) :
    (scaleFreeBuilder n kind : Chance σ Builder) = do
      let a ← attachments n kind (joiningOrder n).length
      return a.builder := by
  have hloops : ∀ (l : List ℕ) (a : Attachment),
      (l.flatMap fun v => (List.range (min 5 v)).map fun _ => v).foldlM
          (fun a vertex => (a.attach vertex : Chance σ Attachment)) a =
        l.foldlM (fun a vertex =>
          (List.range (min 5 vertex)).foldlM (fun a _ => a.attach vertex) a) a := by
    intro l
    induction l with
    | nil => exact fun a => rfl
    | cons v l ih =>
        intro a
        rw [List.flatMap_cons, List.foldlM_append, List.foldlM_cons, List.foldlM_map]
        exact bind_congr ih
  rw [scaleFreeBuilder, attachments, List.take_length, joiningOrder, hloops]

/-- A vertex is attached five times at the most. -/
theorem length_joiningOrder_le (n : ℕ) : (joiningOrder n).length ≤ (n - 5) * 5 := by
  rw [joiningOrder, List.length_flatMap]
  refine (List.sum_le_card_nsmul _ 5 fun k hk => ?_).trans_eq ?_
  · obtain ⟨v, -, rfl⟩ := List.mem_map.mp hk
    rw [List.length_map, List.length_range]
    exact Nat.min_le_left 5 v
  · rw [List.length_map, List.length_range', smul_eq_mul]

theorem lt_of_mem_joiningOrder (h : vertex ∈ joiningOrder n) : vertex < n := by
  obtain ⟨v, hv, hmem⟩ := List.mem_flatMap.mp h
  obtain ⟨-, -, rfl⟩ := List.mem_map.mp hmem
  have hv := List.mem_range'_1.mp hv
  omega

/-- **Run lemma**: the ends are those of the edges at every draw. -/
theorem always_attachments (kind : Kind) (hn : 5 ≤ n) (draws : ℕ) :
    Always (Attachment.Grows kind n (10 + min draws (joiningOrder n).length))
      (attachments n kind draws : Chance σ Attachment) := by
  have hrun := Always.foldlM (l := (joiningOrder n).take draws)
    (I := fun i => Attachment.Grows kind n (10 + i))
    (f := fun (a : Attachment) vertex => (a.attach vertex : Chance σ Attachment))
    (grows_seedClique kind hn) fun i vertex a hi ha =>
      ha.attach (lt_of_mem_joiningOrder (List.mem_of_mem_take (List.mem_of_getElem? hi)))
  rwa [List.length_take] at hrun

theorem always_scaleFreeBuilder (kind : Kind) (hn : 5 ≤ n) :
    Always (Spans kind n (10 + (n - 5) * 5)) (scaleFreeBuilder n kind : Chance σ Builder) := by
  rw [scaleFreeBuilder_eq]
  refine (always_attachments kind hn _).bind fun a ha => .pure (ha.spans.mono ?_)
  rw [Nat.min_self]
  exact Nat.add_le_add_left (length_joiningOrder_le n) 10

/-- **Run lemma**: every vertex of a scale-free graph but the first is joined to an earlier one. -/
theorem always_scaleFreeBuilder_joinsEarlier (kind : Kind) (hn : 5 ≤ n) :
    Always (fun b => ∀ v, 0 < v → v < n → b.JoinsEarlier v)
      (scaleFreeBuilder n kind : Chance σ Builder) := by
  have hrun := Always.foldlM (l := List.range' 5 (n - 5))
    (I := fun i => Attachment.Follows (5 + i))
    (f := fun a vertex => ((List.range (min 5 vertex)).foldlM (fun a _ => a.attach vertex) a :
      Chance σ Attachment))
    (follows_seedClique kind hn) fun i vertex a hi ha => ?_
  · rw [List.length_range', Nat.add_sub_cancel' hn] at hrun
    exact hrun.bind fun a ha => .pure ha.joinsEarlier
  · obtain ⟨hlt, heq⟩ := List.getElem?_eq_some_iff.mp hi
    rw [List.getElem_range', Nat.one_mul] at heq
    subst heq
    exact ha.attach_repeatedly (by omega)

/-! ### Aggregation -/

namespace Cluster

variable {c : Cluster}

/-- What a vertex that settles can do: it is joined to one of the surface and maybe to a further
one, and belongs to the surface from then on. -/
theorem always_settle (h : 0 < c.surface.size) (hpos : 0 < vertex) :
    Always (fun c' => ∃ place ∈ c.surface, ∃ b,
        (b = c.builder.addEdge vertex place ∨ ∃ other < vertex,
          b = (c.builder.addEdge vertex place).addEdge vertex other) ∧
        c' = { c with builder := b }.expose vertex)
      (c.settle vertex : Chance σ Cluster) := by
  refine (always_pick h).bind fun place hplace => ?_
  refine (always_below (by decide)).bind fun draw _ => ?_
  split
  · refine (always_below hpos).bind fun other hother => .pure ⟨place, hplace, ?_⟩
    split
    · exact ⟨_, .inl rfl, rfl⟩
    · exact ⟨_, .inr ⟨other, hother, rfl⟩, rfl⟩
  · exact .pure ⟨place, hplace, _, .inl rfl, rfl⟩

/-- A graph together with a surface, which is not empty and lies before the next vertex. Every
vertex before that is joined to an earlier one. -/
structure Grows (kind : Kind) (n m next : ℕ) (c : Cluster) : Prop where
  spans : Spans kind n m c.builder
  surface_lt : ∀ v ∈ c.surface.toList, v < next
  size_surface_pos : 0 < c.surface.size
  joinsEarlier : ∀ v, 0 < v → v < next → c.builder.JoinsEarlier v

/-- The vertex that has settled belongs to the surface. -/
theorem grows_expose (hspans : Spans kind n m c.builder)
    (hsurface : ∀ v ∈ c.surface.toList, v < vertex)
    (hjoins : ∀ v, 0 < v → v < vertex + 1 → c.builder.JoinsEarlier v) :
    (c.expose vertex).Grows kind n m (vertex + 1) := by
  have hpush : ∀ v ∈ (c.surface.push vertex).toList, v < vertex + 1 := by
    intro v hv
    rw [Array.toList_push, List.mem_append, List.mem_singleton] at hv
    rcases hv with hv | rfl
    · exact Nat.lt_succ_of_lt (hsurface v hv)
    · exact Nat.lt_succ_self _
  refine ⟨hspans, fun v hv => hpush v ?_, ?_, hjoins⟩
  · dsimp only [expose] at hv
    split at hv
    · rw [Array.toList_extract, List.extract_eq_take_drop] at hv
      exact List.mem_of_mem_drop (List.mem_of_mem_take hv)
    · exact hv
  · dsimp only [expose]
    split
    · rename_i hlarge
      rw [surfaceSize] at hlarge
      rw [Array.size_extract]
      omega
    · rw [Array.size_push]
      omega

/-- **Step lemma**: a vertex settles next to one of the surface. -/
theorem Grows.settle (h : c.Grows kind n m vertex) (hvertex : vertex < n) :
    Always (Grows kind n (m + 2) (vertex + 1)) (c.settle vertex : Chance σ Cluster) := by
  have hpos : 0 < vertex :=
    Nat.zero_lt_of_lt
      (h.surface_lt _ (Array.mem_toList_iff.mpr (Array.getElem_mem h.size_surface_pos)))
  refine (always_settle h.size_surface_pos hpos).mono ?_
  rintro c' ⟨place, hplace, b, hb, rfl⟩
  have hearlier : place < vertex := h.surface_lt place (Array.mem_toList_iff.mpr hplace)
  have hadd : Spans kind n (m + 1) (c.builder.addEdge vertex place) :=
    h.spans.addEdge hvertex (Nat.lt_trans hearlier hvertex) (Nat.ne_of_gt hearlier)
  have hjoins : ∀ v, 0 < v → v < vertex + 1 →
      (c.builder.addEdge vertex place).JoinsEarlier v := by
    intro v hv hlt
    rcases Nat.lt_succ_iff_lt_or_eq.mp hlt with hlt | rfl
    · exact (h.joinsEarlier v hv hlt).addEdge _ _
    · exact Builder.joinsEarlier_addEdge hearlier
  rcases hb with rfl | ⟨other, hother, rfl⟩
  · exact grows_expose (hadd.mono (Nat.le_succ _)) h.surface_lt hjoins
  · exact grows_expose (hadd.addEdge hvertex (Nat.lt_trans hother hvertex) (Nat.ne_of_gt hother))
      h.surface_lt fun v hv hlt => (hjoins v hv hlt).addEdge _ _

end Cluster

theorem always_aggregationBuilder (kind : Kind) (hn : 1 ≤ n) :
    Always (fun b => Spans kind n ((n - 1) * 2) b ∧ ∀ v, 0 < v → v < n → b.JoinsEarlier v)
      (aggregationBuilder n kind : Chance σ Builder) := by
  have hstart : Cluster.Grows kind n 0 1 ⟨dense kind n, #[0]⟩ := by
    refine ⟨spans_dense kind n, fun v hv => ?_, Nat.one_pos, fun v hv hlt => by omega⟩
    rw [List.mem_singleton.mp hv]
    exact Nat.one_pos
  have hrun := Always.foldlM (l := List.range' 1 (n - 1))
    (f := fun (c : Cluster) vertex => (c.settle vertex : Chance σ Cluster))
    (I := fun i => Cluster.Grows kind n (i * 2) (1 + i)) hstart fun i vertex c hi hc => ?_
  · rw [List.length_range', Nat.add_sub_cancel' hn] at hrun
    exact hrun.bind fun c hc => .pure ⟨hc.spans, hc.joinsEarlier⟩
  · obtain ⟨hlt, heq⟩ := List.getElem?_eq_some_iff.mp hi
    rw [List.getElem_range', Nat.one_mul] at heq
    rw [List.length_range'] at hlt
    subst heq
    rw [Nat.succ_mul]
    exact hc.settle (by omega)

end Workload

end Betweenness
