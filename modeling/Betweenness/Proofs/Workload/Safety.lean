import Betweenness.Proofs.Workload.VertexCount

/-!
# Generators do not fail

A generator could fail in a draw below zero, a look-up at a place that is not there, a division by
zero or a difference below zero. None of this happens, whatever is drawn, and every edge is between
two vertices that have been declared. There is at least one edge: of random edges, because the words
that follow the seed do not make loops of both the first and the second one, and of the others
whatever is drawn.

A scale-free graph picks a vertex by its edges: just before every draw, the ends from which it draws
are those of the edges that there are, so that a vertex is at as many places as it has edges.

## Main results

* `always_nonempty`, `rows_pos_of_uniform`: there is an edge.
* `Attachment.weight_eq_rowCount`: the places at which a vertex is drawn are as many as its edges.
* `drawsByEdges`: what happens at every draw of a scale-free graph.
* `generate_safe`: all generators.
-/

namespace Betweenness

namespace Builder

/-- Every row joins two different vertices, both of which have been declared. -/
def JoinsDeclared (b : Builder) : Prop :=
  ∀ row ∈ b.rows.toList, row.1 ∈ b.vertices ∧ row.2 ∈ b.vertices ∧ row.1 ≠ row.2

/-- The number of rows to or from a vertex. -/
def rowCount (b : Builder) (v : ℕ) : ℕ := b.rows.toList.countP fun row => row.1 = v ∨ row.2 = v

/-- As no row joins a vertex to itself, a vertex is an end as often as it has rows. -/
theorem count_rowIds {b : Builder} (h : ∀ row ∈ b.rows.toList, row.1 ≠ row.2) (v : ℕ) :
    b.rowIds.count v = b.rowCount v := by
  rw [rowIds, rowCount]
  generalize b.rows.toList = rows at h
  induction rows with
  | nil => rfl
  | cons row rows ih =>
      have hne : row.1 ≠ row.2 := h row List.mem_cons_self
      have hends : [row.1, row.2].count v = if row.1 = v ∨ row.2 = v then 1 else 0 := by
        by_cases hsource : row.1 = v <;> by_cases htarget : row.2 = v <;> simp_all
      rw [List.flatMap_cons, List.count_append,
        ih fun row hrow => h row (List.mem_cons_of_mem _ hrow), List.countP_cons, hends,
        Nat.add_comm]
      simp

theorem rows_addEdge_pos (b : Builder) (source target : ℕ) :
    0 < (b.addEdge source target).rows.size := by
  rw [size_rows_addEdge]
  exact Nat.succ_pos _

theorem rows_pos_of_joinsEarlier {b : Builder} {v : ℕ} (h : b.JoinsEarlier v) :
    0 < b.rows.size := by
  obtain ⟨u, -, hrow | hrow⟩ := h <;> exact List.length_pos_of_mem hrow

end Builder

namespace Workload

open Chance

variable {σ : Type} [WordSupply σ] {kind : Kind} {n m : ℕ} {b : Builder}

theorem Spans.joinsDeclared (h : Spans kind n m b) : b.JoinsDeclared := by
  have hmem : ∀ v, v ∈ b.vertices ↔ v < n := fun v => by
    rw [h.eq_dense]
    simp [dense]
  intro row hrow
  obtain ⟨hsource, htarget, hne⟩ := h.row_lt row hrow
  exact ⟨(hmem _).mpr hsource, (hmem _).mpr htarget, hne⟩

/-! ### There is an edge -/

/-- Where edges are not merely thrown at random, there is one whatever is drawn. -/
theorem always_nonempty {w : Workload} (hw : w ≠ uniform) (kind : Kind) (hn : 12 ≤ n) :
    Always (fun b => 0 < b.rows.size) (w.builder n kind : Chance σ Builder) := by
  have hfive : 5 ≤ n := Nat.le_trans (by decide) hn
  have hone : 1 ≤ n := Nat.le_trans (by decide) hn
  cases w with
  | tree =>
      refine .pure ?_
      rw [treeBuilder_eq kind hone, List.size_toArray, length_treeRows]
      omega
  | scaleFree =>
      exact (always_scaleFreeBuilder_joinsEarlier kind hfive).mono fun b h =>
        Builder.rows_pos_of_joinsEarlier (h 1 Nat.one_pos (by omega))
  | smallWorld =>
      refine (always_smallWorldBuilder kind hfive).mono fun b h => ?_
      rw [h.2]
      omega
  | uniform => exact absurd rfl hw
  | barbell =>
      refine (always_barbellBuilder kind hn).mono fun b h => ?_
      obtain ⟨within, -, hrows⟩ := h.2
      rw [← Array.length_toList, hrows, List.length_append, List.length_map, List.length_range']
      exact Nat.succ_pos _
  | aggregation =>
      exact (always_aggregationBuilder kind hone).mono fun b h =>
        Builder.rows_pos_of_joinsEarlier (h.2 1 Nat.one_pos (by omega))

/-- An attempt to add a random edge, from two words in turn. -/
theorem addRandomEdge_apply (hn : 0 < n) (b : Builder) (s : σ) :
    let (first, s') := WordSupply.next s
    let (second, s'') := WordSupply.next s'
    addRandomEdge n b s = some
      (if (first >>> 33).toNat % n = (second >>> 33).toNat % n then b
        else b.addEdge ((first >>> 33).toNat % n) ((second >>> 33).toNat % n), s'') := by
  dsimp only
  rw [addRandomEdge, bind_apply, below_apply hn, Option.bind_some, bind_apply, below_apply hn]
  rfl

/-- These numbers differ by numbers that have no divisor in common. -/
theorem eq_one_of_loops (hfirst : 1660067851 % n = 1048717885 % n)
    (hsecond : 1106255501 % n = 1830901902 % n) : n = 1 := by
  have hdvd : n ∣ Nat.gcd (1660067851 - 1048717885) (1830901902 - 1106255501) :=
    Nat.dvd_gcd ((Nat.modEq_iff_dvd' (by decide)).mp hfirst.symm)
      ((Nat.modEq_iff_dvd' (by decide)).mp hsecond)
  have hcoprime : Nat.gcd (1660067851 - 1048717885) (1830901902 - 1106255501) = 1 := by
    decide +kernel
  rwa [hcoprime, Nat.dvd_one] at hdvd

/-- The words that follow the seed of random edges do not make loops of the first two. -/
theorem exists_nonempty_of_seed (hn : 2 ≤ n) (b : Builder) :
    ∃ b' s, (do addRandomEdge n (← addRandomEdge n b) : Chance Congruential Builder) ⟨54321⟩ =
      some (b', s) ∧ 0 < b'.rows.size := by
  have hpos : 0 < n := Nat.lt_of_lt_of_le (by decide) hn
  have hwords : ((Congruential.mk 54321).advance.state >>> 33).toNat = 1660067851 ∧
      ((Congruential.mk 54321).advance.advance.state >>> 33).toNat = 1048717885 ∧
      ((Congruential.mk 54321).advance.advance.advance.state >>> 33).toNat = 1106255501 ∧
      ((Congruential.mk 54321).advance.advance.advance.advance.state >>> 33).toNat =
        1830901902 := by decide
  obtain ⟨hone, htwo, hthree, hfour⟩ := hwords
  have hfirst := addRandomEdge_apply hpos b (Congruential.mk 54321)
  have hsecond := fun b => addRandomEdge_apply hpos b (Congruential.mk 54321).advance.advance
  simp only [WordSupply.next, hone, htwo, hthree, hfour] at hfirst hsecond
  rw [bind_apply, hfirst, Option.bind_some, hsecond]
  refine ⟨_, _, rfl, ?_⟩
  split
  · split
    · rename_i hagain hloop
      have hsingle := eq_one_of_loops hloop hagain
      omega
    · exact Builder.rows_addEdge_pos _ _ _
  · exact Builder.rows_addEdge_pos _ _ _

/-- There are random edges: what comes after the first two attempts takes none away. -/
theorem rows_pos_of_uniform (hn : 2 ≤ n) (h : uniform.generate n kind = some b) :
    0 < b.rows.size := by
  obtain ⟨b', s, hfirst, hpos⟩ := exists_nonempty_of_seed hn (dense kind n)
  have hrest : Always (fun b : Builder => 0 < b.rows.size) ((List.range' 2 (n * 5 - 2)).foldlM
      (fun b _ => addRandomEdge n b) b' : Chance Congruential Builder) := by
    refine Always.foldlM (I := fun _ (b : Builder) => 0 < b.rows.size) hpos fun _ _ b _ hb => ?_
    refine (always_addRandomEdge (Nat.zero_lt_of_lt hn)).mono ?_
    rintro b' (rfl | ⟨source, -, target, -, -, rfl⟩)
    · exact hb
    · exact Builder.rows_addEdge_pos _ _ _
  obtain ⟨b'', s', hlast, hpos'⟩ := hrest s
  have hattempts : List.range (n * 5) = [0, 1] ++ List.range' 2 (n * 5 - 2) := by
    rw [List.range_eq_range', show [0, 1] = List.range' 0 2 from rfl, List.range'_append_1]
    congr
    omega
  have hrun : (uniformBuilder n kind : Chance Congruential Builder) ⟨54321⟩ = some (b'', s') := by
    rw [uniformBuilder, hattempts, List.foldlM_append, bind_apply]
    simp only [List.foldlM_cons, List.foldlM_nil, bind_pure]
    rw [hfirst]
    exact hlast
  have hbuilder : b'' = b := by
    rw [generate, outcome, StateT.run, hrun] at h
    exact Option.some.inj h
  exact hbuilder ▸ hpos'

/-! ### What is drawn for a scale-free graph -/

namespace Attachment

variable {a : Attachment}

/-- The number of places among the ends at which there is a vertex. -/
def weight (a : Attachment) (v : ℕ) : ℕ :=
  (List.range a.ends.size).countP fun place => a.ends[place]? = some v

/-- A vertex is at as many places among the ends as there are edges to or from it. -/
theorem Grows.weight_eq_rowCount (h : a.Grows kind n m) (v : ℕ) :
    a.weight v = a.builder.rowCount v := by
  have hplaces : (List.range a.ends.size).map (a.ends[·]?) = a.ends.toList.map some :=
    List.ext_getElem (by simp) fun place hlt _ => by
      rw [List.length_map, List.length_range] at hlt
      simp [hlt]
  have hcount : a.weight v = a.ends.toList.count v := calc
    a.weight v = ((List.range a.ends.size).map (a.ends[·]?)).countP (· = some v) := by
      rw [List.countP_map]
      rfl
    _ = (a.ends.toList.map some).countP (· = some v) := by rw [hplaces]
    _ = a.ends.toList.count v := by
      rw [List.countP_map, List.count_eq_countP]
      exact List.countP_congr fun e _ => by simp
  rw [hcount, h.ends_eq, Builder.count_rowIds fun row hrow => (h.spans.row_lt row hrow).2.2]

/-- The next word tells at which place an end is drawn. -/
theorem attach_apply (h : 0 < a.ends.size) (vertex : ℕ) (s : σ) :
    ∃ target, a.ends[((WordSupply.next s).1 >>> 33).toNat % a.ends.size]? = some target ∧
      a.attach vertex s =
        some (if target = vertex then a else a.addEdge vertex target, (WordSupply.next s).2) := by
  have hplace : ((WordSupply.next s).1 >>> 33).toNat % a.ends.size < a.ends.size := Nat.mod_lt _ h
  refine ⟨_, Array.getElem?_eq_getElem hplace, ?_⟩
  rw [attach, bind_apply, pick, bind_apply, below_apply h, Option.bind_some,
    Array.getElem?_eq_getElem hplace]
  rfl

end Attachment

/-- A scale-free graph picks the ends of its edges at random. -/
structure DrawsByEdges (σ : Type) [WordSupply σ] (n : ℕ) (kind : Kind) : Prop where
  /-- The graph is complete after a number of draws. -/
  builder_eq : (scaleFreeBuilder n kind : Chance σ Builder) = do
    let a ← attachments n kind (joiningOrder n).length
    return a.builder
  /-- Just before every draw, the ends are those of the edges so far, so that a vertex is at as many
  places as it has edges. The next word tells at which place the end is to which the vertex whose
  turn it is gets an edge, unless it is the vertex itself. -/
  draw : ∀ draws vertex, (joiningOrder n)[draws]? = some vertex → ∀ s : σ, ∃ a s' target,
    attachments n kind draws s = some (a, s') ∧ a.ends.toList = a.builder.rowIds ∧
    (∀ v, a.weight v = a.builder.rowCount v) ∧
    a.ends[((WordSupply.next s').1 >>> 33).toNat % a.ends.size]? = some target ∧
    attachments n kind (draws + 1) s =
      some (if target = vertex then a else a.addEdge vertex target, (WordSupply.next s').2)

theorem drawsByEdges (σ : Type) [WordSupply σ] (kind : Kind) (hn : 5 ≤ n) :
    DrawsByEdges σ n kind where
  builder_eq := scaleFreeBuilder_eq n kind
  draw draws vertex hvertex s := by
    obtain ⟨a, s', ha, hgrows⟩ := always_attachments kind hn draws s
    obtain ⟨target, htarget, hattach⟩ :=
      Attachment.attach_apply hgrows.size_ends_pos vertex s'
    refine ⟨a, s', target, ha, hgrows.ends_eq, hgrows.weight_eq_rowCount, htarget, ?_⟩
    rw [attachments_succ hvertex, bind_apply, ha, Option.bind_some]
    exact hattach

/-! ### All generators -/

/-- No generator fails, whatever is drawn: no draw is below zero, no look-up at a place that is not
there, no division by zero and no difference below zero. Every edge joins two different vertices
that have been declared, and drawn as always, there is one at least. The ends from which a
scale-free graph draws are those of its edges at every draw. -/
theorem generate_safe (w : Workload) (kind : Kind) (hn : 12 ≤ n) :
    (∀ (σ : Type) [WordSupply σ],
      Always Builder.JoinsDeclared (w.builder n kind : Chance σ Builder)) ∧
    (∃ b, w.generate n kind = some b ∧ b.JoinsDeclared ∧ 0 < b.rows.size) ∧
    ∀ (σ : Type) [WordSupply σ], DrawsByEdges σ n kind := by
  refine ⟨fun σ _ => ?safe, ?nonempty, fun σ _ => ?draws⟩
  case safe => exact (always_builder w kind hn).mono fun _ h => h.joinsDeclared
  case nonempty =>
    obtain ⟨b, hb, hspans⟩ := exists_generate w kind hn
    refine ⟨b, hb, hspans.joinsDeclared, ?_⟩
    by_cases hw : w = uniform
    · subst hw
      exact rows_pos_of_uniform (Nat.le_trans (by decide) hn) hb
    · obtain ⟨b', hb', hpos⟩ := exists_generate_of_always (always_nonempty hw kind hn)
      exact Option.some.inj (hb'.symm.trans hb) ▸ hpos
  case draws => exact drawsByEdges σ kind (Nat.le_trans (by decide) hn)

/-- Random edges and the draws of a scale-free graph, with 32 vertices each. -/
theorem generate_safe_uniform : 12 ≤ 32 ∧
    (∃ b, uniform.generate 32 .directed = some b ∧ b.JoinsDeclared ∧ 0 < b.rows.size) ∧
    DrawsByEdges Congruential 32 .directed := by
  obtain ⟨-, hgenerate, hdraws⟩ := generate_safe (n := 32) uniform .directed (by decide)
  exact ⟨by decide, hgenerate, hdraws Congruential⟩

end Workload

end Betweenness
