import Betweenness.Proofs.Numbering

/-!
# Adjacency of built graphs

A graph lists its edges and, beside them, the arcs that leave and enter each vertex. `Graph.Joins`
reads off the edge list alone when an edge leads from one vertex to another: in its direction or,
if edges have none, in either. `Graph.Consistent` says that the adjacency lists hold exactly these
arcs, each once and in the order of edges, that no two edges join the same vertices, and that the
numbering fits.

## Main results

* `getElem?_adjacency`: the list that `adjacency` sorts out for a vertex.
* `distinctRows_pairwise`, `find?_of_mem_distinctRows`: the rows that are kept differ from each
  other, and each is the first of those that agree with it.
* `Graph.ofRows_consistent`, `Builder.build_consistent`: every built graph is consistent.
* `Builder.find?_rows`: the ids of an edge's ends, in the order of the edge, are the first loaded
  row between them.
-/

namespace Betweenness

namespace Graph

/-- An edge leads from `v` to `w`: it was loaded in this direction or, if edges have no direction,
in the opposite one. -/
def Joins (g : Graph) (e v w : ℕ) : Prop :=
  g.endpoints? e = some (v, w) ∨ g.kind = .undirected ∧ g.endpoints? e = some (w, v)

/-- Some edge leads from `v` to `w`. -/
def Linked (g : Graph) (v w : ℕ) : Prop := ∃ e, g.Joins e v w

/-- The parts of a graph agree with each other. -/
structure Consistent (g : Graph) : Prop where
  /-- The indices are those that the numbering gives out. -/
  vertexCount_eq : g.numbering.vertexCount = g.nodeCount
  /-- The numbering is one-to-one. -/
  numbering_sound : g.numbering.Sound
  /-- The ends of edges are vertices. -/
  endpoints_lt : ∀ e v w, g.endpoints? e = some (v, w) → v < g.nodeCount ∧ w < g.nodeCount
  /-- The arcs that leave a vertex are the edges that lead from it. -/
  mem_out : ∀ v w e, ⟨w, e⟩ ∈ g.out v ↔ g.Joins e v w
  /-- The arcs that enter a vertex are the edges that lead to it. -/
  mem_into : ∀ v w e, ⟨v, e⟩ ∈ g.into w ↔ g.Joins e v w
  /-- The arcs that leave a vertex are in the order of edges, each once. -/
  out_increasing : ∀ v, (g.out v).toList.Pairwise (·.edge < ·.edge)
  /-- The arcs that enter a vertex are in the order of edges, each once. -/
  into_increasing : ∀ v, (g.into v).toList.Pairwise (·.edge < ·.edge)
  /-- Two vertices are joined by one edge at most. -/
  edge_unique : ∀ e e' v w, g.Joins e v w → g.Joins e' v w → e = e'

end Graph

/-! ### Rows without repeats -/

/-- Two pairs of ends agree as edges if they are equal or, where edges have no direction, opposite
to each other. -/
theorem Kind.edgeKey_eq_iff {kind : Kind} {x y : ℕ × ℕ} :
    kind.edgeKey x = kind.edgeKey y ↔ x = y ∨ kind = .undirected ∧ x = (y.2, y.1) := by
  obtain ⟨a, b⟩ := x
  obtain ⟨c, d⟩ := y
  cases kind with
  | directed => simp [edgeKey]
  | undirected =>
      simp only [edgeKey, Prod.mk.injEq, true_and]
      omega

/-- An edge leads from `v` to `w` if its ends agree with these. -/
theorem Graph.joins_iff {g : Graph} {e v w : ℕ} :
    g.Joins e v w ↔ ∃ ends, g.endpoints? e = some ends ∧
      g.kind.edgeKey ends = g.kind.edgeKey (v, w) := by
  simp only [Joins, Kind.edgeKey_eq_iff]
  constructor
  · rintro (h | ⟨hkind, h⟩)
    · exact ⟨_, h, .inl rfl⟩
    · exact ⟨_, h, .inr ⟨hkind, rfl⟩⟩
  · rintro ⟨ends, h, rfl | ⟨hkind, rfl⟩⟩
    · exact .inl h
    · exact .inr ⟨hkind, h⟩

/-- What leads somewhere is an edge. -/
theorem Graph.Joins.lt_edgeCount {g : Graph} {e v w : ℕ} (h : g.Joins e v w) :
    e < g.edgeCount := by
  obtain ⟨ends, hends, -⟩ := joins_iff.mp h
  exact (Array.getElem?_eq_some_iff.mp hends).1

/-- Every edge leads from somewhere to somewhere. -/
theorem Graph.exists_joins {g : Graph} {e : ℕ} (h : e < g.edgeCount) :
    ∃ v w, g.Joins e v w :=
  ⟨_, _, .inl (Array.getElem?_eq_getElem h)⟩

/-- Without direction, an edge leads back as well. -/
theorem Graph.Joins.symm {g : Graph} {e v w : ℕ} (h : g.Joins e v w)
    (hkind : g.kind = .undirected) : g.Joins e w v := by
  rcases h with he | ⟨-, he⟩
  · exact .inr ⟨hkind, he⟩
  · exact .inl he

section DistinctRows

variable {key : ℕ × ℕ → ℕ × ℕ} {seen : Std.HashSet (ℕ × ℕ)} {rows : List (ℕ × ℕ)}

/-- No row is kept whose key has been seen. -/
theorem key_notMem_of_mem_distinctRows {row : ℕ × ℕ} (h : row ∈ distinctRows key seen rows) :
    key row ∉ seen := by
  induction rows generalizing seen with
  | nil => cases h
  | cons first rows ih =>
      rw [distinctRows] at h
      split at h
      · exact ih h
      rename_i hnew
      rcases List.mem_cons.mp h with rfl | h
      · simpa using hnew
      · exact fun hmem => ih h (Std.HashSet.mem_insert.mpr (.inr hmem))

/-- The rows that are kept have different keys. -/
theorem distinctRows_pairwise : (distinctRows key seen rows).Pairwise (key · ≠ key ·) := by
  induction rows generalizing seen with
  | nil => exact .nil
  | cons first rows ih =>
      rw [distinctRows]
      split
      · exact ih
      · refine List.pairwise_cons.mpr ⟨fun row hrow heq => ?_, ih⟩
        exact key_notMem_of_mem_distinctRows hrow
          (Std.HashSet.mem_insert.mpr (.inl (beq_iff_eq.mpr heq)))

/-- A row that is kept is the first one with its key. -/
theorem find?_of_mem_distinctRows {row : ℕ × ℕ} (h : row ∈ distinctRows key seen rows) :
    rows.find? (fun r => key r = key row) = some row := by
  induction rows generalizing seen with
  | nil => cases h
  | cons first rows ih =>
      have hseen := key_notMem_of_mem_distinctRows h
      rw [distinctRows] at h
      split at h
      · rename_i hfirst
        have hne : key first ≠ key row := fun heq => hseen (heq ▸ by simpa using hfirst)
        rw [List.find?_cons_of_neg (by simpa using hne)]
        exact ih h
      · rcases List.mem_cons.mp h with rfl | h
        · rw [List.find?_cons_of_pos (by simp)]
        · have hne : key first ≠ key row := fun heq => key_notMem_of_mem_distinctRows h
            (Std.HashSet.mem_insert.mpr (.inl (beq_iff_eq.mpr heq)))
          rw [List.find?_cons_of_neg (by simpa using hne)]
          exact ih h

end DistinctRows

/-! ### Sorting arcs by vertex -/

section Adjacency

variable {vertexCount v : ℕ} {arcs : List (ℕ × Arc)}

/-- The arcs that a vertex gets are those given with it, in their order. -/
theorem getElem?_adjacency (hv : v < vertexCount) : (adjacency vertexCount arcs)[v]? =
    some ((arcs.filter (·.1 = v)).map Prod.snd).toArray := by
  suffices h : ∀ (lists : Array (Array Arc)) (old : Array Arc), lists[v]? = some old →
      (arcs.foldl (fun lists arc => lists.modify arc.1 (·.push arc.2)) lists)[v]? =
        some (old ++ ((arcs.filter (·.1 = v)).map Prod.snd).toArray) by
    rw [adjacency, h _ #[] (by simp [hv])]
    simp
  induction arcs with
  | nil => exact fun lists old h => by simpa using h
  | cons arc arcs ih =>
      intro lists old h
      rw [List.foldl_cons]
      by_cases harc : arc.1 = v
      · rw [ih _ (old.push arc.2) (by simp [Array.getElem?_modify, harc, h])]
        simp [harc]
      · rw [ih _ old (by simp [Array.getElem?_modify, harc, h])]
        simp [harc]

/-- The list of arcs that a vertex gets, and none for other indices. -/
theorem toList_getD_adjacency : ((adjacency vertexCount arcs).getD v #[]).toList =
    if v < vertexCount then (arcs.filter (·.1 = v)).map Prod.snd else [] := by
  rw [Array.getD_eq_getD_getElem?]
  split
  · rw [getElem?_adjacency ‹_›]
    simp
  · rw [Array.getElem?_eq_none (by rw [size_adjacency]; omega)]
    simp

/-- A vertex gets an arc exactly if the arc is given with it. -/
theorem mem_getD_adjacency (hlt : ∀ arc ∈ arcs, arc.1 < vertexCount) {arc : Arc} :
    arc ∈ (adjacency vertexCount arcs).getD v #[] ↔ (v, arc) ∈ arcs := by
  rw [← Array.mem_toList_iff, toList_getD_adjacency]
  split
  · simp
  · rename_i hv
    simp only [List.not_mem_nil, false_iff]
    exact fun h => hv (hlt _ h)

/-- A vertex gets its arcs in the order of edges, if those given with one vertex are in it. -/
theorem increasing_getD_adjacency
    (h : arcs.Pairwise fun x y => x.1 = y.1 → x.2.edge < y.2.edge) :
    ((adjacency vertexCount arcs).getD v #[]).toList.Pairwise (·.edge < ·.edge) := by
  rw [toList_getD_adjacency]
  split
  · rw [List.pairwise_map, List.pairwise_filter]
    refine h.imp fun hlt hx hy => hlt ?_
    simp only [decide_eq_true_eq] at hx hy
    exact hx.trans hy.symm
  · exact .nil

end Adjacency

/-- Numbered edges are in the order of their numbers. -/
theorem pairwise_zipIdx {α : Type} (l : List α) : l.zipIdx.Pairwise (·.2 < ·.2) := by
  rw [← List.pairwise_map (f := Prod.snd), List.zipIdx_map_snd]
  exact List.pairwise_lt_range'

/-- An arc is among those that leave a vertex for an edge if the edge has these ends or, without
direction, the opposite ones. -/
theorem mem_leavingArcs {kind : Kind} {a b e v w e' : ℕ} :
    (v, ⟨w, e'⟩) ∈ kind.leavingArcs ((a, b), e) ↔
      e = e' ∧ ((a, b) = (v, w) ∨ kind = .undirected ∧ (a, b) = (w, v)) := by
  cases kind with
  | directed => simp [Kind.leavingArcs]; omega
  | undirected =>
      simp only [Kind.leavingArcs]
      split <;> simp <;> omega

/-- The arcs of numbered edges are in the order of edges, as long as an edge contributes arcs of
its own number and at most one to a vertex. -/
theorem pairwise_flatMap_zipIdx {f : (ℕ × ℕ) × ℕ → List (ℕ × Arc)} {edges : List (ℕ × ℕ)}
    (hedge : ∀ x, ∀ arc ∈ f x, arc.2.edge = x.2) (hone : ∀ x, (f x).Pairwise (·.1 ≠ ·.1)) :
    (edges.zipIdx.flatMap f).Pairwise fun x y => x.1 = y.1 → x.2.edge < y.2.edge := by
  refine List.pairwise_flatMap.mpr ⟨fun x _ => (hone x).imp fun hne heq => absurd heq hne, ?_⟩
  refine (pairwise_zipIdx edges).imp fun hlt x hx y hy _ => ?_
  rw [hedge _ x hx, hedge _ y hy]
  exact hlt

/-! ### Built graphs -/

namespace Graph

section OfRows

variable {kind : Kind} {numbering : Numbering} {rows : List (ℕ × ℕ)}

/-- The vertices of a graph of rows are the indices of its numbering. -/
theorem nodeCount_ofRows : (ofRows kind numbering rows).nodeCount = numbering.vertexCount :=
  size_adjacency _ _

/-- The edges of a graph of rows are those rows that repeat no earlier one. -/
theorem endpoints?_ofRows {e : ℕ} : (ofRows kind numbering rows).endpoints? e =
    (distinctRows kind.edgeKey ∅ rows)[e]? := by
  simp [endpoints?, ofRows]

/-- The ends of the edges of a graph of rows are ends of rows. -/
theorem mem_of_endpoints?_ofRows {e : ℕ} {ends : ℕ × ℕ}
    (h : (ofRows kind numbering rows).endpoints? e = some ends) : ends ∈ rows := by
  rw [endpoints?_ofRows] at h
  exact (distinctRows_sublist _ _ _).subset (List.mem_of_getElem? h)

variable (hrows : ∀ row ∈ rows, row.1 < numbering.vertexCount ∧ row.2 < numbering.vertexCount)

include hrows

/-- The arcs that leave a vertex of a graph of rows. -/
theorem mem_out_ofRows (v w e : ℕ) : ⟨w, e⟩ ∈ (ofRows kind numbering rows).out v ↔
    (ofRows kind numbering rows).Joins e v w := by
  set edges := distinctRows kind.edgeKey ∅ rows with hedges
  have hmem : (v, (⟨w, e⟩ : Arc)) ∈ edges.zipIdx.flatMap kind.leavingArcs ↔
      (ofRows kind numbering rows).Joins e v w := by
    simp only [List.mem_flatMap, Prod.exists, mem_leavingArcs, List.mk_mem_zipIdx_iff_getElem?,
      Joins, endpoints?_ofRows, ← hedges]
    constructor
    · rintro ⟨a, b, i, hi, rfl, h | ⟨hkind, h⟩⟩
      · exact .inl (h ▸ hi)
      · exact .inr ⟨hkind, h ▸ hi⟩
    · rintro (h | ⟨hkind, h⟩)
      · exact ⟨v, w, e, h, rfl, .inl rfl⟩
      · exact ⟨w, v, e, h, rfl, .inr ⟨hkind, rfl⟩⟩
  rw [← hmem]
  refine mem_getD_adjacency ?_
  rintro ⟨u, x, i'⟩ harc
  obtain ⟨⟨⟨a, b⟩, i⟩, hi, harc⟩ := List.mem_flatMap.mp harc
  have hab := hrows (a, b) ((distinctRows_sublist _ _ _).subset
    (List.mem_of_getElem? (List.mk_mem_zipIdx_iff_getElem?.mp hi)))
  rcases (mem_leavingArcs.mp harc).2 with h | ⟨-, h⟩
  · cases h
    exact hab.1
  · cases h
    exact hab.2

/-- The arcs that enter a vertex of a graph of rows. Without direction they are those that leave
it, pointing back. -/
theorem mem_into_ofRows (v w e : ℕ) : ⟨v, e⟩ ∈ (ofRows kind numbering rows).into w ↔
    (ofRows kind numbering rows).Joins e v w := by
  cases kind with
  | directed =>
      have hmem : (w, (⟨v, e⟩ : Arc)) ∈
          (distinctRows Kind.directed.edgeKey ∅ rows).zipIdx.flatMap enteringArcs ↔
          (ofRows .directed numbering rows).Joins e v w := by
        simp only [List.mem_flatMap, Prod.exists, List.mk_mem_zipIdx_iff_getElem?, Joins,
          endpoints?_ofRows, enteringArcs, List.mem_singleton, Prod.mk.injEq, Arc.mk.injEq]
        constructor
        · rintro ⟨a, b, i, hi, rfl, rfl, rfl⟩
          exact .inl hi
        · rintro (h | ⟨hkind, -⟩)
          · exact ⟨v, w, e, h, rfl, rfl, rfl⟩
          · cases hkind
      rw [← hmem]
      refine mem_getD_adjacency fun arc harc => ?_
      obtain ⟨⟨⟨a, b⟩, i⟩, hi, harc⟩ := List.mem_flatMap.mp harc
      simp only [enteringArcs, List.mem_singleton] at harc
      subst harc
      exact (hrows (a, b) ((distinctRows_sublist _ _ _).subset
        (List.mem_of_getElem? (List.mk_mem_zipIdx_iff_getElem?.mp hi)))).2
  | undirected =>
      have hout : _ ↔ (ofRows .undirected numbering rows).Joins e w v := mem_out_ofRows hrows w v e
      refine hout.trans ?_
      simp only [Joins, ofRows, true_and]
      exact or_comm

/-- A graph of rows between vertices is consistent. -/
theorem ofRows_consistent (hnumbering : numbering.Sound) :
    (ofRows kind numbering rows).Consistent where
  vertexCount_eq := nodeCount_ofRows.symm
  numbering_sound := hnumbering
  endpoints_lt := by
    intro e v w h
    rw [nodeCount_ofRows]
    exact hrows _ (mem_of_endpoints?_ofRows h)
  mem_out := mem_out_ofRows hrows
  mem_into := mem_into_ofRows hrows
  out_increasing := by
    intro v
    refine increasing_getD_adjacency (pairwise_flatMap_zipIdx ?_ ?_)
    · rintro ⟨⟨a, b⟩, e⟩ ⟨v, w, e'⟩ harc
      exact (mem_leavingArcs.mp harc).1.symm
    · rintro ⟨⟨a, b⟩, e⟩
      cases kind with
      | directed => simp [Kind.leavingArcs]
      | undirected =>
          simp only [Kind.leavingArcs]
          split <;> simp_all
  into_increasing := by
    intro v
    cases kind with
    | directed =>
        refine increasing_getD_adjacency (pairwise_flatMap_zipIdx ?_ ?_)
        · rintro ⟨⟨a, b⟩, e⟩ arc harc
          simp only [enteringArcs, List.mem_singleton] at harc
          rw [harc]
        · exact fun x => List.pairwise_singleton _ _
    | undirected =>
        refine increasing_getD_adjacency (pairwise_flatMap_zipIdx ?_ ?_)
        · rintro ⟨⟨a, b⟩, e⟩ ⟨v, w, e'⟩ harc
          exact (mem_leavingArcs.mp harc).1.symm
        · rintro ⟨⟨a, b⟩, e⟩
          simp only [Kind.leavingArcs]
          split <;> simp_all
  edge_unique := by
    intro e e' v w h h'
    obtain ⟨x, hx, hxkey⟩ := joins_iff.mp h
    obtain ⟨y, hy, hykey⟩ := joins_iff.mp h'
    rw [endpoints?_ofRows] at hx hy
    obtain ⟨he, rfl⟩ := List.getElem?_eq_some_iff.mp hx
    obtain ⟨he', rfl⟩ := List.getElem?_eq_some_iff.mp hy
    have hdistinct : (distinctRows kind.edgeKey ∅ rows).Pairwise _ := distinctRows_pairwise
    have hdiff := List.pairwise_iff_getElem.mp hdistinct
    rcases Nat.lt_trichotomy e e' with hlt | heq | hlt
    · exact absurd (hxkey.trans hykey.symm) (hdiff e e' he he' hlt)
    · exact heq
    · exact absurd (hykey.trans hxkey.symm) (hdiff e' e he' he hlt)

end OfRows

end Graph

namespace Builder

/-- What a successful build has done: it has numbered the ids and taken the rows over into
indices. -/
theorem build_eq_ok {b : Builder} {g : Graph} (h : b.build = .ok g) :
    ∃ numbering rows, b.numbering = .ok numbering ∧
      List.Forall₂ numbering.Translates b.rows.toList rows ∧
      g = Graph.ofRows b.kind numbering rows := by
  obtain ⟨numbering, hnumbering, h⟩ := bind_eq_ok_iff.mp h
  obtain ⟨-, -, h⟩ := bind_eq_ok_iff.mp h
  split at h
  · cases h
  obtain ⟨rows, hrows, h⟩ := bind_eq_ok_iff.mp h
  simp only [pure, Except.pure, Except.ok.injEq] at h
  refine ⟨numbering, rows, hnumbering, (mapM_eq_ok_iff.mp hrows).imp ?_, h.symm⟩
  intro row ends hends
  obtain ⟨i, hi, hends⟩ := bind_eq_ok_iff.mp hends
  obtain ⟨j, hj, hends⟩ := bind_eq_ok_iff.mp hends
  simp only [pure, Except.pure, Except.ok.injEq] at hends
  subst hends
  exact ⟨hi, hj⟩

/-- Every built graph is consistent. -/
theorem build_consistent {b : Builder} {g : Graph} (h : b.build = .ok g) : g.Consistent := by
  obtain ⟨numbering, rows, hnumbering, hrows, rfl⟩ := build_eq_ok h
  have hsound := numbering_sound hnumbering
  refine Graph.ofRows_consistent (fun ends hends => ?_) hsound
  obtain ⟨row, -, h₁, h₂⟩ := exists_of_mem_of_forall₂ hrows hends
  exact ⟨(hsound.idOf_of_indexOf _ _ h₁).1, (hsound.idOf_of_indexOf _ _ h₂).1⟩

end Builder

/-- Two rows are equal if their ends are, and opposite if their ends are. -/
theorem Numbering.edgeKey_iff_of_translates {n : Numbering} (hn : n.Sound) {kind : Kind}
    {row row' ends ends' : ℕ × ℕ} (h : n.Translates row ends) (h' : n.Translates row' ends') :
    kind.edgeKey row = kind.edgeKey row' ↔ kind.edgeKey ends = kind.edgeKey ends' := by
  have hiff : ∀ {id id' i i'}, n.indexOf id = .ok i → n.indexOf id' = .ok i' →
      (id = id' ↔ i = i') := by
    intro id id' i i' hi hi'
    constructor
    · rintro rfl
      exact Except.ok.inj (hi.symm.trans hi')
    · rintro rfl
      have hid := (hn.idOf_of_indexOf _ _ hi).2
      exact Option.some.inj (hid.symm.trans (hn.idOf_of_indexOf _ _ hi').2)
  obtain ⟨a, b⟩ := row
  obtain ⟨a', b'⟩ := row'
  obtain ⟨i, j⟩ := ends
  obtain ⟨i', j'⟩ := ends'
  simp only [Kind.edgeKey_eq_iff, Prod.mk.injEq]
  rw [hiff h.1 h'.1, hiff h.2 h'.2, hiff h.1 h'.2, hiff h.2 h'.1]

/-- The first match in a list is related to the first match in a related list. -/
theorem find?_of_forall₂ {α β : Type} {R : α → β → Prop} {p : α → Bool} {q : β → Bool}
    {l : List α} {m : List β} (h : List.Forall₂ R l m) (hpq : ∀ a b, R a b → p a = q b) {b : β}
    (hb : m.find? q = some b) : ∃ a, l.find? p = some a ∧ R a b := by
  induction h with
  | nil => cases hb
  | @cons a₀ b₀ l m hab _ ih =>
      by_cases hq : q b₀ = true
      · rw [List.find?_cons_of_pos hq] at hb
        cases hb
        exact ⟨a₀, List.find?_cons_of_pos ((hpq _ _ hab).trans hq), hab⟩
      · rw [List.find?_cons_of_neg hq] at hb
        obtain ⟨a, ha, hab'⟩ := ih hb
        exact ⟨a, by rw [List.find?_cons_of_neg (hpq _ _ hab ▸ hq), ha], hab'⟩

/-- The ids of an edge's ends, in the order of the edge, are the first loaded row between them. -/
theorem Builder.find?_rows {b : Builder} {g : Graph} (h : b.build = .ok g) {e : ℕ} {ends : ℕ × ℕ}
    (he : g.endpoints? e = some ends) : ∃ ids, g.endpointIds? ends = some ids ∧
      b.rows.toList.find? (fun row => b.kind.edgeKey row = b.kind.edgeKey ids) = some ids := by
  obtain ⟨numbering, rows, hnumbering, hrows, rfl⟩ := build_eq_ok h
  have hsound := numbering_sound hnumbering
  rw [Graph.endpoints?_ofRows] at he
  have hmem := List.mem_of_getElem? he
  obtain ⟨ids, -, hids⟩ :=
    exists_of_mem_of_forall₂ hrows ((distinctRows_sublist _ _ _).subset hmem)
  obtain ⟨ids', hfind, hids'⟩ := find?_of_forall₂
    (p := fun row => b.kind.edgeKey row = b.kind.edgeKey ids) hrows
    (fun row x hrow => decide_eq_decide.mpr
      (Numbering.edgeKey_iff_of_translates hsound hrow hids))
    (find?_of_mem_distinctRows hmem)
  have hends : ∀ {ids}, numbering.Translates ids ends →
      (Graph.ofRows b.kind numbering rows).endpointIds? ends = some ids := by
    intro ids hids
    have h₁ := (hsound.idOf_of_indexOf _ _ hids.1).2
    have h₂ := (hsound.idOf_of_indexOf _ _ hids.2).2
    simp only [Graph.endpointIds?, Graph.idOf?, Graph.ofRows]
    simp only [h₁, h₂, bind, Option.bind, pure]
  have heq : ids' = ids := Option.some.inj ((hends hids').symm.trans (hends hids))
  subst heq
  exact ⟨ids', hends hids', hfind⟩

/-! ### An example -/

/-- A square with a looped vertex beside it. -/
def Builder.square : Builder where
  kind := .undirected
  renumber := false
  rows := #[(0, 1), (1, 2), (2, 3), (3, 0), (4, 4)]

/-- The graph of the square. -/
def Graph.square : Graph :=
  ofRows .undirected (.identity 5) [(0, 1), (1, 2), (2, 3), (3, 0), (4, 4)]

/-- The square keeps all of its edges, and the loop is an arc once. -/
theorem Graph.square_eq : square =
    { kind := .undirected
      numbering := .identity 5
      edges := #[(0, 1), (1, 2), (2, 3), (3, 0), (4, 4)]
      outgoing := #[#[⟨1, 0⟩, ⟨3, 3⟩], #[⟨0, 0⟩, ⟨2, 1⟩], #[⟨1, 1⟩, ⟨3, 2⟩], #[⟨2, 2⟩, ⟨0, 3⟩],
        #[⟨4, 4⟩]]
      incoming := #[] } := by
  have hrows : distinctRows Kind.undirected.edgeKey ∅ [(0, 1), (1, 2), (2, 3), (3, 0), (4, 4)] =
      [(0, 1), (1, 2), (2, 3), (3, 0), (4, 4)] := by
    simp [distinctRows, Kind.edgeKey]
  rw [square, ofRows, hrows]
  rfl

theorem Builder.build_square : square.build = .ok Graph.square := by
  rw [square, Graph.square]
  rfl

@[simp] theorem Graph.nodeCount_square : square.nodeCount = 5 := nodeCount_ofRows

theorem Graph.nodeCount_square_le : square.nodeCount ≤ maxIndex := by
  rw [nodeCount_square]
  decide

@[simp] theorem Graph.edgeCount_square : square.edgeCount = 5 := by
  rw [square_eq]
  rfl

end Betweenness
