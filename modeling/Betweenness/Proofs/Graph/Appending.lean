import Betweenness.Proofs.Graph.Repeats

/-!
# Rows that are loaded later

A builder that is given further rows builds a graph that begins with the one it would have built
without them: vertices and edges keep their numbers and ids, and every list of arcs goes on where it
ended. Nothing that is refused without the rows is accepted with them.

A numbering extends another one if ids keep their indices (`Numbering.Extends`). As numberings are
one-to-one, indices then keep their ids as well, and there are no fewer of them.

## Main results

* `IdTable.indexOf?_of_insertAll`: the run lemma. Registered ids keep their indices.
* `Builder.exists_numbering_of_addEdges`: further rows extend the numbering.
* `distinctRows_append`, `adjacency_append`: what is kept of further rows comes last.
* `Builder.begins_of_addEdges`: the graph without the rows begins the one with them.
* `Builder.exists_build_of_addEdges`: and there is one without them if there is one with them.
-/

namespace Betweenness

/-! ### Numberings -/

namespace IdTable

variable {t u : IdTable} {a id index i : ℕ} {ids : List ℕ}

/-- **Step lemma**: an id that has an index keeps it when another one is registered. -/
theorem indexOf?_of_insert (h : t.insert a = .ok (i, u)) (hid : t.indexOf? id = some index) :
    u.indexOf? id = some index := by
  cases ha : t.indexOf? a with
  | some i' =>
      rw [insert_of_registered ha] at h
      cases h
      exact hid
  | none =>
      rw [insert_of_new ha] at h
      exact indexOf?_of_insertNew h hid

/-- **Run lemma**: so it does when others are registered in turn. -/
theorem indexOf?_of_insertAll (h : t.insertAll ids = .ok u) (hid : t.indexOf? id = some index) :
    u.indexOf? id = some index := by
  refine foldlM_keeps (P := fun t => t.indexOf? id = some index) (fun t a t' ht h => ?_) hid h
  obtain ⟨⟨i, v⟩, hinsert, hpure⟩ := bind_eq_ok_iff.mp h
  cases hpure
  exact indexOf?_of_insert hinsert ht

end IdTable

namespace Numbering

variable {n n' : Numbering}

/-- Whatever has an index has the same one in the other numbering. -/
def Extends (n n' : Numbering) : Prop :=
  ∀ id index, n.indexOf id = .ok index → n'.indexOf id = .ok index

namespace Extends

variable (h : n.Extends n') (hn : n.Sound) (hn' : n'.Sound)

include h

theorem translates {row ends : ℕ × ℕ} (hends : n.Translates row ends) : n'.Translates row ends :=
  ⟨h _ _ hends.1, h _ _ hends.2⟩

include hn hn'

/-- Every index is one in the other numbering, and of the same id. -/
theorem idOf_eq {index : ℕ} (hindex : index < n.vertexCount) :
    index < n'.vertexCount ∧ n'.idOf? index = n.idOf? index := by
  obtain ⟨id, hid⟩ := hn.exists_indexOf index hindex
  obtain ⟨hlt, hid'⟩ := hn'.idOf_of_indexOf id index (h id index hid)
  exact ⟨hlt, hid'.trans (hn.idOf_of_indexOf id index hid).2.symm⟩

/-- There are no fewer indices. -/
theorem vertexCount_le : n.vertexCount ≤ n'.vertexCount :=
  le_of_forall_lt fun _ hindex => (h.idOf_eq hn hn' hindex).1

end Extends

end Numbering

/-! ### Rows and arcs -/

/-- What is kept of some rows is kept when others follow, and comes first. -/
theorem distinctRows_append {key : ℕ × ℕ → ℕ × ℕ} {seen : Std.HashSet (ℕ × ℕ)}
    {rows more : List (ℕ × ℕ)} :
    distinctRows key seen rows <+: distinctRows key seen (rows ++ more) := by
  induction rows generalizing seen with
  | nil => exact List.nil_prefix
  | cons row rows ih =>
      rw [List.cons_append, distinctRows, distinctRows]
      split
      · exact ih
      · exact (List.prefix_cons_inj row).mpr ih

/-- With further edges, and further vertices, the list of arcs that a vertex gets goes on where it
ended. -/
theorem adjacency_append {f : (ℕ × ℕ) × ℕ → List (ℕ × Arc)} {edges edges' : List (ℕ × ℕ)}
    {count count' v : ℕ} (hedges : edges <+: edges') (hcount : count ≤ count') :
    ((adjacency count (edges.zipIdx.flatMap f)).getD v #[]).toList <+:
      ((adjacency count' (edges'.zipIdx.flatMap f)).getD v #[]).toList := by
  obtain ⟨more, rfl⟩ := hedges
  rw [toList_getD_adjacency, toList_getD_adjacency]
  split
  · rename_i hv
    rw [if_pos (Nat.lt_of_lt_of_le hv hcount), List.zipIdx_append, List.flatMap_append,
      List.filter_append, List.map_append]
    exact List.prefix_append _ _
  · exact List.nil_prefix

/-! ### Graphs -/

namespace Graph

/-- A graph begins another one: vertices and edges have the same numbers, ids and ends in both, and
the arcs of a vertex are the first ones that it has in the other graph. -/
structure Begins (g g' : Graph) : Prop where
  kind_eq : g'.kind = g.kind
  nodeCount_le : g.nodeCount ≤ g'.nodeCount
  edgeCount_le : g.edgeCount ≤ g'.edgeCount
  idOf_eq : ∀ v < g.nodeCount, g'.idOf? v = g.idOf? v
  endpoints_eq : ∀ e < g.edgeCount, g'.endpoints? e = g.endpoints? e
  out_append : ∀ v, (g.out v).toList <+: (g'.out v).toList
  into_append : ∀ v, (g.into v).toList <+: (g'.into v).toList

/-- The graph of some rows begins that of more rows, if the numbering of the second extends that of
the first. -/
theorem begins_ofRows {kind : Kind} {n n' : Numbering} {rows more : List (ℕ × ℕ)}
    (h : n.Extends n') (hn : n.Sound) (hn' : n'.Sound) :
    (ofRows kind n rows).Begins (ofRows kind n' (rows ++ more)) := by
  have hcount := h.vertexCount_le hn hn'
  have hedges : distinctRows kind.edgeKey ∅ rows <+: distinctRows kind.edgeKey ∅ (rows ++ more) :=
    distinctRows_append
  refine
    { kind_eq := rfl
      nodeCount_le := ?nodeCount_le
      edgeCount_le := hedges.length_le
      idOf_eq := ?idOf_eq
      endpoints_eq := ?endpoints_eq
      out_append := fun v => adjacency_append hedges hcount
      into_append := ?into_append }
  case nodeCount_le => rwa [nodeCount_ofRows, nodeCount_ofRows]
  case idOf_eq =>
    intro v hv
    rw [nodeCount_ofRows] at hv
    exact (h.idOf_eq hn hn' hv).2
  case endpoints_eq =>
    intro e he
    rw [endpoints?_ofRows, endpoints?_ofRows]
    exact (List.prefix_iff_getElem?.mp hedges e he).trans (List.getElem?_eq_getElem _).symm
  case into_append =>
    intro v
    cases kind with
    | directed => exact adjacency_append hedges hcount
    | undirected => exact adjacency_append hedges hcount

end Graph

/-! ### Builders -/

namespace Builder

variable {b : Builder} {n' : Numbering} {g g' : Graph} {rows : List (ℕ × ℕ)}

theorem toList_rows_addEdges : (b.addEdges rows).rows.toList = b.rows.toList ++ rows := by
  rw [addEdges, List.foldl_push_eq_append', Array.toList_append]

theorem rowIds_addEdges : (b.addEdges rows).rowIds = b.rowIds ++ Kind.endsOf rows := by
  rw [rowIds, toList_rows_addEdges, List.flatMap_append]
  rfl

/-- The table of a builder goes on with the ends of further rows. -/
theorem exists_idTable_of_addEdges {t' : IdTable} (h : (b.addEdges rows).idTable = .ok t') :
    ∃ t, b.idTable = .ok t ∧ t.insertAll (Kind.endsOf rows) = .ok t' := by
  obtain ⟨declared, hdeclared, hall⟩ := bind_eq_ok_iff.mp h
  rw [rowIds_addEdges, IdTable.insertAll_append] at hall
  obtain ⟨t, ht, hrest⟩ := bind_eq_ok_iff.mp hall
  exact ⟨t, bind_eq_ok_iff.mpr ⟨declared, hdeclared, ht⟩, hrest⟩

/-- Without further rows the greatest id is no greater, so it is an index of its own as well. -/
theorem exists_identityCount_of_addEdges {count' : ℕ}
    (h : (b.addEdges rows).identityCount = .ok count') :
    ∃ count, b.identityCount = .ok count ∧ count ≤ count' := by
  have hmentioned : ∀ id ∈ b.mentioned, id < count' := by
    intro id hid
    refine (lt_identityCount_iff h).mpr ⟨id, ?_, Nat.le_refl id⟩
    rw [mentioned, rowIds_addEdges, ← List.append_assoc]
    exact List.mem_append_left _ hid
  have hfirst : firstRepeat? ∅ b.vertices.toList = none := by
    rw [identityCount] at h
    split at h
    · cases h
    · assumption
  rw [identityCount, hfirst]
  dsimp only
  split
  · exact ⟨0, rfl, Nat.zero_le _⟩
  · rename_i last hlast
    have hlt := hmentioned last (List.max?_eq_some_iff.mp hlast).1
    exact ⟨last + 1, if_pos (Nat.lt_of_lt_of_le hlt (identityCount_le h)), hlt⟩

/-- Further rows extend the numbering. -/
theorem exists_numbering_of_addEdges (h : (b.addEdges rows).numbering = .ok n') :
    ∃ n, b.numbering = .ok n ∧ n.Extends n' := by
  rw [numbering] at h ⊢
  split at h
  · have hmode : b.renumber = true := ‹_›
    obtain ⟨t', ht', rfl⟩ := map_eq_ok_iff.mp h
    obtain ⟨t, ht, hrest⟩ := exists_idTable_of_addEdges ht'
    refine ⟨.table t, ?_, fun id index hid => ?_⟩
    · rw [if_pos hmode, ht]
      rfl
    · rw [Numbering.indexOf_table_iff] at hid ⊢
      exact IdTable.indexOf?_of_insertAll hrest hid
  · have hmode : ¬ b.renumber = true := ‹_›
    obtain ⟨count', hcount', rfl⟩ := map_eq_ok_iff.mp h
    obtain ⟨count, hcount, hle⟩ := exists_identityCount_of_addEdges hcount'
    refine ⟨.identity count, ?_, fun id index hid => ?_⟩
    · rw [if_neg hmode, hcount]
      rfl
    · rw [Numbering.indexOf] at hid ⊢
      split at hid
      · rename_i hlt
        rwa [if_pos (Nat.lt_of_lt_of_le hlt hle)]
      · cases hid

/-- Fewer vertices take no more memory. -/
theorem checkMemory_of_le {count count' : ℕ} (hle : count ≤ count')
    (h : b.checkMemory count' = .ok ()) : b.checkMemory count = .ok () := by
  rw [checkMemory] at h ⊢
  split at h
  · cases h
  · rename_i hfits
    refine if_neg fun hexceeds => hfits (Nat.lt_of_lt_of_le hexceeds ?_)
    exact Nat.div_le_div_right (Nat.add_le_add_right (Nat.mul_le_mul_right _ hle) _)

/-- The rows that were there have the same ends by both numberings. -/
theorem exists_append_of_translates {n : Numbering} {ends ends' : List (ℕ × ℕ)}
    (hextends : n.Extends n') (hends : List.Forall₂ n.Translates b.rows.toList ends)
    (hends' : List.Forall₂ n'.Translates (b.addEdges rows).rows.toList ends') :
    ∃ more, ends' = ends ++ more := by
  have hkept : List.Forall₂ n'.Translates b.rows.toList ends :=
    hends.imp fun _ _ => hextends.translates
  have htaken : List.Forall₂ n'.Translates b.rows.toList (ends'.take b.rows.toList.length) := by
    have htaken := List.forall₂_take b.rows.toList.length hends'
    rwa [toList_rows_addEdges, List.take_left] at htaken
  refine ⟨ends'.drop b.rows.toList.length, ?_⟩
  rw [List.right_unique_forall₂' Numbering.rightUnique_translates hkept htaken]
  exact (List.take_append_drop _ _).symm

/-- What is built with further rows begins with what is built without them. -/
theorem begins_of_addEdges (hb : b.build = .ok g) (hb' : (b.addEdges rows).build = .ok g') :
    g.Begins g' := by
  obtain ⟨m, ends, hm, hends, rfl⟩ := build_eq_ok hb
  obtain ⟨m', ends', hm', hends', rfl⟩ := build_eq_ok hb'
  obtain ⟨n, hn, hextends⟩ := exists_numbering_of_addEdges hm'
  obtain rfl : m = n := Except.ok.inj (hm.symm.trans hn)
  obtain ⟨more, rfl⟩ := exists_append_of_translates hextends hends hends'
  exact Graph.begins_ofRows hextends (numbering_sound hm) (numbering_sound hm')

/-- If a graph is built with further rows, one is built without them as well, and it begins the
other: no vertex and no edge is lost or gets another number, id or ends, and the arcs of a vertex
stay in their places. -/
theorem exists_build_of_addEdges (h : (b.addEdges rows).build = .ok g') :
    ∃ g, b.build = .ok g ∧ g.Begins g' := by
  obtain ⟨n', hn', hmemory', hsize'⟩ := exists_build_iff.mp ⟨g', h⟩
  obtain ⟨n, hn, hextends⟩ := exists_numbering_of_addEdges hn'
  have hcount := hextends.vertexCount_le (numbering_sound hn) (numbering_sound hn')
  have hsize : b.rows.size ≤ maxIndex := by
    rw [← Array.length_toList] at hsize' ⊢
    rw [toList_rows_addEdges, List.length_append] at hsize'
    exact Nat.le_of_add_right_le hsize'
  obtain ⟨g, hb⟩ := exists_build_iff.mpr ⟨n, hn, checkMemory_of_le hcount hmemory', hsize⟩
  exact ⟨g, hb, begins_of_addEdges hb h⟩

/-- The square without its last two edges, one that closes it and a loop at a vertex of its own. -/
theorem exists_build_of_addEdges_square :
    let path := square.withRows [(0, 1), (1, 2), (2, 3)]
    (path.addEdges [(3, 0), (4, 4)]).build = .ok Graph.square ∧
    ∃ g, path.build = .ok g ∧ g.Begins Graph.square := by
  have hsquare : ((square.withRows [(0, 1), (1, 2), (2, 3)]).addEdges [(3, 0), (4, 4)]).build =
      .ok Graph.square := build_square
  exact ⟨hsquare, exists_build_of_addEdges hsquare⟩

end Builder

end Betweenness
