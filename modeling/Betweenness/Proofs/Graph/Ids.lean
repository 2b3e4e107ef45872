import Betweenness.Proofs.Graph.Adjacency

/-!
# Ids of vertices and edges

A table lists the ids of a graph in the order of indices and edge numbers. In a consistent graph
every index has an id, so none is left out on the way and rows stay in line with scores.

## Main results

* `Consistent.exists_id`, `Consistent.id_unique`: every vertex has one id.
* `getElem?_vertexIds`, `length_vertexIds`: the ids of the vertices, by index, as long as there
  are fewer than `2 ^ 32` of them.
* `getElem?_vertexIds_iff`, `mem_vertexIds_iff`: an id stands in the row of its index.
* `translate_vertexIds`: translated back, they are all indices in order.
* `getElem?_edgeIds`, `length_edgeIds`: the ids of the ends of edges, by edge number.
-/

namespace Betweenness

/-- Where a function is defined on a whole list, its values are in line with the list. -/
theorem getElem?_filterMap_of_isSome {α β : Type} {f : α → Option β} {l : List α}
    (h : ∀ a ∈ l, (f a).isSome = true) :
    (l.filterMap f).length = l.length ∧ ∀ i : ℕ, (l.filterMap f)[i]? = l[i]?.bind f := by
  induction l with
  | nil => simp
  | cons a l ih =>
      obtain ⟨b, hb⟩ := Option.isSome_iff_exists.mp (h a List.mem_cons_self)
      obtain ⟨hlen, hget⟩ := ih fun x hx => h x (List.mem_cons_of_mem _ hx)
      rw [List.filterMap_cons_some hb]
      refine ⟨by rw [List.length_cons, List.length_cons, hlen], fun i => ?_⟩
      cases i with
      | zero => simp [hb]
      | succ i => simpa using hget i

/-- Ids are translated if all of them have an index. -/
theorem Numbering.exists_translate_iff {n : Numbering} {ids : List ℕ} :
    (∃ indices, n.translate ids = .ok indices) ↔ ∀ id ∈ ids, ∃ v, n.indexOf id = .ok v := by
  constructor
  · rintro ⟨indices, h⟩ id hid
    obtain ⟨v, -, hv⟩ := exists_of_mem_of_forall₂ (mapM_eq_ok_iff.mp h).flip hid
    exact ⟨v, hv⟩
  · intro h
    choose! index hindex using h
    exact ⟨ids.map index, mapM_eq_ok_iff.mpr
      (List.forall₂_map_right_iff.mpr (List.forall₂_same.mpr hindex))⟩

namespace Graph

/-! ### Vertices and their ids -/

namespace Consistent

variable {g : Graph} {a c id v : ℕ} (hg : g.Consistent)

include hg

/-- What has an index is the id of that vertex. -/
theorem idOf_eq (h : g.numbering.indexOf id = .ok v) : g.idOf? v = some id :=
  (hg.numbering_sound.idOf_of_indexOf id v h).2

theorem lt_of_indexOf (h : g.numbering.indexOf id = .ok v) : v < g.nodeCount :=
  hg.vertexCount_eq ▸ (hg.numbering_sound.idOf_of_indexOf id v h).1

/-- No two ids have one index. -/
theorem id_unique (ha : g.numbering.indexOf a = .ok v) (hc : g.numbering.indexOf c = .ok v) :
    a = c :=
  Option.some.inj ((hg.idOf_eq ha).symm.trans (hg.idOf_eq hc))

/-- Every vertex is the index of an id. -/
theorem exists_id (hv : v < g.nodeCount) : ∃ id, g.numbering.indexOf id = .ok v :=
  hg.numbering_sound.exists_indexOf v (hg.vertexCount_eq.symm ▸ hv)

end Consistent

/-! ### Rows of ids -/

variable {g : Graph} (hg : g.Consistent)

include hg

/-- Every vertex has an id. -/
theorem exists_idOf {v : ℕ} (hv : v < g.nodeCount) : ∃ id, g.idOf? v = some id := by
  obtain ⟨id, hid⟩ := hg.exists_id hv
  exact ⟨id, hg.idOf_eq hid⟩

/-- The id of a vertex is the one that has its index. -/
theorem idOf_eq_some_iff {v id : ℕ} (hv : v < g.nodeCount) :
    g.idOf? v = some id ↔ g.numbering.indexOf id = .ok v := by
  constructor
  · intro h
    obtain ⟨id', hid'⟩ := hg.exists_id hv
    rw [hg.idOf_eq hid'] at h
    rwa [← Option.some.inj h]
  · exact hg.idOf_eq

theorem isSome_idOf_of_mem_range {v : ℕ} (hv : v ∈ List.range g.indexCount) :
    (g.idOf? v).isSome = true := by
  obtain ⟨id, hid⟩ := exists_idOf hg (Nat.lt_of_lt_of_le (List.mem_range.mp hv) g.indexCount_le)
  rw [hid]
  rfl

/-- There is one id for every index in the range. -/
theorem length_vertexIds_eq_indexCount : g.vertexIds.length = g.indexCount :=
  (getElem?_filterMap_of_isSome fun _ => isSome_idOf_of_mem_range hg).1.trans List.length_range

/-- The ids are in the order of indices. -/
theorem getElem?_vertexIds_of_lt_indexCount {v : ℕ} (hv : v < g.indexCount) :
    g.vertexIds[v]? = g.idOf? v := by
  have h := (getElem?_filterMap_of_isSome fun _ => isSome_idOf_of_mem_range hg).2 v
  rwa [List.getElem?_range hv, Option.bind_some] at h

section VertexIds

variable (hsize : g.nodeCount ≤ maxIndex)

include hsize

/-- There is one id for every vertex. -/
theorem length_vertexIds : g.vertexIds.length = g.nodeCount :=
  (length_vertexIds_eq_indexCount hg).trans (indexCount_eq hsize)

/-- The ids of the vertices are in the order of indices. -/
theorem getElem?_vertexIds {v : ℕ} (hv : v < g.nodeCount) : g.vertexIds[v]? = g.idOf? v :=
  getElem?_vertexIds_of_lt_indexCount hg ((indexCount_eq hsize).symm ▸ hv)

/-- An id stands in the row of its index. -/
theorem getElem?_vertexIds_iff {v id : ℕ} :
    g.vertexIds[v]? = some id ↔ g.numbering.indexOf id = .ok v := by
  constructor
  · intro h
    have hv : v < g.nodeCount := length_vertexIds hg hsize ▸ (List.getElem?_eq_some_iff.mp h).1
    exact (idOf_eq_some_iff hg hv).mp ((getElem?_vertexIds hg hsize hv).symm.trans h)
  · intro h
    rw [getElem?_vertexIds hg hsize (hg.lt_of_indexOf h)]
    exact hg.idOf_eq h

/-- The ids of a graph are those that have an index. -/
theorem mem_vertexIds_iff {id : ℕ} :
    id ∈ g.vertexIds ↔ ∃ v, g.numbering.indexOf id = .ok v := by
  simp only [List.mem_iff_getElem?, getElem?_vertexIds_iff hg hsize]

/-- An id that a graph does not list has no index. -/
theorem indexOf_of_notMem_vertexIds {id : ℕ} (h : id ∉ g.vertexIds) :
    g.numbering.indexOf id = .error (.vertexNotFound id) :=
  Numbering.indexOf_eq_error fun v hv => h ((mem_vertexIds_iff hg hsize).mpr ⟨v, hv⟩)

/-- Translated back, the ids of the vertices are all indices in order. -/
theorem translate_vertexIds :
    g.numbering.translate g.vertexIds = .ok (List.range g.nodeCount) := by
  refine mapM_eq_ok_iff.mpr (List.forall₂_iff_get.mpr ⟨?length, fun v hid hv => ?entry⟩)
  case length => rw [length_vertexIds hg hsize, List.length_range]
  case entry =>
    rw [List.length_range] at hv
    obtain ⟨id, hindex⟩ := hg.exists_id hv
    have hget : g.vertexIds[v]? = some id :=
      (getElem?_vertexIds hg hsize hv).trans (hg.idOf_eq hindex)
    rw [List.get_eq_getElem, List.get_eq_getElem, List.getElem_range,
      (List.getElem?_eq_some_iff.mp hget).2, hindex]

end VertexIds

/-- The ends of every edge have ids. -/
theorem isSome_endpointIds {ends : ℕ × ℕ} (h : ends ∈ g.edges.toList) :
    (g.endpointIds? ends).isSome = true := by
  obtain ⟨e, he⟩ := List.mem_iff_getElem?.mp h
  rw [Array.getElem?_toList] at he
  obtain ⟨hv, hw⟩ := hg.endpoints_lt e ends.1 ends.2 he
  obtain ⟨id, hid⟩ := exists_idOf hg hv
  obtain ⟨id', hid'⟩ := exists_idOf hg hw
  simp [endpointIds?, hid, hid']

/-- There is one pair of ids for every edge. -/
theorem length_edgeIds : g.edgeIds.length = g.edgeCount :=
  (getElem?_filterMap_of_isSome fun _ => isSome_endpointIds hg).1

/-- The ids of the ends of edges are in the order of edge numbers. -/
theorem getElem?_edgeIds (e : ℕ) : g.edgeIds[e]? = (g.endpoints? e).bind g.endpointIds? := by
  have hedge : g.edges.toList[e]? = g.endpoints? e := Array.getElem?_toList ..
  rw [← hedge]
  exact (getElem?_filterMap_of_isSome fun _ => isSome_endpointIds hg).2 e

end Graph

end Betweenness
