import Betweenness.Proofs.Graph.Loading
import Betweenness.Proofs.Outcome
import Mathlib.Data.Set.Function

/-!
# The ids of a built graph

Scores belong to indices and are reported for ids, so a graph has to lead back from an index to the
id that it stands for. `g.Names ids` says that it does: the ids of the list `ids`, in this order and
none of them twice, are those of the indices `0, …, n - 1`, indices are looked up by them and by
nothing else, and lists of ids are translated entry by entry, up to the first one that is unknown.

A consistent graph names the ids that it lists itself. Of a graph that was built, the list is known
beforehand: `b.loadedIds` tells it from the vertices and rows of the builder.

## Main results

* `Graph.Consistent.names`: a consistent graph and the ids that it lists.
* `Builder.vertexIds_eq_loadedIds`: the list of ids, for both numberings.
* `Builder.build_names`: a built graph and the ids of its builder.
-/

namespace Betweenness

namespace Graph

/-- The ids of a list are the names of the vertices of a graph, in the order of indices. -/
structure Names (g : Graph) (ids : List ℕ) : Prop where
  vertexIds_eq : g.vertexIds = ids
  /-- Indices and ids correspond to each other one to one. -/
  bijOn : Set.BijOn g.idOf? (Set.Iio g.nodeCount) (some '' {id | id ∈ ids})
  /-- Looked up by its id, an index is found again. -/
  indexOf_of_idOf : ∀ v id, v < g.nodeCount → g.idOf? v = some id →
    g.numbering.indexOf id = .ok v
  /-- The index that is found for an id is that of a vertex with this id. -/
  idOf_of_indexOf : ∀ v id, g.numbering.indexOf id = .ok v →
    v < g.nodeCount ∧ g.idOf? v = some id
  /-- No index is found for any other id. -/
  indexOf_of_notMem : ∀ id, id ∉ ids → g.numbering.indexOf id = .error (.vertexNotFound id)
  /-- A list is translated if it has these ids only. -/
  exists_translate_iff : ∀ chosen,
    (∃ indices, g.numbering.translate chosen = .ok indices) ↔ ∀ id ∈ chosen, id ∈ ids
  /-- The ids of the indices are those of the list, in its order and with its repeats. -/
  idOf_of_translate : ∀ chosen indices, g.numbering.translate chosen = .ok indices →
    indices.map g.idOf? = chosen.map some
  /-- The first id that is no name is reported. -/
  translate_of_notMem : ∀ before id after, (∀ a ∈ before, a ∈ ids) → id ∉ ids →
    g.numbering.translate (before ++ id :: after) = .error (.vertexNotFound id)

variable {g : Graph} (hg : g.Consistent) (hsize : g.nodeCount ≤ maxIndex)

include hg

/-- Translated ids are the ids of their indices, in their order and with their repeats. -/
theorem map_idOf_of_translate {chosen indices : List ℕ}
    (h : g.numbering.translate chosen = .ok indices) :
    indices.map g.idOf? = chosen.map some := by
  have htranslated := mapM_eq_ok_iff.mp h
  clear h
  induction htranslated with
  | nil => rfl
  | cons hv _ ih => rw [List.map_cons, List.map_cons, hg.idOf_eq hv, ih]

include hsize

/-- Indices and the ids that a graph lists correspond to each other one to one. -/
theorem bijOn_idOf : Set.BijOn g.idOf? (Set.Iio g.nodeCount) (some '' {id | id ∈ g.vertexIds}) := by
  refine ⟨fun v hv => ?mapsTo, fun v hv w hw hsame => ?injOn, ?surjOn⟩
  case mapsTo =>
    obtain ⟨id, hid⟩ := hg.exists_id hv
    exact ⟨id, (mem_vertexIds_iff hg hsize).mpr ⟨v, hid⟩, (hg.idOf_eq hid).symm⟩
  case injOn =>
    obtain ⟨a, ha⟩ := hg.exists_id hv
    obtain ⟨c, hc⟩ := hg.exists_id hw
    rw [hg.idOf_eq ha, hg.idOf_eq hc, Option.some.injEq] at hsame
    exact Except.ok.inj (ha.symm.trans (hsame ▸ hc))
  case surjOn =>
    rintro - ⟨id, hid, rfl⟩
    obtain ⟨v, hv⟩ := (mem_vertexIds_iff hg hsize).mp hid
    exact ⟨v, hg.lt_of_indexOf hv, hg.idOf_eq hv⟩

/-- A consistent graph is named by the ids that it lists. -/
theorem Consistent.names : g.Names g.vertexIds where
  vertexIds_eq := rfl
  bijOn := bijOn_idOf hg hsize
  indexOf_of_idOf v id hv := (idOf_eq_some_iff hg hv).mp
  idOf_of_indexOf v id h := ⟨hg.lt_of_indexOf h, hg.idOf_eq h⟩
  indexOf_of_notMem id h := indexOf_of_notMem_vertexIds hg hsize h
  exists_translate_iff chosen := by
    simp only [Numbering.exists_translate_iff, mem_vertexIds_iff hg hsize]
  idOf_of_translate chosen indices h := map_idOf_of_translate hg h
  translate_of_notMem before id after hbefore hid :=
    mapM_eq_error (fun a ha => (mem_vertexIds_iff hg hsize).mp (hbefore a ha))
      (indexOf_of_notMem_vertexIds hg hsize hid)

/-- The ids of a graph are a list if an index is found by the id in its place. -/
theorem vertexIds_eq_of_indexOf {ids : List ℕ}
    (h : ∀ v id, ids[v]? = some id ↔ g.numbering.indexOf id = .ok v) : g.vertexIds = ids :=
  List.ext_getElem? fun v => Option.ext fun id =>
    (getElem?_vertexIds_iff hg hsize).trans (h v id).symm

end Graph

namespace Builder

/-- The ids of the vertices that a builder leads to, by index. With a table they are the declared
ones, followed by the other ends of rows in the order of their first occurrence, and without one all
numbers up to the greatest id that is mentioned. -/
def loadedIds (b : Builder) : List ℕ :=
  if b.renumber then b.vertices.toList ++ (b.rowIds.filter (· ∉ b.vertices.toList)).eraseDups
  else match b.mentioned.max? with
    | none => []
    | some last => List.range (last + 1)

variable {b : Builder} {g : Graph} {n : Numbering} {v id : ℕ}

/-- With a table, the loaded ids stand in the order in which they were registered. -/
theorem getElem?_loadedIds_of_table (hmode : b.renumber = true) (hn : b.numbering = .ok n) :
    b.loadedIds[v]? = some id ↔ n.indexOf id = .ok v := by
  rw [numbering, if_pos hmode] at hn
  obtain ⟨t, ht, rfl⟩ := map_eq_ok_iff.mp hn
  obtain ⟨hsound, hids⟩ := ids_of_idTable ht
  have hlisted : b.loadedIds = t.ids.toList := by
    rw [loadedIds, if_pos hmode, hids, List.removeAll]
    simp
  rw [hlisted, Array.getElem?_toList, Numbering.indexOf_table_iff]
  exact (hsound id v).symm

/-- Without a table, a loaded id stands in the place that it names. -/
theorem getElem?_loadedIds_of_identity (hmode : b.renumber = false) (hn : b.numbering = .ok n) :
    b.loadedIds[v]? = some id ↔ n.indexOf id = .ok v := by
  rw [indexOf_iff_of_identity hmode hn, lt_vertexCount_iff_of_identity hmode hn, loadedIds,
    if_neg (by simp [hmode])]
  cases hlast : b.mentioned.max? with
  | none => simp [List.max?_eq_none_iff.mp hlast]
  | some last =>
      obtain ⟨hmem, hmax⟩ := List.max?_eq_some_iff.mp hlast
      have hlt : (∃ a ∈ b.mentioned, id ≤ a) ↔ id < last + 1 := by
        constructor
        · rintro ⟨a, ha, hid⟩
          exact Nat.lt_succ_of_le (Nat.le_trans hid (hmax a ha))
        · intro hid
          exact ⟨last, hmem, Nat.le_of_lt_succ hid⟩
      simp only [hlt, List.getElem?_eq_some_iff, List.length_range, List.getElem_range,
        exists_prop]
      constructor
      · rintro ⟨hv, rfl⟩
        exact ⟨rfl, hv⟩
      · rintro ⟨rfl, hid⟩
        exact ⟨hid, rfl⟩

/-- The ids of a built graph are those that were loaded. -/
theorem vertexIds_eq_loadedIds (hb : b.build = .ok g) (hsize : g.nodeCount ≤ maxIndex) :
    g.vertexIds = b.loadedIds := by
  have hn := (numbering_of_build hb).1
  refine Graph.vertexIds_eq_of_indexOf (build_consistent hb) hsize fun v id => ?_
  cases hmode : b.renumber with
  | true => exact getElem?_loadedIds_of_table hmode hn
  | false => exact getElem?_loadedIds_of_identity hmode hn

/-- The vertices of a built graph, of which there are fewer than `2 ^ 32`, have the ids that were
loaded as their names. -/
theorem build_names (hb : b.build = .ok g) (hsize : g.nodeCount ≤ maxIndex) :
    g.Names b.loadedIds :=
  vertexIds_eq_loadedIds hb hsize ▸ (build_consistent hb).names hsize

/-- Two declared vertices and rows that lead to others. -/
def junction : Builder where
  kind := .directed
  vertices := #[30, 10]
  rows := #[(10, 20), (40, 20), (20, 30)]

/-- The declared vertices of the junction come first. Of a list with unknown ids, the first of them
is reported. -/
theorem build_names_junction : ∃ g, junction.build = .ok g ∧ g.nodeCount ≤ maxIndex ∧
    g.Names [30, 10, 20, 40] ∧
    (∃ indices, g.numbering.translate [20, 30, 20] = .ok indices) ∧
    g.numbering.translate [10, 7, 8] = .error (.vertexNotFound 7) := by
  obtain ⟨g, hb⟩ := (exists_build_iff_of_table (b := junction) rfl).mpr
    ⟨by decide, by decide, by decide, by decide⟩
  have hsize : g.nodeCount ≤ maxIndex := by
    rw [nodeCount_of_build rfl hb]
    decide
  have hnames : g.Names [30, 10, 20, 40] := build_names hb hsize
  exact ⟨g, hb, hsize, hnames, (hnames.exists_translate_iff _).mpr (by decide),
    hnames.translate_of_notMem [10] 7 [8] (by decide) (by decide)⟩

end Builder

end Betweenness
