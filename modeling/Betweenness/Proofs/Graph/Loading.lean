import Betweenness.Proofs.Graph.Ids
import Betweenness.Proofs.Graph.Walk
import Betweenness.Proofs.Registration
import Mathlib.Data.Finset.Card

/-!
# What is loaded

A built graph speaks of indices and edge numbers, a builder of ids and rows. Here the one is put in
terms of the other: which ids have an index, how many indices there are, which rows have become
edges, and between which ids there is a link. None of it depends on the order in which ids and rows
come, apart from the order of indices and edges themselves.

## Main results

* `IdTable.ids_of_insertAll`: the run lemma. Registered ids come in the order of their first
  occurrence.
* `Builder.exists_idTable_iff`, `Builder.exists_build_iff`: when a table of ids and a graph are
  made.
* `Builder.exists_indexOf_iff_of_table`, `Builder.indexOf_iff_of_identity`: the ids of a graph, for
  both numberings.
* `Builder.edgeIds_eq`: the edges are the rows that repeat no earlier one, in their order.
* `Builder.linked_iff`, `Builder.exists_loads`: links are those of the rows.
-/

namespace Betweenness

/-! ### Registered ids in order -/

namespace IdTable

variable {t u : IdTable} {id index : ℕ} {ids : List ℕ}

theorem Sound.mem_ids_iff (ht : t.Sound) :
    id ∈ t.ids.toList ↔ ∃ index, t.indexOf? id = some index := by
  rw [List.mem_iff_getElem?]
  refine exists_congr fun index => ?_
  rw [ht, idAt?, Array.getElem?_toList]

/-- No id is listed twice. -/
theorem Sound.nodup_ids (ht : t.Sound) : t.ids.toList.Nodup := by
  refine List.nodup_iff_getElem?_ne_getElem?.mpr fun i j hij hj heq => ?_
  rw [Array.getElem?_toList, Array.getElem?_toList] at heq
  have hlast : t.idAt? j = some t.ids[j] := Array.getElem?_eq_getElem hj
  have hfirst : t.idAt? i = some t.ids[j] := heq.trans hlast
  have hindex := ((ht _ _).mpr hfirst).symm.trans ((ht _ _).mpr hlast)
  exact Nat.ne_of_lt hij (Option.some.inj hindex)

/-- A table has one index for every id. -/
theorem Sound.size_eq (ht : t.Sound) : t.size = t.ids.toList.toFinset.card := by
  rw [List.toFinset_card_of_nodup ht.nodup_ids, Array.length_toList, size]

/-- A new id comes after those that were there. -/
theorem ids_of_insertNew (h : t.insertNew id = .ok (index, u)) :
    u.ids.toList = t.ids.toList ++ [id] := by
  obtain ⟨-, -, hgains⟩ := gains_of_insertNew h
  rw [hgains.ids_eq, Array.toList_push]

/-- **Run lemma**: new ids are listed in their order. -/
theorem ids_of_insertAllNew (h : t.insertAllNew ids = .ok u) :
    u.ids.toList = t.ids.toList ++ ids := by
  induction ids generalizing t with
  | nil =>
      cases h
      simp
  | cons id ids ih =>
      rw [insertAllNew_cons] at h
      obtain ⟨⟨index, v⟩, hv, h⟩ := bind_eq_ok_iff.mp h
      rw [ih h, ids_of_insertNew hv, List.append_assoc, List.singleton_append]

theorem insertAll_cons (t : IdTable) (id : ℕ) (ids : List ℕ) :
    t.insertAll (id :: ids) = (t.insert id).bind fun x => x.2.insertAll ids := by
  cases h : t.insert id <;> simp [insertAll, h, bind, Except.bind, pure, Except.pure]

/-- An id that is registered changes nothing, and one that is not comes last. -/
theorem ids_of_insert (ht : t.Sound) (h : t.insert id = .ok (index, u)) :
    id ∈ t.ids.toList ∧ u = t ∨ id ∉ t.ids.toList ∧ u.ids.toList = t.ids.toList ++ [id] := by
  rw [ht.mem_ids_iff]
  cases hid : t.indexOf? id with
  | some i =>
      rw [insert_of_registered hid] at h
      cases h
      exact .inl ⟨⟨_, rfl⟩, rfl⟩
  | none =>
      rw [insert_of_new hid] at h
      refine .inr ⟨?_, ids_of_insertNew h⟩
      rintro ⟨i, hi⟩
      cases hi

/-- **Run lemma**: the ids that are not registered yet are listed in the order of their first
occurrence. -/
theorem ids_of_insertAll (ht : t.Sound) (h : t.insertAll ids = .ok u) :
    u.ids.toList = t.ids.toList ++ (ids.removeAll t.ids.toList).eraseDups := by
  induction ids generalizing t with
  | nil =>
      cases h
      simp [List.removeAll]
  | cons id ids ih =>
      rw [insertAll_cons] at h
      obtain ⟨⟨index, v⟩, hv, h⟩ := bind_eq_ok_iff.mp h
      rw [ih (sound_insert ht hv) h, List.cons_removeAll]
      rcases ids_of_insert ht hv with ⟨hmem, rfl⟩ | ⟨hmem, hids⟩
      · rw [if_neg (by simpa using hmem)]
      · have hrest : ids.removeAll (t.ids.toList ++ [id]) =
            (ids.removeAll t.ids.toList).filter fun a => !a == id := by
          rw [List.removeAll, List.removeAll, List.filter_filter]
          refine List.filter_congr fun a _ => ?_
          by_cases ha : a = id <;> simp [ha]
        rw [if_pos (by simpa using hmem), List.eraseDups_cons, hids, hrest, List.append_assoc,
          List.singleton_append]

theorem mem_ids_of_insertAll (ht : t.Sound) (h : t.insertAll ids = .ok u) :
    id ∈ u.ids.toList ↔ id ∈ t.ids.toList ∨ id ∈ ids := by
  rw [ids_of_insertAll ht h, List.mem_append, List.mem_eraseDups, List.removeAll, List.mem_filter]
  by_cases hid : id ∈ t.ids.toList <;> simp [hid]

/-- Ids that are registered change nothing. -/
theorem insertAll_of_registered (ht : t.Sound) (h : ∀ id ∈ ids, id ∈ t.ids.toList) :
    t.insertAll ids = .ok t := by
  induction ids with
  | nil => rfl
  | cons id ids ih =>
      obtain ⟨index, hindex⟩ := ht.mem_ids_iff.mp (h id List.mem_cons_self)
      rw [insertAll_cons, insert_of_registered hindex]
      exact ih fun id hid => h id (List.mem_cons_of_mem _ hid)

theorem insertAll_append (t : IdTable) (ids ids' : List ℕ) :
    t.insertAll (ids ++ ids') = (t.insertAll ids).bind (·.insertAll ids') :=
  List.foldlM_append

/-- A registration leaves no more ids than there are indices. -/
theorem size_le_of_insertNew (h : t.insertNew id = .ok (index, u)) : u.size ≤ maxIndex + 1 := by
  obtain ⟨-, -, hgains⟩ := gains_of_insertNew h
  rw [insertNew_eq] at h
  split at h
  · cases h
  · rw [hgains.size_eq]
    omega

theorem size_le_of_insertAllNew (ht : t.size ≤ maxIndex + 1) (h : t.insertAllNew ids = .ok u) :
    u.size ≤ maxIndex + 1 := by
  refine foldlM_keeps (P := fun t => t.size ≤ maxIndex + 1) (fun t id t' _ h => ?_) ht h
  obtain ⟨⟨index, t''⟩, hnew, hpure⟩ := bind_eq_ok_iff.mp h
  cases hpure
  exact size_le_of_insertNew hnew

theorem size_le_of_insertAll (ht : t.size ≤ maxIndex + 1) (h : t.insertAll ids = .ok u) :
    u.size ≤ maxIndex + 1 := by
  refine foldlM_keeps (P := fun t => t.size ≤ maxIndex + 1) (fun t id t' ht h => ?_) ht h
  obtain ⟨⟨index, t''⟩, hinsert, hpure⟩ := bind_eq_ok_iff.mp h
  cases hpure
  cases hid : t.indexOf? id with
  | some i =>
      rw [insert_of_registered hid] at hinsert
      cases hinsert
      exact ht
  | none =>
      rw [insert_of_new hid] at hinsert
      exact size_le_of_insertNew hinsert

/-- **Run lemma**: ids are registered as long as there are enough indices for all of them. -/
theorem exists_insertAll (ht : t.Sound)
    (hroom : (t.ids.toList ++ ids).toFinset.card ≤ maxIndex + 1) :
    ∃ u, t.insertAll ids = .ok u := by
  -- The ids of the table and those still to come are the same ones after every step.
  induction ids generalizing t with
  | nil => exact ⟨t, rfl⟩
  | cons id ids ih =>
      rw [insertAll_cons]
      cases hid : t.indexOf? id with
      | some i =>
          rw [insert_of_registered hid]
          have hmem : id ∈ t.ids.toList := ht.mem_ids_iff.mpr ⟨i, hid⟩
          have hsame : (t.ids.toList ++ id :: ids).toFinset = (t.ids.toList ++ ids).toFinset := by
            ext a
            simp only [List.mem_toFinset, List.mem_append, List.mem_cons]
            constructor
            · rintro (ha | rfl | ha)
              exacts [.inl ha, .inl hmem, .inr ha]
            · rintro (ha | ha)
              exacts [.inl ha, .inr (.inr ha)]
          exact ih ht (hsame ▸ hroom)
      | none =>
          have hnotMem : id ∉ t.ids.toList := by
            rw [ht.mem_ids_iff, hid]
            rintro ⟨i, hi⟩
            cases hi
          have hsize : t.size ≤ maxIndex := by
            have hsub : Insert.insert id t.ids.toList.toFinset ⊆
                (t.ids.toList ++ id :: ids).toFinset := by
              intro a
              simp only [Finset.mem_insert, List.mem_toFinset, List.mem_append, List.mem_cons]
              rintro (rfl | ha)
              exacts [.inr (.inl rfl), .inl ha]
            have hcard := Finset.card_le_card hsub
            rw [Finset.card_insert_of_notMem (by simpa using hnotMem), ← ht.size_eq] at hcard
            omega
          obtain ⟨u, hu, -⟩ := exists_insertNew hsize hid
          rw [insert_of_new hid, hu]
          refine ih (sound_insertNew ht hu) ?_
          rw [ids_of_insertNew hu, List.append_assoc, List.singleton_append]
          exact hroom

end IdTable

/-! ### The ids of a builder -/

namespace Builder

/-- The ids that are declared or stand in a row, with repeats. -/
def mentioned (b : Builder) : List ℕ := b.vertices.toList ++ b.rowIds

/-- A row leads from `a` to `c`, or from `c` to `a` where edges have no direction. -/
def Loads (b : Builder) (a c : ℕ) : Prop :=
  (a, c) ∈ b.rows.toList ∨ b.kind = .undirected ∧ (c, a) ∈ b.rows.toList

variable {b : Builder} {t : IdTable} {n : Numbering} {id index a c : ℕ} {row : ℕ × ℕ}

theorem mem_rowIds_of_mem (h : row ∈ b.rows.toList) : row.1 ∈ b.rowIds ∧ row.2 ∈ b.rowIds :=
  ⟨List.mem_flatMap.mpr ⟨row, h, by simp⟩, List.mem_flatMap.mpr ⟨row, h, by simp⟩⟩

theorem Loads.mem_rowIds (h : b.Loads a c) : a ∈ b.rowIds ∧ c ∈ b.rowIds := by
  rcases h with h | ⟨-, h⟩
  · exact mem_rowIds_of_mem h
  · exact (mem_rowIds_of_mem h).symm

theorem Loads.mentioned (h : b.Loads a c) : a ∈ b.mentioned ∧ c ∈ b.mentioned :=
  ⟨List.mem_append_right _ h.mem_rowIds.1, List.mem_append_right _ h.mem_rowIds.2⟩

/-- The ids at the ends of rows are those that a row leads from or to. -/
theorem mem_rowIds_iff : id ∈ b.rowIds ↔ ∃ a, b.Loads id a ∨ b.Loads a id := by
  constructor
  · intro hid
    obtain ⟨⟨a, c⟩, hrow, hmem⟩ := List.mem_flatMap.mp hid
    rcases List.mem_pair.mp hmem with rfl | rfl
    · exact ⟨c, .inl (.inl hrow)⟩
    · exact ⟨a, .inr (.inl hrow)⟩
  · rintro ⟨a, h | h⟩
    · exact h.mem_rowIds.1
    · exact h.mem_rowIds.2

/-- The ids of the table of a builder are the declared ones in order, and then the ends of rows in
the order of their first occurrence. -/
theorem ids_of_idTable (h : b.idTable = .ok t) : t.Sound ∧
    t.ids.toList = b.vertices.toList ++ (b.rowIds.removeAll b.vertices.toList).eraseDups := by
  obtain ⟨declared, hdeclared, hall⟩ := bind_eq_ok_iff.mp h
  have hsound := IdTable.sound_ofIds hdeclared
  have hids : declared.ids.toList = b.vertices.toList := IdTable.ids_of_insertAllNew hdeclared
  exact ⟨IdTable.sound_insertAll hsound hall, hids ▸ IdTable.ids_of_insertAll hsound hall⟩

/-- The ids of the table of a builder are those that are mentioned. -/
theorem mem_ids_of_idTable (h : b.idTable = .ok t) : id ∈ t.ids.toList ↔ id ∈ b.mentioned := by
  obtain ⟨declared, hdeclared, hall⟩ := bind_eq_ok_iff.mp h
  have hids : declared.ids.toList = b.vertices.toList := IdTable.ids_of_insertAllNew hdeclared
  rw [IdTable.mem_ids_of_insertAll (IdTable.sound_ofIds hdeclared) hall, hids, mentioned,
    List.mem_append]

theorem size_of_idTable (h : b.idTable = .ok t) : t.size = b.mentioned.toFinset.card := by
  rw [(ids_of_idTable h).1.size_eq]
  congr 1
  ext id
  rw [List.mem_toFinset, List.mem_toFinset, mem_ids_of_idTable h]

/-- There is a table if no vertex is declared twice and there are enough indices. -/
theorem exists_idTable_iff : (∃ t, b.idTable = .ok t) ↔
    b.vertices.toList.Nodup ∧ b.mentioned.toFinset.card ≤ maxIndex + 1 := by
  constructor
  · rintro ⟨t, ht⟩
    obtain ⟨hsound, hids⟩ := ids_of_idTable ht
    obtain ⟨declared, hdeclared, hall⟩ := bind_eq_ok_iff.mp ht
    refine ⟨List.Nodup.of_append_left (hids ▸ hsound.nodup_ids), ?_⟩
    rw [← size_of_idTable ht]
    exact IdTable.size_le_of_insertAll
      (IdTable.size_le_of_insertAllNew (Nat.zero_le _) hdeclared) hall
  · rintro ⟨hnodup, hroom⟩
    have hlength : b.vertices.toList.length ≤ maxIndex + 1 := by
      rw [← List.toFinset_card_of_nodup hnodup]
      refine Nat.le_trans (Finset.card_le_card fun a ha => ?_) hroom
      exact List.mem_toFinset.mpr (List.mem_append_left _ (List.mem_toFinset.mp ha))
    obtain ⟨declared, hdeclared, hids⟩ := IdTable.exists_ofIds hnodup hlength
    have hall : (declared.ids.toList ++ b.rowIds).toFinset.card ≤ maxIndex + 1 := by
      rw [hids]
      exact hroom
    obtain ⟨t, ht⟩ := IdTable.exists_insertAll (IdTable.sound_ofIds hdeclared) hall
    exact ⟨t, bind_eq_ok_iff.mpr ⟨declared, hdeclared, ht⟩⟩

/-- With a table, an id has an index if it is mentioned. -/
theorem exists_indexOf_iff_of_table (hmode : b.renumber = true) (h : b.numbering = .ok n) :
    (∃ index, n.indexOf id = .ok index) ↔ id ∈ b.mentioned := by
  rw [numbering, if_pos hmode] at h
  obtain ⟨t, ht, rfl⟩ := map_eq_ok_iff.mp h
  rw [← mem_ids_of_idTable ht, (ids_of_idTable ht).1.mem_ids_iff]
  exact exists_congr fun index => Numbering.indexOf_table_iff

/-- With a table, there is an index for every id that is mentioned. -/
theorem vertexCount_of_table (hmode : b.renumber = true) (h : b.numbering = .ok n) :
    n.vertexCount = b.mentioned.toFinset.card := by
  rw [numbering, if_pos hmode] at h
  obtain ⟨t, ht, rfl⟩ := map_eq_ok_iff.mp h
  exact size_of_idTable ht

/-- Without a table, the indices are the numbers up to the greatest id that is mentioned. -/
theorem lt_identityCount_iff {count : ℕ} (h : b.identityCount = .ok count) :
    id < count ↔ ∃ last ∈ b.mentioned, id ≤ last := by
  rw [identityCount] at h
  split at h
  · cases h
  split at h
  · rename_i hnone
    have hnil : b.mentioned = [] := List.max?_eq_none_iff.mp hnone
    cases h
    simp [hnil]
  · rename_i last hlast
    split at h
    · cases h
      obtain ⟨hmem, hmax⟩ := List.max?_eq_some_iff.mp hlast
      constructor
      · intro hid
        exact ⟨last, hmem, Nat.le_of_lt_succ hid⟩
      · rintro ⟨a, ha, hid⟩
        exact Nat.lt_succ_of_le (Nat.le_trans hid (hmax a ha))
    · cases h

/-- Without a table, every index is the index of itself. -/
theorem indexOf_iff_of_identity (hmode : b.renumber = false) (h : b.numbering = .ok n) :
    n.indexOf id = .ok index ↔ index = id ∧ id < n.vertexCount := by
  rw [numbering, if_neg (by simp [hmode])] at h
  obtain ⟨count, hcount, rfl⟩ := map_eq_ok_iff.mp h
  rw [Numbering.indexOf, Numbering.vertexCount]
  split
  · rename_i hid
    have hle := identityCount_le hcount
    rw [Nat.mod_eq_of_lt (by omega), Except.ok.injEq]
    exact ⟨fun heq => ⟨heq.symm, hid⟩, fun heq => heq.1.symm⟩
  · rename_i hid
    simp [hid]

theorem lt_vertexCount_iff_of_identity (hmode : b.renumber = false) (h : b.numbering = .ok n) :
    id < n.vertexCount ↔ ∃ last ∈ b.mentioned, id ≤ last := by
  rw [numbering, if_neg (by simp [hmode])] at h
  obtain ⟨count, hcount, rfl⟩ := map_eq_ok_iff.mp h
  exact lt_identityCount_iff hcount

/-- Whatever is mentioned has an index. -/
theorem exists_indexOf_of_mentioned (h : b.numbering = .ok n) (hid : id ∈ b.mentioned) :
    ∃ index, n.indexOf id = .ok index := by
  cases hmode : b.renumber with
  | true => exact (exists_indexOf_iff_of_table hmode h).mpr hid
  | false =>
      have hlt := (lt_vertexCount_iff_of_identity hmode h).mpr ⟨id, hid, Nat.le_refl id⟩
      exact ⟨id, (indexOf_iff_of_identity hmode h).mpr ⟨rfl, hlt⟩⟩

/-! ### When a graph is built -/

/-- A graph is built if the ids are numbered, the headers of its adjacency lists fit into the limit,
and there are enough edge numbers: every end of a row has an index. -/
theorem exists_build_iff : (∃ g, b.build = .ok g) ↔
    ∃ n, b.numbering = .ok n ∧ b.checkMemory n.vertexCount = .ok () ∧ b.rows.size ≤ maxIndex := by
  constructor
  · rintro ⟨g, hg⟩
    obtain ⟨n, hn, h⟩ := bind_eq_ok_iff.mp hg
    obtain ⟨⟨⟩, hmemory, h⟩ := bind_eq_ok_iff.mp h
    refine ⟨n, hn, hmemory, ?_⟩
    split at h
    · cases h
    · omega
  · rintro ⟨n, hn, hmemory, hrows⟩
    have hall : ∀ row ∈ b.rows.toList, ∃ ends, n.Translates row ends := by
      intro row hrow
      obtain ⟨hsource, htarget⟩ := mem_rowIds_of_mem hrow
      obtain ⟨v, hv⟩ := exists_indexOf_of_mentioned hn (List.mem_append_right _ hsource)
      obtain ⟨w, hw⟩ := exists_indexOf_of_mentioned hn (List.mem_append_right _ htarget)
      exact ⟨(v, w), hv, hw⟩
    choose! ends hends using hall
    have htranslate : b.rows.toList.mapM (fun row => do
        return (← n.indexOf row.1, ← n.indexOf row.2)) = .ok (b.rows.toList.map ends) := by
      refine mapM_eq_ok_iff.mpr (List.forall₂_map_right_iff.mpr (List.forall₂_same.mpr ?_))
      intro row hrow
      obtain ⟨hv, hw⟩ := hends row hrow
      rw [hv, hw]
      rfl
    refine ⟨Graph.ofRows b.kind n (b.rows.toList.map ends), ?_⟩
    refine bind_eq_ok_iff.mpr ⟨n, hn, bind_eq_ok_iff.mpr ⟨(), hmemory, ?_⟩⟩
    rw [if_neg (Nat.not_lt.mpr hrows)]
    exact bind_eq_ok_iff.mpr ⟨_, htranslate, rfl⟩

/-- With a table, a graph is built if no vertex is declared twice and nothing is too large. -/
theorem exists_build_iff_of_table (hmode : b.renumber = true) : (∃ g, b.build = .ok g) ↔
    b.vertices.toList.Nodup ∧ b.mentioned.toFinset.card ≤ maxIndex + 1 ∧
      b.checkMemory b.mentioned.toFinset.card = .ok () ∧ b.rows.size ≤ maxIndex := by
  rw [exists_build_iff]
  constructor
  · rintro ⟨n, hn, hmemory, hrows⟩
    rw [vertexCount_of_table hmode hn] at hmemory
    rw [numbering, if_pos hmode] at hn
    obtain ⟨t, ht, -⟩ := map_eq_ok_iff.mp hn
    obtain ⟨hnodup, hroom⟩ := exists_idTable_iff.mp ⟨t, ht⟩
    exact ⟨hnodup, hroom, hmemory, hrows⟩
  · rintro ⟨hnodup, hroom, hmemory, hrows⟩
    obtain ⟨t, ht⟩ := exists_idTable_iff.mpr ⟨hnodup, hroom⟩
    have hn : b.numbering = .ok (.table t) := by
      rw [numbering, if_pos hmode]
      exact map_eq_ok_iff.mpr ⟨t, ht, rfl⟩
    rw [← vertexCount_of_table hmode hn] at hmemory
    exact ⟨_, hn, hmemory, hrows⟩

end Builder

/-! ### Rows and edges -/

section DistinctRows

variable {key : ℕ × ℕ → ℕ × ℕ} {seen seen' : Std.HashSet (ℕ × ℕ)} {rows rows' : List (ℕ × ℕ)}

/-- Of rows with a key that has not been seen, one is kept. -/
theorem exists_mem_distinctRows {row : ℕ × ℕ} (h : row ∈ rows) (hseen : key row ∉ seen) :
    ∃ kept ∈ distinctRows key seen rows, key kept = key row := by
  induction rows generalizing seen with
  | nil => cases h
  | cons first rows ih =>
      rw [distinctRows]
      split
      · rename_i hfirst
        rcases List.mem_cons.mp h with rfl | h
        · exact absurd (by simpa using hfirst) hseen
        · exact ih h hseen
      · rcases List.mem_cons.mp h with rfl | h
        · exact ⟨row, List.mem_cons_self, rfl⟩
        · by_cases heq : key first = key row
          · exact ⟨first, List.mem_cons_self, heq⟩
          · have hnew : key row ∉ seen.insert (key first) := by
              rw [Std.HashSet.mem_insert, beq_iff_eq, not_or]
              exact ⟨heq, hseen⟩
            obtain ⟨kept, hkept, hkey⟩ := ih h hnew
            exact ⟨kept, List.mem_cons_of_mem _ hkept, hkey⟩

/-- There are as many rows without repeats as there are keys. -/
theorem length_distinctRows :
    (distinctRows key ∅ rows).length = (rows.map key).toFinset.card := by
  have hnodup : ((distinctRows key ∅ rows).map key).Nodup :=
    List.pairwise_map.mpr distinctRows_pairwise
  rw [← List.length_map key, ← List.toFinset_card_of_nodup hnodup]
  congr 1
  ext k
  simp only [List.mem_toFinset, List.mem_map]
  constructor
  · rintro ⟨row, hrow, rfl⟩
    exact ⟨row, (distinctRows_sublist _ _ _).subset hrow, rfl⟩
  · rintro ⟨row, hrow, rfl⟩
    exact exists_mem_distinctRows hrow Std.HashSet.not_mem_empty

/-- The same rows are kept of related rows, if related rows agree in the same cases. -/
theorem forall₂_distinctRows {R : ℕ × ℕ → ℕ × ℕ → Prop}
    (hR : ∀ {x x' y y'}, R x y → R x' y' → (key x = key x' ↔ key y = key y'))
    (h : List.Forall₂ R rows rows') (hseen : ∀ {x y}, R x y → (key x ∈ seen ↔ key y ∈ seen')) :
    List.Forall₂ R (distinctRows key seen rows) (distinctRows key seen' rows') := by
  induction h generalizing seen seen' with
  | nil => exact .nil
  | @cons x y rows rows' hxy _ ih =>
      have hinsert : ∀ {x' y'}, R x' y' →
          (key x' ∈ seen.insert (key x) ↔ key y' ∈ seen'.insert (key y)) := by
        intro x' y' hxy'
        rw [Std.HashSet.mem_insert, Std.HashSet.mem_insert, beq_iff_eq, beq_iff_eq, hR hxy hxy',
          hseen hxy']
      simp only [distinctRows, Std.HashSet.contains_iff_mem]
      by_cases hx : key x ∈ seen
      · rw [if_pos hx, if_pos ((hseen hxy).mp hx)]
        exact ih hseen
      · rw [if_neg hx, if_neg fun hy => hx ((hseen hxy).mpr hy)]
        exact .cons hxy (ih hinsert)

/-- Rows are translated before or after repeats are left out. -/
theorem Numbering.Sound.forall₂_distinctRows {n : Numbering} (hn : n.Sound) {kind : Kind}
    (h : List.Forall₂ n.Translates rows rows') :
    List.Forall₂ n.Translates (distinctRows kind.edgeKey ∅ rows)
      (distinctRows kind.edgeKey ∅ rows') :=
  Betweenness.forall₂_distinctRows (fun hx hy => edgeKey_iff_of_translates hn hx hy) h
    fun _ => iff_of_false Std.HashSet.not_mem_empty Std.HashSet.not_mem_empty

end DistinctRows

namespace Builder

variable {b : Builder} {g : Graph} {id v w a c : ℕ}

/-- The numbering of a built graph is that of its builder, and so is its kind. -/
theorem numbering_of_build (h : b.build = .ok g) :
    b.numbering = .ok g.numbering ∧ g.kind = b.kind := by
  obtain ⟨n, rows, hn, -, rfl⟩ := build_eq_ok h
  exact ⟨hn, rfl⟩

/-- With a table, an id has an index in the graph if it is mentioned. -/
theorem exists_indexOf_iff_of_build (hmode : b.renumber = true) (h : b.build = .ok g) :
    (∃ v, g.numbering.indexOf id = .ok v) ↔ id ∈ b.mentioned :=
  exists_indexOf_iff_of_table hmode (numbering_of_build h).1

/-- With a table, there is a vertex for every id that is mentioned. -/
theorem nodeCount_of_build (hmode : b.renumber = true) (h : b.build = .ok g) :
    g.nodeCount = b.mentioned.toFinset.card := by
  rw [← (build_consistent h).vertexCount_eq]
  exact vertexCount_of_table hmode (numbering_of_build h).1

/-- A built graph has no more vertices than there are indices. -/
theorem nodeCount_le (h : b.build = .ok g) : g.nodeCount ≤ maxIndex + 1 := by
  have hn := (numbering_of_build h).1
  rw [← (build_consistent h).vertexCount_eq]
  rw [numbering] at hn
  split at hn
  · obtain ⟨t, ht, hnumbering⟩ := map_eq_ok_iff.mp hn
    obtain ⟨declared, hdeclared, hall⟩ := bind_eq_ok_iff.mp ht
    rw [← hnumbering]
    exact IdTable.size_le_of_insertAll
      (IdTable.size_le_of_insertAllNew (Nat.zero_le _) hdeclared) hall
  · obtain ⟨count, hcount, hnumbering⟩ := map_eq_ok_iff.mp hn
    rw [← hnumbering]
    exact Nat.le_succ_of_le (identityCount_le hcount)

/-- The edges are the rows that repeat no earlier one, in their order. -/
theorem edgeIds_eq (h : b.build = .ok g) :
    g.edgeIds = distinctRows b.kind.edgeKey ∅ b.rows.toList := by
  obtain ⟨n, rows, hn, hrows, rfl⟩ := build_eq_ok h
  have hsound := numbering_sound hn
  have hkept : List.Forall₂ n.Translates (distinctRows b.kind.edgeKey ∅ b.rows.toList)
      (distinctRows b.kind.edgeKey ∅ rows) := hsound.forall₂_distinctRows hrows
  have hids : ∀ row ends, n.Translates row ends →
      (Graph.ofRows b.kind n rows).endpointIds? ends = some row := by
    intro row ends hends
    have hsource := (hsound.idOf_of_indexOf _ _ hends.1).2
    have htarget := (hsound.idOf_of_indexOf _ _ hends.2).2
    simp only [Graph.endpointIds?, Graph.idOf?, Graph.ofRows]
    simp only [hsource, htarget, bind, Option.bind, pure]
  rw [Graph.edgeIds]
  change (distinctRows b.kind.edgeKey ∅ rows).filterMap _ = _
  generalize distinctRows b.kind.edgeKey ∅ rows = edges,
    distinctRows b.kind.edgeKey ∅ b.rows.toList = kept at hkept
  induction hkept with
  | nil => rfl
  | cons hends _ ih => rw [List.filterMap_cons_some (hids _ _ hends), ih]

/-- There is an edge for every key of the rows. -/
theorem edgeCount_eq (h : b.build = .ok g) :
    g.edgeCount = (b.rows.toList.map b.kind.edgeKey).toFinset.card := by
  rw [← Graph.length_edgeIds (build_consistent h), edgeIds_eq h, length_distinctRows]

/-- A built graph has no more edges than there are edge numbers. -/
theorem edgeCount_le (h : b.build = .ok g) : g.edgeCount ≤ maxIndex := by
  obtain ⟨-, -, -, hrows⟩ := exists_build_iff.mp ⟨g, h⟩
  calc g.edgeCount = (b.rows.toList.map b.kind.edgeKey).toFinset.card := edgeCount_eq h
    _ ≤ (b.rows.toList.map b.kind.edgeKey).length := List.toFinset_card_le _
    _ = b.rows.size := by rw [List.length_map, Array.length_toList]
    _ ≤ maxIndex := hrows

/-- An edge is at most two arcs. -/
theorem arcCount_le (h : b.build = .ok g) : g.edgeCount * g.kind.arcsPerEdge ≤ maxIndex * 2 :=
  Nat.mul_le_mul (edgeCount_le h) (by cases g.kind <;> decide)

/-- Links are those of the rows. -/
theorem linked_iff (h : b.build = .ok g) (hv : g.numbering.indexOf a = .ok v)
    (hw : g.numbering.indexOf c = .ok w) : g.Linked v w ↔ b.Loads a c := by
  obtain ⟨n, rows, hn, hrows, rfl⟩ := build_eq_ok h
  have hsound := numbering_sound hn
  have hkey : (∃ ends ∈ rows, b.kind.edgeKey ends = b.kind.edgeKey (v, w)) ↔ b.Loads a c := by
    have hloads : b.Loads a c ↔
        ∃ row ∈ b.rows.toList, b.kind.edgeKey row = b.kind.edgeKey (a, c) := by
      simp only [Loads, Kind.edgeKey_eq_iff]
      constructor
      · rintro (hrow | ⟨hkind, hrow⟩)
        · exact ⟨_, hrow, .inl rfl⟩
        · exact ⟨_, hrow, .inr ⟨hkind, rfl⟩⟩
      · rintro ⟨row, hrow, rfl | ⟨hkind, rfl⟩⟩
        · exact .inl hrow
        · exact .inr ⟨hkind, hrow⟩
    have htarget : n.Translates (a, c) (v, w) := ⟨hv, hw⟩
    rw [hloads]
    constructor
    · rintro ⟨ends, hends, hkey⟩
      obtain ⟨row, hrow, hrel⟩ := exists_of_mem_of_forall₂ hrows hends
      exact ⟨row, hrow, (Numbering.edgeKey_iff_of_translates hsound hrel htarget).mpr hkey⟩
    · rintro ⟨row, hrow, hkey⟩
      obtain ⟨ends, hends, hrel⟩ := exists_of_mem_of_forall₂ hrows.flip hrow
      exact ⟨ends, hends, (Numbering.edgeKey_iff_of_translates hsound hrel htarget).mp hkey⟩
  rw [← hkey]
  constructor
  · rintro ⟨e, he⟩
    obtain ⟨ends, hends, hends'⟩ := Graph.joins_iff.mp he
    exact ⟨ends, Graph.mem_of_endpoints?_ofRows hends, hends'⟩
  · rintro ⟨ends, hends, hends'⟩
    obtain ⟨kept, hkept, hkey⟩ : ∃ kept ∈ distinctRows b.kind.edgeKey ∅ rows,
        b.kind.edgeKey kept = b.kind.edgeKey ends :=
      exists_mem_distinctRows hends Std.HashSet.not_mem_empty
    obtain ⟨e, he⟩ := List.mem_iff_getElem?.mp hkept
    refine ⟨e, Graph.joins_iff.mpr ⟨kept, ?_, hkey.trans hends'⟩⟩
    rw [Graph.endpoints?_ofRows, he]

/-- Whatever is loaded has indices. -/
theorem Loads.exists_indexOf (hb : b.build = .ok g) (h : b.Loads a c) :
    ∃ v w, g.numbering.indexOf a = .ok v ∧ g.numbering.indexOf c = .ok w ∧ g.Linked v w := by
  have hn := (numbering_of_build hb).1
  obtain ⟨v, hv⟩ := exists_indexOf_of_mentioned hn h.mentioned.1
  obtain ⟨w, hw⟩ := exists_indexOf_of_mentioned hn h.mentioned.2
  exact ⟨v, w, hv, hw, (linked_iff hb hv hw).mpr h⟩

/-- Whatever is linked has ids between which it was loaded. -/
theorem exists_loads (hb : b.build = .ok g) (h : g.Linked v w) :
    ∃ a c, g.numbering.indexOf a = .ok v ∧ g.numbering.indexOf c = .ok w ∧ b.Loads a c := by
  have hg := build_consistent hb
  obtain ⟨hv, hw⟩ := hg.lt_of_linked h
  obtain ⟨a, ha⟩ := hg.exists_id hv
  obtain ⟨c, hc⟩ := hg.exists_id hw
  exact ⟨a, c, ha, hc, (linked_iff hb ha hc).mp h⟩

end Builder

end Betweenness
