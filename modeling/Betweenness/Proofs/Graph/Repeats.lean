import Betweenness.Proofs.Graph.Loading
import Betweenness.Proofs.Outcome

/-!
# Repeated rows

Of rows with the same ends the first one becomes an edge, and the others leave no trace: they number
no id, since their ends have been numbered, and take no edge number, since the edge is there. So a
row may be loaded again, in either direction where edges have none, and repeats may be left out.

`kind.AddsRepeats rows rows'` says that `rows'` are `rows` with repeats put in. It is built up in
the order in which rows are loaded: every row of `rows'` is either the next one of `rows` or has the
same ends as a row before it. Read the other way round, `rows` are left of `rows'` when some repeats
are deleted.

There is one trace that repeats leave: rows are counted before they are compared, so a graph with
fewer edges than edge numbers may be refused for its repeats (`Builder.build_copies`).

## Main results

* `Kind.distinctRows_eq_firstRows`: the rows that are kept are those without an earlier one with
  the same ends.
* `Builder.numbering_of_addsRepeats`: repeats number no ids.
* `Builder.build_keepsFirst`: the edges of a graph are the first rows between their ends, and the
  graph does not depend on repeats.
* `Builder.build_copies`: too many copies of one row.
-/

namespace Betweenness

/-! ### Rows with the same ends -/

namespace Kind

/-- Two rows have the same ends: they are equal or, where edges have no direction, opposite. -/
def SameEnds (kind : Kind) (row row' : ℕ × ℕ) : Prop :=
  row = row' ∨ kind = .undirected ∧ row = row'.swap

instance (kind : Kind) (row row' : ℕ × ℕ) : Decidable (kind.SameEnds row row') :=
  inferInstanceAs (Decidable (_ ∨ _))

/-- The ends of rows in turn. -/
def endsOf (rows : List (ℕ × ℕ)) : List ℕ := rows.flatMap fun row => [row.1, row.2]

/-- The rows before which there is none with the same ends. -/
def firstRows (kind : Kind) (rows : List (ℕ × ℕ)) : List (ℕ × ℕ) :=
  (rows.zipIdx.filter fun (row, i) => ∀ earlier ∈ rows.take i, ¬ kind.SameEnds earlier row).map
    Prod.fst

/-- The rows `rows'` are the rows `rows` with repeats put in, each somewhere after a row with the
same ends. -/
inductive AddsRepeats (kind : Kind) : List (ℕ × ℕ) → List (ℕ × ℕ) → Prop where
  | nil : AddsRepeats kind [] []
  | row {rows rows' : List (ℕ × ℕ)} (row : ℕ × ℕ) :
      AddsRepeats kind rows rows' → AddsRepeats kind (rows ++ [row]) (rows' ++ [row])
  | again {rows rows' : List (ℕ × ℕ)} {first row : ℕ × ℕ} (hfirst : first ∈ rows')
      (hends : kind.SameEnds first row) :
      AddsRepeats kind rows rows' → AddsRepeats kind rows (rows' ++ [row])

variable {kind : Kind} {rows rows' : List (ℕ × ℕ)} {row : ℕ × ℕ}

theorem endsOf_concat : endsOf (rows ++ [row]) = endsOf rows ++ [row.1, row.2] := by
  rw [endsOf, List.flatMap_append, List.flatMap_singleton]
  rfl

theorem sameEnds_iff {row row' : ℕ × ℕ} :
    kind.SameEnds row row' ↔ kind.edgeKey row = kind.edgeKey row' := edgeKey_eq_iff.symm

/-- A further row is a first row unless there is one with the same ends before it. -/
theorem firstRows_concat : kind.firstRows (rows ++ [row]) =
    kind.firstRows rows ++ if ∃ earlier ∈ rows, kind.SameEnds earlier row then [] else [row] := by
  rw [firstRows, firstRows, List.zipIdx_append, List.filter_append, List.map_append]
  congr 1
  · refine congrArg (List.map Prod.fst) (List.filter_congr fun ⟨r, i⟩ hx => ?_)
    have hlt : i < rows.length := List.snd_lt_of_mem_zipIdx hx
    dsimp only
    rw [List.take_append_of_le_length (Nat.le_of_lt hlt)]
  · simp only [List.zipIdx_singleton, Nat.zero_add, List.filter_cons, List.filter_nil,
      List.take_left', decide_eq_true_eq]
    by_cases h : ∃ earlier ∈ rows, kind.SameEnds earlier row
    · rw [if_pos h, if_neg (by simpa using h)]
      rfl
    · rw [if_neg h, if_pos (by simpa using h)]
      rfl

end Kind

section DistinctRows

variable {key : ℕ × ℕ → ℕ × ℕ} {seen : Std.HashSet (ℕ × ℕ)} {rows : List (ℕ × ℕ)} {row : ℕ × ℕ}

/-- A further row is kept unless its key has been seen. -/
theorem distinctRows_concat : distinctRows key seen (rows ++ [row]) = distinctRows key seen rows ++
    if key row ∈ seen ∨ ∃ earlier ∈ rows, key earlier = key row then [] else [row] := by
  induction rows generalizing seen with
  | nil => simp [distinctRows]
  | cons first rows ih =>
      simp only [List.cons_append, distinctRows, Std.HashSet.contains_iff_mem, ih]
      by_cases hfirst : key first ∈ seen
      · have hseen : (key row ∈ seen ∨ ∃ earlier ∈ rows, key earlier = key row) ↔
            key row ∈ seen ∨ ∃ earlier ∈ first :: rows, key earlier = key row := by
          simp only [List.exists_mem_cons_iff]
          refine or_congr_right' fun hrow => (or_iff_right fun heq => hrow ?_).symm
          exact heq ▸ hfirst
        rw [if_pos hfirst, if_pos hfirst]
        simp only [hseen]
      · have hseen : (key row ∈ seen.insert (key first) ∨
            ∃ earlier ∈ rows, key earlier = key row) ↔
            key row ∈ seen ∨ ∃ earlier ∈ first :: rows, key earlier = key row := by
          rw [Std.HashSet.mem_insert, beq_iff_eq, List.exists_mem_cons_iff, or_assoc, or_left_comm]
        rw [if_neg hfirst, if_neg hfirst, List.cons_append]
        simp only [hseen]

/-- Of rows with different keys, all are kept. -/
theorem distinctRows_eq_self (h : rows.Pairwise (key · ≠ key ·)) :
    distinctRows key ∅ rows = rows := by
  induction rows using List.reverseRecOn with
  | nil => rfl
  | append_singleton rows row ih =>
      obtain ⟨hrows, -, hdiffer⟩ := List.pairwise_append.mp h
      have hnew : ¬ (key row ∈ (∅ : Std.HashSet (ℕ × ℕ)) ∨
          ∃ earlier ∈ rows, key earlier = key row) := by
        rintro (hmem | ⟨earlier, hearlier, hkey⟩)
        · exact Std.HashSet.not_mem_empty hmem
        · exact hdiffer earlier hearlier row (List.mem_singleton_self row) hkey
      rw [distinctRows_concat, ih hrows, if_neg hnew]

/-- Rows of which the same are kept have the same keys. -/
theorem exists_mem_iff_of_distinctRows_eq {rows' : List (ℕ × ℕ)} {k : ℕ × ℕ}
    (h : distinctRows key ∅ rows' = distinctRows key ∅ rows) :
    (∃ row ∈ rows', key row = k) ↔ ∃ row ∈ rows, key row = k := by
  have hkept : ∀ rows : List (ℕ × ℕ), (∃ kept ∈ distinctRows key ∅ rows, key kept = k) ↔
      ∃ row ∈ rows, key row = k := by
    intro rows
    constructor
    · rintro ⟨kept, hkept, hkey⟩
      exact ⟨kept, (distinctRows_sublist _ _ _).subset hkept, hkey⟩
    · rintro ⟨row, hrow, rfl⟩
      exact exists_mem_distinctRows hrow Std.HashSet.not_mem_empty
  rw [← hkept rows', h, hkept rows]

end DistinctRows

namespace Kind

variable {kind : Kind} {rows rows' : List (ℕ × ℕ)} {row : ℕ × ℕ}

/-- The rows that are kept are the first ones between their ends. -/
theorem distinctRows_eq_firstRows : distinctRows kind.edgeKey ∅ rows = kind.firstRows rows := by
  induction rows using List.reverseRecOn with
  | nil => rfl
  | append_singleton rows row ih =>
      rw [distinctRows_concat, firstRows_concat, ih]
      simp only [Std.HashSet.not_mem_empty, false_or, sameEnds_iff]

example : undirected.firstRows [(2, 1), (1, 2), (3, 3), (1, 3)] = [(2, 1), (3, 3), (1, 3)] := by
  decide

namespace AddsRepeats

/-- Copies of a row add repeats to it. -/
theorem replicate (kind : Kind) (row : ℕ × ℕ) (n : ℕ) :
    kind.AddsRepeats [row] (List.replicate (n + 1) row) := by
  induction n with
  | zero => exact AddsRepeats.nil.row row
  | succ n ih =>
      rw [List.replicate_succ']
      exact ih.again (List.mem_replicate.mpr ⟨Nat.succ_ne_zero n, rfl⟩) (.inl rfl)

variable (h : kind.AddsRepeats rows rows')

include h

/-- The same rows are kept. -/
theorem distinctRows_eq : distinctRows kind.edgeKey ∅ rows' = distinctRows kind.edgeKey ∅ rows := by
  induction h with
  | nil => rfl
  | row row _ ih =>
      rw [distinctRows_concat, distinctRows_concat, ih]
      simp only [exists_mem_iff_of_distinctRows_eq ih]
  | @again rows rows' first row hfirst hends _ ih =>
      rw [distinctRows_concat, if_pos (.inr ⟨first, hfirst, sameEnds_iff.mp hends⟩),
        List.append_nil, ih]

theorem length_le : rows.length ≤ rows'.length := by
  induction h with
  | nil => exact Nat.le_refl 0
  | row row _ ih => simpa using ih
  | again _ _ _ ih =>
      rw [List.length_append]
      exact Nat.le_add_right_of_le ih

/-- Repeats have no ends of their own. -/
theorem mem_endsOf_iff {id : ℕ} : id ∈ endsOf rows' ↔ id ∈ endsOf rows := by
  induction h with
  | nil => rfl
  | row row _ ih => rw [endsOf_concat, endsOf_concat, List.mem_append, List.mem_append, ih]
  | @again rows rows' first row hfirst hends _ ih =>
      rw [endsOf_concat, List.mem_append, ← ih]
      refine or_iff_left_of_imp fun hid => List.mem_flatMap.mpr ⟨first, hfirst, ?_⟩
      rcases hends with rfl | ⟨-, rfl⟩
      · exact hid
      · simpa [or_comm] using hid

/-- Repeats register no ids. -/
theorem insertAll_endsOf {t : IdTable} (ht : t.Sound) :
    t.insertAll (endsOf rows') = t.insertAll (endsOf rows) := by
  induction h with
  | nil => rfl
  | row row _ ih =>
      rw [endsOf_concat, endsOf_concat, IdTable.insertAll_append, IdTable.insertAll_append, ih]
  | @again rows rows' first row hfirst hends h ih =>
      rw [endsOf_concat, IdTable.insertAll_append, ih]
      cases hu : t.insertAll (endsOf rows) with
      | error e => rfl
      | ok u =>
          refine IdTable.insertAll_of_registered (IdTable.sound_insertAll ht hu) fun id hid => ?_
          have hrow : id ∈ endsOf (rows' ++ [row]) := by
            rw [endsOf_concat]
            exact List.mem_append_right _ hid
          rw [IdTable.mem_ids_of_insertAll ht hu]
          exact .inr ((h.again hfirst hends).mem_endsOf_iff.mp hrow)

end AddsRepeats

end Kind

/-! ### Builders -/

/-- Lists of numbers with the same elements have the same greatest one. -/
theorem max?_congr {l l' : List ℕ} (h : ∀ a, a ∈ l ↔ a ∈ l') : l.max? = l'.max? := by
  cases hl : l.max? with
  | none =>
      have hnil : l = [] := List.max?_eq_none_iff.mp hl
      have hnil' : l' = [] := List.eq_nil_iff_forall_not_mem.mpr fun a ha => by
        simpa [hnil] using (h a).mpr ha
      rw [hnil', List.max?_nil]
  | some a =>
      obtain ⟨hmem, hmax⟩ := List.max?_eq_some_iff.mp hl
      exact (List.max?_eq_some_iff.mpr ⟨(h a).mp hmem, fun c hc => hmax c ((h c).mpr hc)⟩).symm

namespace Builder

/-- The builder with other rows. -/
def withRows (b : Builder) (rows : List (ℕ × ℕ)) : Builder := { b with rows := rows.toArray }

variable {b : Builder} {g g' : Graph} {rows rows' : List (ℕ × ℕ)}

@[simp] theorem kind_withRows : (b.withRows rows).kind = b.kind := rfl

/-- Repeats number no ids, with a table or without one. -/
theorem numbering_of_addsRepeats {kind : Kind} (h : kind.AddsRepeats rows rows') :
    (b.withRows rows').numbering = (b.withRows rows).numbering := by
  have htable : (b.withRows rows').idTable = (b.withRows rows).idTable := by
    rw [idTable, idTable]
    cases hdeclared : IdTable.ofIds b.vertices.toList with
    | error e => simp only [withRows, hdeclared, error_bind]
    | ok t =>
        simp only [withRows, hdeclared, ok_bind]
        exact h.insertAll_endsOf (IdTable.sound_ofIds hdeclared)
  have hcount : (b.withRows rows').identityCount = (b.withRows rows).identityCount := by
    have hmax : ((b.withRows rows').vertices.toList ++ (b.withRows rows').rowIds).max? =
        ((b.withRows rows).vertices.toList ++ (b.withRows rows).rowIds).max? := by
      refine max?_congr fun id => ?_
      rw [List.mem_append, List.mem_append]
      exact or_congr_right h.mem_endsOf_iff
    rw [identityCount, identityCount, hmax]
    rfl
  rw [numbering, numbering, htable, hcount]
  rfl

/-- Two graphs that are built from rows with and without repeats are the same. -/
theorem eq_of_addsRepeats (h : b.kind.AddsRepeats rows rows')
    (hb : (b.withRows rows).build = .ok g) (hb' : (b.withRows rows').build = .ok g') : g' = g := by
  obtain ⟨n, ends, hn, hends, rfl⟩ := build_eq_ok hb
  obtain ⟨n', ends', hn', hends', rfl⟩ := build_eq_ok hb'
  obtain rfl : n' = n := Except.ok.inj (hn'.symm.trans ((numbering_of_addsRepeats h).trans hn))
  have hsound := numbering_sound hn
  have hkept : List.Forall₂ n'.Translates (distinctRows b.kind.edgeKey ∅ rows)
      (distinctRows b.kind.edgeKey ∅ ends) := hsound.forall₂_distinctRows hends
  have hkept' : List.Forall₂ n'.Translates (distinctRows b.kind.edgeKey ∅ rows)
      (distinctRows b.kind.edgeKey ∅ ends') := by
    rw [← h.distinctRows_eq]
    exact hsound.forall₂_distinctRows hends'
  have hsame : distinctRows b.kind.edgeKey ∅ ends' = distinctRows b.kind.edgeKey ∅ ends :=
    List.right_unique_forall₂' Numbering.rightUnique_translates hkept' hkept
  simp only [Graph.ofRows, kind_withRows, hsame]

/-- With repeats a graph is built if there are not too many rows, and it is the one without. -/
theorem build_withRows_iff (h : b.kind.AddsRepeats rows rows') :
    (b.withRows rows').build = .ok g ↔
      (b.withRows rows).build = .ok g ∧ rows'.length ≤ maxIndex := by
  have hnumbering : (b.withRows rows').numbering = (b.withRows rows).numbering :=
    numbering_of_addsRepeats h
  have hbuilds : (∃ g, (b.withRows rows').build = .ok g) ↔
      (∃ g, (b.withRows rows).build = .ok g) ∧ rows'.length ≤ maxIndex := by
    rw [exists_build_iff, exists_build_iff, hnumbering]
    constructor
    · rintro ⟨n, hn, hmemory, hfits⟩
      exact ⟨⟨n, hn, hmemory, Nat.le_trans h.length_le hfits⟩, hfits⟩
    · rintro ⟨⟨n, hn, hmemory, -⟩, hfits⟩
      exact ⟨n, hn, hmemory, hfits⟩
  constructor
  · intro hb'
    obtain ⟨⟨g₀, hb⟩, hfits⟩ := hbuilds.mp ⟨g, hb'⟩
    obtain rfl := eq_of_addsRepeats h hb hb'
    exact ⟨hb, hfits⟩
  · rintro ⟨hb, hfits⟩
    obtain ⟨g', hb'⟩ := hbuilds.mpr ⟨⟨g, hb⟩, hfits⟩
    obtain rfl := eq_of_addsRepeats h hb hb'
    exact hb'

/-- Too many rows are refused, even if they are repeats. -/
theorem build_of_many (h : b.kind.AddsRepeats rows rows') (hb : (b.withRows rows).build = .ok g)
    (hmany : maxIndex < rows'.length) : (b.withRows rows').build = .error .tooManyEdges := by
  obtain ⟨n, hn, hmemory, -⟩ := exists_build_iff.mp ⟨g, hb⟩
  have hn' : (b.withRows rows').numbering = .ok n := (numbering_of_addsRepeats h).trans hn
  have hmemory' : (b.withRows rows').checkMemory n.vertexCount = .ok () := hmemory
  have hsize : maxIndex < (b.withRows rows').rows.size := hmany
  rw [build, hn', ok_bind, hmemory', ok_bind, if_pos hsize]
  rfl

/-- The edges of a graph are the rows without an earlier one that has the same ends, in their order
and orientation, by the indices of their ends. So repeats make no difference to any part of a graph:
those that are loaded may be left out, and more of them may be loaded anywhere after the row that
they repeat, as long as there are not more rows than edge numbers. If there are, the rows are
refused. -/
theorem build_keepsFirst (hb : b.build = .ok g) :
    List.Forall₂ g.numbering.Translates (b.kind.firstRows b.rows.toList) g.edges.toList ∧
    (∀ rows, b.kind.AddsRepeats rows b.rows.toList → (b.withRows rows).build = .ok g) ∧
    ∀ rows, b.kind.AddsRepeats b.rows.toList rows →
      (b.withRows rows).build = if rows.length ≤ maxIndex then .ok g else .error .tooManyEdges := by
  refine ⟨?edges, fun rows h => ?deleted, fun rows h => ?added⟩
  case edges =>
    obtain ⟨n, ends, hn, hends, rfl⟩ := build_eq_ok hb
    rw [← Kind.distinctRows_eq_firstRows]
    exact (numbering_sound hn).forall₂_distinctRows hends
  case deleted => exact ((build_withRows_iff h).mp hb).1
  case added =>
    split
    · exact (build_withRows_iff h).mpr ⟨hb, ‹_›⟩
    · exact build_of_many h hb (Nat.lt_of_not_le ‹_›)

/-- A graph of a single edge. -/
def single : Builder where
  kind := .directed
  rows := #[(0, 1)]

/-- The edge alone is built. With as many copies of it that there are `2 ^ 32` rows, it is not,
although they only repeat it. -/
theorem build_copies : ∃ g, single.build = .ok g ∧
    single.kind.AddsRepeats single.rows.toList (List.replicate (maxIndex + 1) (0, 1)) ∧
    (single.withRows (List.replicate (maxIndex + 1) (0, 1))).build = .error .tooManyEdges := by
  obtain ⟨g, hb⟩ := (exists_build_iff_of_table (b := single) rfl).mpr
    ⟨by decide, by decide, by decide, by decide⟩
  have hrepeats := Kind.AddsRepeats.replicate single.kind (0, 1) maxIndex
  refine ⟨g, hb, hrepeats, build_of_many hrepeats hb ?_⟩
  rw [List.length_replicate]
  exact Nat.lt_succ_self maxIndex

/-- The square with repeated rows: an edge in both directions, a loop twice, and an edge again at
the end. -/
def repeatedSquare : Builder :=
  square.withRows [(0, 1), (1, 0), (1, 2), (2, 3), (3, 0), (4, 4), (4, 4), (3, 2)]

theorem addsRepeats_square : Kind.undirected.AddsRepeats
    [(0, 1), (1, 2), (2, 3), (3, 0), (4, 4)] repeatedSquare.rows.toList := by
  have h : Kind.undirected.AddsRepeats [(0, 1)] [(0, 1), (1, 0)] :=
    (Kind.AddsRepeats.nil.row (0, 1)).again (by simp) (.inr ⟨rfl, rfl⟩)
  have hsquare := (((h.row (1, 2)).row (2, 3)).row (3, 0)).row (4, 4)
  exact (hsquare.again (by simp) (.inl rfl)).again (by simp) (.inr ⟨rfl, rfl⟩)

/-- Repeats are put into the square, and left out again. -/
theorem build_keepsFirst_square : square.build = .ok Graph.square ∧
    Kind.undirected.AddsRepeats square.rows.toList repeatedSquare.rows.toList ∧
    repeatedSquare.build = .ok Graph.square ∧
    List.Forall₂ Graph.square.numbering.Translates
      (Kind.undirected.firstRows repeatedSquare.rows.toList) Graph.square.edges.toList ∧
    (repeatedSquare.withRows square.rows.toList).build = .ok Graph.square := by
  have hrepeated : repeatedSquare.build = .ok Graph.square :=
    (build_keepsFirst build_square).2.2 _ addsRepeats_square
  obtain ⟨hedges, hdeleted, -⟩ := build_keepsFirst hrepeated
  exact ⟨build_square, addsRepeats_square, hrepeated, hedges, hdeleted _ addsRepeats_square⟩

end Builder

end Betweenness
