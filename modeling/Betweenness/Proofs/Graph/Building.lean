import Betweenness.Proofs.Checked.Arrays
import Betweenness.Proofs.Graph.Loading
import Betweenness.Proofs.Outcome
import Mathlib.Algebra.Order.Floor.Div
import Mathlib.Tactic.NormNum

/-!
# What becomes of a builder

A builder complains about a vertex that is declared twice, then about ids that do not fit indices of
32 bits, then about adjacency headers beyond the limit, in this order. If there is nothing to
complain about, it builds a graph: every end of every row has been numbered before, so that no
look-up fails and no arc is filed under an index that there is not.

Ids do not fit in two ways. Without a table, the largest of them may be too large to be an index of
its own. A table takes ids of any size, but runs out of indices if there are more than `2 ^ 32` of
them. A row has two ends, so there can be that many ids in fewer than `2 ^ 32` rows (`matching`).

## Main results

* `Builder.numbering_answers`: the complaints about ids, for both numberings.
* `Builder.builds_of_build`: what a graph that is built has of its builder.
* `Builder.build_answers`: the complaints of a builder, and nothing else.
* `Builder.build_matching`: a builder that is refused only because a table runs out of indices.
-/

namespace Betweenness

/-! ### Repeated ids -/

section FirstRepeat

variable {seen : Std.HashSet ℕ} {before after ids : List ℕ} {id : ℕ}

/-- Nothing repeats in a list without repeats. -/
theorem firstRepeat?_of_nodup (hnodup : ids.Nodup) (hnew : ∀ a ∈ ids, a ∉ seen) :
    firstRepeat? seen ids = none := by
  induction ids generalizing seen with
  | nil => rfl
  | cons a ids ih =>
      obtain ⟨ha, hnodup⟩ := List.nodup_cons.mp hnodup
      have hseen : a ∉ seen := hnew a List.mem_cons_self
      rw [firstRepeat?, if_neg (by simpa using hseen)]
      refine ih hnodup fun c hc => ?_
      rw [Std.HashSet.mem_insert, beq_iff_eq, not_or]
      exact ⟨(ne_of_mem_of_not_mem hc ha).symm, hnew c (List.mem_cons_of_mem _ hc)⟩

/-- The first element that repeats an earlier one is found. -/
theorem firstRepeat?_of_repeat (hnodup : before.Nodup) (hnew : ∀ a ∈ before, a ∉ seen)
    (hid : id ∈ before ∨ id ∈ seen) : firstRepeat? seen (before ++ id :: after) = some id := by
  induction before generalizing seen with
  | nil =>
      have hseen : id ∈ seen := hid.resolve_left (List.not_mem_nil)
      rw [List.nil_append, firstRepeat?, if_pos (by simpa using hseen)]
  | cons a before ih =>
      obtain ⟨ha, hnodup⟩ := List.nodup_cons.mp hnodup
      have hseen : a ∉ seen := hnew a List.mem_cons_self
      rw [List.cons_append, firstRepeat?, if_neg (by simpa using hseen)]
      refine ih hnodup (fun c hc => ?_) ?_
      · rw [Std.HashSet.mem_insert, beq_iff_eq, not_or]
        exact ⟨(ne_of_mem_of_not_mem hc ha).symm, hnew c (List.mem_cons_of_mem _ hc)⟩
      · rw [Std.HashSet.mem_insert, beq_iff_eq]
        rcases hid with hid | hid
        · rcases List.mem_cons.mp hid with rfl | hid
          exacts [.inr (.inl rfl), .inl hid]
        · exact .inr (.inr hid)

end FirstRepeat

/-! ### Full tables -/

/-- A computation along a list fails where one of its steps does. -/
theorem exists_step_of_foldlM_eq_error {ε α σ : Type} {f : σ → α → Except ε σ} {s : σ} {l : List α}
    {e : ε} (h : l.foldlM f s = .error e) : ∃ s a, f s a = .error e := by
  induction l generalizing s with
  | nil => cases h
  | cons a l ih =>
      rw [List.foldlM_cons] at h
      cases hs : f s a with
      | error e' =>
          rw [hs] at h
          obtain rfl := Except.error.inj h
          exact ⟨s, a, hs⟩
      | ok s' =>
          rw [hs] at h
          exact ih h

namespace IdTable

/-- An id, whether new or not, is refused only if there is no index left for it. -/
theorem insert_eq_error {t : IdTable} {id : ℕ} {e : Error} (h : t.insert id = .error e) :
    e = .tooManyVertices := by
  cases hid : t.indexOf? id with
  | some index =>
      rw [insert_of_registered hid] at h
      cases h
  | none =>
      rw [insert_of_new hid] at h
      by_cases hsize : t.size ≤ maxIndex
      · obtain ⟨u, hu, -⟩ := exists_insertNew hsize hid
        rw [hu] at h
        cases h
      · rw [insertNew_eq, if_pos (Nat.not_le.mp hsize)] at h
        exact (Except.error.inj h).symm

/-- **Run lemma**: so are ids in turn. -/
theorem insertAll_eq_error {t : IdTable} {ids : List ℕ} {e : Error}
    (h : t.insertAll ids = .error e) : e = .tooManyVertices := by
  obtain ⟨u, id, hstep⟩ := exists_step_of_foldlM_eq_error h
  cases hu : u.insert id with
  | error e' =>
      rw [hu] at hstep
      obtain rfl : e' = e := Except.error.inj hstep
      exact insert_eq_error hu
  | ok x =>
      rw [hu] at hstep
      cases hstep

end IdTable

/-- A number of MiB is rounded up. -/
theorem mebibytes_eq (bytes : ℕ) : mebibytes bytes = bytes ⌈/⌉ 2 ^ 20 := by
  rw [Nat.ceilDiv_eq_add_pred_div, mebibytes, Nat.add_sub_assoc (Nat.one_le_two_pow)]
  norm_num

/-! ### Complaints about ids -/

namespace Builder

/-- Some vertex is declared twice: the first declared id that repeats an earlier one. -/
def repeatedVertex (b : Builder) : Complaint := fun e => ∃ before id after,
  b.vertices.toList = before ++ id :: after ∧ before.Nodup ∧ id ∈ before ∧ e = .duplicateVertex id

/-- The largest id is to be an index of its own, but is too large for it. -/
def idOutsideRange (b : Builder) : Complaint := fun e => b.renumber = false ∧
  ∃ id ∈ b.mentioned, (∀ a ∈ b.mentioned, a ≤ id) ∧ 2 ^ 32 - 2 < id ∧ e = .idOutsideDenseRange id

/-- There are more ids than a table has indices. -/
def idsOutnumberIndices (b : Builder) : Complaint :=
  .when (b.renumber = true ∧ 2 ^ 32 < b.mentioned.toFinset.card) .tooManyVertices

/-- The number of vertices to be: the ids that are mentioned, if they are numbered by a table, and
one more than the largest of them otherwise. -/
def vertexTotal (b : Builder) : ℕ :=
  if b.renumber then b.mentioned.toFinset.card else b.mentioned.toFinset.sup (· + 1)

variable {b : Builder} {n : Numbering} {g : Graph}

/-- Without repeats nothing is complained about, and otherwise there is a first repeat. -/
theorem exists_repeatedVertex_iff : (∃ e, b.repeatedVertex e) ↔ ¬ b.vertices.toList.Nodup := by
  constructor
  · rintro ⟨-, before, id, after, hids, -, hid, -⟩ hnodup
    rw [hids] at hnodup
    exact (List.nodup_append.mp hnodup).2.2 id hid id List.mem_cons_self rfl
  · intro h
    obtain ⟨before, id, after, hids, hbefore, hid⟩ := exists_first_repeat h
    exact ⟨_, before, id, after, hids, hbefore, hid, rfl⟩

/-- A repeated vertex is reported, by a table and without one. -/
theorem numbering_of_repeatedVertex (hvertices : b.vertices.size < 2 ^ 32) {e : Error}
    (h : b.repeatedVertex e) : b.numbering = .error e := by
  obtain ⟨before, id, after, hids, hbefore, hid, rfl⟩ := h
  rw [numbering]
  split
  · have hlength : before.length ≤ maxIndex := by
      have hsize := congrArg List.length hids
      rw [List.length_append, Array.length_toList] at hsize
      rw [maxIndex]
      omega
    rw [idTable, hids, IdTable.ofIds_of_repeat hbefore hid hlength]
    rfl
  · have hfirst : firstRepeat? ∅ b.vertices.toList = some id := by
      rw [hids]
      exact firstRepeat?_of_repeat hbefore (fun _ _ => Std.HashSet.not_mem_empty) (.inl hid)
    rw [identityCount, hfirst]
    rfl

/-- A table runs out of indices if there are more ids, and otherwise numbers them all. -/
theorem numbering_answers_of_table (hvertices : b.vertices.size < 2 ^ 32)
    (hmode : b.renumber = true) (hnodup : b.vertices.toList.Nodup) :
    Answers (fun _ => True) b.numbering [b.idsOutnumberIndices] := by
  have hsize : b.vertices.toList.length ≤ maxIndex + 1 := by
    rw [Array.length_toList, maxIndex]
    omega
  obtain ⟨declared, hdeclared, -⟩ := IdTable.exists_ofIds hnodup hsize
  have htable : b.idTable = declared.insertAll b.rowIds := by
    rw [idTable, hdeclared]
    rfl
  rw [numbering, if_pos hmode]
  constructor
  · rintro e ⟨⟨-, hmany⟩, rfl⟩
    cases ht : declared.insertAll b.rowIds with
    | error e =>
        rw [htable, ht, IdTable.insertAll_eq_error ht]
        rfl
    | ok t =>
        have hroom := (exists_idTable_iff.mp ⟨t, htable.trans ht⟩).2
        rw [maxIndex] at hroom
        omega
  · intro hnone
    have hroom : b.mentioned.toFinset.card ≤ maxIndex + 1 := by
      by_contra hmany
      refine hnone _ ⟨⟨hmode, ?_⟩, rfl⟩
      rw [maxIndex] at hmany
      omega
    obtain ⟨t, ht⟩ := exists_idTable_iff.mpr ⟨hnodup, hroom⟩
    exact .ok (map_eq_ok_iff.mpr ⟨t, ht, rfl⟩) trivial

/-- Without a table, ids are numbered unless the largest of them is too large. -/
theorem numbering_answers_of_identity (hmode : b.renumber = false)
    (hnodup : b.vertices.toList.Nodup) :
    Answers (fun _ => True) b.numbering [b.idOutsideRange] := by
  have hfirst : firstRepeat? ∅ b.vertices.toList = none :=
    firstRepeat?_of_nodup hnodup fun _ _ => Std.HashSet.not_mem_empty
  rw [numbering, if_neg (by simp [hmode]), identityCount, hfirst]
  dsimp only
  split
  · rename_i hmax
    have hnil : b.mentioned = [] := List.max?_eq_none_iff.mp hmax
    refine .pass ?_ (.ok rfl trivial)
    rintro e ⟨-, id, hid, -⟩
    rw [hnil] at hid
    cases hid
  · rename_i last hmax
    obtain ⟨hmem, hle⟩ := List.max?_eq_some_iff.mp hmax
    split
    · rename_i hlt
      refine .pass ?_ (.ok rfl trivial)
      rintro e ⟨-, id, hid, -, hlarge, -⟩
      have hsmall := hle id hid
      rw [maxIndex] at hlt
      omega
    · rename_i hlarge
      constructor
      · rintro e ⟨-, id, hid, hgreatest, -, rfl⟩
        rw [Nat.le_antisymm (hle id hid) (hgreatest last hmem)]
        rfl
      · intro hnone
        refine absurd ⟨hmode, last, hmem, hle, ?_, rfl⟩ (hnone _)
        rw [maxIndex] at hlarge
        omega

/-- The complaints about ids: a repeat first, and then an id or a number of ids that is too large.
If there are none, the ids are numbered. -/
theorem numbering_answers (hvertices : b.vertices.size < 2 ^ 32) :
    Answers (fun _ => True) b.numbering
      [b.repeatedVertex, b.idOutsideRange, b.idsOutnumberIndices] := by
  refine ⟨fun e he => numbering_of_repeatedVertex hvertices he, fun hnone => ?_⟩
  have hnodup : b.vertices.toList.Nodup := by
    by_contra hrepeats
    obtain ⟨e, he⟩ := exists_repeatedVertex_iff.mpr hrepeats
    exact hnone e he
  -- Each of the other two complaints is about one way to number ids.
  cases hmode : b.renumber with
  | true =>
      refine .pass (fun e he => ?_) (numbering_answers_of_table hvertices hmode hnodup)
      rw [idOutsideRange, hmode] at he
      cases he.1
  | false =>
      refine (numbering_answers_of_identity hmode hnodup).follow (fun e he => he) fun n hn _ => ?_
      refine .pass (fun e he => ?_) (.ok hn trivial)
      rw [idsOutnumberIndices, hmode] at he
      cases he.1.1

/-! ### Built graphs -/

/-- File arcs under their vertices, each of which there has to be. -/
def adjacency? (vertexCount : ℕ) (arcs : List (ℕ × Arc)) : Option (Array (Array Arc)) :=
  arcs.foldlM (fun lists arc => Checked.update? lists arc.1 (·.push arc.2))
    (Array.replicate vertexCount #[])

/-- What a graph has of the builder that it is built by. -/
structure Builds (b : Builder) (g : Graph) : Prop where
  nodeCount_eq : g.nodeCount = b.vertexTotal
  /-- Whatever is mentioned is a vertex. -/
  exists_indexOf : ∀ id ∈ b.mentioned, ∃ v < g.nodeCount, g.numbering.indexOf id = .ok v
  /-- Every row leads from a vertex to a vertex. -/
  exists_linked : ∀ row ∈ b.rows.toList, ∃ v < g.nodeCount, ∃ w < g.nodeCount,
    g.numbering.Translates row (v, w) ∧ g.Linked v w
  /-- The edges are the rows that repeat no earlier one, in their order. -/
  edgeIds_eq : g.edgeIds = distinctRows b.kind.edgeKey ∅ b.rows.toList
  /-- The arcs that leave a vertex are filed under vertices. -/
  outgoing_eq : adjacency? g.nodeCount (g.edges.toList.zipIdx.flatMap g.kind.leavingArcs) =
    some g.outgoing
  /-- So are the arcs that enter one, in a directed graph. -/
  incoming_eq : g.kind = .directed →
    adjacency? g.nodeCount (g.edges.toList.zipIdx.flatMap enteringArcs) = some g.incoming

/-- Arcs of vertices are filed as they are without a check. -/
theorem adjacency?_eq {vertexCount : ℕ} {arcs : List (ℕ × Arc)}
    (h : ∀ arc ∈ arcs, arc.1 < vertexCount) :
    adjacency? vertexCount arcs = some (adjacency vertexCount arcs) := by
  refine (Checked.foldlM_eq_some (P := fun lists => lists.size = vertexCount)
    Array.size_replicate fun lists hsize arc harc => ?_).1
  exact ⟨Checked.update?_eq (hsize.symm ▸ h arc harc) _, Array.size_modify.trans hsize⟩

/-- The arcs of edges, however they are made, are filed under vertices if each is given with an end
of its edge. -/
theorem lt_of_mem_flatMap_zipIdx (hg : g.Consistent) {f : (ℕ × ℕ) × ℕ → List (ℕ × Arc)}
    (hf : ∀ a c e, ∀ arc ∈ f ((a, c), e), arc.1 = a ∨ arc.1 = c) :
    ∀ arc ∈ g.edges.toList.zipIdx.flatMap f, arc.1 < g.nodeCount := by
  intro arc harc
  obtain ⟨⟨⟨a, c⟩, e⟩, hmem, harc⟩ := List.mem_flatMap.mp harc
  have hends : g.endpoints? e = some (a, c) := by
    rw [Graph.endpoints?, ← Array.getElem?_toList]
    exact List.mk_mem_zipIdx_iff_getElem?.mp hmem
  obtain ⟨ha, hc⟩ := hg.endpoints_lt e a c hends
  rcases hf a c e arc harc with h | h
  exacts [h ▸ ha, h ▸ hc]

/-- The number of vertices is the number of indices that are given out. -/
theorem vertexCount_eq (hn : b.numbering = .ok n) : n.vertexCount = b.vertexTotal := by
  rw [vertexTotal]
  cases hmode : b.renumber with
  | true => exact vertexCount_of_table hmode hn
  | false =>
      refine eq_of_forall_lt_iff fun id => ?_
      rw [lt_vertexCount_iff_of_identity hmode hn, if_neg Bool.false_ne_true, Finset.lt_sup_iff]
      simp only [List.mem_toFinset, Nat.lt_succ_iff]

/-- A graph that is built has everything that was loaded, and nothing that was not. -/
theorem builds_of_build (hb : b.build = .ok g) : b.Builds g where
  nodeCount_eq := by
    rw [← (build_consistent hb).vertexCount_eq]
    exact vertexCount_eq (numbering_of_build hb).1
  exists_indexOf id hid := by
    obtain ⟨v, hv⟩ := exists_indexOf_of_mentioned (numbering_of_build hb).1 hid
    exact ⟨v, (build_consistent hb).lt_of_indexOf hv, hv⟩
  exists_linked row hrow := by
    have hg := build_consistent hb
    obtain ⟨v, w, hv, hw, hlinked⟩ := Loads.exists_indexOf hb (.inl hrow)
    exact ⟨v, hg.lt_of_indexOf hv, w, hg.lt_of_indexOf hw, ⟨hv, hw⟩, hlinked⟩
  edgeIds_eq := edgeIds_eq hb
  outgoing_eq := by
    have hg := build_consistent hb
    obtain ⟨n, rows, -, -, rfl⟩ := build_eq_ok hb
    rw [adjacency?_eq (lt_of_mem_flatMap_zipIdx hg ?_), Graph.nodeCount_ofRows]
    · rfl
    · rintro a c e ⟨v, w, e'⟩ harc
      rcases (mem_leavingArcs.mp harc).2 with heq | ⟨-, heq⟩
      · exact .inl (Prod.mk.inj heq).1.symm
      · exact .inr (Prod.mk.inj heq).2.symm
  incoming_eq hkind := by
    have hg := build_consistent hb
    obtain ⟨n, rows, -, -, rfl⟩ := build_eq_ok hb
    have hkind : b.kind = .directed := hkind
    rw [adjacency?_eq (lt_of_mem_flatMap_zipIdx hg ?_), Graph.nodeCount_ofRows, hkind]
    · rfl
    · intro a c e arc harc
      obtain rfl := List.mem_singleton.mp harc
      exact .inr rfl

/-! ### The complaints of a builder -/

/-- The MiB that the headers of adjacency lists take, 24 bytes for each list of each vertex. -/
def requiredMemory (b : Builder) : ℕ := (b.vertexTotal * 24 * b.kind.sides) ⌈/⌉ 2 ^ 20

/-- The headers of adjacency lists exceed the limit. -/
def headersTooLarge (b : Builder) : Complaint :=
  .when (b.memoryLimit < b.requiredMemory) (.memoryExceeded b.requiredMemory b.memoryLimit)

theorem checkMemory_answers (hn : b.numbering = .ok n) :
    Answers (fun _ => True) (b.checkMemory n.vertexCount) [b.headersTooLarge] := by
  have hrequired : mebibytes (n.vertexCount * (b.kind.sides * 24)) = b.requiredMemory := by
    rw [mebibytes_eq, requiredMemory, vertexCount_eq hn, Nat.mul_comm b.kind.sides, Nat.mul_assoc]
  rw [checkMemory, hrequired]
  exact .check fun _ => trivial

/-- Once the ids are numbered, only the memory for headers is complained about. -/
theorem build_answers_of_numbering (hrows : b.rows.size < 2 ^ 32) (hn : b.numbering = .ok n) :
    Answers b.Builds b.build [b.headersTooLarge] := by
  refine (checkMemory_answers hn).follow (fun e he => ?_) fun _ hmemory _ => ?_
  · rw [build, hn, ok_bind, he, error_bind]
  · have hfits : b.rows.size ≤ maxIndex := by
      rw [maxIndex]
      omega
    obtain ⟨g, hb⟩ := exists_build_iff.mpr ⟨n, hn, hmemory, hfits⟩
    exact .ok hb (builds_of_build hb)

/-- What a builder comes to. The first declared vertex that repeats an earlier one is reported;
then, without a table, the largest id if it is too large to be an index, and with one that there
are more ids than indices; then the memory for the headers of adjacency lists if it exceeds the
limit. Otherwise a graph is built. In no case is an id missing, as all of them have been
numbered. -/
theorem build_answers (hvertices : b.vertices.size < 2 ^ 32) (hrows : b.rows.size < 2 ^ 32) :
    Answers b.Builds b.build
      [b.repeatedVertex, b.idOutsideRange, b.idsOutnumberIndices, b.headersTooLarge] ∧
    ∀ id, b.build ≠ .error (.vertexNotFound id) := by
  have hanswers : Answers b.Builds b.build
      [b.repeatedVertex, b.idOutsideRange, b.idsOutnumberIndices, b.headersTooLarge] := by
    refine (numbering_answers hvertices).follow (fun e he => ?_) fun n hn _ =>
      build_answers_of_numbering hrows hn
    rw [build, he, error_bind]
  refine ⟨hanswers, fun id => hanswers.ne_error ?_⟩
  simp [repeatedVertex, idOutsideRange, idsOutnumberIndices, headersTooLarge, Complaint.when]

/-! ### More ids than indices -/

/-- As many rows as asked for, without an end in common. -/
def matching (n : ℕ) : Builder where
  kind := .directed
  rows := ((List.range n).map fun i => (2 * i, 2 * i + 1)).toArray

theorem size_rows_matching (n : ℕ) : (matching n).rows.size = n := by simp [matching]

/-- The ends of the rows are the numbers in turn. -/
theorem mentioned_matching (n : ℕ) : (matching n).mentioned = List.range (2 * n) := by
  have hends : (matching n).mentioned = (List.range n).flatMap fun i => [2 * i, 2 * i + 1] := by
    simp [mentioned, rowIds, matching, List.flatMap_map]
  rw [hends]
  clear hends
  induction n with
  | zero => rfl
  | succ n ih =>
      rw [List.range_succ, List.flatMap_append, ih, List.flatMap_singleton, Nat.mul_succ,
        List.range_succ, List.range_succ, List.append_assoc]
      rfl

theorem card_mentioned_matching (n : ℕ) : (matching n).mentioned.toFinset.card = 2 * n := by
  rw [mentioned_matching, List.toFinset_range, Finset.card_range]

/-- Fewer than `2 ^ 32` rows have more than `2 ^ 32` ends. They are refused, although no vertex is
declared twice, no id has to be an index of its own, and the headers are not looked at. -/
theorem build_matching :
    (matching (2 ^ 31 + 1)).vertices.size < 2 ^ 32 ∧ (matching (2 ^ 31 + 1)).rows.size < 2 ^ 32 ∧
    (matching (2 ^ 31 + 1)).build = .error .tooManyVertices ∧
    ¬ Answers (matching (2 ^ 31 + 1)).Builds (matching (2 ^ 31 + 1)).build
      [(matching (2 ^ 31 + 1)).repeatedVertex, (matching (2 ^ 31 + 1)).idOutsideRange,
        (matching (2 ^ 31 + 1)).headersTooLarge] := by
  have hbuild : (matching (2 ^ 31 + 1)).build = .error .tooManyVertices := by
    have hmany : (matching (2 ^ 31 + 1)).idsOutnumberIndices .tooManyVertices := by
      refine ⟨⟨rfl, ?_⟩, rfl⟩
      rw [card_mentioned_matching]
      norm_num
    rw [build, (numbering_answers_of_table (by decide) rfl List.nodup_nil).1 _ hmany, error_bind]
  refine ⟨by decide, ?_, hbuild, fun hanswers => ?_⟩
  · rw [size_rows_matching]
    norm_num
  · refine hanswers.ne_error ?_ hbuild
    simp [repeatedVertex, idOutsideRange, headersTooLarge, Complaint.when]

/-- The square has nothing to complain about without a table, and three rows have nothing with
one. -/
theorem build_answers_small : square.vertices.size < 2 ^ 32 ∧ square.rows.size < 2 ^ 32 ∧
    (matching 3).vertices.size < 2 ^ 32 ∧ (matching 3).rows.size < 2 ^ 32 ∧
    Answers square.Builds square.build
      [square.repeatedVertex, square.idOutsideRange, square.idsOutnumberIndices,
        square.headersTooLarge] ∧
    square.Builds Graph.square ∧ (∀ id, square.build ≠ .error (.vertexNotFound id)) ∧
    (∃ g, (matching 3).build = .ok g ∧ (matching 3).Builds g) ∧
    ∀ id, (matching 3).build ≠ .error (.vertexNotFound id) := by
  have hvertices : square.vertices.size < 2 ^ 32 := by decide
  have hrows : square.rows.size < 2 ^ 32 := by decide
  have hvertices' : (matching 3).vertices.size < 2 ^ 32 := by decide
  have hrows' : (matching 3).rows.size < 2 ^ 32 := by decide
  obtain ⟨hanswers, hfound⟩ := build_answers hvertices hrows
  obtain ⟨hanswers', hfound'⟩ := build_answers hvertices' hrows'
  refine ⟨hvertices, hrows, hvertices', hrows', hanswers, builds_of_build build_square, hfound,
    hanswers'.exists_ok ?_, hfound'⟩
  have hnodup : ∀ e, ¬ (matching 3).repeatedVertex e := fun e he =>
    exists_repeatedVertex_iff.mp ⟨e, he⟩ List.nodup_nil
  have hroom : ∀ e, ¬ (matching 3).idsOutnumberIndices e := by
    rintro e ⟨⟨-, hmany⟩, -⟩
    rw [card_mentioned_matching] at hmany
    omega
  have hinside : ∀ e, ¬ (matching 3).idOutsideRange e := fun e he => nomatch he.1
  have hfits : ∀ e, ¬ (matching 3).headersTooLarge e := by
    rintro e ⟨hlimit, -⟩
    have htotal : (matching 3).vertexTotal = 6 := card_mentioned_matching 3
    rw [requiredMemory, htotal] at hlimit
    exact absurd hlimit (by decide)
  simp [hnodup, hroom, hinside, hfits]

end Builder

end Betweenness
