import Betweenness.Proofs.Dependency.Space
import Betweenness.Proofs.Graph.Building
import Betweenness.Proofs.Lookup
import Betweenness.Proofs.Sampling

/-!
# What becomes of a request

Both entry points complain about the settings first, then about what cannot be computed, then about
the sources, and at last about memory. If there is nothing to complain about, they answer with a
table that has a row for every vertex or every edge, whatever the arithmetic and on every host.
Nothing else is complained about.

Drawing a sample rejects words and has no bound on how many. That it ends is an assumption on the
stream that the sample is drawn from (`SourceSpec.Returns`), which says nothing where no sample is
asked for.

## Main results

* `SourceSpec.resolveWith_answers`: the complaints about sources.
* `SourceSpec.resolveWith_neverAnswers_iff`: sources are missing only if the sampler does not
  return.
* `Strategy.toNat_estimate`: what the estimate of memory amounts to.
* `centrality_answers`: the complaints of both entry points.
-/

namespace Betweenness

open Sampling

/-! ### Settings and options -/

theorem Settings.validate_answers (s : Settings) : Answers (fun _ => True) s.validate
    [.when (s.memoryLimit < 64 ∨ 131072 < s.memoryLimit) (.memoryLimitOutOfRange s.memoryLimit),
      .when (s.threads = some 0) .noThreads] :=
  .guard fun _ => .check fun _ => trivial

theorem refuseUnsupported_answers (endpoints : Bool) (weight : Option String) :
    Answers (fun _ => True) (refuseUnsupported endpoints weight)
      [.when (endpoints = true) .endpointsNotSupported,
        .when (weight.isSome = true) .weightsNotSupported] :=
  .guard fun _ => .check fun _ => trivial

/-- Level by level, only all vertices can be sources. -/
theorem Strategy.checkSources_answers (strategy : Strategy) (sources : SourceSpec) :
    Answers (fun _ => True) (strategy.checkSources sources)
      [.when (strategy = .levelByLevel ∧ sources ≠ .all) .subsetNotSupported] := by
  cases strategy with
  | sourceBySource => exact .pass (fun _ h => nomatch h.1.1) (.ok rfl trivial)
  | levelByLevel =>
      have hsubset : (Strategy.levelByLevel = .levelByLevel ∧ sources ≠ .all) ↔
          sources.isSubset = true := by
        cases sources <;> simp [SourceSpec.isSubset]
      rw [hsubset]
      exact .check fun _ => trivial

theorem VertexOptions.plan_answers (o : VertexOptions) :
    Answers (· = ⟨o.strategy.forPrecision o.precision, o.precision⟩) o.plan
      [.when (o.endpoints = true) .endpointsNotSupported,
        .when (o.weight.isSome = true) .weightsNotSupported,
        .when (o.strategy = .levelByLevel ∧ o.sources ≠ .all) .subsetNotSupported] :=
  (refuseUnsupported_answers o.endpoints o.weight).bind fun _ _ =>
    (o.strategy.checkSources_answers o.sources).bind fun _ _ => .ok rfl rfl

theorem EdgeOptions.plan_answers (o : EdgeOptions) :
    Answers (· = ⟨.sourceBySource, o.precision⟩) o.plan
      [.when (o.weight.isSome = true) .weightsNotSupported] :=
  ((refuseUnsupported_answers false o.weight).2 fun _ h => nomatch h.1).bind fun _ _ => .ok rfl rfl

/-! ### Sources -/

namespace SourceSpec

/-- What there is to complain about a choice of sources: a sample that is larger than the graph,
or the first listed id that is no vertex. -/
def complaint (g : Graph) : SourceSpec → Complaint
  | all => fun _ => False
  | sample k => .when (g.nodeCount < k) (.sampleTooLarge k g.nodeCount)
  | list ids => fun e => ∃ before id after, ids = before ++ id :: after ∧
      (∀ a ∈ before, a ∈ g.vertexIds) ∧ id ∉ g.vertexIds ∧ e = .vertexNotFound id

/-- The number of sources that a choice comes to. -/
def count (g : Graph) : SourceSpec → ℕ
  | all => g.nodeCount
  | sample k => k
  | list ids => ids.length

/-- The sampler returns: a sample that the graph is large enough for is drawn from the stream
after finitely many words. -/
def Returns {σ : Type} [WordStream σ] (spec : SourceSpec) (g : Graph) (stream : σ) : Prop :=
  ∀ k, spec = .sample k → k ≤ g.nodeCount → (Sampling.sample g.nodeCount k stream).isSome = true

section

variable {σ : Type} [WordStream σ] {stream : σ} {g : Graph} {k : ℕ}

/-- A sample is refused only if it is too large. -/
theorem sampleIndices_answers (hreturns : (sample k).Returns g stream) :
    Answers (fun indices => indices.length = k) (sampleIndices g.nodeCount k stream).1
      [(sample k).complaint g] := by
  by_cases hk : g.nodeCount < k
  · rw [sampleIndices, if_pos hk]
    exact ⟨fun e he => congrArg _ he.2.symm, fun hnone => absurd ⟨hk, rfl⟩ (hnone _)⟩
  · obtain ⟨⟨drawn, rest⟩, hdrawn⟩ :=
      Option.isSome_iff_exists.mp (hreturns k rfl (Nat.le_of_not_lt hk))
    have hsample := yields_sample (Nat.le_of_not_lt hk) stream drawn rest hdrawn
    refine .pass (fun e he => hk he.1) (.ok (a := drawn.map (· % (maxIndex + 1))) ?_ ?_)
    · rw [sampleIndices, if_neg hk, hdrawn]
    · rw [List.length_map, hsample.length_eq]

/-- Listed ids are refused only at one that is no vertex. -/
theorem translate_answers (hg : g.Consistent) (hsize : g.nodeCount ≤ maxIndex) (ids : List ℕ) :
    Answers (fun indices => indices.length = ids.length) (g.numbering.translate ids)
      [(list ids).complaint g] := by
  constructor
  · rintro - ⟨before, id, after, rfl, hbefore, hid, rfl⟩
    exact mapM_eq_error (fun a ha => (Graph.mem_vertexIds_iff hg hsize).mp (hbefore a ha))
      (Graph.indexOf_of_notMem_vertexIds hg hsize hid)
  · intro hnone
    cases hfirst : ids.find? (· ∉ g.vertexIds) with
    | none =>
        have hall : ∀ id ∈ ids, id ∈ g.vertexIds := by simpa using hfirst
        obtain ⟨indices, hindices⟩ := Numbering.exists_translate_iff.mpr fun id hid =>
          (Graph.mem_vertexIds_iff hg hsize).mp (hall id hid)
        exact .ok hindices (mapM_eq_ok_iff.mp hindices).length_eq.symm
    | some id =>
        obtain ⟨hid, before, after, hids, hbefore⟩ := List.find?_eq_some_iff_append.mp hfirst
        refine absurd ⟨before, id, after, hids, fun a ha => ?_, by simpa using hid, rfl⟩ (hnone _)
        simpa using hbefore a ha

/-- A choice of sources comes to as many of them as it should, unless there is something to
complain about. -/
theorem resolveWith_answers (hg : g.Consistent) (hsize : g.nodeCount ≤ maxIndex)
    (spec : SourceSpec) (hreturns : spec.Returns g stream) :
    Answers (fun sources => sources.size = spec.count g) (spec.resolveWith g stream).1
      [spec.complaint g] := by
  cases spec with
  | all =>
      refine .pass (fun _ h => h) (.ok rfl ?_)
      exact List.length_range.trans (Graph.indexCount_eq hsize)
  | sample k => exact (sampleIndices_answers hreturns).map fun _ h => h
  | list ids => exact (translate_answers hg hsize ids).map fun _ h => h

/-- Nothing else keeps sources from being resolved: without an answer, the sampler does not
return. -/
theorem resolveWith_neverAnswers_iff (hg : g.Consistent) (hsize : g.nodeCount ≤ maxIndex)
    (spec : SourceSpec) :
    (spec.resolveWith g stream).1 = .error .neverAnswers ↔ ¬ spec.Returns g stream := by
  constructor
  · intro hnone hreturns
    refine (resolveWith_answers hg hsize spec hreturns).ne_error ?_ hnone
    cases spec <;> simp [complaint, Complaint.when]
  · intro hendless
    obtain ⟨k, rfl, hk, hnone⟩ : ∃ k, spec = .sample k ∧ k ≤ g.nodeCount ∧
        Sampling.sample g.nodeCount k stream = none := by
      simpa [Returns] using hendless
    have hindices : sampleIndices g.nodeCount k stream = (.error .neverAnswers, stream) := by
      rw [sampleIndices, if_neg (Nat.not_lt.mpr hk), hnone]
    rw [resolveWith, hindices]
    rfl

end

end SourceSpec

/-! ### Memory -/

namespace Strategy

/-- The bytes that a computation takes: for every vertex 4 for its distance, 8 each for its count
and its dependency, 24 for its list of predecessors and 4 for its place in the order; 8 for every
arc; and 8 or 4 for every score. -/
def bytes (strategy : Strategy) (g : Graph) (scoreCount sourceCount : ℕ) (s : Settings)
    (host : Host) : ℕ :=
  let search := g.nodeCount * (4 + 8 * 2 + 24 + 4) + g.edgeCount * g.kind.arcsPerEdge * 8
  match strategy with
  | sourceBySource =>
      min (s.workers host) (max sourceCount 1) * (search + scoreCount * 8) + scoreCount * 8
  | levelByLevel => search + g.nodeCount * 4 * 2 + scoreCount * 4

/-- The MiB that a computation takes, rounded up. The bytes are counted in 64-bit words. -/
def requiredMemory (strategy : Strategy) (g : Graph) (scoreCount sourceCount : ℕ)
    (s : Settings) (host : Host) : ℕ :=
  (strategy.bytes g scoreCount sourceCount s host % 2 ^ 64) ⌈/⌉ 2 ^ 20

/-- A computation takes more than the limit. -/
def tooLarge (strategy : Strategy) (g : Graph) (scoreCount sourceCount : ℕ) (s : Settings)
    (host : Host) : Complaint :=
  let required := strategy.requiredMemory g scoreCount sourceCount s host
  .when (s.memoryLimit < required) (.memoryExceeded required s.memoryLimit)

variable {g : Graph} {scoreCount sourceCount : ℕ} {s : Settings} {host : Host}

/-- The estimate counts the bytes, in 64-bit words. -/
theorem toNat_estimate (strategy : Strategy) :
    (strategy.estimate g scoreCount sourceCount s host).toNat =
      strategy.bytes g scoreCount sourceCount s host % 2 ^ 64 := by
  cases strategy with
  | sourceBySource =>
      simp [estimate, searchBytes, busyWorkers, bytes, Nat.add_mod, Nat.mul_mod]
  | levelByLevel =>
      simp [estimate, searchBytes, bytes, Nat.add_mod, Nat.mul_mod]

/-- The check is about the MiB that are required. -/
theorem checkMemory_eq {strategy : Strategy} :
    strategy.checkMemory g scoreCount sourceCount s host =
      if s.memoryLimit < strategy.requiredMemory g scoreCount sourceCount s host then
        .error (.memoryExceeded (strategy.requiredMemory g scoreCount sourceCount s host)
          s.memoryLimit)
      else .ok () := by
  rw [checkMemory, mebibytes_eq, toNat_estimate]
  rfl

theorem checkMemory_answers (strategy : Strategy) (g : Graph) (scoreCount sourceCount : ℕ)
    (s : Settings) (host : Host) :
    Answers (fun _ => True) (strategy.checkMemory g scoreCount sourceCount s host)
      [strategy.tooLarge g scoreCount sourceCount s host] := by
  rw [checkMemory_eq]
  exact .check fun _ => trivial

end Strategy

/-! ### Full tables -/

section Tables

variable {α β : Type} [Scalar α] [Scalar β] [Storage α β] {g : Graph}

/-- A table has a row for every vertex of a graph, with its id, and as many scores. -/
structure VertexTable.IsFull (g : Graph) (t : VertexTable α β) : Prop where
  length_vertices : t.vertices.length = g.nodeCount
  exists_id : ∀ v < g.nodeCount, ∃ id, g.idOf? v = some id ∧ t.vertices[v]? = some id
  size_scores : t.scores.size = g.nodeCount

/-- A table has a row for every edge of a graph, with the ids of its ends, and as many scores. -/
structure EdgeTable.IsFull (g : Graph) (t : EdgeTable α β) : Prop where
  length_sources : t.sources.length = g.edgeCount
  length_targets : t.targets.length = g.edgeCount
  exists_ids : ∀ e < g.edgeCount, ∃ ends row, g.endpoints? e = some ends ∧
    g.endpointIds? ends = some row ∧ t.sources[e]? = some row.1 ∧ t.targets[e]? = some row.2
  size_scores : t.scores.size = g.edgeCount
  directed_eq : t.directed = g.isDirected

theorem VertexTable.isFull (hg : g.Consistent) (hsize : g.nodeCount ≤ maxIndex) (plan : Plan)
    (scaling : Scaling) (sources : List ℕ) :
    IsFull g { vertices := g.vertexIds, scores := vertexColumn α β g plan scaling sources } where
  length_vertices := Graph.length_vertexIds hg hsize
  exists_id v hv := by
    obtain ⟨id, hid⟩ := Graph.exists_idOf hg hv
    exact ⟨id, hid, (Graph.getElem?_vertexIds hg hsize hv).trans hid⟩
  size_scores := size_vertexColumn plan scaling

omit [Scalar β] in
theorem EdgeTable.isFull (hg : g.Consistent) (plan : Plan) (scaling : Scaling)
    (sources : List ℕ) :
    IsFull g {
      sources := g.edgeIds.map Prod.fst
      targets := g.edgeIds.map Prod.snd
      scores := edgeColumn α β g plan scaling sources
      directed := g.isDirected } where
  length_sources := by rw [List.length_map, Graph.length_edgeIds hg]
  length_targets := by rw [List.length_map, Graph.length_edgeIds hg]
  exists_ids e he := by
    obtain ⟨ends, hends⟩ : ∃ ends, g.endpoints? e = some ends := ⟨_, Array.getElem?_eq_getElem he⟩
    have hmem : ends ∈ g.edges.toList := Array.mem_toList_iff.mpr (Array.mem_of_getElem? hends)
    obtain ⟨row, hrow⟩ := Option.isSome_iff_exists.mp (Graph.isSome_endpointIds hg hmem)
    have hget : g.edgeIds[e]? = some row := by
      rw [Graph.getElem?_edgeIds hg, hends, Option.bind_some, hrow]
    refine ⟨ends, row, hends, hrow, ?_, ?_⟩
    · rw [List.getElem?_map, hget]
      rfl
    · rw [List.getElem?_map, hget]
      rfl
  size_scores := size_edgeColumn plan scaling
  directed_eq := rfl

end Tables

/-! ### The complaints of a request -/

section Requests

variable (α β : Type) [Scalar α] [Scalar β] [Storage α β] {b : Builder} {g : Graph}

/-- What the entry points come to in a graph that is built, whatever the arithmetic and on every
host. The first of these decides: the memory limit is out of range, there are no threads, endpoints
or weights are asked for, all vertices are not the sources where they have to be, a sample is too
large or a listed id is no vertex, the memory that is required exceeds the limit. Scores of edges
are neither asked for with endpoints nor computed level by level. If there is none of these, there
is a full table. -/
theorem centrality_answers (hb : b.build = .ok g) (hsize : g.nodeCount ≤ maxIndex) (s : Settings)
    (host : Host) :
    (∀ o : VertexOptions, o.sources.Returns g (host.stream o.seed) →
      Answers (VertexTable.IsFull g) (vertexCentrality α β g o s host)
        [.when (s.memoryLimit < 64 ∨ 131072 < s.memoryLimit)
            (.memoryLimitOutOfRange s.memoryLimit),
          .when (s.threads = some 0) .noThreads,
          .when (o.endpoints = true) .endpointsNotSupported,
          .when (o.weight.isSome = true) .weightsNotSupported,
          .when (o.strategy = .levelByLevel ∧ o.sources ≠ .all) .subsetNotSupported,
          o.sources.complaint g,
          (o.strategy.forPrecision o.precision).tooLarge g g.nodeCount (o.sources.count g) s
            host]) ∧
    ∀ o : EdgeOptions, o.sources.Returns g (host.stream o.seed) →
      Answers (EdgeTable.IsFull g) (edgeCentrality α β g o s host)
        [.when (s.memoryLimit < 64 ∨ 131072 < s.memoryLimit)
            (.memoryLimitOutOfRange s.memoryLimit),
          .when (s.threads = some 0) .noThreads,
          .when (o.weight.isSome = true) .weightsNotSupported,
          o.sources.complaint g,
          Strategy.sourceBySource.tooLarge g g.edgeCount (o.sources.count g) s host] := by
  have hg := Builder.build_consistent hb
  constructor
  · intro o hreturns
    refine s.validate_answers.bind fun _ _ => o.plan_answers.bind fun plan hplan =>
      (o.sources.resolveWith_answers hg hsize hreturns).bind fun sources hcount => ?_
    subst hplan
    rw [hcount]
    exact (Strategy.checkMemory_answers _ g _ _ s host).bind fun _ _ =>
      .ok rfl (VertexTable.isFull hg hsize ..)
  · intro o hreturns
    refine s.validate_answers.bind fun _ _ => o.plan_answers.bind fun plan hplan =>
      (o.sources.resolveWith_answers hg hsize hreturns).bind fun sources hcount => ?_
    subst hplan
    rw [hcount]
    exact (Strategy.checkMemory_answers _ g _ _ s host).bind fun _ _ =>
      .ok rfl (EdgeTable.isFull hg ..)

end Requests

/-- A sample of the square is answered with a table. Of the ids in a list, the first that is no
vertex is reported. -/
theorem centrality_answers_square : Builder.square.build = .ok Graph.square ∧
    Graph.square.nodeCount ≤ maxIndex ∧
    (SourceSpec.sample 5).Returns Graph.square (Host.repeatable.stream (some 7)) ∧
    (SourceSpec.list [3, 9, 8]).Returns Graph.square (Host.repeatable.stream none) ∧
    (∃ table : VertexTable ℚ ℚ, vertexCentrality ℚ ℚ Graph.square
      { sources := .sample 5, seed := some 7 } {} .repeatable = .ok table ∧
        table.IsFull Graph.square) ∧
    edgeCentrality ℚ ℚ Graph.square { sources := .list [3, 9, 8] } {} .repeatable =
      .error (.vertexNotFound 9) := by
  have hsample :
      (SourceSpec.sample 5).Returns Graph.square (Host.repeatable.stream (some 7)) := by
    rintro k ⟨⟩ -
    rw [Graph.nodeCount_square]
    exact Option.isSome_iff_exists.mpr ⟨_, sample_five⟩
  have hlist : (SourceSpec.list [3, 9, 8]).Returns Graph.square (Host.repeatable.stream none) :=
    nofun
  obtain ⟨hvertices, hedges⟩ :=
    centrality_answers ℚ ℚ Builder.build_square Graph.nodeCount_square_le {} .repeatable
  refine ⟨Builder.build_square, Graph.nodeCount_square_le, hsample, hlist, ?_, ?_⟩
  · refine (hvertices { sources := .sample 5, seed := some 7 } hsample).exists_ok ?_
    have hfits : ∀ e, ¬ Strategy.sourceBySource.tooLarge Graph.square Graph.square.nodeCount 5 {}
        .repeatable e := fun e =>
      (Strategy.checkMemory_answers ..).not_complaint
        (Strategy.checkMemory_of_small _ (by simp) (by simp) (by simp))
    simpa [Complaint.when, SourceSpec.complaint, SourceSpec.count, Strategy.forPrecision]
      using hfits
  · have hids : Graph.square.vertexIds = [0, 1, 2, 3, 4] := by
      rw [Graph.square_eq]
      rfl
    refine Answers.eq_error [_, _, _] (hedges { sources := .list [3, 9, 8] } hlist) ?_
      ⟨[3], 9, [8], rfl, ?_, ?_, rfl⟩
    · simp [Complaint.when]
    · simp [hids]
    · simp [hids]

end Betweenness
