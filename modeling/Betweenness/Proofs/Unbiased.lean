import Betweenness.Proofs.Lookup
import Mathlib.Data.Finset.Sort
import Mathlib.Data.Nat.Choose.Basic
import Mathlib.Tactic.LinearCombination

/-!
# Estimates without bias

Normalized scores for some of the vertices as sources estimate those for all. A vertex belongs to
one in `n / k` of the sets of `k` vertices out of `n`, and estimates are enlarged by `n / k`. So
what a source contributes to a score is, averaged over all sets of `k` sources, what it contributes
to the score for all of them. This holds whatever else scores are multiplied by, so it does not
matter whether there are enough vertices to divide by pairs.

## Main results

* `sum_powersetCard_sum`: every vertex is counted in as many sets.
* `subsetAverage_eq`: the average of enlarged sums over sets is the sum over all.
* `centrality_unbiased`: the average of what is found in tables for `k` sources is what is found in
  the table for all.
-/

namespace Betweenness

/-! ### Averages over sets of sources -/

/-- The average of what is found for the sets of `k` ids. -/
def subsetAverage (ids : Finset ℕ) (k : ℕ) (score : Finset ℕ → ℚ) : ℚ :=
  (∑ K ∈ ids.powersetCard k, score K) / (ids.powersetCard k).card

section Average

variable {ids : Finset ℕ} {k : ℕ} {F : ℕ → ℚ}

theorem subsetAverage_congr {score score' : Finset ℕ → ℚ}
    (h : ∀ K ∈ ids.powersetCard k, score K = score' K) :
    subsetAverage ids k score = subsetAverage ids k score' :=
  congrArg (· / _) (Finset.sum_congr rfl h)

/-- Every element is counted in as many sets. -/
theorem sum_powersetCard_sum (hpos : 0 < k) : ∑ K ∈ ids.powersetCard k, ∑ a ∈ K, F a =
    (ids.card - 1).choose (k - 1) * ∑ a ∈ ids, F a := by
  have hswap : ∀ (K : Finset ℕ) (a : ℕ), K ∈ ids.powersetCard k ∧ a ∈ K ↔
      K ∈ (ids.powersetCard k).filter ({a} ⊆ ·) ∧ a ∈ ids := by
    intro K a
    rw [Finset.mem_filter, Finset.singleton_subset_iff]
    constructor
    · rintro ⟨hK, ha⟩
      exact ⟨⟨hK, ha⟩, (Finset.mem_powersetCard.mp hK).1 ha⟩
    · rintro ⟨h, -⟩
      exact h
  -- Pairs of a set and one of its elements are counted element by element.
  rw [Finset.sum_comm' hswap, Finset.mul_sum]
  refine Finset.sum_congr rfl fun a ha => ?_
  have hcard : ((ids.powersetCard k).filter ({a} ⊆ ·)).card = (ids.card - 1).choose (k - 1) :=
    Finset.card_filter_powersetCard_subset {a} ids k (Finset.singleton_subset_iff.mpr ha) hpos
  rw [Finset.sum_const, hcard, nsmul_eq_mul]

/-- The average of enlarged sums over sets is the sum over all elements. -/
theorem subsetAverage_eq (hpos : 0 < k) (hk : k ≤ ids.card) (factor : ℚ) :
    subsetAverage ids k (fun K => factor * (ids.card / k) * ∑ a ∈ K, F a) =
      factor * ∑ a ∈ ids, F a := by
  have hchoose : (ids.card : ℚ) * (ids.card - 1).choose (k - 1) = ids.card.choose k * k := by
    have hsucc := Nat.add_one_mul_choose_eq (ids.card - 1) (k - 1)
    rw [Nat.sub_add_cancel (hpos.trans_le hk), Nat.sub_add_cancel hpos] at hsucc
    exact_mod_cast hsucc
  have hk0 : (k : ℚ) ≠ 0 := Nat.cast_ne_zero.mpr hpos.ne'
  have hchoose0 : (ids.card.choose k : ℚ) ≠ 0 :=
    Nat.cast_ne_zero.mpr (Nat.choose_pos hk).ne'
  rw [subsetAverage, ← Finset.mul_sum, sum_powersetCard_sum hpos, Finset.card_powersetCard]
  field_simp
  linear_combination factor * (∑ a ∈ ids, F a) * hchoose

end Average

/-! ### Sources -/

/-- The index of every id of a graph. -/
structure Graph.Indexing (g : Graph) (index : ℕ → ℕ) : Prop where
  indexOf_eq : ∀ id ∈ g.vertexIds, g.numbering.indexOf id = .ok (index id)
  /-- There is one id for every index. -/
  map_eq : g.vertexIds.map index = List.range g.nodeCount

theorem Graph.Consistent.exists_indexing {g : Graph} (hg : g.Consistent)
    (hsize : g.nodeCount ≤ maxIndex) : ∃ index, g.Indexing index := by
  have hall : ∀ id ∈ g.vertexIds, ∃ v, g.numbering.indexOf id = .ok v :=
    Numbering.exists_translate_iff.mp ⟨_, translate_vertexIds hg hsize⟩
  choose! index hindex using hall
  have htranslate : g.numbering.translate g.vertexIds = .ok (g.vertexIds.map index) :=
    mapM_eq_ok_iff.mpr (List.forall₂_map_right_iff.mpr (List.forall₂_same.mpr hindex))
  exact ⟨index, hindex, Except.ok.inj (htranslate.symm.trans (translate_vertexIds hg hsize))⟩

/-- The elements of every set are listed, each once. -/
def Lists (listing : Finset ℕ → List ℕ) : Prop :=
  ∀ K, (listing K).Nodup ∧ (listing K).toFinset = K

/-- There are as many sources as there are ids in a set. -/
theorem Lists.sampled_eq {listing : Finset ℕ → List ℕ} {ids K : Finset ℕ} {k : ℕ}
    (h : Lists listing) (index : ℕ → ℕ) (hK : K ∈ ids.powersetCard k) :
    SourceSet.sampled ⟨(listing K).map index, true⟩ = some k := by
  have hlength : (listing K).length = k := by
    rw [← List.toFinset_card_of_nodup (h K).1, (h K).2]
    exact (Finset.mem_powersetCard.mp hK).2
  rw [SourceSet.sampled, if_pos rfl, SourceSet.size, List.length_map, hlength]

namespace Graph.Indexing

variable {g : Graph} {index : ℕ → ℕ} (h : g.Indexing index)

include h

theorem nodup_vertexIds : g.vertexIds.Nodup := .of_map index (h.map_eq ▸ List.nodup_range)

theorem card_vertexIds : g.vertexIds.toFinset.card = g.nodeCount := by
  rw [List.toFinset_card_of_nodup h.nodup_vertexIds, ← List.length_map index, h.map_eq,
    List.length_range]

variable {k : ℕ} {K : Finset ℕ} {listing : Finset ℕ → List ℕ} (hlisting : Lists listing)

include hlisting

/-- The sources that are listed for a set of ids. -/
theorem resolve_listing (seed : Option ℕ) (host : Host)
    (hK : K ∈ g.vertexIds.toFinset.powersetCard k) :
    (SourceSpec.list (listing K)).resolve g seed host = .ok ⟨(listing K).map index, true⟩ := by
  refine map_eq_ok_iff.mpr ⟨_, ?_, rfl⟩
  refine mapM_eq_ok_iff.mpr (List.forall₂_map_right_iff.mpr (List.forall₂_same.mpr ?_))
  intro id hid
  rw [← List.mem_toFinset, (hlisting K).2] at hid
  exact h.indexOf_eq id (List.mem_toFinset.mp ((Finset.mem_powersetCard.mp hK).1 hid))

variable (hpos : 0 < k) (hk : k ≤ g.nodeCount)

include hpos hk

/-- What sources contribute, enlarged and averaged over sets of sources, is what all of them
contribute. -/
theorem subsetAverage_sources (factor : ℚ) (F : ℕ → ℚ) :
    subsetAverage g.vertexIds.toFinset k (fun K =>
        factor * (g.nodeCount / k) * (((listing K).map index).map F).sum) =
      factor * ((List.range g.nodeCount).map F).sum := by
  have hsum : ∀ K, (((listing K).map index).map F).sum = ∑ id ∈ K, F (index id) := by
    intro K
    obtain ⟨hnodup, hset⟩ := hlisting K
    rw [List.map_map, ← List.sum_toFinset _ hnodup, hset]
    rfl
  have hall : ((List.range g.nodeCount).map F).sum =
      ∑ id ∈ g.vertexIds.toFinset, F (index id) := by
    rw [← h.map_eq, List.map_map, ← List.sum_toFinset _ h.nodup_vertexIds]
    rfl
  rw [hall]
  simp only [hsum, ← h.card_vertexIds]
  exact subsetAverage_eq hpos (h.card_vertexIds ▸ hk) factor

variable (hsize : g.nodeCount ≤ maxIndex)

include hsize

/-- The average of the estimates for a vertex is its score. -/
theorem subsetAverage_vertexScore (v : ℕ) :
    subsetAverage g.vertexIds.toFinset k (fun K =>
        g.vertexScore true ⟨(listing K).map index, true⟩ v) =
      g.vertexScore true (SourceSet.all g) v := by
  have henlarged : vertexFactor g.kind g.nodeCount true k =
      vertexFactor g.kind g.nodeCount true 0 * (g.nodeCount / k) := by
    simp [vertexFactor, hpos]
  have hall : (SourceSet.all g).sampled.getD 0 = 0 := rfl
  rw [vertexScore, hall, vertexSum, SourceSet.indices_all hsize]
  refine Eq.trans ?_ (h.subsetAverage_sources hlisting hpos hk _ _)
  refine subsetAverage_congr fun K hK => ?_
  rw [vertexScore, hlisting.sampled_eq index hK, Option.getD_some, henlarged, vertexSum]

/-- The average of the estimates for an edge is its score. -/
theorem subsetAverage_edgeScore (e : ℕ) :
    subsetAverage g.vertexIds.toFinset k (fun K =>
        g.edgeScore true ⟨(listing K).map index, true⟩ e) =
      g.edgeScore true (SourceSet.all g) e := by
  have henlarged : edgeFactor g.kind g.nodeCount true k =
      edgeFactor g.kind g.nodeCount true 0 * (g.nodeCount / k) := by
    simp [edgeFactor, hpos]
  have hall : (SourceSet.all g).sampled.getD 0 = 0 := rfl
  rw [edgeScore, hall, edgeSum, SourceSet.indices_all hsize]
  refine Eq.trans ?_ (h.subsetAverage_sources hlisting hpos hk _ _)
  refine subsetAverage_congr fun K hK => ?_
  rw [edgeScore, hlisting.sampled_eq index hK, Option.getD_some, henlarged, edgeSum]

end Graph.Indexing

/-! ### Tables -/

/-- Estimates of a built graph are without bias: the average of the normalized scores for all sets
of `k` of its ids as sources is the normalized score for all vertices, for every vertex and every
edge. Each set may be listed in any order. -/
theorem centrality_unbiased {b : Builder} {g : Graph} {k : ℕ} {listing : Finset ℕ → List ℕ}
    (hb : b.build = .ok g) (hsize : g.nodeCount ≤ maxIndex) (hpos : 0 < k) (hk : k ≤ g.nodeCount)
    (hlisting : Lists listing) :
    (∀ (options : VertexOptions) (settings settings' : Settings) (host host' : Host)
      (exact : VertexTable ℚ ℚ) (estimate : Finset ℕ → VertexTable ℚ ℚ),
      vertexCentrality ℚ ℚ g { options with sources := .all, normalized := true } settings host =
        .ok exact →
      (∀ K ∈ g.vertexIds.toFinset.powersetCard k, vertexCentrality ℚ ℚ g
        { options with sources := .list (listing K), normalized := true } settings' host' =
          .ok (estimate K)) →
      ∀ id ∈ g.vertexIds, ∃ x score, exact.scoreOf? id = some x ∧
        (∀ K ∈ g.vertexIds.toFinset.powersetCard k,
          (estimate K).scoreOf? id = some (score K)) ∧
        subsetAverage g.vertexIds.toFinset k score = x) ∧
    ∀ (options : EdgeOptions) (settings settings' : Settings) (host host' : Host)
      (exact : EdgeTable ℚ ℚ) (estimate : Finset ℕ → EdgeTable ℚ ℚ),
      edgeCentrality ℚ ℚ g { options with sources := .all, normalized := true } settings host =
        .ok exact →
      (∀ K ∈ g.vertexIds.toFinset.powersetCard k, edgeCentrality ℚ ℚ g
        { options with sources := .list (listing K), normalized := true } settings' host' =
          .ok (estimate K)) →
      ∀ row ∈ g.edgeIds, ∃ x score, exact.scoreOf? row.1 row.2 = some x ∧
        (∀ K ∈ g.vertexIds.toFinset.powersetCard k,
          (estimate K).scoreOf? row.1 row.2 = some (score K)) ∧
        subsetAverage g.vertexIds.toFinset k score = x := by
  have hg := Builder.build_consistent hb
  obtain ⟨index, hindex⟩ := hg.exists_indexing hsize
  constructor
  · intro options settings settings' host host' exact estimate hexact hestimate id hid
    have hv := hindex.indexOf_eq id hid
    refine ⟨_, _, (VertexTable.scoreOf?_eq_some_iff hg hsize hexact rfl).mpr ⟨index id, hv, rfl⟩,
      fun K hK => ?_, hindex.subsetAverage_vertexScore hlisting hpos hk hsize (index id)⟩
    exact (VertexTable.scoreOf?_eq_some_iff hg hsize (hestimate K hK)
      (hindex.resolve_listing hlisting _ _ hK)).mpr ⟨index id, hv, rfl⟩
  · intro options settings settings' host host' exact estimate hexact hestimate row hrow
    obtain ⟨e, he⟩ := List.mem_iff_getElem?.mp hrow
    obtain ⟨v, w, hvw, hjoins⟩ := (Graph.exists_edgeIds_iff hg).mp ⟨row, he, rfl⟩
    refine ⟨_, _, (EdgeTable.scoreOf?_eq_some_iff hg hexact rfl).mpr
        ⟨e, v, w, hvw, hjoins, rfl⟩,
      fun K hK => ?_, hindex.subsetAverage_edgeScore hlisting hpos hk hsize e⟩
    exact (EdgeTable.scoreOf?_eq_some_iff hg (hestimate K hK)
      (hindex.resolve_listing hlisting _ _ hK)).mpr ⟨e, v, w, hvw, hjoins, rfl⟩

/-- A corner of the square and one of its sides, estimated from every two vertices. -/
theorem centrality_unbiased_square : Builder.square.build = .ok Graph.square ∧
    Graph.square.nodeCount ≤ maxIndex ∧ 2 ≤ Graph.square.nodeCount ∧ Lists (fun K => K.sort) ∧
    (∃ (exact : VertexTable ℚ ℚ) (estimate : Finset ℕ → VertexTable ℚ ℚ),
      vertexCentrality ℚ ℚ Graph.square {} {} .repeatable = .ok exact ∧
      (∀ K ∈ Graph.square.vertexIds.toFinset.powersetCard 2, vertexCentrality ℚ ℚ Graph.square
        { sources := .list K.sort } {} .repeatable = .ok (estimate K)) ∧
      ∃ x score, exact.scoreOf? 2 = some x ∧
        (∀ K ∈ Graph.square.vertexIds.toFinset.powersetCard 2,
          (estimate K).scoreOf? 2 = some (score K)) ∧
        subsetAverage Graph.square.vertexIds.toFinset 2 score = x) ∧
    ∃ (exact : EdgeTable ℚ ℚ) (estimate : Finset ℕ → EdgeTable ℚ ℚ),
      edgeCentrality ℚ ℚ Graph.square {} {} .repeatable = .ok exact ∧
      (∀ K ∈ Graph.square.vertexIds.toFinset.powersetCard 2, edgeCentrality ℚ ℚ Graph.square
        { sources := .list K.sort } {} .repeatable = .ok (estimate K)) ∧
      ∃ x score, exact.scoreOf? 3 0 = some x ∧
        (∀ K ∈ Graph.square.vertexIds.toFinset.powersetCard 2,
          (estimate K).scoreOf? 3 0 = some (score K)) ∧
        subsetAverage Graph.square.vertexIds.toFinset 2 score = x := by
  have hb := Builder.build_square
  have hsize := Graph.nodeCount_square_le
  have htwo : 2 ≤ Graph.square.nodeCount := by simp
  have hlisting : Lists (fun K => K.sort) := fun K => ⟨K.sort_nodup _, K.sort_toFinset _⟩
  obtain ⟨index, hindex⟩ := (Builder.build_consistent hb).exists_indexing hsize
  have hsources := fun K hK => hindex.resolve_listing (k := 2) (K := K) hlisting none .repeatable hK
  have hnodes : Graph.square.nodeCount ≤ 1000 := by simp
  have hcount : Graph.square.edgeCount ≤ 1000 := by simp
  obtain ⟨hvertices, hedges⟩ := centrality_unbiased hb hsize (by decide) htwo hlisting
  refine ⟨hb, hsize, htwo, hlisting, ?_, ?_⟩
  · obtain ⟨exact, hexact⟩ : ∃ exact : VertexTable ℚ ℚ,
        vertexCentrality ℚ ℚ Graph.square {} {} .repeatable = .ok exact :=
      exists_vertexCentrality_of_small hnodes hcount rfl rfl
    have hall : ∀ K ∈ Graph.square.vertexIds.toFinset.powersetCard 2,
        ∃ estimate : VertexTable ℚ ℚ, vertexCentrality ℚ ℚ Graph.square
          { sources := .list K.sort } {} .repeatable = .ok estimate := fun K hK =>
      exists_vertexCentrality_of_small hnodes hcount rfl (hsources K hK)
    have : Nonempty (VertexTable ℚ ℚ) := ⟨exact⟩
    choose! estimate hestimate using hall
    exact ⟨exact, estimate, hexact, hestimate,
      hvertices {} {} {} .repeatable .repeatable exact estimate hexact hestimate 2 (by
        rw [Graph.square_eq]
        decide)⟩
  · obtain ⟨exact, hexact⟩ : ∃ exact : EdgeTable ℚ ℚ,
        edgeCentrality ℚ ℚ Graph.square {} {} .repeatable = .ok exact :=
      exists_edgeCentrality_of_small hnodes hcount rfl rfl
    have hall : ∀ K ∈ Graph.square.vertexIds.toFinset.powersetCard 2,
        ∃ estimate : EdgeTable ℚ ℚ, edgeCentrality ℚ ℚ Graph.square
          { sources := .list K.sort } {} .repeatable = .ok estimate := fun K hK =>
      exists_edgeCentrality_of_small hnodes hcount rfl (hsources K hK)
    have : Nonempty (EdgeTable ℚ ℚ) := ⟨exact⟩
    choose! estimate hestimate using hall
    exact ⟨exact, estimate, hexact, hestimate,
      hedges {} {} {} .repeatable .repeatable exact estimate hexact hestimate (3, 0) (by
        rw [Graph.square_eq]
        decide)⟩

end Betweenness
