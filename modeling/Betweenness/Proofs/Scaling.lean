import Betweenness.Centrality
import Betweenness.Proofs.Numbering
import Mathlib.Algebra.Field.Rat
import Mathlib.Tactic.NormNum
import Mathlib.Tactic.Push
import Mathlib.Tactic.Ring

/-!
# Scaling in exact arithmetic

In rational arithmetic the factor of a scaling is a product of three parts, each of which is one
where it does not apply: a half if every pair is seen from both ends, one over the number of pairs
if scores are normalized, and the number of vertices for each source if these are a choice.

## Main results

* `Scaling.factor_vertices`, `Scaling.factor_edges`: the factors as such products.
* `Scaling.apply_eq`, `Scaling.applyStored_eq`: every score is multiplied by the factor, whether
  or not it is one.
* `SourceSpec.sampled_of_resolve`: the number of sources by which scores are scaled.
-/

namespace Betweenness

/-- The share of exact scores that counts every pair once. -/
def halving (kind : Kind) : ℚ := if kind = .undirected then 1 / 2 else 1

/-- How often a pair of vertices counts when exact scores are divided by the number of pairs. -/
def pairWeight (kind : Kind) : ℚ := if kind = .undirected then 2 else 1

/-- The factor of exact vertex scores in a graph with `n` vertices, when `chosen` vertices are
sources, or all of them if the number is zero. -/
def vertexFactor (kind : Kind) (n : ℕ) (normalized : Bool) (chosen : ℕ) : ℚ :=
  halving kind *
    (if normalized ∧ 2 < n then pairWeight kind / (((n : ℚ) - 1) * (n - 2)) else 1) *
    (if normalized ∧ 0 < chosen then (n : ℚ) / chosen else 1)

/-- The factor of exact edge scores in a graph with `n` vertices, when `chosen` vertices are
sources, or all of them if the number is zero. -/
def edgeFactor (kind : Kind) (n : ℕ) (normalized : Bool) (chosen : ℕ) : ℚ :=
  halving kind *
    (if normalized ∧ 1 < n then pairWeight kind / ((n : ℚ) * (n - 1)) else 1) *
    (if normalized ∧ 0 < chosen then (n : ℚ) / chosen else 1)

namespace Scaling

/-! ### Parts of the factor -/

theorem pairFactor_rat (kind : Kind) : pairFactor ℚ kind = halving kind := by
  cases kind with
  | directed => rfl
  | undirected => exact congrArg (1 / ·) one_add_one_eq_two

theorem pairScale_rat (kind : Kind) : pairScale ℚ kind = pairWeight kind := by
  cases kind with
  | directed => rfl
  | undirected => exact one_add_one_eq_two

variable {kind : Kind} {n : ℕ} {normalized : Bool} {sampled : Option ℕ} {x : ℚ}

/-- Vertex scores are divided by the number of pairs beside a vertex. -/
theorem perPair_vertices : perPair ⟨kind, .vertices, n, normalized, sampled⟩ x =
    x * if 2 < n then pairWeight kind / (((n : ℚ) - 1) * (n - 2)) else 1 := by
  rw [perPair]
  dsimp only
  split
  · rename_i hn
    have hone : ((n - 1 : ℕ) : ℚ) = n - 1 := Nat.cast_pred (by omega)
    have htwo : ((n - 2 : ℕ) : ℚ) = n - 2 := by rw [Nat.cast_sub (by omega), Nat.cast_ofNat]
    rw [← hone, ← htwo, ← pairScale_rat]
    rfl
  · exact (mul_one x).symm

/-- Edge scores are divided by the number of pairs. -/
theorem perPair_edges : perPair ⟨kind, .edges, n, normalized, sampled⟩ x =
    x * if 1 < n then pairWeight kind / ((n : ℚ) * (n - 1)) else 1 := by
  rw [perPair]
  dsimp only
  split
  · rename_i hn
    have hone : ((n - 1 : ℕ) : ℚ) = n - 1 := Nat.cast_pred (by omega)
    rw [← hone, ← pairScale_rat]
    rfl
  · exact (mul_one x).symm

/-- Scores of chosen sources are enlarged. -/
theorem perSource_rat {scored : Scored} :
    perSource ⟨kind, scored, n, normalized, sampled⟩ x =
      x * if 0 < sampled.getD 0 then (n : ℚ) / sampled.getD 0 else 1 := by
  cases sampled with
  | none => exact (mul_one x).symm
  | some k =>
      cases k with
      | zero => exact (mul_one x).symm
      | succ k => rfl

/-! ### The factor -/

theorem factor_vertices : factor ℚ ⟨kind, .vertices, n, normalized, sampled⟩ =
    vertexFactor kind n normalized (sampled.getD 0) := by
  cases normalized with
  | false => simp [factor, vertexFactor, pairFactor_rat]
  | true => simp [factor, vertexFactor, pairFactor_rat, perPair_vertices, perSource_rat]

theorem factor_edges : factor ℚ ⟨kind, .edges, n, normalized, sampled⟩ =
    edgeFactor kind n normalized (sampled.getD 0) := by
  cases normalized with
  | false => simp [factor, edgeFactor, pairFactor_rat]
  | true => simp [factor, edgeFactor, pairFactor_rat, perPair_edges, perSource_rat]

/-- Every score is multiplied by the factor, whether or not it is one. -/
theorem apply_eq (s : Scaling) (scores : Array ℚ) :
    s.apply scores = scores.map (· * s.factor ℚ) := by
  rw [Scaling.apply]
  split
  · rename_i hone
    have hone : s.factor ℚ = 1 := of_decide_eq_true hone
    simp [hone]
  · rfl

theorem applyStored_eq (s : Scaling) (scores : Array ℚ) :
    s.applyStored ℚ scores = scores.map (· * s.factor ℚ) := by
  rw [applyStored]
  split
  · rename_i hone
    have hone : s.factor ℚ = 1 := of_decide_eq_true hone
    simp [hone]
  · rfl

end Scaling

/-! ### Chosen sources -/

/-- The number of sources, if they are a choice. -/
def SourceSpec.chosen (spec : SourceSpec) (sources : SourceSet) : ℕ :=
  if spec = .all then 0 else sources.indices.length

/-- Sources are a choice if they are resolved from one. -/
theorem SourceSpec.isSubset_of_resolve {spec : SourceSpec} {g : Graph} {seed : Option ℕ}
    {host : Host} {sources : SourceSet} (h : spec.resolve g seed host = .ok sources) :
    sources.isSubset = spec.isSubset := by
  cases spec with
  | all =>
      cases h
      rfl
  | sample k =>
      obtain ⟨indices, -, rfl⟩ := map_eq_ok_iff.mp h
      rfl
  | list ids =>
      obtain ⟨indices, -, rfl⟩ := map_eq_ok_iff.mp h
      rfl

/-- The sources by which scores are scaled are the chosen ones. -/
theorem SourceSpec.sampled_of_resolve {spec : SourceSpec} {g : Graph} {seed : Option ℕ}
    {host : Host} {sources : SourceSet} (h : spec.resolve g seed host = .ok sources) :
    sources.sampled.getD 0 = spec.chosen sources := by
  rw [SourceSet.sampled, isSubset_of_resolve h, chosen]
  cases spec with
  | all => rfl
  | sample k => rfl
  | list ids => rfl

/-- All vertices are sources, each once, if there are fewer than `2 ^ 32`. -/
theorem SourceSet.indices_all {g : Graph} (hsize : g.nodeCount ≤ maxIndex) :
    (SourceSet.all g).indices = List.range g.nodeCount := by
  rw [SourceSet.all, Graph.indexCount_eq hsize]

/-- All vertices are sources, each once, unless some are chosen. -/
theorem SourceSpec.indices_of_resolve_all {g : Graph} (hsize : g.nodeCount ≤ maxIndex)
    {seed : Option ℕ} {host : Host} {sources : SourceSet}
    (h : SourceSpec.all.resolve g seed host = .ok sources) :
    sources.indices = List.range g.nodeCount := by
  cases h
  exact SourceSet.indices_all hsize

end Betweenness
