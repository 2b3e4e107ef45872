import Std.Data.HashSet
import Betweenness.Graph.Builder
import Betweenness.Options
import Betweenness.Sampling

/-!
# Sources

`SourceSpec.resolve` turns the choice of sources into indices of a graph. Samples are drawn over
indices, so which ids they stand for depends on the numbering; listed ids are translated by it.
A sample without a seed is drawn with the words of the `Host` that a computation runs on.
-/

namespace Betweenness

namespace Sampling

/-! ### Samples without repetition

`sample n k` draws `k` distinct indices below `n`, every arrangement equally likely. It has four
ways to do so, and `Method.choose` says which one suits `n` and `k`:

* `swaps`: the first `k` places of a shuffle of all `n` indices;
* `insertions`: for the last `k` indices `j` in turn, a draw from `0` to `j`, where an index that
  is drawn again makes `j` take the place in front of it;
* `replacements`: the same draws, where an index that is drawn again is replaced by `j`, with a
  shuffle at the end;
* `redraws`: draws below `n`, repeated ones rejected.
-/

/-- A way to draw a sample. -/
inductive Method where
  | swaps
  | insertions
  | replacements
  | redraws
  deriving DecidableEq, Repr

/-- Whether shuffling `n` indices is the cheaper way to a small sample. -/
def shuffleSuitsSmall (n k : Nat) : Bool :=
  let few : Float32 := if n < 500000 then 1.6 else 8.0 / 45.0
  let base : Float32 := if n < 500000 then 10.0 else 70.0 / 9.0
  let size := Float32.ofNat k
  11 < k && Float32.ofNat n < (base + few * size) * size

/-- Whether shuffling `n` indices is the cheaper way to a large sample. -/
def shuffleSuitsLarge (n k : Nat) : Bool :=
  let factor : Float32 := if n < 500000 then 270.0 else 330.0 / 9.0
  Float32.ofNat n < factor * Float32.ofNat k

/-- The way in which `k` of `n` indices are drawn. -/
def Method.choose (n k : Nat) : Method :=
  if UInt32.size ≤ n then redraws
  else if k < 163 then
    if shuffleSuitsSmall n k then swaps else if k < 50 then insertions else replacements
  else if shuffleSuitsLarge n k then swaps
  else redraws

variable {σ : Type} [WordStream σ]

/-- The first places of a shuffle: swap each of the places with one from there to the end. -/
def swapPlaces (indices : Array Nat) (places : List Nat) : Draw σ (Array Nat) :=
  places.foldlM
    (fun a i => return a.swapIfInBounds i (← between i (a.size - 1))) indices

/-- Take an index, or else a fresh one that goes in front of the index if that has been taken. -/
def insertOrPush (taken : List Nat) (index fresh : Nat) : List Nat :=
  if index ∈ taken then
    taken.takeWhile (· ≠ index) ++ fresh :: taken.dropWhile (· ≠ index)
  else taken ++ [index]

/-- Take an index, or a fresh one if that has been taken. -/
def replaceOrPush (taken : Array Nat) (index fresh : Nat) : Array Nat :=
  if taken.contains index then taken.push fresh else taken.push index

/-- Shuffle from the end: swap each place with one up to it. -/
def shuffle (indices : Array Nat) : Draw σ (Array Nat) :=
  ((List.range indices.size).drop 1).reverse.foldlM
    (fun a i => return a.swapIfInBounds i (← upTo i)) indices

/-- Take one more index below `n` that is not among those taken. -/
def takeNew (n : Nat) (taken : Array Nat × Std.HashSet Nat) :
    Draw σ (Array Nat × Std.HashSet Nat) := do
  let index ← drawUntil (below n) fun index => !taken.2.contains index
  return (taken.1.push index, taken.2.insert index)

/-- Draw `k` of `n` indices in a given way. -/
def sampleBy (n k : Nat) : Method → Draw σ (List Nat)
  | .swaps => do
    let a ← swapPlaces (List.range n).toArray (List.range k)
    return a.toList.take k
  | .insertions =>
    (List.range' (n - k) k).foldlM (fun taken j => return insertOrPush taken (← upTo j) j) []
  | .replacements => do
    let a ← (List.range' (n - k) k).foldlM
      (fun taken j => return replaceOrPush taken (← upTo j) j) #[]
    return (← shuffle a).toList
  | .redraws => do
    let taken ← (List.range k).foldlM (fun taken _ => takeNew n taken) (#[], ∅)
    return taken.1.toList

/-- Draw `k` of `n` indices. -/
def sample (n k : Nat) : Draw σ (List Nat) := sampleBy n k (Method.choose n k)

end Sampling

open Sampling

/-! ### Hosts -/

/-- What the machine contributes to a computation. -/
structure Host where
  /-- The number of threads where none is given. -/
  threads : Nat
  /-- The words for a sample where no seed is given. -/
  entropy : Sampling.ChaCha

namespace Host

/-- A host on which every run can be repeated: one thread, and the stream of the seed zero. -/
def repeatable : Host := ⟨1, .ofSeed 0⟩

/-- The words for a sample: the stream of the seed, if there is one. -/
def stream (host : Host) : (seed : Option Nat) → Sampling.ChaCha
  | some seed => .ofSeed (.ofNat seed)
  | none => host.entropy

end Host

/-! ### Choices of sources -/

/-- The indices that searches start from. -/
structure SourceSet where
  indices : List Nat
  /-- Whether they are a choice of vertices rather than all of them. -/
  isSubset : Bool
  deriving DecidableEq, Repr

namespace SourceSet

/-- Every vertex of a graph. -/
def all (g : Graph) : SourceSet := ⟨List.range g.indexCount, false⟩

/-- The number of sources, repeats included. -/
def size (s : SourceSet) : Nat := s.indices.length

/-- The number of sources by which estimates are scaled. -/
def sampled (s : SourceSet) : Option Nat := if s.isSubset then some s.size else none

end SourceSet

/-- Draw `k` of `n` indices from a stream of words, which is left as it is if there are fewer. The
indices are cut to 32 bits. -/
def sampleIndices {σ : Type} [WordStream σ] (n k : Nat) (stream : σ) :
    Except Error (List Nat) × σ :=
  if n < k then (.error (.sampleTooLarge k n), stream)
  else
    match sample n k stream with
    | some (indices, stream) => (.ok (indices.map (· % (maxIndex + 1))), stream)
    | none => (.error .neverAnswers, stream)

namespace SourceSpec

/-- The sources in a graph, with samples drawn from a stream of words. -/
def resolveWith {σ : Type} [WordStream σ] (spec : SourceSpec) (g : Graph) (stream : σ) :
    Except Error SourceSet × σ :=
  match spec with
  | all => (.ok (SourceSet.all g), stream)
  | sample k =>
    let (indices, stream) := sampleIndices g.nodeCount k stream
    ((⟨·, true⟩) <$> indices, stream)
  | list ids => ((⟨·, true⟩) <$> g.numbering.translate ids, stream)

/-- The sources in a graph, with samples drawn from the stream that the host has for a seed. -/
def resolve (spec : SourceSpec) (g : Graph) (seed : Option Nat) (host : Host := .repeatable) :
    Except Error SourceSet :=
  (spec.resolveWith g (host.stream seed)).1

end SourceSpec

end Betweenness
