import Betweenness.Error
import Betweenness.Proofs.ShortestPaths.LevelSearch
import Betweenness.Proofs.ShortestPaths.Reuse
import Mathlib.Logic.Relation

/-!
# Distances in 32 bits

The space of a search has a distance for each vertex that has been reached and none for the others.
A `WordSpace` has a 32-bit word for each vertex instead, and the greatest word means that there is
no distance. Then a distance must not be the greatest word, a count of levels must not begin again
at zero, and a comparison with a distance must not take a vertex for reached that is not.

`ShortestPaths.words` writes distances as words. The steps of a search on words are those on
distances, as long as distances are less than the number of vertices and this number is at most the
greatest word (`maxIndex`). What keeps distances so small is `ShortestPaths.Listed`: vertices are
listed once each and have a distance exactly if they are listed, so that a vertex is left for as
long as fewer are listed than there are.

## Main definitions

* `WordSpace`, `ShortestPaths.words`: space for a search with distances in 32 bits.
* `ShortestPaths.Listed`: the vertices with a distance are those that are listed.
* `WordSpace.InBounds`: what is kept in words does not run out of bounds.

## Main results

* `isUnreached_words`, `isAt_words`: the two tests of a distance.
* `words_prepare`, `words_reach`, `words_credit`, `words_markLevel`, `words_pullLevel`: the steps.
* `Listed.inBounds`: the words of listed vertices are in bounds.
-/

namespace Betweenness

/-- The space of a search with distances in 32 bits. -/
structure WordSpace (α : Type) where
  source : ℕ
  /-- The number of hops from the source, or `unreached`. -/
  distance : Array UInt32
  pathCount : Array α
  predecessors : Array (Array Predecessor)
  order : Array ℕ
  levelOffsets : Array ℕ

namespace WordSpace

/-- The word of a vertex that has not been reached. -/
def unreached : UInt32 := 0xFFFFFFFF

variable {α : Type}

/-- Whether an index is a vertex that has not been reached. -/
def isUnreached (s : WordSpace α) (v : ℕ) : Bool := s.distance[v]? = some unreached

/-- Whether an index is a vertex whose word is the given one. -/
def isAt (s : WordSpace α) (v : ℕ) (depth : UInt32) : Bool := s.distance[v]? = some depth

/-- Close the level that ends with the last reached vertex. -/
def closeLevel (s : WordSpace α) : WordSpace α :=
  { s with levelOffsets := s.levelOffsets.push s.order.size }

/-- Reach a vertex at a distance, if it has not been reached. -/
def reach (s : WordSpace α) (w : ℕ) (depth : UInt32) : WordSpace α :=
  if s.isUnreached w then
    { s with
      distance := s.distance.setIfInBounds w depth
      order := s.order.push w }
  else s

/-- The vertices one hop beyond a level, in increasing order. -/
def nextLevel (g : Graph) (s : WordSpace α) (frontier : Array ℕ) : List ℕ :=
  let targets := frontier.toList.flatMap fun v => (g.out v).toList.map Arc.target
  ((targets.filter s.isUnreached).mergeSort (· ≤ ·)).eraseReps

/-- Write the distance of the vertices of a level. -/
def markLevel (s : WordSpace α) (depth : UInt32) (level : List ℕ) : WordSpace α :=
  { s with distance := level.foldl (fun a w => a.setIfInBounds w depth) s.distance }

variable [Scalar α]

/-- The number of shortest paths to a vertex. -/
def countOf (s : WordSpace α) (v : ℕ) : α := s.pathCount.getD v 0

/-- Undo the marks of the last search, vertex by vertex of its order. -/
def clear (s : WordSpace α) : WordSpace α :=
  { s with
    distance := s.order.foldl (fun a v => a.setIfInBounds v unreached) s.distance
    pathCount := s.order.foldl (fun a v => a.setIfInBounds v 0) s.pathCount
    predecessors := s.order.foldl (fun a v => a.setIfInBounds v #[]) s.predecessors
    order := #[]
    levelOffsets := #[] }

/-- Reach the source, by the empty path. -/
def start (s : WordSpace α) : WordSpace α :=
  { s with
    distance := s.distance.setIfInBounds s.source 0
    pathCount := s.pathCount.setIfInBounds s.source 1
    order := s.order.push s.source
    levelOffsets := s.levelOffsets.push 0 }

/-- Prepare a search: no marks but those of the source, if it is a vertex. -/
def prepare (s : WordSpace α) (g : Graph) (source : ℕ) : WordSpace α :=
  let s := { s.clear with source }
  if source < g.nodeCount then s.start else s

/-- Count the paths that arrive over an arc, if its target is at the given distance. -/
def credit (s : WordSpace α) (v : ℕ) (count : α) (arc : Arc) (depth : UInt32) : WordSpace α :=
  if s.isAt arc.target depth then
    { s with
      pathCount := s.pathCount.modify arc.target (· + count)
      predecessors := s.predecessors.modify arc.target (·.push ⟨v, arc.edge⟩) }
  else s

/-- The paths that arrive at a vertex from the vertices at a distance. -/
def arriving (g : Graph) (s : WordSpace α) (depth : UInt32) (w : ℕ) : α × Array Predecessor :=
  (g.into w).foldl
    (fun (count, steps) arc =>
      if s.isAt arc.target depth then
        (count + s.countOf arc.target, steps.push ⟨arc.target, arc.edge⟩)
      else (count, steps))
    (0, #[])

/-- Set what arrives at the vertices of a level that has been marked, and list them. -/
def pullLevel (g : Graph) (s : WordSpace α) (depth : UInt32) (level : List ℕ) : WordSpace α :=
  { s with
    pathCount := level.foldl (fun a w => a.setIfInBounds w (s.arriving g depth w).1) s.pathCount
    predecessors :=
      level.foldl (fun a w => a.setIfInBounds w (s.arriving g depth w).2) s.predecessors
    order := s.order ++ level.toArray }

end WordSpace

namespace ShortestPaths

open WordSpace (unreached)

/-! ### Distances as words -/

/-- A distance as a word, if there is one. -/
def word : Option ℕ → UInt32
  | none => unreached
  | some d => .ofNat d

variable {α : Type}

/-- The space with distances as words. -/
def words (s : ShortestPaths α) : WordSpace α where
  source := s.source
  distance := s.distance.map word
  pathCount := s.pathCount
  predecessors := s.predecessors
  order := s.order
  levelOffsets := s.levelOffsets

variable {g : Graph} {s : ShortestPaths α} {n v w d depth : ℕ} {level pending : List ℕ}

theorem getElem?_words : s.words.distance[v]? = s.distance[v]?.map word := Array.getElem?_map

theorem toNat_ofNat_of_le (hd : d ≤ maxIndex) : (UInt32.ofNat d).toNat = d :=
  UInt32.toNat_ofNat_of_lt (Nat.lt_succ_of_le hd)

/-- Numbers up to the greatest word are different as words. -/
theorem ofNat_eq_iff (hd : d ≤ maxIndex) (hdepth : depth ≤ maxIndex) :
    UInt32.ofNat d = .ofNat depth ↔ d = depth := by
  rw [← UInt32.toNat_inj, toNat_ofNat_of_le hd, toNat_ofNat_of_le hdepth]

/-- A number below the greatest word means a distance. -/
theorem ofNat_ne_unreached (hd : d < maxIndex) : UInt32.ofNat d ≠ unreached := fun h =>
  Nat.ne_of_lt hd ((ofNat_eq_iff (Nat.le_of_lt hd) Nat.le.refl).mp h)

/-- Setting entries commutes with a map. -/
theorem map_foldl_setIfInBounds {β γ : Type} {f : β → γ} {l : List ℕ} {x : ℕ → β}
    {a : Array β} : (l.foldl (fun a v => a.setIfInBounds v (x v)) a).map f =
      l.foldl (fun a v => a.setIfInBounds v (f (x v))) (a.map f) := by
  induction l generalizing a with
  | nil => rfl
  | cons v l ih => rw [List.foldl_cons, ih, Array.map_setIfInBounds, List.foldl_cons]

/-- Set what arrives at the vertices of a level that has been marked, and list them. -/
def pullLevel [Scalar α] (g : Graph) (s : ShortestPaths α) (depth : ℕ) (level : List ℕ) :
    ShortestPaths α :=
  { s with
    pathCount := level.foldl (fun a w => a.setIfInBounds w (s.arriving g depth w).1) s.pathCount
    predecessors :=
      level.foldl (fun a w => a.setIfInBounds w (s.arriving g depth w).2) s.predecessors
    order := s.order ++ level.toArray }

/-- A level is reached by marking it first. -/
theorem reachLevel_eq_pullLevel [Scalar α] :
    reachLevel g depth s level = (s.markLevel depth level).pullLevel g depth level :=
  reachLevel_eq

/-! ### Listed vertices -/

/-- A vertex has a distance if it is listed, or pending and about to be listed, and only then. All
of these vertices are different, and their distances are less than their number can become. -/
structure Listed (n : ℕ) (pending : List ℕ) (s : ShortestPaths α) : Prop where
  size_distance : s.distance.size = n
  nodup : (s.order.toList ++ pending).Nodup
  lt_of_mem : ∀ v ∈ s.order.toList ++ pending, v < n
  distanceOf_eq_none_iff : ∀ v < n, s.distanceOf v = none ↔ v ∉ s.order.toList ++ pending
  distance_lt : ∀ v d, s.distanceOf v = some d → d < n
  offsets_increasing : s.levelOffsets.toList.Pairwise (· < ·)

namespace Listed

/-- No more vertices are listed than there are. -/
theorem size_add_length_le (h : s.Listed n pending) : s.order.size + pending.length ≤ n := by
  have hsubset : s.order.toList ++ pending ⊆ List.range n := fun v hv =>
    List.mem_range.mpr (h.lt_of_mem v hv)
  have := h.nodup.length_le_of_subset hsubset
  rwa [List.length_append, Array.length_toList, List.length_range] at this

theorem size_le (h : s.Listed n pending) : s.order.size ≤ n :=
  Nat.le_of_add_right_le h.size_add_length_le

/-- As long as a vertex is unreached, fewer are listed than there are. -/
theorem size_lt (h : s.Listed n []) (hw : s.isUnreached w = true) : s.order.size < n := by
  obtain ⟨hlt, hnone⟩ := isUnreached_iff.mp hw
  rw [h.size_distance] at hlt
  have hnot := (h.distanceOf_eq_none_iff w hlt).mp hnone
  rw [List.append_nil] at hnot
  have hnodup : (w :: s.order.toList).Nodup :=
    List.nodup_cons.mpr ⟨hnot, by simpa using h.nodup⟩
  have hsubset : w :: s.order.toList ⊆ List.range n := by
    intro v hv
    rw [List.mem_range]
    rcases List.mem_cons.mp hv with rfl | hv
    · exact hlt
    · exact h.lt_of_mem v (List.mem_append_left _ hv)
  have := hnodup.length_le_of_subset hsubset
  rwa [List.length_cons, Array.length_toList, List.length_range] at this

/-- Which indices are unreached. -/
theorem isUnreached_iff (h : s.Listed n pending) :
    s.isUnreached v = true ↔ v < n ∧ v ∉ s.order.toList ++ pending := by
  rw [ShortestPaths.isUnreached_iff, h.size_distance]
  exact and_congr_right fun hv => h.distanceOf_eq_none_iff v hv

/-- Crediting lists nothing. -/
theorem credit [Scalar α] (h : s.Listed n []) (v : ℕ) (count : α) (arc : Arc) (depth : ℕ) :
    (s.credit v count arc depth).Listed n [] := by
  rw [ShortestPaths.credit]
  split
  · exact ⟨h.1, h.2, h.3, h.4, h.5, h.6⟩
  · exact h

/-- A level that is closed ends behind where the others end. -/
theorem closeLevel (h : s.Listed n pending) (hoffsets : ∀ o ∈ s.levelOffsets, o < s.order.size) :
    s.closeLevel.Listed n pending :=
  { h with
    offsets_increasing := by
      rw [ShortestPaths.closeLevel, Array.toList_push]
      refine List.pairwise_append.mpr ⟨h.offsets_increasing, List.pairwise_singleton _ _, ?_⟩
      intro o ho e he
      rw [List.mem_singleton.mp he]
      exact hoffsets o (Array.mem_toList_iff.mp ho) }

/-- Unreached vertices that are marked are pending. -/
theorem mark (h : s.Listed n []) (hnodup : level.Nodup)
    (hlevel : ∀ w ∈ level, s.isUnreached w = true) (hdepth : depth ≤ s.order.size) :
    Listed n level { s with
      distance := level.foldl (fun a w => a.setIfInBounds w (some depth)) s.distance } := by
  have hsize : ∀ w ∈ level, w < s.distance.size := fun w hw =>
    (ShortestPaths.isUnreached_iff.mp (hlevel w hw)).1
  have hnot : ∀ w ∈ level, w ∉ s.order.toList := fun w hw => by
    simpa using (h.isUnreached_iff.mp (hlevel w hw)).2
  refine
    { size_distance := size_foldl_setIfInBounds.trans h.size_distance
      nodup := ?nodup
      lt_of_mem := ?lt_of_mem
      distanceOf_eq_none_iff := ?distanceOf_eq_none_iff
      distance_lt := ?distance_lt
      offsets_increasing := h.offsets_increasing }
  case nodup =>
    have hold := h.nodup
    rw [List.append_nil] at hold
    refine List.nodup_append.mpr ⟨hold, hnodup, fun v hv w hw => ?_⟩
    rintro rfl
    exact hnot v hw hv
  case lt_of_mem =>
    exact List.forall_mem_append.mpr ⟨fun v hv => h.lt_of_mem v (List.mem_append_left _ hv),
      fun w hw => h.size_distance ▸ hsize w hw⟩
  case distanceOf_eq_none_iff =>
    intro v hv
    have hold := h.distanceOf_eq_none_iff v hv
    rw [List.append_nil] at hold
    rw [distanceOf_mark hsize, List.mem_append]
    split
    · rename_i hmem
      simp [hmem]
    · rename_i hmem
      simp [hmem, hold]
  case distance_lt =>
    intro v e
    rw [distanceOf_mark hsize]
    split
    · rename_i hv
      rintro ⟨⟩
      exact Nat.lt_of_le_of_lt hdepth (h.size_lt (hlevel v hv))
    · exact h.distance_lt v e

/-- Pending vertices are listed in the end. -/
theorem append (h : s.Listed n level) :
    Listed n [] { s with order := s.order ++ level.toArray } := by
  have horder : (s.order ++ level.toArray).toList ++ [] = s.order.toList ++ level := by simp
  exact
    { size_distance := h.size_distance
      nodup := horder ▸ h.nodup
      lt_of_mem := horder ▸ h.lt_of_mem
      distanceOf_eq_none_iff := fun v hv => by
        rw [horder]
        exact h.distanceOf_eq_none_iff v hv
      distance_lt := h.distance_lt
      offsets_increasing := h.offsets_increasing }

theorem markLevel (h : s.Listed n []) (hnodup : level.Nodup)
    (hlevel : ∀ w ∈ level, s.isUnreached w = true) (hdepth : d < s.order.size) :
    (s.markLevel d level).Listed n level := h.mark hnodup hlevel hdepth

theorem pullLevel [Scalar α] (h : s.Listed n level) : (s.pullLevel g d level).Listed n [] :=
  ⟨h.append.1, h.append.2, h.append.3, h.append.4, h.append.5, h.append.6⟩

/-- An unreached vertex that is reached is a level that is marked and listed at once. -/
theorem reach (h : s.Listed n []) (hdepth : depth ≤ s.order.size) (w : ℕ) :
    (s.reach w depth).Listed n [] := by
  rw [ShortestPaths.reach]
  split
  · rename_i hw
    have hlevel : ∀ v ∈ [w], s.isUnreached v = true := fun v hv =>
      List.mem_singleton.mp hv ▸ hw
    have hlisted := (h.mark (List.nodup_singleton w) hlevel hdepth).append
    have horder : s.order.push w = s.order ++ [w].toArray := by simp
    rw [horder]
    exact hlisted
  · exact h

end Listed

/-- No vertex is listed in new space. -/
theorem listed_blank [Scalar α] (n source : ℕ) :
    Listed n [] { blank α n with source } where
  size_distance := Array.size_replicate
  nodup := .nil
  lt_of_mem _ hv := absurd hv List.not_mem_nil
  distanceOf_eq_none_iff _ _ := iff_of_true getD_replicate List.not_mem_nil
  distance_lt v d h := by
    have hnone : distanceOf { blank α n with source } v = none := getD_replicate
    rw [hnone] at h
    cases h
  offsets_increasing := .nil

/-- A prepared search lists the source, if it is a vertex. -/
theorem listed_prepare [Scalar α] {source : ℕ} (h : s.Reusable g.nodeCount) :
    (s.prepare g source).Listed g.nodeCount [] := by
  have hblank := listed_blank (α := α) g.nodeCount source
  by_cases hs : source < g.nodeCount
  · have hunreached := hblank.isUnreached_iff.mpr ⟨hs, List.not_mem_nil⟩
    have hreach := hblank.reach (Nat.zero_le _) source
    rw [reach, if_pos hunreached] at hreach
    have hprepare : s.prepare g source = start { blank α g.nodeCount with source } := by
      rw [prepare, h.clear_eq]
      exact if_pos hs
    rw [hprepare]
    exact { hreach with offsets_increasing := List.pairwise_singleton _ _ }
  · rw [h.prepare_of_not_lt hs]
    exact hblank

/-! ### Steps on words -/

section Words

variable (hn : n ≤ maxIndex) (h : s.Listed n pending)
include hn h

/-- A word is `unreached` exactly if there is no distance. -/
theorem isUnreached_words : s.words.isUnreached v = s.isUnreached v := by
  have hdistance := h.distance_lt v
  rw [distanceOf_eq] at hdistance
  rw [WordSpace.isUnreached, isUnreached, getElem?_words]
  rcases hword : s.distance[v]? with _ | _ | d
  · rfl
  · rfl
  · have hd := hdistance d (by rw [hword]; rfl)
    simpa [word] using ofNat_ne_unreached (Nat.lt_of_lt_of_le hd hn)

/-- A word is that of a distance exactly if this is the distance: a vertex that has none is not
taken for one at the greatest distance, because there is no such vertex by then. -/
theorem isAt_words (hdepth : depth ≤ maxIndex)
    (hv : s.isUnreached v = false ∨ depth < maxIndex) :
    s.words.isAt v (.ofNat depth) = s.isAt v depth := by
  have hdistance := h.distance_lt v
  rw [distanceOf_eq] at hdistance
  rw [WordSpace.isAt, getElem?_words]
  rw [isAt]
  rcases hword : s.distance[v]? with _ | _ | d
  · rfl
  · have hlt : depth < maxIndex := hv.resolve_left (by simp [isUnreached, hword])
    simpa [word] using (ofNat_ne_unreached hlt).symm
  · have hd := hdistance d (by rw [hword]; rfl)
    have := ofNat_eq_iff (Nat.le_trans (Nat.le_of_lt hd) hn) hdepth
    simp only [Option.map_some, word, Option.some.injEq, this]
    rfl

theorem words_reach : (s.reach w depth).words = s.words.reach w (.ofNat depth) := by
  rw [reach, WordSpace.reach, isUnreached_words hn h]
  split
  · simp only [words, Array.map_setIfInBounds, word]
  · rfl

theorem nextLevel_words {frontier : Array ℕ} :
    s.words.nextLevel g frontier = s.nextLevel g frontier := by
  have htest : s.words.isUnreached = s.isUnreached := funext fun v => isUnreached_words hn h
  rw [WordSpace.nextLevel, nextLevel, htest]

variable [Scalar α]

theorem words_credit {count : α} {arc : Arc} (hdepth : depth ≤ maxIndex)
    (htarget : s.isUnreached arc.target = false ∨ depth < maxIndex) :
    (s.credit v count arc depth).words = s.words.credit v count arc (.ofNat depth) := by
  rw [credit, WordSpace.credit, isAt_words hn h hdepth htarget]
  split <;> rfl

theorem words_pullLevel (hdepth : depth < maxIndex) :
    (s.pullLevel g depth level).words = s.words.pullLevel g (.ofNat depth) level := by
  have htest : ∀ v, s.words.isAt v (.ofNat depth) = s.isAt v depth := fun v =>
    isAt_words hn h (Nat.le_of_lt hdepth) (.inr hdepth)
  have harriving : ∀ w, s.words.arriving g (.ofNat depth) w = s.arriving g depth w := by
    intro w
    simp only [WordSpace.arriving, arriving, htest]
    rfl
  simp only [pullLevel, WordSpace.pullLevel, words, ← harriving]

end Words

/-- A vertex that has been reached is not unreached. -/
theorem isUnreached_reach : (s.reach w depth).isUnreached w = false := by
  rw [reach]
  split
  · rename_i hw
    have hlt := (isUnreached_iff.mp hw).1
    simp [isUnreached, hlt]
  · rename_i hw
    exact Bool.eq_false_iff.mpr hw

theorem words_markLevel : (s.markLevel d level).words =
    s.words.markLevel (.ofNat (d + 1)) level := by
  simp only [markLevel, WordSpace.markLevel, words, map_foldl_setIfInBounds, word]

/-- Undoing marks and marking the source are the same on words. -/
theorem words_prepare [Scalar α] {source : ℕ} :
    (s.prepare g source).words = s.words.prepare g source := by
  have hclear : s.clear.words = s.words.clear := by
    simp only [clear, WordSpace.clear, words, ← Array.foldl_toList, map_foldl_setIfInBounds, word]
  have hstart : ∀ s : ShortestPaths α, s.start.words = s.words.start := fun s => by
    simp only [start, WordSpace.start, words, Array.map_setIfInBounds, word]
    rfl
  have hsource : words { s.clear with source } = { s.words.clear with source } := by
    rw [← hclear]
    rfl
  rw [prepare, WordSpace.prepare, ← hsource]
  dsimp only
  split
  · exact hstart _
  · rfl

end ShortestPaths

/-! ### Bounds -/

namespace WordSpace

variable {α : Type}

/-- What is kept in words does not run out of bounds. Pending vertices are those that have been
marked and will be listed all at once. -/
structure InBounds (n : ℕ) (pending : List ℕ) (s : WordSpace α) (depth : UInt32) : Prop where
  size_distance : s.distance.size = n
  /-- The unreached vertices are those that are neither listed nor pending. -/
  isUnreached_iff : ∀ v < n, s.isUnreached v = true ↔ v ∉ s.order ∧ v ∉ pending
  /-- The word of a vertex that has been reached is less than the number of vertices. -/
  distance_lt : ∀ v, v ∈ s.order ∨ v ∈ pending → ∃ d, s.distance[v]? = some d ∧ d.toNat < n
  /-- A round closes its level where the order ends when the round begins, which is further on than
  in the round before. -/
  offsets_increasing : s.levelOffsets.toList.Pairwise (· < ·)
  /-- The count of levels is the number of rounds that have been begun, or one less. -/
  depth_le : depth.toNat ≤ s.levelOffsets.size - 1
  le_depth : s.levelOffsets.size - 1 ≤ depth.toNat + 1
  /-- There are no more rounds than vertices. -/
  levels_le : s.levelOffsets.size - 1 ≤ n

end WordSpace

namespace ShortestPaths

variable {α : Type} {s : ShortestPaths α} {n d start stop : ℕ} {pending : List ℕ}

/-- The words of listed vertices are in bounds, if the number of levels is that of the counter or
one more. -/
theorem Listed.inBounds (hn : n ≤ maxIndex) (h : s.Listed n pending)
    (hd : d ≤ s.levelOffsets.size - 1) (hle : s.levelOffsets.size - 1 ≤ d + 1)
    (hlevels : s.levelOffsets.size - 1 ≤ n) : s.words.InBounds n pending (.ofNat d) := by
  have hdepth : (UInt32.ofNat d).toNat = d := toNat_ofNat_of_le (by omega)
  refine
    { size_distance := Array.size_map.trans h.size_distance
      isUnreached_iff := fun v hv => ?isUnreached_iff
      distance_lt := fun v hv => ?distance_lt
      offsets_increasing := h.offsets_increasing
      depth_le := hdepth.symm ▸ hd
      le_depth := hdepth.symm ▸ hle
      levels_le := hlevels }
  case isUnreached_iff =>
    rw [isUnreached_words hn h, h.isUnreached_iff, List.mem_append, not_or, Array.mem_toList_iff]
    exact and_iff_right hv
  case distance_lt =>
    have hmem : v ∈ s.order.toList ++ pending :=
      List.mem_append.mpr (hv.imp_left Array.mem_toList_iff.mpr)
    have hsome := mt (h.distanceOf_eq_none_iff v (h.lt_of_mem v hmem)).mp (not_not.mpr hmem)
    obtain ⟨e, he⟩ := Option.ne_none_iff_exists'.mp hsome
    have hlt := h.distance_lt v e he
    refine ⟨.ofNat e, ?_, ?_⟩
    · rw [distanceOf_eq, Option.getD_eq_iff] at he
      rw [getElem?_words, he.resolve_right (by simp)]
      rfl
    · rwa [toNat_ofNat_of_le (Nat.le_trans (Nat.le_of_lt hlt) hn)]

/-! ### Rounds -/

/-- Before a round of a search: so many levels have been closed, and the next one starts at a
position of the order. Every level lists a vertex at least, so that there are no more levels than
vertices before that position. -/
structure BeforeRound (n d start : ℕ) (s : ShortestPaths α) : Prop where
  listed : s.Listed n []
  start_le : start ≤ s.order.size
  depth_le : d ≤ start
  size_offsets : s.levelOffsets.size = d + 1
  offsets_le : ∀ o ∈ s.levelOffsets, o ≤ start

/-- In a round the level that ends at a position of the order has been closed, and all vertices that
are reached are listed behind it. -/
structure InRound (n d stop : ℕ) (pending : List ℕ) (s : ShortestPaths α) : Prop where
  listed : s.Listed n pending
  stop_le : stop ≤ s.order.size
  depth_lt : d < stop
  size_offsets : s.levelOffsets.size = d + 2
  offsets_le : ∀ o ∈ s.levelOffsets, o ≤ stop

/-- A round begins with a level that is not empty. -/
theorem BeforeRound.closeLevel (h : s.BeforeRound n d start) (hlt : start < s.order.size) :
    s.closeLevel.InRound n d s.order.size [] where
  listed := h.listed.closeLevel fun o ho => Nat.lt_of_le_of_lt (h.offsets_le o ho) hlt
  stop_le := Nat.le.refl
  depth_lt := Nat.lt_of_le_of_lt h.depth_le hlt
  size_offsets := by rw [ShortestPaths.closeLevel, Array.size_push, h.size_offsets]
  offsets_le o ho := by
    rcases Array.mem_push.mp ho with ho | rfl
    · exact Nat.le_of_lt (Nat.lt_of_le_of_lt (h.offsets_le o ho) hlt)
    · exact Nat.le.refl

/-- After a round the next level starts where the level before ended. -/
theorem InRound.beforeRound (h : s.InRound n d stop []) : s.BeforeRound n (d + 1) stop :=
  ⟨h.listed, h.stop_le, h.depth_lt, h.size_offsets, h.offsets_le⟩

/-- The distance at which a round reaches vertices is a word, though perhaps the greatest. -/
theorem InRound.depth_lt_nodeCount (h : s.InRound n d stop pending) : d < n :=
  Nat.lt_of_lt_of_le h.depth_lt (Nat.le_trans h.stop_le h.listed.size_le)

theorem BeforeRound.depth_le_nodeCount (h : s.BeforeRound n d start) : d ≤ n :=
  Nat.le_trans h.depth_le (Nat.le_trans h.start_le h.listed.size_le)

theorem BeforeRound.inBounds (hn : n ≤ maxIndex) (h : s.BeforeRound n d start) :
    s.words.InBounds n [] (.ofNat d) := by
  have hsize := h.size_offsets
  have hd := h.depth_le_nodeCount
  exact h.listed.inBounds hn (by omega) (by omega) (by omega)

theorem InRound.inBounds (hn : n ≤ maxIndex) (h : s.InRound n d stop pending) :
    s.words.InBounds n pending (.ofNat d) := by
  have hsize := h.size_offsets
  have hd := h.depth_lt_nodeCount
  exact h.listed.inBounds hn (by omega) (by omega) (by omega)

variable [Scalar α] {g : Graph} {source : ℕ}

/-- A search that has been prepared is before its first round. -/
theorem beforeRound_prepare (h : s.Reusable g.nodeCount) (hs : source < g.nodeCount) :
    (s.prepare g source).BeforeRound g.nodeCount 0 0 ∧ (s.prepare g source).order.size = 1 := by
  have hprepare : s.prepare g source = start { blank α g.nodeCount with source } := by
    rw [prepare, h.clear_eq]
    exact if_pos hs
  refine ⟨⟨listed_prepare h, Nat.zero_le _, Nat.le.refl, ?_, ?_⟩, ?_⟩
  · rw [hprepare]
    rfl
  · rw [hprepare]
    simp [start, blank]
  · rw [hprepare]
    rfl

/-- Without a source there is nothing that could be out of bounds. -/
theorem inBounds_prepare_of_not_lt (hn : g.nodeCount ≤ maxIndex) (h : s.Reusable g.nodeCount)
    (hs : ¬ source < g.nodeCount) :
    (s.prepare g source).words.InBounds g.nodeCount [] (.ofNat 0) := by
  rw [h.prepare_of_not_lt hs]
  exact (listed_blank g.nodeCount source).inBounds hn Nat.le.refl (Nat.zero_le _) (Nat.zero_le _)

end ShortestPaths

/-! ### Searches step by step -/

/-- A search on words that is under way: its space, the word that counts levels, and what is to be
done next. -/
structure WordSearch (α τ : Type) where
  space : WordSpace α
  depth : UInt32
  task : τ

/-- Some steps lead from one state to another. -/
def Runs {σ : Type} (step : σ → Option σ) : σ → σ → Prop :=
  Relation.ReflTransGen fun c c' => step c = some c'

namespace WordSearch

variable {α τ : Type} {step : WordSearch α τ → Option (WordSearch α τ)}
  {Sound : ShortestPaths α → ℕ → τ → Prop} {s : ShortestPaths α} {d n : ℕ} {task : τ}
  {c : WordSearch α τ}

/-- A search on words that has come so far with the given distances and levels. -/
def ofPaths (s : ShortestPaths α) (d : ℕ) (task : τ) : WordSearch α τ := ⟨s.words, .ofNat d, task⟩

/-- A step from the words of distances that are sound leads to the words of such distances, and the
count of levels stays as it is or is one more. -/
def Preserves (step : WordSearch α τ → Option (WordSearch α τ))
    (Sound : ShortestPaths α → ℕ → τ → Prop) : Prop :=
  ∀ s d task c, Sound s d task → step (ofPaths s d task) = some c →
    ∃ s' d' task', c = ofPaths s' d' task' ∧ Sound s' d' task' ∧ (d' = d ∨ d' = d + 1)

/-- **Run lemma**: what a step preserves is preserved by any number of steps. -/
theorem Preserves.runs (hstep : Preserves step Sound) (h : Sound s d task)
    (hruns : Runs step (ofPaths s d task) c) :
    ∃ s' d' task', c = ofPaths s' d' task' ∧ Sound s' d' task' := by
  induction hruns with
  | refl => exact ⟨s, d, task, rfl, h⟩
  | tail _ hc ih =>
      obtain ⟨s', d', task', rfl, h⟩ := ih
      obtain ⟨s₁, d₁, task₁, hc, h, -⟩ := hstep _ _ _ _ h hc
      exact ⟨s₁, d₁, task₁, hc, h⟩

/-- If all that is sound is in bounds, then so is every state of the search, and no step lets the
count of levels begin again at zero. -/
theorem Preserves.inBounds (hstep : Preserves step Sound) (hn : n ≤ maxIndex)
    {pending : τ → List ℕ} (hbounds : ∀ s d task, Sound s d task →
      s.words.InBounds n (pending task) (.ofNat d) ∧ d ≤ n)
    (h : Sound s d task) (hruns : Runs step (ofPaths s d task) c) :
    c.space.InBounds n (pending c.task) c.depth ∧ ∀ c', step c = some c' →
      c'.depth.toNat = c.depth.toNat ∨ c'.depth.toNat = c.depth.toNat + 1 := by
  obtain ⟨s₁, d₁, task₁, rfl, h₁⟩ := hstep.runs h hruns
  obtain ⟨hc, hd₁⟩ := hbounds _ _ _ h₁
  refine ⟨hc, fun c' hc' => ?_⟩
  obtain ⟨s₂, d₂, task₂, rfl, h₂, hd⟩ := hstep _ _ _ _ h₁ hc'
  have hword₁ : (UInt32.ofNat d₁).toNat = d₁ :=
    ShortestPaths.toNat_ofNat_of_le (Nat.le_trans hd₁ hn)
  have hword₂ : (UInt32.ofNat d₂).toNat = d₂ :=
    ShortestPaths.toNat_ofNat_of_le (Nat.le_trans (hbounds _ _ _ h₂).2 hn)
  rw [ofPaths, ofPaths, hword₁, hword₂]
  exact hd

end WordSearch

end Betweenness
