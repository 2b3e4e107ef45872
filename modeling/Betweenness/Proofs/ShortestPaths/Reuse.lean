import Betweenness.ShortestPaths.Search
import Mathlib.Data.List.Basic

/-!
# Using the space of a search again

A search marks vertices and lists those that it has marked, and the next search undoes just these
marks. `Reusable n s` is what makes this enough: there is space for `n` vertices, and a vertex
outside the list bears no mark. Every step of both searches keeps it, whatever the graph and
whatever the arithmetic, so that a search in used space is the same search in new space, entry by
entry.

## Main results

* `Reusable.clear_eq`: undoing the marks leaves new space.
* `Reusable.search`, `Reusable.levelSearch`: the run lemmas of the two searches, from the step
  lemmas `reach`, `credit` and `reachLevel`.
* `Reusable.search_eq`, `Reusable.levelSearch_eq`: used space makes no difference.
* `Used.reusable`: space left by any sequence of searches can be used again.
* `foldl_run_concat`: of a sequence of searches in one space, the last one alone decides what is
  left.
-/

namespace Betweenness

/-- The entries of an array after some of them have been set, each to a value of its own. -/
theorem getElem?_foldl_setIfInBounds {β : Type} {l : List ℕ} {a : Array β} {f : ℕ → β} {i : ℕ} :
    (l.foldl (fun a v => a.setIfInBounds v (f v)) a)[i]? =
      if i ∈ l then a[i]?.map fun _ => f i else a[i]? := by
  induction l generalizing a with
  | nil => simp
  | cons v l ih =>
      rw [List.foldl_cons, ih, Array.getElem?_setIfInBounds]
      by_cases hv : v = i
      · subst hv
        by_cases hlt : v < a.size
        · simp [hlt]
        · simp [hlt]
      · simp [hv, Ne.symm hv]

/-- Setting entries leaves the size of an array as it is. -/
@[simp] theorem size_foldl_setIfInBounds {β : Type} {l : List ℕ} {a : Array β} {f : ℕ → β} :
    (l.foldl (fun a v => a.setIfInBounds v (f v)) a).size = a.size := by
  induction l generalizing a with
  | nil => rfl
  | cons v l ih => rw [List.foldl_cons, ih, Array.size_setIfInBounds]

namespace ShortestPaths

variable {α : Type}

/-! ### Reading marks -/

theorem distanceOf_eq {s : ShortestPaths α} {v : ℕ} :
    s.distanceOf v = s.distance[v]?.getD none := Array.getD_eq_getD_getElem? ..

theorem countOf_eq [Scalar α] {s : ShortestPaths α} {v : ℕ} :
    s.countOf v = s.pathCount[v]?.getD 0 := Array.getD_eq_getD_getElem? ..

theorem predecessorsOf_eq {s : ShortestPaths α} {v : ℕ} :
    s.predecessorsOf v = s.predecessors[v]?.getD #[] := Array.getD_eq_getD_getElem? ..

/-- An index is unreached if it is a vertex without a distance. -/
theorem isUnreached_iff {s : ShortestPaths α} {v : ℕ} :
    s.isUnreached v = true ↔ v < s.distance.size ∧ s.distanceOf v = none := by
  rw [isUnreached, distanceOf_eq]
  by_cases hv : v < s.distance.size
  · rw [Array.getElem?_eq_getElem hv]
    cases h : s.distance[v] <;> simp [hv]
  · rw [Array.getElem?_eq_none (by omega)]
    simp [hv]

/-- An index is at a distance if it has this distance. -/
theorem isAt_iff {s : ShortestPaths α} {v d : ℕ} :
    s.isAt v d = true ↔ s.distanceOf v = some d := by
  rw [isAt, distanceOf_eq]
  cases h : s.distance[v]? with
  | none => simp
  | some o => cases o <;> simp

/-! ### Space that can be used again -/

variable [Scalar α]

/-- There is space for `n` vertices, and a vertex outside the order bears no mark. -/
structure Reusable (n : ℕ) (s : ShortestPaths α) : Prop where
  size_distance : s.distance.size = n
  size_pathCount : s.pathCount.size = n
  size_predecessors : s.predecessors.size = n
  distance_unmarked : ∀ v, v ∉ s.order → s.distanceOf v = none
  count_unmarked : ∀ v, v ∉ s.order → s.countOf v = 0
  predecessors_unmarked : ∀ v, v ∉ s.order → s.predecessorsOf v = #[]

/-- Space that some searches have been made in, all in graphs with `n` vertices. -/
inductive Used (α : Type) [Scalar α] (n : ℕ) : ShortestPaths α → Prop
  | blank : Used α n (blank α n)
  | search {s : ShortestPaths α} {g : Graph} (source : ℕ) (hn : g.nodeCount = n) :
      Used α n s → Used α n (s.search g source)
  | levelSearch {s : ShortestPaths α} {g : Graph} (source : ℕ) (hn : g.nodeCount = n) :
      Used α n s → Used α n (s.levelSearch g source)

variable {n : ℕ} {s : ShortestPaths α} {g : Graph} {source : ℕ}

/-- An array of one value has it at every index, if it is the default as well. -/
theorem getD_replicate {β : Type} {x : β} {v : ℕ} : (Array.replicate n x).getD v x = x := by
  rw [Array.getD_eq_getD_getElem?, Array.getElem?_replicate]
  split <;> rfl

theorem reusable_blank (n : ℕ) : (blank α n).Reusable n where
  size_distance := Array.size_replicate
  size_pathCount := Array.size_replicate
  size_predecessors := Array.size_replicate
  distance_unmarked _ _ := getD_replicate
  count_unmarked _ _ := getD_replicate
  predecessors_unmarked _ _ := getD_replicate

/-- An array with one value outside some entries has this value throughout once these are set
to it. -/
theorem foldl_setIfInBounds_eq_replicate {β : Type} {order : Array ℕ} {b : Array β} {x : β}
    (hsize : b.size = n) (h : ∀ v, v ∉ order → b[v]?.getD x = x) :
    order.foldl (fun b v => b.setIfInBounds v x) b = Array.replicate n x := by
  refine Array.ext_getElem? fun i => ?_
  rw [← Array.foldl_toList, getElem?_foldl_setIfInBounds (f := fun _ => x),
    Array.getElem?_replicate, ← hsize]
  by_cases hi : i < b.size
  · have hb := h i
    rw [Array.getElem?_eq_getElem hi, Option.getD_some] at hb
    by_cases hmem : i ∈ order
    · simp [hi, hmem]
    · simp [hi, hmem, hb hmem]
  · rw [Array.getElem?_eq_none (by omega), if_neg hi]
    simp

/-- Undoing the marks leaves new space. -/
theorem Reusable.clear_eq (h : s.Reusable n) :
    s.clear = { blank α n with source := s.source } := by
  have hdistance := foldl_setIfInBounds_eq_replicate h.size_distance fun v hv =>
    distanceOf_eq.symm.trans (h.distance_unmarked v hv)
  have hcount := foldl_setIfInBounds_eq_replicate h.size_pathCount fun v hv =>
    countOf_eq.symm.trans (h.count_unmarked v hv)
  have hpredecessors := foldl_setIfInBounds_eq_replicate h.size_predecessors
    fun v hv => predecessorsOf_eq.symm.trans (h.predecessors_unmarked v hv)
  simp only [clear, blank, hdistance, hcount, hpredecessors]

/-- Preparing a search in used space and in new space comes to the same. -/
theorem Reusable.prepare_eq (h : s.Reusable n) :
    s.prepare g source = (blank α n).prepare g source := by
  simp only [prepare, h.clear_eq, (reusable_blank n).clear_eq]

/-- A search in used space is a search in new space. -/
theorem Reusable.search_eq (h : s.Reusable g.nodeCount) :
    s.search g source = (blank α g.nodeCount).search g source := by
  rw [search, search, h.prepare_eq]

/-- A search by levels in used space is one in new space. -/
theorem Reusable.levelSearch_eq (h : s.Reusable g.nodeCount) :
    s.levelSearch g source = (blank α g.nodeCount).levelSearch g source := by
  rw [levelSearch, levelSearch, h.prepare_eq]

/-- Preparing a search from what is no vertex marks nothing. -/
theorem Reusable.prepare_of_not_lt (h : s.Reusable g.nodeCount) (hs : ¬ source < g.nodeCount) :
    s.prepare g source = { blank α g.nodeCount with source } := by
  rw [prepare, h.clear_eq]
  exact if_neg hs

/-- A search from what is no vertex leaves no mark. -/
theorem Reusable.search_of_not_lt (h : s.Reusable g.nodeCount) (hs : ¬ source < g.nodeCount) :
    s.search g source = { blank α g.nodeCount with source } := by
  rw [search, h.prepare_of_not_lt hs]
  cases g.nodeCount <;> rfl

/-- Nor does a search by levels. -/
theorem Reusable.levelSearch_of_not_lt (h : s.Reusable g.nodeCount)
    (hs : ¬ source < g.nodeCount) :
    s.levelSearch g source = { blank α g.nodeCount with source } := by
  rw [levelSearch, h.prepare_of_not_lt hs]
  exact if_neg hs

/-! ### Steps that leave space so -/

/-- Reaching the source marks it only. -/
theorem Reusable.start (h : s.Reusable n) : s.start.Reusable n where
  size_distance := Array.size_setIfInBounds.trans h.size_distance
  size_pathCount := Array.size_setIfInBounds.trans h.size_pathCount
  size_predecessors := h.size_predecessors
  distance_unmarked := by
    intro v hv
    simp only [ShortestPaths.start, Array.mem_push, not_or] at hv
    rw [distanceOf_eq, ShortestPaths.start, Array.getElem?_setIfInBounds_ne (Ne.symm hv.2),
      ← distanceOf_eq, h.distance_unmarked v hv.1]
  count_unmarked := by
    intro v hv
    simp only [ShortestPaths.start, Array.mem_push, not_or] at hv
    rw [countOf_eq, ShortestPaths.start, Array.getElem?_setIfInBounds_ne (Ne.symm hv.2),
      ← countOf_eq, h.count_unmarked v hv.1]
  predecessors_unmarked := by
    intro v hv
    simp only [ShortestPaths.start, Array.mem_push, not_or] at hv
    exact h.predecessors_unmarked v hv.1

/-- The source is no mark. -/
theorem Reusable.withSource (h : s.Reusable n) (source : ℕ) : Reusable n { s with source } :=
  ⟨h.1, h.2, h.3, h.4, h.5, h.6⟩

/-- A prepared search has marked the source at most. -/
theorem Reusable.prepare (h : s.Reusable n) : (s.prepare g source).Reusable n := by
  have hnew := (reusable_blank (α := α) n).withSource source
  rw [ShortestPaths.prepare, h.clear_eq]
  dsimp only
  split
  · exact hnew.start
  · exact hnew

/-- **Step lemma**: a vertex that is reached is listed. -/
theorem Reusable.reach (h : s.Reusable n) (w depth : ℕ) : (s.reach w depth).Reusable n := by
  rw [ShortestPaths.reach]
  split
  · refine ⟨Array.size_setIfInBounds.trans h.size_distance, h.size_pathCount,
      h.size_predecessors, fun v hv => ?_, fun v hv => ?_, fun v hv => ?_⟩
    all_goals simp only [Array.mem_push, not_or] at hv
    · rw [distanceOf_eq, Array.getElem?_setIfInBounds_ne (Ne.symm hv.2), ← distanceOf_eq,
        h.distance_unmarked v hv.1]
    · exact h.count_unmarked v hv.1
    · exact h.predecessors_unmarked v hv.1
  · exact h

/-- **Step lemma**: only listed vertices are credited, as only these have a distance. -/
theorem Reusable.credit (h : s.Reusable n) (v : ℕ) (count : α) (arc : Arc) (depth : ℕ) :
    (s.credit v count arc depth).Reusable n := by
  rw [ShortestPaths.credit]
  split
  · rename_i hat
    have hne : ∀ u, u ∉ s.order → arc.target ≠ u := by
      rintro u hu rfl
      rw [isAt_iff, h.distance_unmarked _ hu] at hat
      cases hat
    refine ⟨h.size_distance, Array.size_modify.trans h.size_pathCount,
      Array.size_modify.trans h.size_predecessors, h.distance_unmarked, fun u hu => ?_,
      fun u hu => ?_⟩
    · rw [countOf_eq, Array.getElem?_modify, if_neg (hne u hu), ← countOf_eq,
        h.count_unmarked u hu]
    · rw [predecessorsOf_eq, Array.getElem?_modify, if_neg (hne u hu), ← predecessorsOf_eq,
        h.predecessors_unmarked u hu]
  · exact h

/-- Following the arcs of a vertex takes these steps arc by arc. -/
theorem Reusable.expand (h : s.Reusable n) (depth v : ℕ) : (s.expand g depth v).Reusable n := by
  rw [ShortestPaths.expand, ← Array.foldl_toList]
  exact List.foldlRecOn _ _ h fun s hs arc _ =>
    (hs.reach arc.target depth).credit v _ arc depth

theorem Reusable.closeLevel (h : s.Reusable n) : s.closeLevel.Reusable n :=
  ⟨h.1, h.2, h.3, h.4, h.5, h.6⟩

/-- **Run lemma**: visiting levels keeps space reusable. -/
theorem Reusable.levels (h : s.Reusable n) (budget start depth : ℕ) :
    (levels g budget start depth s).Reusable n := by
  induction budget generalizing s start depth with
  | zero => exact h
  | succ budget ih =>
      rw [ShortestPaths.levels]
      split
      · refine ih ?_ _ _
        rw [← Array.foldl_toList]
        exact List.foldlRecOn _ _ h.closeLevel fun s hs v _ => hs.expand (depth + 1) v
      · exact h

/-- **Run lemma**: a search leaves space reusable. -/
theorem Reusable.search (h : s.Reusable n) (g : Graph) (source : ℕ) :
    (s.search g source).Reusable n := h.prepare.levels _ _ _

/-- **Step lemma**: the vertices of a level are marked and listed together. -/
theorem Reusable.reachLevel (h : s.Reusable n) (depth : ℕ) (level : List ℕ) :
    (reachLevel g depth s level).Reusable n := by
  have horder : level.foldl Array.push s.order = s.order ++ level.toArray :=
    List.foldl_push_eq_append'
  simp only [ShortestPaths.reachLevel, List.foldl_map]
  refine ⟨?_, ?_, ?_, fun v hv => ?_, fun v hv => ?_, fun v hv => ?_⟩
  · exact size_foldl_setIfInBounds.trans h.size_distance
  · exact size_foldl_setIfInBounds.trans h.size_pathCount
  · exact size_foldl_setIfInBounds.trans h.size_predecessors
  all_goals obtain ⟨hv, hlevel⟩ : v ∉ s.order ∧ v ∉ level := by simpa [horder] using hv
  · rw [distanceOf_eq, getElem?_foldl_setIfInBounds, if_neg hlevel, ← distanceOf_eq,
      h.distance_unmarked v hv]
  · rw [countOf_eq, getElem?_foldl_setIfInBounds, if_neg hlevel, ← countOf_eq,
      h.count_unmarked v hv]
  · rw [predecessorsOf_eq, getElem?_foldl_setIfInBounds, if_neg hlevel, ← predecessorsOf_eq,
      h.predecessors_unmarked v hv]

/-- **Run lemma**: reaching levels keeps space reusable. -/
theorem Reusable.levelsBeyond (h : s.Reusable n) (budget start depth : ℕ) :
    (levelsBeyond g budget start depth s).Reusable n := by
  induction budget generalizing s start depth with
  | zero => exact h
  | succ budget ih =>
      simp only [ShortestPaths.levelsBeyond]
      split
      · exact h.closeLevel
      · exact ih (h.closeLevel.reachLevel _ _) _ _

/-- **Run lemma**: a search by levels leaves space reusable. -/
theorem Reusable.levelSearch (h : s.Reusable n) (g : Graph) (source : ℕ) :
    (s.levelSearch g source).Reusable n := by
  simp only [ShortestPaths.levelSearch]
  split
  · exact h.prepare.levelsBeyond _ _ _
  · exact h.prepare

/-- Space left by any sequence of searches can be used again. -/
theorem Used.reusable (h : Used α n s) : s.Reusable n := by
  induction h with
  | blank => exact reusable_blank n
  | search source _ _ ih => exact ih.search _ source
  | levelSearch source _ _ ih => exact ih.levelSearch _ source

/-! ### Sequences of searches -/

/-- A search to be made in a graph with `n` vertices. Any index can be its source, whether it is a
vertex or not. -/
inductive Call (n : ℕ) where
  | search (g : Graph) (hn : g.nodeCount = n) (source : ℕ)
  | levelSearch (g : Graph) (hn : g.nodeCount = n) (source : ℕ)

/-- Make a search in some space. -/
def run (s : ShortestPaths α) : Call n → ShortestPaths α
  | .search g _ source => s.search g source
  | .levelSearch g _ source => s.levelSearch g source

/-- **Step lemma**: a search leaves space that has been used for searches only. -/
theorem Used.run (h : Used α n s) (call : Call n) : Used α n (s.run call) := by
  cases call with
  | search g hn source => exact .search source hn h
  | levelSearch g hn source => exact .levelSearch source hn h

/-- **Run lemma**: so do searches one after another. -/
theorem Used.foldl_run (h : Used α n s) (calls : List (Call n)) :
    Used α n (calls.foldl ShortestPaths.run s) := by
  induction calls generalizing s with
  | nil => exact h
  | cons call calls ih => exact ih (h.run call)

/-- A search in used space and in new space comes to the same. -/
theorem Reusable.run_eq (h : s.Reusable n) (call : Call n) : s.run call = (blank α n).run call := by
  cases call with
  | search g hn source =>
      change s.search g source = (blank α n).search g source
      subst hn
      exact h.search_eq
  | levelSearch g hn source =>
      change s.levelSearch g source = (blank α n).levelSearch g source
      subst hn
      exact h.levelSearch_eq

/-- Whatever searches have been made in some space, and whatever the arithmetic does: the next one
leaves what it leaves in new space, in all parts. -/
theorem foldl_run_concat (calls : List (Call n)) (last : Call n) :
    (calls ++ [last]).foldl run (blank α n) = (blank α n).run last := by
  rw [List.foldl_append]
  exact (Used.blank.foldl_run calls).reusable.run_eq last

end ShortestPaths

end Betweenness
