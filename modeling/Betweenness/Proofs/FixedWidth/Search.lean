import Betweenness.Proofs.FixedWidth.Space
import Betweenness.Proofs.ShortestPaths.Search

/-!
# The search that pushes counts, on words

`ShortestPaths.search` has a budget of levels and counts them without a limit. Here is the same
search as a loop that nothing bounds, one step after another, with distances and the count of levels
in 32 bits (`PushTask.step`). Its only test for the end is whether vertices are listed behind the
level that has been visited last.

A state of this loop is that of a search on distances, written as words, and `PushTask.Sound` is
what such a search keeps: before a round the levels so far list a vertex each, and in a round every
distance is less than the number of vertices, as a vertex is still unreached when it is reached. In
the last round the next distance can be the greatest word, that of unreached vertices, but only if
no vertex is unreached any more.

## Main results

* `PushTask.preserves`: the step lemma. What is kept on distances is kept on words.
* `PushTask.inBounds_of_runs`: the run lemma. All states are in bounds.
* `PushTask.exists_runs_search`: the loop ends, with the words of `ShortestPaths.search`.
-/

namespace Betweenness

open WordSearch (ofPaths)

/-- What is to be done next by the search that pushes counts. -/
inductive PushTask (α : Type) where
  /-- Visit the level that starts at a position of the order, if there is one. -/
  | level (start : ℕ)
  /-- Visit the vertices that are left of the level that ends at a position of the order. -/
  | vertices (stop : ℕ) (rest : List ℕ)
  /-- Follow the arcs that are left of a vertex, handing on its count. -/
  | arcs (stop : ℕ) (rest : List ℕ) (v : ℕ) (count : α) (arcs : List Arc)
  | done

namespace PushTask

variable {α : Type} [Scalar α]

/-- A step of the search: to the next level, vertex or arc. -/
def step (g : Graph) (c : WordSearch α (PushTask α)) : Option (WordSearch α (PushTask α)) :=
  match c.task with
  | level start =>
    if start < c.space.order.size then
      some { c with
        space := c.space.closeLevel
        task := vertices c.space.order.size
          (c.space.order.extract start c.space.order.size).toList }
    else some { c with task := done }
  | vertices stop [] => some { c with depth := c.depth + 1, task := level stop }
  | vertices stop (v :: rest) =>
    some { c with task := arcs stop rest v (c.space.countOf v) (g.out v).toList }
  | arcs stop rest _ _ [] => some { c with task := vertices stop rest }
  | arcs stop rest v count (arc :: more) =>
    some { c with
      space := (c.space.reach arc.target (c.depth + 1)).credit v count arc (c.depth + 1)
      task := arcs stop rest v count more }
  | done => none

/-- The search from a source before its first step, in the space of an earlier search. There is
nothing to be done if the source is no vertex. -/
def initial (g : Graph) (s : WordSpace α) (source : ℕ) : WordSearch α (PushTask α) where
  space := s.prepare g source
  depth := 0
  task := if source < g.nodeCount then level 0 else done

/-! ### Single steps -/

variable {g : Graph} {s : ShortestPaths α} {d : ℕ} {task : PushTask α}

/-- What is kept of a search on distances. -/
inductive Sound (g : Graph) (s : ShortestPaths α) (d : ℕ) : PushTask α → Prop
  | level {start : ℕ} (h : s.BeforeRound g.nodeCount d start) : Sound g s d (.level start)
  | vertices {stop : ℕ} {rest : List ℕ} (h : s.InRound g.nodeCount d stop []) :
      Sound g s d (.vertices stop rest)
  | arcs {stop : ℕ} {rest : List ℕ} {v : ℕ} {count : α} {more : List Arc}
      (h : s.InRound g.nodeCount d stop []) : Sound g s d (.arcs stop rest v count more)
  | done (h : s.words.InBounds g.nodeCount [] (.ofNat d)) (hd : d ≤ g.nodeCount) :
      Sound g s d .done

/-- Following an arc lists its target at most. -/
theorem follow {stop v : ℕ} {count : α} {arc : Arc} (h : s.InRound g.nodeCount d stop []) :
    ((s.reach arc.target (d + 1)).credit v count arc (d + 1)).InRound g.nodeCount d stop [] := by
  have hreach : s.order.size ≤ (s.reach arc.target (d + 1)).order.size ∧
      (s.reach arc.target (d + 1)).levelOffsets = s.levelOffsets := by
    rw [ShortestPaths.reach]
    split
    · exact ⟨by rw [Array.size_push]; exact Nat.le_succ _, rfl⟩
    · exact ⟨Nat.le.refl, rfl⟩
  exact
    { listed := (h.listed.reach (Nat.le_trans h.depth_lt h.stop_le) _).credit v count arc (d + 1)
      stop_le := by
        rw [ShortestPaths.credit_order]
        exact Nat.le_trans h.stop_le hreach.1
      depth_lt := h.depth_lt
      size_offsets := by rw [ShortestPaths.credit_levelOffsets, hreach.2, h.size_offsets]
      offsets_le := by
        rw [ShortestPaths.credit_levelOffsets, hreach.2]
        exact h.offsets_le }

/-- The search begins with the words of a prepared search. -/
theorem initial_eq {source : ℕ} : initial g s.words source =
    ofPaths (s.prepare g source) 0 (if source < g.nodeCount then .level 0 else .done) := by
  rw [ofPaths, ShortestPaths.words_prepare]
  rfl

/-- A round begins if a vertex is listed behind the levels so far. -/
theorem step_level {start : ℕ} (h : start < s.order.size) :
    step g (ofPaths s d (.level start)) = some (ofPaths s.closeLevel d
      (.vertices s.order.size (s.order.extract start s.order.size).toList)) := if_pos h

/-- Otherwise the search is done. -/
theorem step_level_of_not_lt {start : ℕ} (h : ¬ start < s.order.size) :
    step g (ofPaths s d (.level start)) = some (ofPaths s d .done) := if_neg h

/-- After a round the count of levels is one more. -/
theorem step_vertices_nil {stop : ℕ} :
    step g (ofPaths s d (.vertices stop [])) = some (ofPaths s (d + 1) (.level stop)) :=
  congrArg (fun depth => some (⟨s.words, depth, .level stop⟩ : WordSearch α (PushTask α)))
    (UInt32.ofNat_add d 1).symm

variable (hn : g.nodeCount ≤ maxIndex)
include hn

/-- On words an arc is followed in the same way: its target has been reached when it is credited,
so that it is not taken for a vertex at a distance that has no word. -/
theorem step_follow {stop v : ℕ} {count : α} {arc : Arc} {rest : List ℕ} {more : List Arc}
    (h : s.InRound g.nodeCount d stop []) :
    step g (ofPaths s d (.arcs stop rest v count (arc :: more))) =
      some (ofPaths ((s.reach arc.target (d + 1)).credit v count arc (d + 1)) d
        (.arcs stop rest v count more)) := by
  have hdepth : d + 1 ≤ s.order.size := Nat.le_trans h.depth_lt h.stop_le
  have hword : d + 1 ≤ maxIndex := Nat.le_trans h.depth_lt_nodeCount hn
  have hreach := h.listed.reach hdepth arc.target
  have hspace : ((s.reach arc.target (d + 1)).credit v count arc (d + 1)).words =
      (s.words.reach arc.target (.ofNat d + 1)).credit v count arc (.ofNat d + 1) := by
    rw [ShortestPaths.words_credit hn hreach hword (.inl ShortestPaths.isUnreached_reach),
      ShortestPaths.words_reach hn h.listed, UInt32.ofNat_add]
    rfl
  exact congrArg (fun space => some (⟨space, .ofNat d, .arcs stop rest v count more⟩ :
    WordSearch α (PushTask α))) hspace.symm

/-- **Step lemma**: a step on words is one on distances, which keeps what is kept. -/
theorem preserves : WordSearch.Preserves (step g) (Sound (α := α) g) := by
  intro s d task c h hstep
  cases h with
  | @level start h =>
      by_cases hlt : start < s.order.size
      · obtain rfl := Option.some.inj ((step_level hlt).symm.trans hstep)
        exact ⟨s.closeLevel, d, _, rfl, .vertices (h.closeLevel hlt), .inl rfl⟩
      · obtain rfl := Option.some.inj ((step_level_of_not_lt hlt).symm.trans hstep)
        exact ⟨s, d, .done, rfl, .done (h.inBounds hn) h.depth_le_nodeCount, .inl rfl⟩
  | @vertices stop rest h =>
      cases rest with
      | nil =>
          obtain rfl := Option.some.inj (step_vertices_nil.symm.trans hstep)
          exact ⟨s, d + 1, .level stop, rfl, .level h.beforeRound, .inr rfl⟩
      | cons v rest =>
          cases hstep
          exact ⟨s, d, _, rfl, .arcs h, .inl rfl⟩
  | @arcs stop rest v count more h =>
      cases more with
      | nil =>
          cases hstep
          exact ⟨s, d, _, rfl, .vertices h, .inl rfl⟩
      | cons arc more =>
          obtain rfl := Option.some.inj ((step_follow hn h).symm.trans hstep)
          exact ⟨_, d, _, rfl, .arcs (follow h), .inl rfl⟩
  | done h hd => cases hstep

omit [Scalar α] in
theorem Sound.inBounds (h : Sound g s d task) :
    s.words.InBounds g.nodeCount [] (.ofNat d) ∧ d ≤ g.nodeCount := by
  cases h with
  | level h => exact ⟨h.inBounds hn, h.depth_le_nodeCount⟩
  | vertices h | arcs h => exact ⟨h.inBounds hn, Nat.le_of_lt h.depth_lt_nodeCount⟩
  | done h hd => exact ⟨h, hd⟩

/-! ### Runs -/

/-- Following the arcs of a vertex. -/
theorem runs_arcs {stop v : ℕ} {count : α} {rest : List ℕ} {more : List Arc}
    (h : s.InRound g.nodeCount d stop []) :
    let s' := more.foldl (fun s arc => (s.reach arc.target (d + 1)).credit v count arc (d + 1)) s
    s'.InRound g.nodeCount d stop [] ∧
      Runs (step g) (ofPaths s d (.arcs stop rest v count more))
        (ofPaths s' d (.vertices stop rest)) := by
  induction more generalizing s with
  | nil => exact ⟨h, .single rfl⟩
  | cons arc more ih =>
      obtain ⟨h', hruns⟩ := ih (follow h)
      exact ⟨h', .head (step_follow hn h) hruns⟩

/-- Visiting the vertices of a level. -/
theorem runs_vertices {stop : ℕ} {rest : List ℕ} (h : s.InRound g.nodeCount d stop []) :
    let s' := rest.foldl (ShortestPaths.expand g (d + 1)) s
    s'.InRound g.nodeCount d stop [] ∧
      Runs (step g) (ofPaths s d (.vertices stop rest)) (ofPaths s' (d + 1) (.level stop)) := by
  induction rest generalizing s with
  | nil => exact ⟨h, .single step_vertices_nil⟩
  | cons v rest ih =>
      obtain ⟨harcs, hruns⟩ := runs_arcs hn h
      obtain ⟨h', hrest⟩ := ih harcs
      rw [List.foldl_cons, ShortestPaths.expand, ← Array.foldl_toList]
      exact ⟨h', .head rfl (hruns.trans hrest)⟩

/-- Visiting the levels that are left. A budget for the vertices that may be left is enough, so that
the loop comes to its end where the budget does not matter. -/
theorem runs_levels {budget start : ℕ} (h : s.BeforeRound g.nodeCount d start)
    (hbudget : g.nodeCount ≤ budget + d) : ∃ d', Runs (step g) (ofPaths s d (.level start))
      (ofPaths (ShortestPaths.levels g budget start d s) d' .done) := by
  induction budget generalizing start d s with
  | zero =>
      have hsize := h.listed.size_le
      have hdepth := h.depth_le
      exact ⟨d, .single (step_level_of_not_lt (by omega))⟩
  | succ budget ih =>
      rw [ShortestPaths.levels]
      split
      · rename_i hlt
        obtain ⟨h', hruns⟩ := runs_vertices hn (h.closeLevel hlt)
        obtain ⟨d', hrest⟩ := ih h'.beforeRound (by omega)
        rw [Array.foldl_toList] at hrest hruns
        exact ⟨d', .head (step_level hlt) (hruns.trans hrest)⟩
      · rename_i hge
        exact ⟨d, .single (step_level_of_not_lt hge)⟩

/-! ### Whole searches -/

variable {source : ℕ} (hs : s.Reusable g.nodeCount)
include hs

theorem sound_initial : Sound g (s.prepare g source) 0
    (if source < g.nodeCount then .level 0 else .done) := by
  split
  · rename_i hlt
    exact .level (ShortestPaths.beforeRound_prepare hs hlt).1
  · rename_i hge
    exact .done (ShortestPaths.inBounds_prepare_of_not_lt hn hs hge) (Nat.zero_le _)

/-- No state that the search gets to is out of bounds, and no step lets the count of levels begin
again at zero. -/
theorem inBounds_of_runs {c : WordSearch α (PushTask α)}
    (hruns : Runs (step g) (initial g s.words source) c) :
    c.space.InBounds g.nodeCount [] c.depth ∧ ∀ c', step g c = some c' →
      c'.depth.toNat = c.depth.toNat ∨ c'.depth.toNat = c.depth.toNat + 1 := by
  rw [initial_eq] at hruns
  exact (preserves hn).inBounds hn (fun _ _ _ h => h.inBounds hn) (sound_initial hn hs) hruns

/-- The search comes to its end with what the search on distances leaves. -/
theorem exists_runs_search : ∃ last, Runs (step g) (initial g s.words source) last ∧
    step g last = none ∧ last.space = (s.search g source).words := by
  rw [initial_eq]
  by_cases hlt : source < g.nodeCount
  · obtain ⟨h, -⟩ := ShortestPaths.beforeRound_prepare hs hlt
    obtain ⟨d', hruns⟩ := runs_levels hn h (Nat.le_refl g.nodeCount)
    rw [if_pos hlt]
    exact ⟨_, hruns, rfl, rfl⟩
  · rw [if_neg hlt, hs.prepare_of_not_lt hlt, hs.search_of_not_lt hlt]
    exact ⟨_, .refl, rfl, rfl⟩

end PushTask

end Betweenness
