import Betweenness.Proofs.FixedWidth.Search

/-!
# The search that pulls counts, on words

`ShortestPaths.levelSearch` as a loop that nothing bounds, with distances and the count of levels in
32 bits (`PullTask.step`). A round tests vertices while it collects the level that comes next. At
that time no such level is there yet, so that the vertices that are unreached are those that are not
listed. Once the level has been collected and marked, its vertices are pending: they are no longer
unreached, and are listed only after their counts have been pulled.

## Main results

* `PullTask.preserves`: the step lemma.
* `PullTask.inBounds_of_runs`: the run lemma. All states are in bounds.
* `PullTask.exists_runs_levelSearch`: the loop ends, with the words of
  `ShortestPaths.levelSearch`.
* `searches_inBounds`: both searches on words.
-/

namespace Betweenness

open WordSearch (ofPaths)

/-! ### Rounds -/

namespace ShortestPaths

variable {α : Type} {g : Graph} {s : ShortestPaths α} {n d stop : ℕ} {level : List ℕ}

/-- Unreached vertices that are marked in a round are pending. -/
theorem InRound.markLevel (h : s.InRound n d stop []) (hnodup : level.Nodup)
    (hlevel : ∀ w ∈ level, s.isUnreached w = true) :
    (s.markLevel d level).InRound n d stop level :=
  { h with listed := h.listed.markLevel hnodup hlevel (Nat.lt_of_lt_of_le h.depth_lt h.stop_le) }

/-- Pending vertices are listed at the end of a round. -/
theorem InRound.pullLevel [Scalar α] (h : s.InRound n d stop level) :
    (s.pullLevel g d level).InRound n d stop [] :=
  { h with
    listed := h.listed.pullLevel
    stop_le := by
      rw [ShortestPaths.pullLevel, Array.size_append]
      exact Nat.le_add_right_of_le h.stop_le }

theorem InRound.lt_size_pullLevel [Scalar α] (h : s.InRound n d stop level) (hlevel : level ≠ []) :
    stop < (s.pullLevel g d level).order.size := by
  have hlength := List.length_pos_iff.mpr hlevel
  have hstop := h.stop_le
  have hsize : (s.order ++ level.toArray).size = s.order.size + level.length := by simp
  rw [ShortestPaths.pullLevel, hsize]
  omega

/-- The level that is collected consists of different unreached vertices, which are marked. -/
theorem BeforeRound.markNext {start : ℕ} (h : s.BeforeRound n d start)
    (hstart : start < s.order.size) (g : Graph) (frontier : Array ℕ) :
    (s.closeLevel.markLevel d (s.nextLevel g frontier)).InRound n d s.order.size
      (s.nextLevel g frontier) :=
  (h.closeLevel hstart).markLevel nodup_nextLevel fun w hw =>
    (List.mem_filter.mp ((eraseReps_nextLevel.2 w).mp hw)).2

end ShortestPaths

/-- What is to be done next by the search that pulls counts. -/
inductive PullTask where
  /-- Collect and mark the level beyond the one that starts at a position of the order. -/
  | collect (start : ℕ)
  /-- Pull the counts of a level that has been marked, and list it behind a position. -/
  | pull (stop : ℕ) (next : List ℕ)
  | done

namespace PullTask

variable {α : Type}

/-- The vertices that have been marked and are not listed yet. -/
def pending : PullTask → List ℕ
  | pull _ next => next
  | collect _ | done => []

variable [Scalar α]

/-- A step of the search. -/
def step (g : Graph) (c : WordSearch α PullTask) : Option (WordSearch α PullTask) :=
  match c.task with
  | collect start =>
    let next := c.space.nextLevel g (c.space.order.extract start c.space.order.size)
    if next.isEmpty then some { c with space := c.space.closeLevel, task := done }
    else some { c with
      space := c.space.closeLevel.markLevel (c.depth + 1) next
      task := pull c.space.order.size next }
  | pull stop next =>
    some { space := c.space.pullLevel g c.depth next, depth := c.depth + 1, task := collect stop }
  | done => none

/-- The search from a source before its first step, in the space of an earlier search. There is
nothing to be done if the source is no vertex. -/
def initial (g : Graph) (s : WordSpace α) (source : ℕ) : WordSearch α PullTask where
  space := s.prepare g source
  depth := 0
  task := if source < g.nodeCount then collect 0 else done

/-! ### Single steps -/

variable {g : Graph} {s : ShortestPaths α} {d : ℕ} {task : PullTask}

/-- What is kept of a search on distances. -/
inductive Sound (g : Graph) (s : ShortestPaths α) (d : ℕ) : PullTask → Prop
  | collect {start : ℕ} (h : s.BeforeRound g.nodeCount d start) (hstart : start < s.order.size) :
      Sound g s d (.collect start)
  | pull {stop : ℕ} {next : List ℕ} (h : s.InRound g.nodeCount d stop next) (hnext : next ≠ []) :
      Sound g s d (.pull stop next)
  | done (h : s.words.InBounds g.nodeCount [] (.ofNat d)) (hd : d ≤ g.nodeCount) :
      Sound g s d .done

/-- The search begins with the words of a prepared search. -/
theorem initial_eq {source : ℕ} : initial g s.words source =
    ofPaths (s.prepare g source) 0 (if source < g.nodeCount then .collect 0 else .done) := by
  rw [ofPaths, ShortestPaths.words_prepare]
  rfl

variable (hn : g.nodeCount ≤ maxIndex)
include hn

/-- The level that is collected is the same on words. If it is empty, the search is done. -/
theorem step_collect_nil {start : ℕ} (h : s.BeforeRound g.nodeCount d start)
    (hnext : s.nextLevel g (s.order.extract start s.order.size) = []) :
    step g (ofPaths s d (.collect start)) = some (ofPaths s.closeLevel d .done) := by
  rw [← ShortestPaths.nextLevel_words hn h.listed] at hnext
  exact if_pos (List.isEmpty_iff.mpr hnext)

/-- Otherwise its vertices are marked on words as they are on distances. -/
theorem step_collect {start : ℕ} {next : List ℕ} (h : s.BeforeRound g.nodeCount d start)
    (hnext : s.nextLevel g (s.order.extract start s.order.size) = next) (hne : next ≠ []) :
    step g (ofPaths s d (.collect start)) =
      some (ofPaths (s.closeLevel.markLevel d next) d (.pull s.order.size next)) := by
  rw [← ShortestPaths.nextLevel_words hn h.listed] at hnext
  have hspace : (s.closeLevel.markLevel d next).words =
      s.words.closeLevel.markLevel (.ofNat d + 1) next := by
    rw [ShortestPaths.words_markLevel, UInt32.ofNat_add]
    rfl
  have hstep : step g (ofPaths s d (.collect start)) = some
      ⟨s.words.closeLevel.markLevel (.ofNat d + 1) next, .ofNat d, .pull s.order.size next⟩ := by
    subst hnext
    exact if_neg (mt List.isEmpty_iff.mp hne)
  rw [hstep, ← hspace]
  rfl

/-- Counts are pulled from the same vertices on words. -/
theorem step_pull {stop : ℕ} {next : List ℕ} (h : s.InRound g.nodeCount d stop next) :
    step g (ofPaths s d (.pull stop next)) =
      some (ofPaths (s.pullLevel g d next) (d + 1) (.collect stop)) := by
  have hdepth : d < maxIndex := Nat.lt_of_lt_of_le h.depth_lt_nodeCount hn
  rw [ofPaths, ofPaths, ShortestPaths.words_pullLevel hn h.listed hdepth, UInt32.ofNat_add]
  rfl

/-- **Step lemma**: a step on words is one on distances, which keeps what is kept. -/
theorem preserves : WordSearch.Preserves (step g) (Sound (α := α) g) := by
  intro s d task c h hstep
  cases h with
  | @collect start h hstart =>
      by_cases hnext : s.nextLevel g (s.order.extract start s.order.size) = []
      · obtain rfl := Option.some.inj ((step_collect_nil hn h hnext).symm.trans hstep)
        have hround := h.closeLevel hstart
        exact ⟨s.closeLevel, d, _, rfl, .done (hround.inBounds hn)
          (Nat.le_of_lt hround.depth_lt_nodeCount), .inl rfl⟩
      · obtain rfl := Option.some.inj ((step_collect hn h rfl hnext).symm.trans hstep)
        exact ⟨_, d, _, rfl, .pull (h.markNext hstart g _) hnext, .inl rfl⟩
  | @pull stop next h hnext =>
      obtain rfl := Option.some.inj ((step_pull hn h).symm.trans hstep)
      exact ⟨_, d + 1, _, rfl, .collect h.pullLevel.beforeRound (h.lt_size_pullLevel hnext),
        .inr rfl⟩
  | done h hd => cases hstep

omit [Scalar α] in
theorem Sound.inBounds (h : Sound g s d task) :
    s.words.InBounds g.nodeCount task.pending (.ofNat d) ∧ d ≤ g.nodeCount := by
  cases h with
  | collect h _ => exact ⟨h.inBounds hn, h.depth_le_nodeCount⟩
  | pull h _ => exact ⟨h.inBounds hn, Nat.le_of_lt h.depth_lt_nodeCount⟩
  | done h hd => exact ⟨h, hd⟩

/-! ### Runs -/

/-- Reaching the levels that are left, by a budget for the vertices that may be left. -/
theorem runs_levelsBeyond {budget start : ℕ} (h : s.BeforeRound g.nodeCount d start)
    (hstart : start < s.order.size) (hbudget : g.nodeCount ≤ budget + d) :
    ∃ d', Runs (step g) (ofPaths s d (.collect start))
      (ofPaths (ShortestPaths.levelsBeyond g budget start d s) d' .done) := by
  induction budget generalizing start d s with
  | zero =>
      have hsize := h.listed.size_le
      have hdepth := h.depth_le
      omega
  | succ budget ih =>
      simp only [ShortestPaths.levelsBeyond]
      split
      · rename_i hempty
        exact ⟨d, .single (step_collect_nil hn h (List.isEmpty_iff.mp hempty))⟩
      · rename_i hne
        have hnext := mt List.isEmpty_iff.mpr hne
        have hmarked := h.markNext hstart g (s.order.extract start s.order.size)
        obtain ⟨d', hrest⟩ := ih hmarked.pullLevel.beforeRound
          (hmarked.lt_size_pullLevel hnext) (by omega)
        rw [ShortestPaths.reachLevel_eq_pullLevel]
        exact ⟨d', .head (step_collect hn h rfl hnext) (.head (step_pull hn hmarked) hrest)⟩

/-! ### Whole searches -/

variable {source : ℕ} (hs : s.Reusable g.nodeCount)
include hs

theorem sound_initial : Sound g (s.prepare g source) 0
    (if source < g.nodeCount then .collect 0 else .done) := by
  split
  · rename_i hlt
    obtain ⟨h, hsize⟩ := ShortestPaths.beforeRound_prepare hs hlt
    exact .collect h (hsize ▸ Nat.one_pos)
  · rename_i hge
    exact .done (ShortestPaths.inBounds_prepare_of_not_lt hn hs hge) (Nat.zero_le _)

/-- No state that the search gets to is out of bounds, and no step lets the count of levels begin
again at zero. -/
theorem inBounds_of_runs {c : WordSearch α PullTask}
    (hruns : Runs (step g) (initial g s.words source) c) :
    c.space.InBounds g.nodeCount c.task.pending c.depth ∧ ∀ c', step g c = some c' →
      c'.depth.toNat = c.depth.toNat ∨ c'.depth.toNat = c.depth.toNat + 1 := by
  rw [initial_eq] at hruns
  exact (preserves hn).inBounds hn (fun _ _ _ h => h.inBounds hn) (sound_initial hn hs) hruns

/-- The search comes to its end with what the search on distances leaves. -/
theorem exists_runs_levelSearch : ∃ last, Runs (step g) (initial g s.words source) last ∧
    step g last = none ∧ last.space = (s.levelSearch g source).words := by
  rw [initial_eq]
  by_cases hlt : source < g.nodeCount
  · obtain ⟨h, hsize⟩ := ShortestPaths.beforeRound_prepare hs hlt
    obtain ⟨d', hruns⟩ := runs_levelsBeyond hn h (hsize ▸ Nat.one_pos) (Nat.le_refl g.nodeCount)
    rw [if_pos hlt, ShortestPaths.levelSearch, if_pos hlt]
    exact ⟨_, hruns, rfl, rfl⟩
  · rw [if_neg hlt, hs.prepare_of_not_lt hlt, hs.levelSearch_of_not_lt hlt]
    exact ⟨_, .refl, rfl, rfl⟩

end PullTask

/-- **The two searches in 32 bits end within bounds.** In every state of either search the test for
an unreached vertex finds those that are neither listed nor pending, and every other vertex has a
distance below the number of vertices. The count of levels never begins again at zero, there are at
most as many levels as vertices, and every level but the last has marked a vertex for the level
behind it. Either search comes to an end, and leaves then what the search on unbounded distances
leaves. -/
theorem searches_inBounds {α : Type} [Scalar α] {g : Graph} (hn : g.nodeCount ≤ maxIndex)
    {s : ShortestPaths α} (hs : ShortestPaths.Used α g.nodeCount s) (source : ℕ) :
    ((∀ c, Runs (PushTask.step g) (PushTask.initial g s.words source) c →
        c.space.InBounds g.nodeCount [] c.depth ∧ ∀ c', PushTask.step g c = some c' →
          c'.depth.toNat = c.depth.toNat ∨ c'.depth.toNat = c.depth.toNat + 1) ∧
      ∃ last, Runs (PushTask.step g) (PushTask.initial g s.words source) last ∧
        PushTask.step g last = none ∧ last.space = (s.search g source).words) ∧
    (∀ c, Runs (PullTask.step g) (PullTask.initial g s.words source) c →
        c.space.InBounds g.nodeCount c.task.pending c.depth ∧ ∀ c', PullTask.step g c = some c' →
          c'.depth.toNat = c.depth.toNat ∨ c'.depth.toNat = c.depth.toNat + 1) ∧
      ∃ last, Runs (PullTask.step g) (PullTask.initial g s.words source) last ∧
        PullTask.step g last = none ∧ last.space = (s.levelSearch g source).words :=
  ⟨⟨fun _ hruns => PushTask.inBounds_of_runs hn hs.reusable hruns,
      PushTask.exists_runs_search hn hs.reusable⟩,
    fun _ hruns => PullTask.inBounds_of_runs hn hs.reusable hruns,
    PullTask.exists_runs_levelSearch hn hs.reusable⟩

/-- Both searches from a corner of the square, after one from the vertex beside it. -/
theorem searches_inBounds_square : Graph.square.nodeCount ≤ maxIndex ∧
    ShortestPaths.Used Rat Graph.square.nodeCount
      ((ShortestPaths.blank Rat 5).search Graph.square 4) ∧
    (∃ last, Runs (PushTask.step Graph.square) (PushTask.initial Graph.square
        ((ShortestPaths.blank Rat 5).search Graph.square 4).words 0) last ∧
      PushTask.step Graph.square last = none ∧
      last.space.distance = #[0, 1, 2, 1, WordSpace.unreached]) ∧
    ∃ last, Runs (PullTask.step Graph.square) (PullTask.initial Graph.square
        ((ShortestPaths.blank Rat 5).search Graph.square 4).words 0) last ∧
      PullTask.step Graph.square last = none ∧ last.depth.toNat ≤ 5 := by
  have hn : Graph.square.nodeCount ≤ maxIndex := by
    rw [Graph.nodeCount_square]
    decide
  have hused : ShortestPaths.Used Rat Graph.square.nodeCount
      ((ShortestPaths.blank Rat 5).search Graph.square 4) := by
    rw [Graph.nodeCount_square]
    exact .search 4 Graph.nodeCount_square .blank
  obtain ⟨⟨-, push, hpush, hpushed, hspace⟩, hpull, pull, hruns, hpulled, -⟩ :=
    searches_inBounds hn hused 0
  refine ⟨hn, hused, ⟨push, hpush, hpushed, ?_⟩, pull, hruns, hpulled, ?_⟩
  · rw [hspace, Graph.square_eq]
    decide +kernel
  · have hbounds := (hpull pull hruns).1
    rw [Graph.nodeCount_square] at hbounds
    exact Nat.le_trans hbounds.depth_le hbounds.levels_le

end Betweenness
