import Betweenness.Proofs.Rejection
import Betweenness.Sources
import Mathlib.Data.List.Induction
import Mathlib.Data.List.Perm.Subperm

/-!
# Samples have no repetition

Whatever the words of a stream are: if a draw yields a value at all, the value is in bounds, and
if a sample is drawn, it has the size asked for and no index twice. Whether there is one at all is
up to the stream, as words may be rejected for ever. `Yields` says what all values of a draw have in
common; its lemmas follow the draw step by step, and for a loop of draws ask for what every round of
it keeps.

A shuffle, whole or cut short, rearranges the indices that it is given. Everywhere else a sample
grows by one index in each round, which is none of those taken already. Where it is put does not
matter, so that what is kept from round to round (`IsSample`) is the same for all these loops.

## Main results

* `Yields.foldlM`: the run lemma, for loops of draws.
* `yields_upTo`, `yields_below`: draws of numbers are in bounds.
* `yields_sampleBy`: every way to draw a sample draws distinct indices, as many as asked for.
* `IsSample.perm_range`: a sample of all indices is an arrangement of them.
* `sampleIndices_isSample`: what a sample of the indices of a graph comes to.
-/

namespace Betweenness

namespace Sampling

/-! ### What draws yield -/

/-- Every value that a draw yields, from whatever state, has a property. -/
def Yields {σ α : Type} (draw : Draw σ α) (P : α → Prop) : Prop :=
  ∀ s a s', draw s = some (a, s') → P a

namespace Yields

variable {σ α β : Type} {draw : Draw σ α} {P : α → Prop}

theorem pure {a : α} (h : P a) : Yields (Pure.pure a : Draw σ α) P := by
  intro s b s' hb
  cases hb
  exact h

theorem bind {next : α → Draw σ β} {Q : β → Prop} (h : Yields draw P)
    (hnext : ∀ a, P a → Yields (next a) Q) : Yields (draw >>= next) Q := by
  intro s b s' hb
  obtain ⟨⟨a, t⟩, ha, hb⟩ := Option.bind_eq_some_iff.mp hb
  exact hnext a (h s a t ha) t b s' hb

theorem map {f : α → β} {Q : β → Prop} (h : Yields draw P) (hf : ∀ a, P a → Q (f a)) :
    Yields (f <$> draw) Q := by
  rw [map_eq_pure_bind]
  exact h.bind fun a ha => .pure (hf a ha)

/-- A value that is drawn until it is accepted is one that is drawn, and is accepted. -/
theorem drawWithin {accept : α → Bool} (h : Yields draw P) (rounds : ℕ) :
    Yields (drawWithin draw accept rounds) fun a => P a ∧ accept a = true := by
  induction rounds with
  | zero => exact nofun
  | succ rounds ih =>
      refine h.bind fun a ha => ?_
      by_cases haccept : accept a = true
      · rw [if_pos haccept]
        exact .pure ⟨ha, haccept⟩
      · rw [if_neg haccept]
        exact ih

theorem drawUntil [WordStream σ] {accept : α → Bool} (h : Yields draw P) :
    Yields (drawUntil draw accept) fun a => P a ∧ accept a = true :=
  fun s a s' ha => h.drawWithin _ s a s' ha

/-- **Run lemma**: what holds before a loop of draws, and is passed on from each round to the
next, holds after its last one. -/
theorem foldlM {f : β → α → Draw σ β} {I : ℕ → β → Prop} {x : β} {l : List α} (hx : I 0 x)
    (hstep : ∀ i a y, l[i]? = some a → I i y → Yields (f y a) (I (i + 1))) :
    Yields (l.foldlM f x) (I l.length) := by
  induction l using List.reverseRecOn with
  | nil => exact .pure hx
  | append_singleton l a ih =>
      rw [List.foldlM_append, List.length_append, List.length_singleton]
      refine (ih fun i a y hi => hstep i a y ?_).bind fun y hy => ?_
      · rw [List.getElem?_append_left (List.getElem?_eq_some_iff.mp hi).1, hi]
      · rw [List.foldlM_cons]
        refine (hstep l.length a y List.getElem?_concat_length hy).bind fun z hz => ?_
        exact .pure hz

end Yields

variable {σ : Type}

/-! ### Swaps -/

theorem perm_swapIfInBounds (a : Array ℕ) (i j : ℕ) :
    (a.swapIfInBounds i j).toList.Perm a.toList := by
  rw [Array.swapIfInBounds_def]
  split
  · split
    · exact (Array.swap_perm _ _).toList
    · exact .refl _
  · exact .refl _

/-- Swaps with drawn places rearrange an array. -/
theorem yields_swaps (draw : Array ℕ → ℕ → Draw σ ℕ) (a : Array ℕ) (places : List ℕ) :
    Yields (places.foldlM (fun a i => return a.swapIfInBounds i (← draw a i)) a)
      fun b => b.toList.Perm a.toList := by
  refine Yields.foldlM (I := fun _ (b : Array ℕ) => b.toList.Perm a.toList) (.refl _)
    fun _ i b _ hb => ?_
  have hdraw : Yields (draw b i) fun _ => True := fun _ _ _ _ => trivial
  exact hdraw.bind fun j _ => .pure ((perm_swapIfInBounds b i j).trans hb)

/-! ### Numbers in bounds -/

variable [WordStream σ]

/-- A word of `size` values, multiplied by a range and divided by `size`, is in the range. -/
theorem yields_scaled {word : Draw σ ℕ} {size range zone : ℕ} (hword : Yields word (· < size))
    (hrange : 0 < range) : Yields (scaled word size range zone) (· < range) := by
  have hproduct : Yields ((· * range) <$> word) (· < size * range) :=
    hword.map fun w hw => Nat.mul_lt_mul_of_pos_right hw hrange
  refine hproduct.drawUntil.bind fun product ⟨hlt, _⟩ => .pure ?_
  exact Nat.div_lt_of_lt_mul hlt

theorem yields_word32 : Yields (word32 : Draw σ ℕ) (· < UInt32.size) := by
  intro s a s' h
  cases h
  exact UInt32.toNat_lt_size _

theorem yields_word64 : Yields (word64 : Draw σ ℕ) (· < UInt64.size) := by
  refine yields_word32.bind fun low hlow => yields_word32.bind fun high hhigh => .pure ?_
  simp only [UInt32.size, UInt64.size] at hlow hhigh ⊢
  omega

theorem yields_upTo (bound : ℕ) : Yields (upTo bound : Draw σ ℕ) (· ≤ bound) := by
  rw [upTo]
  split
  · rename_i hall
    intro s a s' h
    have ha : a < UInt32.size := yields_word32 s a s' h
    omega
  · intro s a s' h
    exact Nat.le_of_lt_succ (yields_scaled yields_word32 (Nat.succ_pos bound) s a s' h)

theorem yields_below {range : ℕ} (h : 0 < range) : Yields (below range : Draw σ ℕ) (· < range) := by
  rw [below]
  split
  · exact yields_scaled yields_word32 h
  · exact yields_scaled yields_word64 h

/-! ### Samples -/

/-- Some of `n` indices, `k` of them, each once. -/
structure IsSample (n k : ℕ) (l : List ℕ) : Prop where
  nodup : l.Nodup
  length_eq : l.length = k
  lt : ∀ i ∈ l, i < n

namespace IsSample

variable {n k : ℕ} {l m : List ℕ}

theorem nil : IsSample n 0 [] := ⟨List.nodup_nil, rfl, by simp⟩

theorem perm (h : IsSample n k l) (hperm : m.Perm l) : IsSample n k m where
  nodup := hperm.nodup_iff.mpr h.nodup
  length_eq := hperm.length_eq.trans h.length_eq
  lt i hi := h.lt i (hperm.mem_iff.mp hi)

/-- One more index. -/
theorem cons {n' i : ℕ} (h : IsSample n k l) (hn : n ≤ n') (hi : i < n') (hnew : i ∉ l) :
    IsSample n' (k + 1) (i :: l) where
  nodup := List.nodup_cons.mpr ⟨hnew, h.nodup⟩
  length_eq := congrArg (· + 1) h.length_eq
  lt j hj := by
    rcases List.mem_cons.mp hj with rfl | hj
    · exact hi
    · exact Nat.lt_of_lt_of_le (h.lt j hj) hn

/-- One more index, drawn from one index more: where it has been taken, it is the last one, which
has not been. -/
theorem next {index : ℕ} (h : IsSample n k l) (hindex : index ≤ n) :
    IsSample (n + 1) (k + 1) ((if index ∈ l then n else index) :: l) := by
  split
  · exact h.cons n.le_succ n.lt_succ_self fun hn => Nat.lt_irrefl n (h.lt n hn)
  · rename_i hnew
    exact h.cons n.le_succ (Nat.lt_succ_of_le hindex) hnew

/-- The first entries of an arrangement of all indices. -/
theorem take (hk : k ≤ n) (hl : l.Perm (List.range n)) : IsSample n k (l.take k) where
  nodup := (hl.nodup_iff.mpr List.nodup_range).sublist (List.take_sublist k l)
  length_eq := by rw [List.length_take, hl.length_eq, List.length_range, Nat.min_eq_left hk]
  lt i hi := List.mem_range.mp (hl.mem_iff.mp (List.mem_of_mem_take hi))

/-- A sample of all indices is an arrangement of them. -/
theorem perm_range (h : IsSample n n l) : l.Perm (List.range n) := by
  have hsub : l.Subperm (List.range n) :=
    List.subperm_of_subset h.nodup fun i hi => List.mem_range.mpr (h.lt i hi)
  exact hsub.perm_of_length_le (Nat.le_of_eq (List.length_range.trans h.length_eq.symm))

end IsSample

/-! ### Shuffles -/

theorem yields_swapPlaces (a : Array ℕ) (places : List ℕ) :
    Yields (swapPlaces a places : Draw σ (Array ℕ)) fun b => b.toList.Perm a.toList :=
  yields_swaps (fun a i => between i (a.size - 1)) a places

theorem yields_shuffle (a : Array ℕ) :
    Yields (shuffle a : Draw σ (Array ℕ)) fun b => b.toList.Perm a.toList :=
  yields_swaps (fun _ i => upTo i) a _

/-! ### Indices taken one by one -/

theorem perm_insertOrPush (taken : List ℕ) (index fresh : ℕ) :
    (insertOrPush taken index fresh).Perm
      ((if index ∈ taken then fresh else index) :: taken) := by
  rw [insertOrPush]
  split
  · refine List.perm_middle.trans (.of_eq ?_)
    rw [List.takeWhile_append_dropWhile]
  · exact List.perm_append_singleton index taken

theorem perm_replaceOrPush (taken : Array ℕ) (index fresh : ℕ) :
    (replaceOrPush taken index fresh).toList.Perm
      ((if index ∈ taken.toList then fresh else index) :: taken.toList) := by
  simp only [replaceOrPush, Array.contains_iff_mem, Array.mem_toList_iff]
  split
  · rw [Array.toList_push]
    exact List.perm_append_singleton fresh _
  · rw [Array.toList_push]
    exact List.perm_append_singleton index _

/-- A loop over the last `k` of `n` indices `j` that takes, in each round, an index up to `j` or
else `j` itself. -/
theorem yields_takeEach {τ : Type} (toList : τ → List ℕ) {take : τ → ℕ → ℕ → τ}
    (htake : ∀ taken index fresh, (toList (take taken index fresh)).Perm
      ((if index ∈ toList taken then fresh else index) :: toList taken))
    {n k : ℕ} (hk : k ≤ n) {start : τ} (hstart : toList start = []) :
    Yields ((List.range' (n - k) k).foldlM
        (fun taken j => return take taken (← upTo j) j) start : Draw σ τ)
      fun taken => IsSample n k (toList taken) := by
  have hrun : Yields ((List.range' (n - k) k).foldlM
        (fun taken j => return take taken (← upTo j) j) start : Draw σ τ)
      fun taken => IsSample (n - k + (List.range' (n - k) k).length)
        (List.range' (n - k) k).length (toList taken) := by
    refine Yields.foldlM (I := fun i taken => IsSample (n - k + i) i (toList taken)) ?_
      fun i j taken hj htaken => ?_
    · rw [hstart]
      exact .nil
    · obtain ⟨hi, rfl⟩ := List.getElem?_eq_some_iff.mp hj
      rw [List.getElem_range', Nat.one_mul]
      exact (yields_upTo _).bind fun index hindex =>
        .pure ((htaken.next hindex).perm (htake taken index _))
  rwa [List.length_range', Nat.sub_add_cancel hk] at hrun

/-- A sample in an array, with the set of its indices. -/
structure IsMarkedSample (n k : ℕ) (taken : Array ℕ × Std.HashSet ℕ) : Prop where
  isSample : IsSample n k taken.1.toList
  mem_iff : ∀ i, i ∈ taken.2 ↔ i ∈ taken.1.toList

/-- **Step lemma**: an index that is drawn until it is new is one more index, and is marked. -/
theorem yields_takeNew {n k : ℕ} {taken : Array ℕ × Std.HashSet ℕ} (hn : 0 < n)
    (h : IsMarkedSample n k taken) :
    Yields (takeNew n taken : Draw σ _) (IsMarkedSample n (k + 1)) := by
  refine (yields_below hn).drawUntil.bind fun index ⟨hindex, haccept⟩ => .pure ?_
  have hnew : index ∉ taken.1.toList := by
    rw [← h.mem_iff]
    simpa using haccept
  have hperm : (taken.1.push index).toList.Perm (index :: taken.1.toList) := by
    rw [Array.toList_push]
    exact List.perm_append_singleton index _
  refine ⟨(h.isSample.cons n.le_refl hindex hnew).perm hperm, fun i => ?_⟩
  rw [Std.HashSet.mem_insert, h.mem_iff, hperm.mem_iff, List.mem_cons, beq_iff_eq, eq_comm]

/-- **Run lemma**: rounds of it draw a sample. -/
theorem yields_redraws {n k : ℕ} (hk : k ≤ n) :
    Yields ((List.range k).foldlM (fun taken _ => takeNew n taken) (#[], ∅) : Draw σ _)
      (IsMarkedSample n k) := by
  have hrun : Yields ((List.range k).foldlM (fun taken _ => takeNew n taken) (#[], ∅) :
      Draw σ _) (IsMarkedSample n (List.range k).length) := by
    refine Yields.foldlM (I := IsMarkedSample n) ⟨.nil, by simp⟩ fun i j taken hj htaken => ?_
    obtain ⟨hi, -⟩ := List.getElem?_eq_some_iff.mp hj
    rw [List.length_range] at hi
    exact yields_takeNew (by omega) htaken
  rwa [List.length_range] at hrun

/-! ### The four ways to a sample -/

/-- Every way to draw `k` of `n` indices draws a sample. -/
theorem yields_sampleBy {n k : ℕ} (hk : k ≤ n) (method : Method) :
    Yields (sampleBy n k method : Draw σ (List ℕ)) (IsSample n k) := by
  cases method with
  | swaps => exact (yields_swapPlaces _ _).bind fun a ha => .pure (.take hk ha)
  | insertions => exact yields_takeEach id perm_insertOrPush hk rfl
  | replacements =>
      refine (yields_takeEach Array.toList perm_replaceOrPush hk rfl).bind fun taken htaken => ?_
      exact (yields_shuffle taken).bind fun a ha => .pure (htaken.perm ha)
  | redraws => exact (yields_redraws hk).bind fun taken htaken => .pure htaken.isSample

theorem yields_sample {n k : ℕ} (hk : k ≤ n) :
    Yields (sample n k : Draw σ (List ℕ)) (IsSample n k) :=
  yields_sampleBy hk _

/-! ### Draws without rejected words -/

/-- A number takes one word of the ChaCha stream if that is accepted. -/
theorem upTo_of_accepted {s : ChaCha} {n bound value : ℕ} (hbound : bound + 1 < UInt32.size)
    (h : (WordStream.next (skip n s)).1.toNat * (bound + 1) % UInt32.size
        ≤ spanZone (bound + 1) ∧
      (WordStream.next (skip n s)).1.toNat * (bound + 1) / UInt32.size = value) :
    upTo bound (skip n s) = some (value, skip (n + 1) s) := by
  obtain ⟨haccept, rfl⟩ := h
  rw [upTo, if_neg (Nat.ne_of_lt hbound), scaled]
  have hword : ((· * (bound + 1)) <$> word32 : Draw ChaCha ℕ) (skip n s) =
      some ((WordStream.next (skip n s)).1.toNat * (bound + 1), skip (n + 1) s) := rfl
  exact congrArg (Option.bind · _)
    (drawUntil_of_accepted (ChaCha.cycle_pos _) hword (decide_eq_true haccept))

/-- The first round of insertions. -/
theorem foldlM_insertOrPush {s : σ} {n : ℕ} {taken js : List ℕ} {j value : ℕ}
    (h : upTo j (skip n s) = some (value, skip (n + 1) s)) :
    ((j :: js).foldlM (fun taken j => return insertOrPush taken (← upTo j) j) taken :
      Draw σ (List ℕ)) (skip n s) =
    (js.foldlM (fun taken j => return insertOrPush taken (← upTo j) j)
      (insertOrPush taken value j) : Draw σ (List ℕ)) (skip (n + 1) s) := by
  rw [List.foldlM_cons]
  change Option.bind (Option.bind (upTo j (skip n s)) _) _ = _
  rw [h]
  rfl

/-- The stream of the seed seven draws all of five indices with its first five words. -/
theorem sample_five :
    sample 5 5 (ChaCha.ofSeed 7) = some ([3, 1, 2, 4, 0], skip 5 (ChaCha.ofSeed 7)) := by
  have h0 : upTo 0 (skip 0 (ChaCha.ofSeed 7)) = some (0, skip 1 (ChaCha.ofSeed 7)) :=
    upTo_of_accepted (by decide) (by decide +kernel)
  have h1 : upTo 1 (skip 1 (ChaCha.ofSeed 7)) = some (0, skip 2 (ChaCha.ofSeed 7)) :=
    upTo_of_accepted (by decide) (by decide +kernel)
  have h2 : upTo 2 (skip 2 (ChaCha.ofSeed 7)) = some (0, skip 3 (ChaCha.ofSeed 7)) :=
    upTo_of_accepted (by decide) (by decide +kernel)
  have h3 : upTo 3 (skip 3 (ChaCha.ofSeed 7)) = some (1, skip 4 (ChaCha.ofSeed 7)) :=
    upTo_of_accepted (by decide) (by decide +kernel)
  have h4 : upTo 4 (skip 4 (ChaCha.ofSeed 7)) = some (0, skip 5 (ChaCha.ofSeed 7)) :=
    upTo_of_accepted (by decide) (by decide +kernel)
  have hmethod : Method.choose 5 5 = .insertions := by decide +kernel
  rw [sample, hmethod, sampleBy]
  change ([0, 1, 2, 3, 4].foldlM _ [] : Draw ChaCha (List ℕ)) (skip 0 (ChaCha.ofSeed 7)) = _
  rw [foldlM_insertOrPush h0, foldlM_insertOrPush h1, foldlM_insertOrPush h2,
    foldlM_insertOrPush h3, foldlM_insertOrPush h4]
  rfl

end Sampling

open Sampling

/-! ### Samples of the indices of a graph -/

theorem sampleIndices_five :
    sampleIndices 5 5 (ChaCha.ofSeed 7) = (.ok [3, 1, 2, 4, 0], skip 5 (ChaCha.ofSeed 7)) := by
  rw [sampleIndices, if_neg (by decide), sample_five]
  rfl

/-- A sample of the indices of a graph, whatever stream it is drawn from. That the indices are cut
to 32 bits makes no difference, as they fit. -/
theorem isSample_of_sampleIndices {σ : Type} [WordStream σ] {n k : ℕ} {stream : σ}
    {indices : List ℕ} (hn : n ≤ maxIndex + 1)
    (h : (sampleIndices n k stream).1 = .ok indices) : IsSample n k indices := by
  rw [sampleIndices] at h
  split at h
  · cases h
  rename_i hk
  split at h
  · rename_i drawn stream' hdrawn
    cases h
    have hsample := yields_sample (Nat.le_of_not_lt hk) stream drawn stream' hdrawn
    have hfit : drawn.map (· % (maxIndex + 1)) = drawn := by
      refine (List.map_congr_left fun i hi => ?_).trans (List.map_id drawn)
      exact Nat.mod_eq_of_lt (Nat.lt_of_lt_of_le (hsample.lt i hi) hn)
    exact hfit.symm ▸ hsample
  · cases h

/-- A sample that is too large is refused, as an invalid argument, before a word is drawn. Otherwise
every way to draw it, and so the one that is chosen, yields as many indices as asked for, all of
them different and in range, whatever the words of the stream are and however many of them are
rejected; and if all indices are asked for, they come in some order. Such a sample is never refused:
it is not there only if words are rejected without end. -/
theorem sampleIndices_isSample {σ : Type} [WordStream σ] {n : ℕ} (hn : n ≤ maxIndex + 1) (k : ℕ)
    (stream : σ) :
    (n < k → ∃ e, e.category = .invalidArgument ∧ sampleIndices n k stream = (.error e, stream)) ∧
    (k ≤ n →
      (∀ method, Yields (sampleBy n k method : Draw σ (List ℕ)) fun drawn =>
        IsSample n k drawn ∧ (k = n → drawn.Perm (List.range n))) ∧
      (∀ indices, (sampleIndices n k stream).1 = .ok indices →
        IsSample n k indices ∧ (k = n → indices.Perm (List.range n))) ∧
      ∀ e, (sampleIndices n k stream).1 = .error e → sample n k stream = none) := by
  have hperm : ∀ l, IsSample n k l → k = n → l.Perm (List.range n) := by
    rintro l hsample rfl
    exact hsample.perm_range
  refine ⟨fun hk => ?tooLarge, fun hk => ⟨fun method => ?ways, fun indices h => ?drawn,
    fun e h => ?endless⟩⟩
  case tooLarge => exact ⟨.sampleTooLarge k n, rfl, by rw [sampleIndices, if_pos hk]⟩
  case ways =>
    intro s drawn s' h
    have hsample := yields_sampleBy hk method s drawn s' h
    exact ⟨hsample, hperm drawn hsample⟩
  case drawn =>
    have hsample := isSample_of_sampleIndices hn h
    exact ⟨hsample, hperm indices hsample⟩
  case endless =>
    rw [sampleIndices, if_neg (Nat.not_lt.mpr hk)] at h
    split at h
    · cases h
    · assumption

/-- All five indices are drawn in some order, and six are refused. -/
theorem sampleIndices_isSample_five :
    (sampleIndices 5 5 (ChaCha.ofSeed 7)).1 = .ok [3, 1, 2, 4, 0] ∧
    [3, 1, 2, 4, 0].Perm (List.range 5) ∧
    ∃ e, e.category = .invalidArgument ∧
      sampleIndices 5 6 (ChaCha.ofSeed 7) = (.error e, ChaCha.ofSeed 7) := by
  have hdrawn : (sampleIndices 5 5 (ChaCha.ofSeed 7)).1 = .ok [3, 1, 2, 4, 0] :=
    congrArg Prod.fst sampleIndices_five
  have hfits : 5 ≤ maxIndex + 1 := by decide
  obtain ⟨-, hsample, -⟩ := (sampleIndices_isSample hfits 5 (ChaCha.ofSeed 7)).2 (by decide)
  exact ⟨hdrawn, (hsample _ hdrawn).2 rfl,
    (sampleIndices_isSample hfits 6 (ChaCha.ofSeed 7)).1 (by decide)⟩

end Betweenness
