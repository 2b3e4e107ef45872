import Betweenness.Sampling
import Mathlib.Data.Finset.Card
import Mathlib.Data.Nat.Find

/-!
# Draws that never end

A value may be drawn again and again until one is accepted, and the rounds are not counted. A
computation has to stop, so `drawUntil` gives up after as many rounds as the stream has words before
it recurs. Nothing is lost by that: a draw depends on nothing but the state of the stream, so once
one state has come up twice with everything rejected in between, the same is rejected for ever.

The stream of a seed recurs when the number of its next block, which has 64 bits, has wrapped
around.

## Main results

* `drawWithin_eq_none`: what is not accepted while the stream goes through its states is never
  accepted.
* `ChaCha.exists_skip_cycle`: the ChaCha stream recurs.
* `ChaCha.drawUntil_eq_none_iff`: from this stream, a draw has no value exactly if it never ends.
-/

namespace Betweenness.Sampling

variable {σ α β : Type}

/-! ### Rounds -/

section Rounds

variable {draw : Draw σ α} {accept : α → Bool} {s t u : σ} {a : α} {x : α × σ} {m n : ℕ}

/-- A draw is over as soon as a value is accepted. -/
theorem drawWithin_of_accepted (h : draw s = some (a, t)) (haccept : accept a = true) :
    drawWithin draw accept (n + 1) s = some (a, t) := by
  change Option.bind (draw s) _ = _
  rw [h]
  exact congrFun (if_pos haccept) t

/-- If a value is rejected, the next round decides. -/
theorem drawWithin_of_rejected (h : draw s = some (a, t)) (hreject : accept a = false) :
    drawWithin draw accept (n + 1) s = drawWithin draw accept n t := by
  change Option.bind (draw s) _ = _
  rw [h]
  exact congrFun (if_neg (Bool.eq_false_iff.mp hreject)) t

/-- Where there is a value after some rounds, there is one after the first. -/
theorem exists_of_drawWithin (h : drawWithin draw accept (n + 1) s = some x) :
    ∃ a t, draw s = some (a, t) := by
  obtain ⟨⟨a, t⟩, h, -⟩ := Option.bind_eq_some_iff.mp h
  exact ⟨a, t, h⟩

/-- More rounds do not change a value. -/
theorem drawWithin_add (h : drawWithin draw accept m s = some x) (n : ℕ) :
    drawWithin draw accept (m + n) s = some x := by
  induction m generalizing s with
  | zero => cases h
  | succ m ih =>
      rw [Nat.add_right_comm]
      obtain ⟨a, t, hdraw⟩ := exists_of_drawWithin h
      cases haccept : accept a with
      | true =>
          rw [drawWithin_of_accepted hdraw haccept] at h ⊢
          exact h
      | false =>
          rw [drawWithin_of_rejected hdraw haccept] at h ⊢
          exact ih h

/-- From the state `s`, so many values in turn are rejected, which leaves the state `t`. -/
inductive Rejects (draw : Draw σ α) (accept : α → Bool) (s : σ) : ℕ → σ → Prop where
  | start : Rejects draw accept s 0 s
  | round {n : ℕ} {t u : σ} {a : α} (h : Rejects draw accept s n t)
      (hdraw : draw t = some (a, u)) (hreject : accept a = false) : Rejects draw accept s (n + 1) u

/-- After rejected values, what is drawn next decides. -/
theorem Rejects.drawWithin_eq (h : Rejects draw accept s n t) (m : ℕ) :
    drawWithin draw accept (n + m) s = drawWithin draw accept m t := by
  induction h generalizing m with
  | start => rw [Nat.zero_add]
  | round _ hdraw hreject ih =>
      rw [Nat.add_assoc, Nat.add_comm 1, ih, drawWithin_of_rejected hdraw hreject]

/-- Before a value is accepted, all are rejected. -/
theorem exists_rejects (hm : drawWithin draw accept m s = none)
    (hn : drawWithin draw accept n s = some x) : ∃ t, Rejects draw accept s m t := by
  induction m with
  | zero => exact ⟨s, .start⟩
  | succ m ih =>
      have hnone : drawWithin draw accept m s = none := by
        refine Option.eq_none_iff_forall_ne_some.mpr fun y hy => ?_
        rw [drawWithin_add hy 1] at hm
        cases hm
      obtain ⟨t, ht⟩ := ih hnone
      obtain ⟨j, rfl⟩ : ∃ j, n = m + (j + 1) := by
        refine ⟨n - m - 1, ?_⟩
        have hlt : m < n := by
          by_contra hle
          obtain ⟨k, rfl⟩ := Nat.exists_eq_add_of_le (Nat.le_of_not_lt hle)
          rw [drawWithin_add hn k] at hnone
          cases hnone
        omega
      rw [ht.drawWithin_eq] at hn hm
      obtain ⟨a, u, hdraw⟩ := exists_of_drawWithin hn
      cases haccept : accept a with
      | true =>
          rw [drawWithin_of_accepted hdraw haccept] at hm
          cases hm
      | false => exact ⟨u, ht.round hdraw haccept⟩

end Rounds

/-! ### States that recur -/

section States

variable [WordStream σ] {s t : σ} {c n : ℕ}

/-- What is left of a stream after so many words. -/
def skip (n : ℕ) (s : σ) : σ := Nat.repeat (fun s => (WordStream.next s).2) n s

@[simp] theorem skip_zero (s : σ) : skip 0 s = s := rfl

theorem skip_succ (n : ℕ) (s : σ) : skip (n + 1) s = (WordStream.next (skip n s)).2 := rfl

theorem skip_add (m n : ℕ) (s : σ) : skip (m + n) s = skip m (skip n s) := by
  induction m with
  | zero => rw [Nat.zero_add, skip_zero]
  | succ m ih => rw [Nat.add_right_comm, skip_succ, skip_succ, ih]

/-- Once a stream has come back to a state, no state is new. -/
theorem exists_skip_lt (hcycle : ∃ i < c, skip c s = skip i s) (n : ℕ) :
    ∃ i < c, skip n s = skip i s := by
  induction n using Nat.strong_induction_on with
  | h n ih =>
      by_cases hn : n < c
      · exact ⟨n, hn, rfl⟩
      · obtain ⟨i, hi, hback⟩ := hcycle
        obtain ⟨m, rfl⟩ := Nat.exists_eq_add_of_le' (Nat.le_of_not_lt hn)
        rw [skip_add, hback, ← skip_add]
        exact ih (m + i) (by omega)

/-- A value that is accepted is the first one, unless there is no round at all. -/
theorem drawUntil_of_accepted {draw : Draw σ α} {accept : α → Bool} {a : α}
    (hcycle : 0 < WordStream.cycle s) (h : draw s = some (a, t)) (haccept : accept a = true) :
    drawUntil draw accept s = some (a, t) := by
  obtain ⟨rounds, hrounds⟩ := Nat.exists_eq_add_of_lt hcycle
  rw [drawUntil, hrounds]
  exact drawWithin_of_accepted h haccept

/-- What a draw does to the state is to read words. -/
def Reads (draw : Draw σ α) : Prop := ∀ s a t, draw s = some (a, t) → ∃ n, t = skip n s

namespace Reads

variable {draw : Draw σ α} {accept : α → Bool}

theorem pure (a : α) : Reads (Pure.pure a : Draw σ α) := by
  intro s b t h
  cases h
  exact ⟨0, rfl⟩

theorem bind {next : α → Draw σ β} (h : Reads draw) (hnext : ∀ a, Reads (next a)) :
    Reads (draw >>= next) := by
  intro s b u hb
  obtain ⟨⟨a, t⟩, ha, hb⟩ := Option.bind_eq_some_iff.mp hb
  obtain ⟨m, rfl⟩ := h s a t ha
  obtain ⟨n, rfl⟩ := hnext a _ b u hb
  exact ⟨n + m, (skip_add n m s).symm⟩

theorem map (h : Reads draw) (f : α → β) : Reads (f <$> draw) := by
  rw [map_eq_pure_bind]
  exact h.bind fun a => .pure (f a)

theorem drawWithin (h : Reads draw) (rounds : ℕ) : Reads (drawWithin draw accept rounds) := by
  induction rounds with
  | zero => exact nofun
  | succ rounds ih =>
      refine h.bind fun a => ?_
      split
      · exact .pure a
      · exact ih

theorem drawUntil (h : Reads draw) : Reads (drawUntil draw accept) :=
  fun s a t ha => h.drawWithin _ s a t ha

/-- Values that are rejected take words. -/
theorem exists_skip (h : Reads draw) (ht : Rejects draw accept s n t) : ∃ k, t = skip k s := by
  induction ht with
  | start => exact ⟨0, rfl⟩
  | round _ hdraw _ ih =>
      obtain ⟨k, rfl⟩ := ih
      obtain ⟨m, rfl⟩ := h _ _ _ hdraw
      exact ⟨m + k, (skip_add m k s).symm⟩

theorem word32 : Reads (word32 : Draw σ ℕ) := by
  intro s a t h
  cases h
  exact ⟨1, rfl⟩

theorem word64 : Reads (word64 : Draw σ ℕ) :=
  Reads.word32.bind fun _ => Reads.word32.bind fun _ => .pure _

theorem scaled {word : Draw σ ℕ} (h : Reads word) (size range zone : ℕ) :
    Reads (scaled word size range zone) := (h.map _).drawUntil.bind fun _ => .pure _

theorem below (range : ℕ) : Reads (below range : Draw σ ℕ) := by
  rw [Sampling.below]
  split
  · exact .scaled .word32 _ _ _
  · exact .scaled .word64 _ _ _

end Reads

section Recurrence

variable {draw : Draw σ α} {accept : α → Bool} {m : ℕ} {x : α × σ} (hreads : Reads draw)
  (hcycle : ∃ i < c, skip c s = skip i s)

include hreads hcycle

/-- Before a value is accepted, the stream is in one of the states that it goes through. -/
theorem exists_rejects_skip (hm : drawWithin draw accept m s = none)
    (hn : drawWithin draw accept n s = some x) :
    ∃ i < c, Rejects draw accept s m (skip i s) := by
  obtain ⟨t, ht⟩ := exists_rejects hm hn
  obtain ⟨k, rfl⟩ := hreads.exists_skip ht
  obtain ⟨i, hi, heq⟩ := exists_skip_lt hcycle k
  exact ⟨i, hi, heq ▸ ht⟩

/-- What is not accepted while the stream goes through its states is never accepted. -/
theorem drawWithin_eq_none (h : drawWithin draw accept c s = none) (n : ℕ) :
    drawWithin draw accept n s = none := by
  by_contra hsome
  -- Of all numbers of rounds after which there is a value, take the least.
  have hexists : ∃ n, drawWithin draw accept n s ≠ none := ⟨n, hsome⟩
  obtain ⟨x, hx⟩ := Option.ne_none_iff_exists'.mp (Nat.find_spec hexists)
  have hlate : c < Nat.find hexists := by
    by_contra hle
    obtain ⟨k, hk⟩ := Nat.exists_eq_add_of_le (Nat.le_of_not_lt hle)
    rw [hk, drawWithin_add hx k] at h
    cases h
  have hstate : ∀ m ≤ c, ∃ i < c, Rejects draw accept s m (skip i s) := fun m hm =>
    exists_rejects_skip hreads hcycle
      (not_not.mp (Nat.find_min hexists (Nat.lt_of_le_of_lt hm hlate))) hx
  choose! state hlt hrejects using hstate
  -- There are more rounds than states, so two rounds start from one of them.
  have hcard : (Finset.range c).card < (Finset.range (c + 1)).card := by simp
  obtain ⟨i, hi, j, hj, hne, heq⟩ := Finset.exists_ne_map_eq_of_card_lt_of_maps_to hcard
    (f := state) fun m hm => by
      rw [Finset.coe_range, Set.mem_Iio] at hm ⊢
      exact hlt m (Nat.le_of_lt_succ hm)
  rw [Finset.mem_range, Nat.lt_succ_iff] at hi hj
  wlog hij : i < j generalizing i j
  · exact this j hj i hi hne.symm heq.symm (Nat.lt_of_le_of_ne (Nat.le_of_not_lt hij) hne.symm)
  -- Without the rounds in between, the value would come earlier.
  have hsplit : Nat.find hexists = j + (Nat.find hexists - j) := by omega
  rw [hsplit, (hrejects j hj).drawWithin_eq, ← heq, ← (hrejects i hi).drawWithin_eq] at hx
  refine Nat.find_min hexists (m := i + (Nat.find hexists - j)) (by omega) ?_
  rw [hx]
  exact Option.some_ne_none x

end Recurrence

end States

/-! ### The ChaCha stream -/

namespace ChaCha

variable {s : ChaCha}

/-- The words that are left of a block are read first. -/
theorem skip_rest (key : Vector UInt32 8) (counter : UInt64) (rest : List UInt32) :
    skip rest.length (⟨key, counter, rest⟩ : ChaCha) = ⟨key, counter, []⟩ := by
  induction rest with
  | nil => rfl
  | cons w rest ih =>
      rw [List.length_cons, skip_add, ← ih]
      rfl

/-- Sixteen words are a block. -/
theorem skip_block (key : Vector UInt32 8) (counter : UInt64) :
    skip 16 (⟨key, counter, []⟩ : ChaCha) = ⟨key, counter + 1, []⟩ := by
  have hlength : (matrix key counter).scramble.toList.tail.length = 15 := by
    rw [List.length_tail, Vector.length_toList]
  rw [← skip_rest key (counter + 1) (matrix key counter).scramble.toList.tail, hlength]
  exact skip_add 15 1 _

theorem skip_blocks (key : Vector UInt32 8) (counter : UInt64) (n : ℕ) :
    skip (16 * n) (⟨key, counter, []⟩ : ChaCha) = ⟨key, counter + UInt64.ofNat n, []⟩ := by
  induction n with
  | zero => simp
  | succ n ih =>
      rw [Nat.mul_succ, Nat.add_comm, skip_add, ih, skip_block, UInt64.ofNat_add, UInt64.add_assoc]
      rfl

/-- The stream is back where it was when the number of the next block is. -/
theorem exists_skip_cycle (s : ChaCha) :
    ∃ i < WordStream.cycle s, skip (WordStream.cycle s) s = skip i s := by
  obtain ⟨key, counter, rest⟩ := s
  refine ⟨rest.length, ?_, ?_⟩
  · change rest.length < rest.length + 16 * UInt64.size
    exact Nat.lt_add_of_pos_right (by decide)
  · change skip (rest.length + 16 * UInt64.size) _ = _
    have hwrap : UInt64.ofNat UInt64.size = 0 := by decide
    rw [Nat.add_comm, skip_add, skip_rest, skip_blocks, hwrap, UInt64.add_zero]

theorem cycle_pos (s : ChaCha) : 0 < WordStream.cycle s := by
  obtain ⟨i, hi, -⟩ := exists_skip_cycle s
  exact Nat.zero_lt_of_lt hi

/-- From this stream, a value that is drawn until one is accepted is missing exactly if none is
accepted after any number of rounds. -/
theorem drawUntil_eq_none_iff {draw : Draw ChaCha α} {accept : α → Bool} (hreads : Reads draw) :
    drawUntil draw accept s = none ↔ ∀ n, drawWithin draw accept n s = none :=
  ⟨fun h => drawWithin_eq_none hreads (exists_skip_cycle s) h, fun h => h _⟩

end ChaCha

end Betweenness.Sampling
