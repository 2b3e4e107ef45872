import Betweenness.Proofs.Complaints

/-!
# Where the check of memory is exact

The bytes that a computation takes are counted in 64-bit words. A count that does not fit wraps
around, so it is too small, and what is left of it may be within the limit although the computation
is not. `Strategy.checkBytes` is the check with a count that does not wrap around. The check agrees
with it if the bytes fit 64 bits, or if they are within the limit anyway, and in no other case.

The scores of the vertices or of the edges of a built graph do not take that many bytes unless more
than `2 ^ 24` workers are busy.

## Main results

* `Strategy.requiredMemory_lt`: a count that wraps around is too small.
* `Strategy.bytes_lt_of_build`: what fits 64 bits.
* `Strategy.checkMemory_eq_checkBytes_iff`, `Strategy.checkMemory_exact`: where the check is exact.
* `Strategy.checkMemory_wraps`: a computation of `2 ^ 44 + 1` MiB passes a limit of 4096.
-/

namespace Betweenness.Strategy

variable {strategy : Strategy} {b : Builder} {g : Graph} {scoreCount sourceCount : ℕ} {s : Settings}
  {host : Host}

/-- The MiB that a computation takes, rounded up. -/
def neededMemory (strategy : Strategy) (g : Graph) (scoreCount sourceCount : ℕ)
    (s : Settings) (host : Host) : ℕ :=
  strategy.bytes g scoreCount sourceCount s host ⌈/⌉ 2 ^ 20

/-- Refuse a computation that takes more than the limit. -/
def checkBytes (strategy : Strategy) (g : Graph) (scoreCount sourceCount : ℕ) (s : Settings)
    (host : Host) : Except Error Unit :=
  let required := strategy.neededMemory g scoreCount sourceCount s host
  if s.memoryLimit < required then .error (.memoryExceeded required s.memoryLimit) else .ok ()

/-! ### Counts that fit 64 bits -/

/-- A count that fits is right. -/
theorem requiredMemory_of_lt (h : strategy.bytes g scoreCount sourceCount s host < 2 ^ 64) :
    strategy.requiredMemory g scoreCount sourceCount s host =
      strategy.neededMemory g scoreCount sourceCount s host := by
  rw [requiredMemory, Nat.mod_eq_of_lt h, neededMemory]

/-- A count that wraps around is too small. -/
theorem requiredMemory_lt (h : 2 ^ 64 ≤ strategy.bytes g scoreCount sourceCount s host) :
    strategy.requiredMemory g scoreCount sourceCount s host <
      strategy.neededMemory g scoreCount sourceCount s host := by
  rw [requiredMemory, neededMemory, Nat.ceilDiv_eq_add_pred_div, Nat.ceilDiv_eq_add_pred_div]
  omega

/-- A search takes 48 bytes for each vertex and 8 for each arc, at most `2 ^ 39` with the scores. So
the count fits unless there are too many workers. -/
theorem bytes_lt_of_build (hb : b.build = .ok g) (hscores : scoreCount ≤ maxIndex + 1)
    (hworkers : busyWorkers s sourceCount host ≤ 2 ^ 24) (strategy : Strategy) :
    strategy.bytes g scoreCount sourceCount s host < 2 ^ 64 := by
  have hnodes := Builder.nodeCount_le hb
  have harcs := Builder.arcCount_le hb
  simp only [maxIndex] at hnodes harcs hscores
  cases strategy with
  | sourceBySource =>
      have hworker : g.nodeCount * (4 + 8 * 2 + 24 + 4) + g.edgeCount * g.kind.arcsPerEdge * 8 +
          scoreCount * 8 ≤ 2 ^ 39 := by omega
      have hall := Nat.mul_le_mul hworkers hworker
      rw [busyWorkers] at hall
      rw [bytes]
      omega
  | levelByLevel =>
      rw [bytes]
      omega

/-! ### The check -/

/-- What is accepted and what is refused, and with how many MiB, is right if the bytes fit 64 bits.
If they do not, what is refused is reported with another number. -/
theorem checkMemory_eq_checkBytes_iff :
    strategy.checkMemory g scoreCount sourceCount s host =
      strategy.checkBytes g scoreCount sourceCount s host ↔
    strategy.bytes g scoreCount sourceCount s host < 2 ^ 64 ∨
      strategy.neededMemory g scoreCount sourceCount s host ≤ s.memoryLimit := by
  rw [checkMemory_eq, checkBytes]
  rcases Nat.lt_or_ge (strategy.bytes g scoreCount sourceCount s host) (2 ^ 64) with hfits | hwraps
  · rw [requiredMemory_of_lt hfits]
    exact iff_of_true rfl (.inl hfits)
  · have hless := requiredMemory_lt hwraps
    by_cases hwithin : strategy.neededMemory g scoreCount sourceCount s host ≤ s.memoryLimit
    · rw [if_neg (Nat.not_lt.mpr hwithin), if_neg (by omega)]
      exact iff_of_true rfl (.inr hwithin)
    · rw [if_pos (Nat.lt_of_not_le hwithin)]
      refine iff_of_false (fun h => ?_) (by omega)
      split at h
      · rw [Except.error.injEq, Error.memoryExceeded.injEq] at h
        exact absurd h.1 (Nat.ne_of_lt hless)
      · cases h

/-- The check of memory is exact, in what it accepts and in the MiB that it reports, if the bytes
that a computation takes fit 64 bits or are within the limit, and in no other case. So it is for as
many scores as there are vertices or edges, as long as no more than `2 ^ 24` workers are busy. -/
theorem checkMemory_exact (hb : b.build = .ok g) (strategy : Strategy) (sourceCount : ℕ)
    (s : Settings) (host : Host) :
    (∀ scoreCount, strategy.checkMemory g scoreCount sourceCount s host =
        strategy.checkBytes g scoreCount sourceCount s host ↔
      strategy.bytes g scoreCount sourceCount s host < 2 ^ 64 ∨
        strategy.neededMemory g scoreCount sourceCount s host ≤ s.memoryLimit) ∧
    (busyWorkers s sourceCount host ≤ 2 ^ 24 →
      strategy.checkMemory g g.nodeCount sourceCount s host =
        strategy.checkBytes g g.nodeCount sourceCount s host ∧
      strategy.checkMemory g g.edgeCount sourceCount s host =
        strategy.checkBytes g g.edgeCount sourceCount s host) := by
  refine ⟨fun _ => checkMemory_eq_checkBytes_iff, fun hworkers => ⟨?_, ?_⟩⟩
  · have hnodes := Builder.nodeCount_le hb
    exact checkMemory_eq_checkBytes_iff.mpr (.inl (bytes_lt_of_build hb hnodes hworkers strategy))
  · have hedges := Nat.le_succ_of_le (Builder.edgeCount_le hb)
    exact checkMemory_eq_checkBytes_iff.mpr (.inl (bytes_lt_of_build hb hedges hworkers strategy))

/-- The square is checked exactly on any number of threads: no more workers are busy than there are
sources. -/
theorem checkMemory_exact_square : Builder.square.build = .ok Graph.square ∧
    busyWorkers { threads := some (2 ^ 40) } Graph.square.nodeCount .repeatable ≤ 2 ^ 24 ∧
    sourceBySource.checkMemory Graph.square Graph.square.nodeCount Graph.square.nodeCount
      { threads := some (2 ^ 40) } .repeatable =
      sourceBySource.checkBytes Graph.square Graph.square.nodeCount Graph.square.nodeCount
        { threads := some (2 ^ 40) } .repeatable := by
  have hworkers :
      busyWorkers { threads := some (2 ^ 40) } Graph.square.nodeCount .repeatable ≤ 2 ^ 24 := by
    rw [Graph.nodeCount_square]
    decide
  exact ⟨Builder.build_square, hworkers,
    ((checkMemory_exact Builder.build_square sourceBySource _ _ .repeatable).2 hworkers).1⟩

/-- A single source keeps a single worker busy, on any host. -/
theorem min_workers_one (s : Settings) (host : Host) : min (s.workers host) (max 1 1) = 1 := by
  have hworkers : 1 ≤ s.workers host := Nat.le_max_right ..
  omega

/-- With `2 ^ 60` scores, of 8 bytes each, the sum of the scores of the only worker and those that
are kept wrap around: what is left are the 320 bytes of the space for a search. So a computation is
let through, on any host, that takes more than `2 ^ 32` times the limit. -/
theorem checkMemory_wraps : Builder.square.build = .ok Graph.square ∧ ∀ host,
    sourceBySource.bytes Graph.square (2 ^ 60) 1 {} host = 2 ^ 64 + 320 ∧
    sourceBySource.checkMemory Graph.square (2 ^ 60) 1 {} host = .ok () ∧
    sourceBySource.checkBytes Graph.square (2 ^ 60) 1 {} host =
      .error (.memoryExceeded (2 ^ 44 + 1) 4096) := by
  refine ⟨Builder.build_square, fun host => ?_⟩
  have hbytes : sourceBySource.bytes Graph.square (2 ^ 60) 1 {} host = 2 ^ 64 + 320 := by
    rw [bytes, min_workers_one, Graph.nodeCount_square, Graph.edgeCount_square]
    rfl
  refine ⟨hbytes, ?_, ?_⟩
  · rw [checkMemory_eq, requiredMemory, hbytes]
    rfl
  · rw [checkBytes, neededMemory, hbytes]
    rfl

end Betweenness.Strategy
