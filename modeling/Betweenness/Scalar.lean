/-!
# Arithmetic for scores

Path counts, dependencies and scores are computed by the same definitions in several arithmetics:
in double precision floats, which is what runs, and in exact rationals, which is what the theory
speaks of. `Scalar` is what the definitions ask of an arithmetic, and `Storage α β` relates two of
them where finished scores of type `α` are kept in a type `β`, possibly rounded, as single
precision floats keep doubles.

No law is asked for, so whatever holds for every `Scalar` holds for floats bit for bit. The usual
symbols stand for the operations of a `Scalar` where a type has no instances of its own.

`Ranked` orders scores for reports. Floats are ranked by their bits (`patternRank`), and that
ranking of bit patterns is total: `-∞ < … < -0.0 < 0.0 < … < ∞ < NaN`, and the patterns of a NaN
with its sign set are below `-∞`. The floats that are ranked here have a single NaN, without a sign.
-/

namespace Betweenness

/-- An arithmetic in which path counts and scores can be computed. -/
class Scalar (α : Type) where
  zero : α
  one : α
  add : α → α → α
  mul : α → α → α
  div : α → α → α
  /-- A count as a number of the arithmetic. -/
  ofNat : Nat → α
  /-- Whether multiplication by a number changes nothing, because the number is one. -/
  isOne : α → Bool

namespace Scalar

variable {α : Type} [Scalar α]

instance (priority := low) : Zero α := ⟨zero⟩

instance (priority := low) : One α := ⟨one⟩

instance (priority := low) : Add α := ⟨add⟩

instance (priority := low) : Mul α := ⟨mul⟩

instance (priority := low) : Div α := ⟨div⟩

end Scalar

instance : Scalar Float where
  zero := 0.0
  one := 1.0
  add := Float.add
  mul := Float.mul
  div := Float.div
  ofNat := Float.ofNat
  isOne x := x == 1.0

instance : Scalar Float32 where
  zero := 0.0
  one := 1.0
  add := Float32.add
  mul := Float32.mul
  div := Float32.div
  ofNat := Float32.ofNat
  isOne x := x == 1.0

instance : Scalar Rat where
  zero := 0
  one := 1
  add := Rat.add
  mul := Rat.mul
  div := Rat.div
  ofNat n := Rat.ofInt n
  isOne x := decide (x = 1)

/-- A type `β` that keeps scores of type `α`. -/
class Storage (α β : Type) where
  /-- The value that is kept for a score. -/
  store : α → β
  /-- The score that a kept value stands for. -/
  load : β → α

instance : Storage Float Float32 where
  store := Float.toFloat32
  load := Float32.toFloat

instance : Storage Rat Rat where
  store := id
  load := id

/-- Scores that stand for double precision floats, which are ranked by their bits. -/
class Ranked (α : Type) where
  /-- The bit pattern of a score. -/
  bits : α → UInt64

/-- The bits of a float whose only set bit is that of the sign. -/
def signBit : Nat := 0x8000000000000000

/-- The place of a bit pattern in the total order of floats: a pattern with the sign bit set ranks
below all others, and the lower the larger its magnitude. -/
def patternRank (pattern : UInt64) : Int :=
  let bits := pattern.toNat
  if bits < signBit then bits else (signBit : Int) - 1 - bits

/-- Scores are compared by their ranks. -/
def Ranked.rank {α : Type} [Ranked α] (x : α) : Int := patternRank (bits x)

instance : Ranked Float where
  bits := Float.toBits

end Betweenness
