/-!
# Random words

Streams of random words, uniform draws from them, and the stream that words come from.

The ChaCha stream has a 256-bit key: block `n` of sixteen words is the ChaCha permutation with
twelve rounds of a matrix that holds four constants, the key and the number `n`, added to that
matrix. A state keeps what is left of the current block. `ChaCha.ofSeed` spreads a 64-bit seed over
the key by eight steps of a congruential generator whose output is folded and rotated.
-/

namespace Betweenness.Sampling

/-! ### Streams of words

Everything random is drawn from a stream of 32-bit words. `WordStream σ` says how a state of type
`σ` yields the next one, so that what is said of draws holds for every stream.

Some values are drawn again and again until one is accepted. Whether that ends depends on the
stream: a `Draw` has no value where it does not. A generator has finitely many states, so this can
be told: if nothing has been accepted in as many rounds as there are states (`WordStream.cycle`),
one of them has come up twice, and the same draws come again without end. -/

/-- A state that yields 32-bit words. -/
class WordStream (σ : Type) where
  /-- The next word, and the state after it. -/
  next : σ → UInt32 × σ
  /-- A number of words after which no state is new. -/
  cycle : σ → Nat

/-- A computation that draws words. It has no value if it draws them for ever. -/
abbrev Draw (σ : Type) := StateT σ Option

/-- Draw until a value is accepted, in so many rounds at most. -/
def drawWithin {σ α : Type} (draw : Draw σ α) (accept : α → Bool) : (rounds : Nat) → Draw σ α
  | 0 => fun _ => none
  | rounds + 1 => do
    let a ← draw
    if accept a then return a else drawWithin draw accept rounds

variable {σ : Type} [WordStream σ]

/-- Draw until a value is accepted. -/
def drawUntil {α : Type} (draw : Draw σ α) (accept : α → Bool) : Draw σ α := fun s =>
  drawWithin draw accept (WordStream.cycle s) s

/-- The next word. -/
def word32 : Draw σ Nat := fun s =>
  let (w, s) := WordStream.next s
  some (w.toNat, s)

/-- The next two words as one, the low half first. -/
def word64 : Draw σ Nat := do
  let low ← word32
  let high ← word32
  return high * UInt32.size + low

/-! ### Uniform draws below a bound

A word of `size` equally likely values is turned into one of `range` values by multiplication:
the product of word and range, divided by `size`, is the value, and the word is rejected if the
remainder exceeds a zone, which makes all values equally likely.

Two zones are in use. `spanZone` is quick to compute and rejects at most half of the words;
`evenZone` is the largest one. -/

/-- A value below a range from words below `size`; a word that leaves a remainder beyond the zone
is drawn again. -/
def scaled (word : Draw σ Nat) (size range zone : Nat) : Draw σ Nat := do
  let product ← drawUntil ((· * range) <$> word) fun p => p % size ≤ zone
  return product / size

/-- The zone of a range: the range shifted up to the top of 32 bits, less one. -/
def spanZone (range : Nat) : Nat := (range <<< (31 - range.log2)) - 1

/-- A value from `0` to `bound`, which is less than `2 ^ 32`: a word itself, if any word will do. -/
def upTo (bound : Nat) : Draw σ Nat :=
  if bound + 1 = UInt32.size then word32
  else scaled word32 UInt32.size (bound + 1) (spanZone (bound + 1))

/-- A value from `low` to `high`. -/
def between (low high : Nat) : Draw σ Nat := (low + ·) <$> upTo (high - low)

/-- The largest zone of a range for words below `size`. -/
def evenZone (size range : Nat) : Nat := size - 1 - (size - range) % range

/-- A value below a range, from one word where the range allows it and from two otherwise. -/
def below (range : Nat) : Draw σ Nat :=
  if range < UInt32.size then scaled word32 UInt32.size range (evenZone UInt32.size range)
  else scaled word64 UInt64.size range (evenZone UInt64.size range)

/-! ### The ChaCha stream -/

/-- A ChaCha matrix: sixteen words. -/
abbrev Block := Vector UInt32 16

/-- A position in a ChaCha stream. -/
structure ChaCha where
  /-- The key, eight words. -/
  key : Vector UInt32 8
  /-- The number of the next block. -/
  counter : UInt64
  /-- The words that are left of the current block. -/
  rest : List UInt32
  deriving DecidableEq

/-- A word rotated to the left by `n` bits; shifts take their amount modulo the width. -/
def rotateLeft (x : UInt32) (n : UInt32) : UInt32 := (x <<< n) ||| (x >>> (32 - n))

namespace Block

/-- Mix the words at four positions. -/
def quarterRound (b : Block) (i j k l : Fin 16) : Block :=
  let x := b[i] + b[j]
  let w := rotateLeft (b[l] ^^^ x) 16
  let z := b[k] + w
  let y := rotateLeft (b[j] ^^^ z) 12
  let x := x + y
  let w := rotateLeft (w ^^^ x) 8
  let z := z + w
  let y := rotateLeft (y ^^^ z) 7
  (((b.set i x).set j y).set k z).set l w

/-- Mix the columns, then the diagonals. -/
def doubleRound (b : Block) : Block :=
  let b := b.quarterRound 0 4 8 12
  let b := b.quarterRound 1 5 9 13
  let b := b.quarterRound 2 6 10 14
  let b := b.quarterRound 3 7 11 15
  let b := b.quarterRound 0 5 10 15
  let b := b.quarterRound 1 6 11 12
  let b := b.quarterRound 2 7 8 13
  b.quarterRound 3 4 9 14

/-- Twelve rounds, and the matrix added to the outcome. -/
def scramble (b : Block) : Block :=
  Vector.zipWith (· + ·) (Nat.repeat doubleRound 6 b) b

end Block

namespace ChaCha

/-- The four words that every matrix opens with. -/
def constants : Vector UInt32 4 := #v[0x61707865, 0x3320646e, 0x79622d32, 0x6b206574]

/-- The matrix of a block: constants, key, block number and two zeros. -/
def matrix (key : Vector UInt32 8) (counter : UInt64) : Block :=
  constants ++ key ++ #v[counter.toUInt32, (counter >>> 32).toUInt32, 0, 0]

/-- The next word of the stream. -/
def next (s : ChaCha) : UInt32 × ChaCha :=
  match s.rest with
  | w :: rest => (w, { s with rest })
  | [] =>
    let block := (matrix s.key s.counter).scramble
    (block[0], { s with counter := s.counter + 1, rest := block.toList.tail })

/-- Sixteen words come from each block, and blocks are numbered in 64 bits: when the number is back
where it was, so is the stream. -/
instance : WordStream ChaCha where
  next := next
  cycle s := s.rest.length + 16 * UInt64.size

/-- A step of the generator that spreads seeds. -/
def seedStep (state : UInt64) : UInt64 := state * 6364136223846793005 + 11634580027462260723

/-- The key word that a state of that generator stands for. -/
def seedWord (state : UInt64) : UInt32 :=
  let folded : UInt64 := ((state >>> 18) ^^^ state) >>> 27
  let turn : UInt64 := state >>> 59
  rotateLeft folded.toUInt32 (32 - turn.toUInt32)

/-- The stream of a seed. -/
def ofSeed (seed : UInt64) : ChaCha where
  key := Vector.ofFn fun i => seedWord (Nat.repeat seedStep (i.val + 1) seed)
  counter := 0
  rest := []

end ChaCha

end Betweenness.Sampling
